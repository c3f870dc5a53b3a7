import CivilTime.Text.Cut
import Mathlib.Data.List.Infix
import Mathlib.Data.List.TakeWhile

/-! What a text is cut into, and which marks occur in it. -/

namespace CivilTime.Text

variable {isSeparator : Char → Bool} {a b : Char} {text before after : List Char}

/-- A text is cut into what stands in front of its first separator and what stands behind it. -/
theorem cutAt?_eq_some_iff
    : cutAt? isSeparator text = some (before, after)
      ↔ ∃ c,
          isSeparator c = true
          ∧ text = before ++ c :: after
          ∧ ∀ x ∈ before, isSeparator x = false := by
  constructor
  · intro cut
    unfold cutAt? at cut
    split at cut
    case h_1 => cases cut
    case h_2 c rest dropped =>
      cases cut
      have separator := List.head?_dropWhile_not (fun c => !isSeparator c) text
      rw [dropped, List.head?_cons] at separator
      have whole := List.takeWhile_append_dropWhile (p := fun c => !isSeparator c) (l := text)
      rw [dropped] at whole
      refine ⟨c, by simpa using separator, whole.symm, fun x member => ?_⟩
      simpa using List.mem_takeWhile_imp member
  · rintro ⟨c, separator, rfl, others⟩
    have passed : ∀ x ∈ before, (!isSeparator x) = true := fun x member => by
      simp [others x member]
    have dropped : (before ++ c :: after).dropWhile (fun c => !isSeparator c) = c :: after := by
      rw [List.dropWhile_append_of_pos passed, List.dropWhile_cons_of_neg (by simp [separator])]
    have taken : (before ++ c :: after).takeWhile (fun c => !isSeparator c) = before := by
      rw [List.takeWhile_append_of_pos passed, List.takeWhile_cons_of_neg (by simp [separator]),
        List.append_nil]
    rw [cutAt?, dropped, taken]

/-- A mark occurs in a text exactly if its characters stand somewhere in it, one behind the other.
The induction follows the search. -/
theorem hasMark_iff : hasMark a b text = true ↔ [a, b] <:+: text := by
  unfold hasMark
  fun_induction cutAtMark? a b text with
  | case1 x y rest found =>
      obtain ⟨rfl, rfl⟩ := found
      exact iff_of_true rfl ⟨[], rest, rfl⟩
  | case2 x y rest differs ih =>
      rw [Option.isSome_map, ih, List.infix_cons_iff (a := x), List.cons_prefix_cons,
        List.cons_prefix_cons]
      constructor
      · exact .inr
      · rintro (⟨rfl, rfl, _⟩ | later)
        · exact absurd ⟨rfl, rfl⟩ differs
        · exact later
  | case3 text short =>
      refine iff_of_false (by simp) fun found => ?_
      have two := found.length_le
      match text, short with
      | [], _ => simp at two
      | [_], _ => simp at two
      | x :: y :: rest, short => exact short x y rest rfl

end CivilTime.Text
