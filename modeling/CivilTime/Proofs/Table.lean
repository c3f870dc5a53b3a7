import CivilTime.Table
import Mathlib.Data.List.Basic
import Mathlib.Data.List.Forall2
import Mathlib.Data.List.Induction
import Mathlib.Data.String.Basic

/-! Lookups in tables, and what the changes of a table keep. -/

namespace CivilTime.Table

variable {α : Type} {table : Table α} {name : String} {value : α}

/-- The value of a name stands in the table. -/
theorem mem_of_get? (found : table.get? name = some value) : (name, value) ∈ table := by
  obtain ⟨front, back, rfl, _⟩ := List.lookup_eq_some_iff.mp found
  simp

/-- A table contains the names of its entries. -/
theorem contains_iff : table.contains name = true ↔ name ∈ table.names := by
  simp only [contains, get?, List.lookup_isSome_iff, names, List.mem_map, beq_iff_eq]
  exact exists_congr fun _ => and_congr_right' eq_comm

/-- In a table without repeated names, every entry is found under its name. -/
theorem get?_of_mem (nodup : table.names.Nodup) (member : (name, value) ∈ table)
    : table.get? name = some value := by
  induction table with
  | nil => simp at member
  | cons entry rest ih =>
      obtain ⟨fresh, rest_nodup⟩ := List.nodup_cons.mp nodup
      rw [get?, List.lookup_cons]
      rcases List.mem_cons.mp member with rfl | later
      · simp
      · have other : (name == entry.1) = false := by
          rw [beq_eq_false_iff_ne]
          rintro rfl
          exact fresh (List.mem_map.mpr ⟨_, later, rfl⟩)
        rw [other]
        exact ih rest_nodup later

/-- A name that a table does not contain can be appended to it. -/
theorem nodup_append (nodup : table.names.Nodup) (fresh : ¬ table.contains name = true) (value : α)
    : Table.names (table ++ [(name, value)]) |>.Nodup := by
  rw [contains_iff] at fresh
  rw [names, List.map_append]
  refine List.nodup_append.mpr ⟨nodup, by simp, ?_⟩
  intro other member new single
  rw [List.mem_singleton.mp single]
  rintro rfl
  exact fresh member

/-- An entry of a changed table has been there before, or is the changed one. The induction is on
the table. -/
theorem mem_alter {change : Option α → α} {entry : String × α}
    (member : entry ∈ table.alter name change)
    : entry ∈ table
      ∨ ∃ old, (∀ former ∈ old, (name, former) ∈ table) ∧ entry = (name, change old) := by
  induction table with
  | nil => exact .inr ⟨none, by simp, by simpa [alter] using member⟩
  | cons first rest ih =>
      obtain ⟨other, here⟩ := first
      rw [alter] at member
      split at member
      case isTrue same =>
        rcases List.mem_cons.mp member with rfl | later
        · exact .inr ⟨some here, by simp [same], by rw [same]⟩
        · exact .inl (List.mem_cons_of_mem _ later)
      case isFalse =>
        rcases List.mem_cons.mp member with rfl | later
        · exact .inl (by simp)
        · rcases ih later with kept | ⟨old, former, changed⟩
          · exact .inl (List.mem_cons_of_mem _ kept)
          · exact .inr ⟨old, fun v held => List.mem_cons_of_mem _ (former v held), changed⟩

/-- A lookup looks at one entry after the other. -/
theorem lookup_cons_eq (entry : String × α) (rest : Table α) (name : String)
    : List.lookup name (entry :: rest)
      = if name = entry.1 then some entry.2 else List.lookup name rest := by
  rw [List.lookup_cons]
  by_cases same : name = entry.1
  · simp [same]
  · simp [beq_false_of_ne same, same]

/-- A changed name has its new value, and the other names keep theirs. The induction is on the
table. -/
theorem get?_alter (table : Table α) (name : String) (change : Option α → α) (other : String)
    : (table.alter name change).get? other
      = if other = name then some (change (table.get? name)) else table.get? other := by
  unfold get?
  induction table with
  | nil => exact lookup_cons_eq ..
  | cons entry rest ih =>
      obtain ⟨first, old⟩ := entry
      rw [alter]
      by_cases here : first = name
      · rw [if_pos here, lookup_cons_eq, lookup_cons_eq, lookup_cons_eq, if_pos here.symm, here]
        split <;> rfl
      · rw [if_neg here, lookup_cons_eq, lookup_cons_eq, lookup_cons_eq, ih]
        split
        case isTrue same => rw [if_neg (same ▸ here)]
        case isFalse => rw [if_neg (Ne.symm here)]

theorem get?_append_left (found : table.get? name = some value) (back : Table α)
    : Table.get? (table ++ back) name = some value := by
  rw [get?] at found
  rw [get?, List.lookup_append, found, Option.some_or]

theorem get?_append_new (new : ¬ table.contains name = true) (value : α)
    : Table.get? (table ++ [(name, value)]) name = some value := by
  have absent : List.lookup name table = none := Option.not_isSome_iff_eq_none.mp new
  rw [get?, List.lookup_append, absent, Option.none_or, lookup_cons_eq, if_pos rfl]

-----------------------------------------------------------------------------------------
-- Tables ordered by name
-----------------------------------------------------------------------------------------

/-- A name that is set has its new value, and the other names keep theirs. The induction is on the
table. -/
theorem get?_insertSorted (table : Table α) (name : String) (value : α) (other : String)
    : (insertSorted name value table).get? other
      = if other = name then some value else table.get? other := by
  unfold get?
  induction table with
  | nil => rw [insertSorted, lookup_cons_eq]
  | cons entry rest ih =>
      obtain ⟨first, old⟩ := entry
      rw [insertSorted]
      split
      · rw [lookup_cons_eq]
      · split
        case isTrue replaced =>
          rw [lookup_cons_eq, lookup_cons_eq, replaced]
          by_cases same : other = name
          · simp [same]
          · simp [same]
        case isFalse different =>
          rw [lookup_cons_eq, lookup_cons_eq, ih]
          by_cases same : other = first
          · simp [same, different]
          · simp [same]

/-- Entries that are added behind the others are put in order last. -/
theorem sorted_append (table : Table α) (name : String) (value : α)
    : sorted (table ++ [(name, value)]) = insertSorted name value table.sorted := by
  rw [sorted, List.foldl_append]
  rfl

/-- The entries of a table in which a name is set are the one of that name and former ones. The
induction is on the table. -/
theorem eq_or_mem_of_insertSorted {entry : String × α}
    (member : entry ∈ insertSorted name value table)
    : entry = (name, value) ∨ entry ∈ table := by
  induction table with
  | nil => exact .inl (by simpa [insertSorted] using member)
  | cons first rest ih =>
      obtain ⟨other, old⟩ := first
      rw [insertSorted] at member
      split at member
      · simpa using member
      · split at member
        case isTrue => exact (List.mem_cons.mp member).imp_right (List.mem_cons_of_mem _)
        case isFalse =>
          rcases List.mem_cons.mp member with here | later
          · exact .inr (by simp [here])
          · exact (ih later).imp_right (List.mem_cons_of_mem _)

/-- The names of a table in which a name is set are that name and former ones. -/
theorem eq_or_mem_names_of_insertSorted {other : String}
    (member : other ∈ names (insertSorted name value table))
    : other = name ∨ other ∈ table.names := by
  obtain ⟨entry, inside, rfl⟩ := List.mem_map.mp member
  rcases eq_or_mem_of_insertSorted inside with rfl | former
  · exact .inl rfl
  · exact .inr (List.mem_map_of_mem former)

/-- Setting a name keeps the names of a table in order. The induction is on the table. -/
theorem pairwise_insertSorted (ordered : table.names.Pairwise (· < ·)) (name : String) (value : α)
    : (names (insertSorted name value table)).Pairwise (· < ·) := by
  induction table with
  | nil => exact List.pairwise_singleton _ _
  | cons entry rest ih =>
      obtain ⟨first, old⟩ := entry
      obtain ⟨above, rest_ordered⟩ := List.pairwise_cons.mp ordered
      rw [insertSorted]
      split
      case isTrue before =>
        refine List.pairwise_cons.mpr ⟨fun other member => ?_, ordered⟩
        rcases List.mem_cons.mp member with rfl | later
        · exact before
        · exact before.trans (above other later)
      case isFalse not_before =>
        split
        case isTrue same =>
          subst same
          exact ordered
        case isFalse different =>
          refine List.pairwise_cons.mpr ⟨fun other member => ?_, ih rest_ordered⟩
          rcases eq_or_mem_names_of_insertSorted member with rfl | later
          · exact lt_of_le_of_ne (not_lt.mp not_before) different
          · exact above other later

/-- The names of a table that has been put in order are in order. -/
theorem pairwise_sorted (table : Table α) : table.sorted.names.Pairwise (· < ·) := by
  induction table using List.reverseRecOn with
  | nil => exact List.Pairwise.nil
  | append_singleton front entry ih =>
      rw [sorted_append]
      exact pairwise_insertSorted ih _ _

/-- A name behind all others is set at the end. -/
theorem insertSorted_eq_append (above : ∀ other ∈ table.names, other < name) (value : α)
    : insertSorted name value table = table ++ [(name, value)] := by
  induction table with
  | nil => rfl
  | cons entry rest ih =>
      obtain ⟨below, later⟩ := List.forall_mem_cons.mp above
      rw [insertSorted, if_neg below.asymm, if_neg below.ne, ih later, List.cons_append]

/-- Putting a table in order that is in order changes nothing. -/
theorem sorted_eq (ordered : table.names.Pairwise (· < ·)) : table.sorted = table := by
  induction table using List.reverseRecOn with
  | nil => rfl
  | append_singleton front entry ih =>
      rw [names, List.map_append] at ordered
      obtain ⟨front_ordered, -, above⟩ := List.pairwise_append.mp ordered
      rw [sorted_append, ih front_ordered]
      exact insertSorted_eq_append (fun other member => above other member _ (by simp)) _

/-- Entries that agree on their names and are related in their values. -/
def Agree {β : Type} (R : α → β → Prop) (entry : String × α) (other : String × β) : Prop :=
  entry.1 = other.1 ∧ R entry.2 other.2

/-- Tables that agree entry by entry have the same names. -/
theorem names_eq_of_agree {β : Type} {R : α → β → Prop} {other : Table β}
    (agree : List.Forall₂ (Agree R) table other)
    : table.names = other.names := by
  induction agree with
  | nil => rfl
  | cons here _ ih => exact congrArg₂ List.cons here.1 ih

/-- In tables that agree entry by entry, the values of a name are related. -/
theorem get?_of_agree {β : Type} {R : α → β → Prop} {other : Table β}
    (agree : List.Forall₂ (Agree R) table other) (name : String)
    : Option.Rel R (table.get? name) (other.get? name) := by
  unfold get?
  induction agree with
  | nil => exact .none
  | @cons entry partner _ _ here _ ih =>
      rw [lookup_cons_eq, lookup_cons_eq, here.1]
      split
      · exact .some here.2
      · exact ih

/-- In tables that agree on what is derived from their values, the derived values of a name are
equal. -/
theorem map_get?_of_agree {β γ : Type} {f : α → γ} {g : β → γ} {other : Table β}
    (agree : List.Forall₂ (Agree fun a b => f a = g b) table other) (name : String)
    : (table.get? name).map f = (other.get? name).map g := by
  have related := get?_of_agree agree name
  generalize table.get? name = found at related ⊢
  generalize other.get? name = stored at related ⊢
  cases related with
  | none => rfl
  | some equal => exact congrArg some equal

/-- Tables that agree entry by entry do so after a name has been set in both of them. -/
theorem forall₂_insertSorted {β : Type} {R : α → β → Prop} {other : Table β} {result : β}
    (agree : List.Forall₂ (Agree R) table other) (name : String) (related : R value result)
    : List.Forall₂ (Agree R) (insertSorted name value table) (insertSorted name result other) := by
  induction agree with
  | nil => exact .cons ⟨rfl, related⟩ .nil
  | @cons entry partner rest others here later ih =>
      obtain ⟨first, old⟩ := entry
      obtain ⟨second, former⟩ := partner
      obtain ⟨rfl, old_related⟩ := here
      rw [insertSorted, insertSorted]
      split
      · exact .cons ⟨rfl, related⟩ (.cons ⟨rfl, old_related⟩ later)
      · split
        · exact .cons ⟨rfl, related⟩ later
        · exact .cons ⟨rfl, old_related⟩ ih

/-- In a table that has been put in order, a name has the last one of its values. -/
theorem get?_sorted (table : Table α) (name : String)
    : table.sorted.get? name = Table.get? table.reverse name := by
  have folded (entries start : Table α)
      : (entries.foldl (fun result (name, value) => insertSorted name value result) start).get? name
        = (List.lookup name entries.reverse).or (start.get? name) := by
    induction entries generalizing start with
    | nil => rfl
    | cons entry rest ih =>
        rw [List.foldl_cons, ih, get?_insertSorted, List.reverse_cons, List.lookup_append,
          Option.or_assoc, lookup_cons_eq]
        by_cases same : name = entry.1
        · simp [same]
        · simp [same]
  rw [sorted, folded]
  exact Option.or_none

/-- Putting a table in order keeps its names. -/
theorem mem_names_sorted (table : Table α) (name : String)
    : name ∈ table.sorted.names ↔ name ∈ table.names := by
  rw [← contains_iff, ← contains_iff, contains, contains, get?_sorted]
  simp only [get?, List.lookup_isSome_iff, List.mem_reverse]

/-- Putting a table without repeated names in order keeps the value of every name. -/
theorem get?_sorted_of_nodup (nodup : table.names.Nodup) (name : String)
    : table.sorted.get? name = table.get? name := by
  rw [get?_sorted]
  have reversed : (Table.names table.reverse).Nodup := by
    rw [names, List.map_reverse]
    exact (List.pairwise_reverse.mpr (nodup.imp Ne.symm))
  cases found : table.get? name with
  | some value => exact get?_of_mem reversed (List.mem_reverse.mpr (mem_of_get? found))
  | none =>
      rw [get?, List.lookup_eq_none_iff] at found ⊢
      exact fun entry member => found entry (List.mem_reverse.mp member)

/-- A table that is put in order has no other entries. The induction is on the table, from its last
entry on. -/
theorem mem_of_mem_sorted {entry : String × α} (member : entry ∈ table.sorted)
    : entry ∈ table := by
  induction table using List.reverseRecOn with
  | nil => exact member
  | append_singleton front last ih =>
      rw [sorted_append] at member
      rcases eq_or_mem_of_insertSorted member with rfl | former
      · simp
      · exact List.mem_append_left _ (ih former)

/-- The entries of a table in order are put back in order, wherever they have been moved. -/
theorem sorted_eq_of_perm {ordered : Table α} (perm : table.Perm ordered)
    (in_order : ordered.names.Pairwise (· < ·))
    : table.sorted = ordered := by
  have nodup : table.names.Nodup :=
    (perm.map Prod.fst).nodup_iff.mpr (in_order.imp LT.lt.ne)
  have same (entry : String × α) : entry ∈ table.sorted ↔ entry ∈ ordered := by
    refine ⟨fun member => perm.mem_iff.mp (mem_of_mem_sorted member), fun member => ?_⟩
    apply mem_of_get?
    rw [get?_sorted_of_nodup nodup]
    exact get?_of_mem nodup (perm.mem_iff.mpr member)
  have sorted_pairs := List.pairwise_map.mp table.pairwise_sorted
  have ordered_pairs := List.pairwise_map.mp in_order
  have distinct {pairs : Table α} (pairwise : pairs.Pairwise fun a b => a.1 < b.1)
      : pairs.Nodup :=
    pairwise.imp fun lt same => lt.ne (congrArg Prod.fst same)
  refine List.Perm.eq_of_pairwise (fun a b _ _ lt gt => absurd gt lt.asymm) sorted_pairs
    ordered_pairs ?_
  exact (List.perm_ext_iff_of_nodup (distinct sorted_pairs) (distinct ordered_pairs)).mpr same

end CivilTime.Table
