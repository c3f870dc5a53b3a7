import CivilTime.Link
import CivilTime.Proofs.Outcome
import CivilTime.Proofs.Table
import Mathlib.Data.List.Nodup

/-! An alias leads to the end of its chain of links.
Links are found by name alone, so a chain never splits and a chain that ends meets no name twice.
It is therefore no longer than there are links, and following that many links reaches its end.
-/

namespace CivilTime.Link

variable {links : Table Link} {name target : String} {path : List String}

/-- The names of links that lead from a name to a name that is no link. -/
inductive Chain (links : Table Link) : String → List String → String → Prop where
  | stop {name : String} (absent : links.get? name = none) : Chain links name [] name
  | step {name target : String} {link : Link} {path : List String}
      (found : links.get? name = some link) (later : Chain links link.target path target)
      : Chain links name (name :: path) target

/-- A chain never splits, by induction on it. -/
theorem Chain.unique (chain : Chain links name path target) {other : List String} {last : String}
    (chain' : Chain links name other last)
    : path = other ∧ target = last := by
  induction chain generalizing other last with
  | stop absent =>
      cases chain' with
      | stop => exact ⟨rfl, rfl⟩
      | step found => simp [absent] at found
  | step found later ih =>
      cases chain' with
      | stop absent => simp [found] at absent
      | step found' later' =>
          obtain rfl := Option.some.inj (found.symm.trans found')
          obtain ⟨rfl, rfl⟩ := ih later'
          exact ⟨rfl, rfl⟩

/-- From each of its names on, a chain is what is left of it. The proof is by induction on the
chain. -/
theorem Chain.from_mem (chain : Chain links name path target) {middle : String}
    (member : middle ∈ path)
    : ∃ front rest,
        path = front ++ middle :: rest ∧ Chain links middle (middle :: rest) target := by
  induction chain with
  | stop => simp at member
  | @step name target link path found later ih =>
      rcases List.mem_cons.mp member with rfl | behind
      · exact ⟨[], path, rfl, .step found later⟩
      · obtain ⟨front, rest, rfl, from_middle⟩ := ih behind
        exact ⟨name :: front, rest, rfl, from_middle⟩

/-- The names of a chain are those of links. -/
theorem Chain.link_of_mem (chain : Chain links name path target) {middle : String}
    (member : middle ∈ path)
    : ∃ link, links.get? middle = some link := by
  obtain ⟨_, _, _, from_middle⟩ := chain.from_mem member
  cases from_middle with
  | step found => exact ⟨_, found⟩

/-- The end of a chain is no link. -/
theorem Chain.target_absent (chain : Chain links name path target) : links.get? target = none := by
  induction chain with
  | stop absent => exact absent
  | step _ _ ih => exact ih

/-- A chain that ends meets no name twice: from the second time on it would be as long as from the
first. -/
theorem Chain.nodup (chain : Chain links name path target) : path.Nodup := by
  induction chain with
  | stop => exact .nil
  | @step name target link path found later ih =>
      refine List.nodup_cons.mpr ⟨fun again => ?_, ih⟩
      obtain ⟨front, rest, path_eq, from_name⟩ := later.from_mem again
      have same := (from_name.unique (.step found later)).1
      have := congrArg List.length path_eq
      have := congrArg List.length same
      simp only [List.length_append, List.length_cons] at *
      omega

/-- A chain is no longer than there are links. -/
theorem Chain.length_le (chain : Chain links name path target) : path.length ≤ links.length := by
  have inside : path ⊆ links.names := by
    intro middle member
    obtain ⟨link, found⟩ := chain.link_of_mem member
    exact List.mem_map.mpr ⟨_, Table.mem_of_get? found, rfl⟩
  have bound := chain.nodup.length_le_of_subset inside
  rwa [Table.names, List.length_map] at bound

/-- Links are followed to the end of a chain that is shorter than the limit, by induction on the
limit. -/
theorem follow_eq_ok {limit : Nat}
    : follow links limit name = .ok target
      ↔ ∃ path, Chain links name path target ∧ path.length < limit := by
  induction limit generalizing name with
  | zero => simp [follow]
  | succ limit ih =>
      rw [follow]
      cases found : links.get? name with
      | none =>
          constructor
          · rintro ⟨⟩
            exact ⟨[], .stop found, Nat.succ_pos _⟩
          · rintro ⟨path, chain, _⟩
            rw [(chain.unique (.stop found)).2]
      | some link =>
          simp only [ih]
          constructor
          · rintro ⟨path, chain, lt⟩
            exact ⟨name :: path, .step found chain, Nat.succ_lt_succ lt⟩
          · rintro ⟨path, chain, lt⟩
            cases chain with
            | stop absent => simp [found] at absent
            | step found' later =>
                obtain rfl := Option.some.inj (found.symm.trans found')
                exact ⟨_, later, Nat.lt_of_succ_lt_succ lt⟩

/-- An alias resolves to the end of its chain. -/
theorem resolveTarget_eq_ok
    : resolveTarget links name = .ok target
      ↔ ∃ path, Chain links name (name :: path) target := by
  unfold resolveTarget
  cases found : links.get? name with
  | none =>
      constructor
      · rintro ⟨⟩
      · rintro ⟨path, chain⟩
        cases chain with
        | step found' => simp [found] at found'
  | some link =>
      constructor
      · intro resolved
        have followed : follow links links.length link.target = .ok target := by
          cases outcome : follow links links.length link.target with
          | ok reached =>
              simp only [outcome, Except.mapError, Except.ok.injEq] at resolved
              rw [resolved]
          | error last => simp [outcome, Except.mapError] at resolved
        obtain ⟨path, chain, _⟩ := follow_eq_ok.mp followed
        exact ⟨path, .step found chain⟩
      · rintro ⟨path, chain⟩
        have bound := chain.length_le
        cases chain with
        | step found' later =>
            obtain rfl := Option.some.inj (found.symm.trans found')
            have followed : follow links links.length link.target = .ok target :=
              follow_eq_ok.mpr ⟨path, later, bound⟩
            simp only [followed, Except.mapError]

/-- An alias that does not resolve leads to no zone. -/
theorem resolveTarget_eq_error {fault : Fault} (failed : resolveTarget links name = .error fault)
    : ∃ target, fault = .unknownZone name target := by
  unfold resolveTarget at failed
  split at failed
  · exact ⟨name, (Except.error.inj failed).symm⟩
  · rename_i link _
    cases outcome : follow links links.length link.target with
    | ok reached => simp [outcome, Except.mapError] at failed
    | error last =>
        simp only [outcome, Except.mapError, Except.error.injEq] at failed
        exact ⟨last, failed.symm⟩

/-- What an alias shows is not found only where it leads to nothing that is. -/
theorem resolve_eq_error {α : Type} {lookup : String → Option α} {fault : Fault}
    (failed : resolve links lookup name = .error fault)
    : (∀ target, resolveTarget links name = .ok target → lookup target = none)
      ∧ ∃ target, fault = .unknownZone name target := by
  rcases bind_eq_error.mp failed with failed | ⟨target, resolved, failed⟩
  · exact ⟨fun target resolved => by simp [failed] at resolved, resolveTarget_eq_error failed⟩
  · cases found : lookup target with
    | some value => simp [found, pure_ne_error] at failed
    | none =>
        simp only [found, throw, throwThe, MonadExceptOf.throw, Except.error.injEq] at failed
        refine ⟨fun other resolved' => ?_, target, failed.symm⟩
        rw [← Except.ok.inj (resolved.symm.trans resolved'), found]

-----------------------------------------------------------------------------------------
-- Leaving links out
-----------------------------------------------------------------------------------------

/-- The links whose names do not satisfy a test. -/
def leaveOut (test : String → Bool) (links : Table Link) : Table Link :=
  links.filter fun entry => !test entry.1

variable {test : String → Bool}

/-- A link is left out if its name satisfies the test, and otherwise found as before. -/
theorem get?_leaveOut (test : String → Bool) (links : Table Link) (name : String)
    : (leaveOut test links).get? name = if test name then none else links.get? name := by
  induction links with
  | nil => simp [leaveOut, Table.get?]
  | cons entry rest ih =>
      obtain ⟨other, link⟩ := entry
      unfold leaveOut Table.get? at ih ⊢
      cases dropped : test other with
      | true =>
          rw [List.filter_cons_of_neg (by simp [dropped]), ih, List.lookup_cons]
          by_cases same : name = other
          · simp [same, dropped]
          · rw [beq_false_of_ne same]
      | false =>
          rw [List.filter_cons_of_pos (by simp [dropped]), List.lookup_cons, List.lookup_cons]
          by_cases same : name = other
          · simp [same, dropped]
          · rw [beq_false_of_ne same, ih]

/-- The chains that are left are the ones that pass no name that satisfies the test. Both directions
are by induction on the chain. -/
theorem chain_leaveOut_iff (absent : links.get? target = none)
    : Chain (leaveOut test links) name path target
      ↔ Chain links name path target ∧ ∀ middle ∈ path, test middle = false := by
  constructor
  · intro chain
    induction chain with
    | stop => exact ⟨.stop absent, by simp⟩
    | @step name target link path found later ih =>
        rw [get?_leaveOut] at found
        split at found
        case isTrue => cases found
        case isFalse kept =>
          obtain ⟨chain, passed⟩ := ih absent
          exact ⟨.step found chain, List.forall_mem_cons.mpr ⟨by simpa using kept, passed⟩⟩
  · rintro ⟨chain, passed⟩
    induction chain with
    | stop absent => exact .stop (by rw [get?_leaveOut, absent]; simp)
    | @step name target link path found later ih =>
        obtain ⟨here, passed⟩ := List.forall_mem_cons.mp passed
        exact .step (by rw [get?_leaveOut, here, found]; rfl) (ih absent passed)

/-- Leaving links out keeps where an alias leads exactly if its chain passes none of them. -/
theorem resolveTarget_leaveOut (chain : Chain links name (name :: path) target)
    : resolveTarget (leaveOut test links) name = resolveTarget links name
      ↔ ∀ middle ∈ name :: path, test middle = false := by
  rw [resolveTarget_eq_ok.mpr ⟨path, chain⟩, resolveTarget_eq_ok]
  constructor
  · rintro ⟨rest, left⟩
    obtain ⟨chain', passed⟩ := (chain_leaveOut_iff chain.target_absent).mp left
    obtain ⟨same, _⟩ := chain'.unique chain
    rwa [same] at passed
  · exact fun passed => ⟨path, (chain_leaveOut_iff chain.target_absent).mpr ⟨chain, passed⟩⟩

end CivilTime.Link
