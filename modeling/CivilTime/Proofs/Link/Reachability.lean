import CivilTime.Proofs.Link
import Mathlib.Data.Fintype.Order
import Mathlib.Logic.Relation
import Mathlib.Order.WellFounded

/-! Links make up a graph in which every name has at most one successor.
Following them from a name comes to a name that is no link, or it comes to a cycle, which may lie
beyond the name. The bound on the number of hops tells the two apart: an alias resolves to where it
leads, and is refused only if it leads nowhere.
-/

namespace CivilTime.Link

open Relation

/-- A link leads from its name to its target. -/
def Hop (links : Table Link) (name next : String) : Prop :=
  ∃ link, links.get? name = some link ∧ link.target = next

/-- Every name that is reached from a name by links is one of a link again. -/
def NeverLeaves (links : Table Link) (name : String) : Prop :=
  ∀ reached, ReflTransGen (Hop links) name reached → links.contains reached = true

/-- Links lead from a name to a cycle, on which the name itself may lie or not. -/
def ReachesCycle (links : Table Link) (name : String) : Prop :=
  ∃ middle, ReflTransGen (Hop links) name middle ∧ TransGen (Hop links) middle middle

variable {links : Table Link} {name next target middle : String} {path : List String}

/-- Links are found by name, so no more than one leads on from a name. -/
theorem hop_rightUnique (links : Table Link) : Relator.RightUnique (Hop links) := by
  rintro name _ _ ⟨link, found, rfl⟩ ⟨other, also_found, rfl⟩
  rw [Option.some.inj (found.symm.trans also_found)]

/-- A name leads on exactly if it is one of a link. -/
theorem contains_iff_exists_hop : links.contains name = true ↔ ∃ next, Hop links name next := by
  rw [Table.contains, Option.isSome_iff_exists]
  constructor
  · rintro ⟨link, found⟩
    exact ⟨link.target, link, found, rfl⟩
  · rintro ⟨_, link, found, _⟩
    exact ⟨link, found⟩

-----------------------------------------------------------------------------------------
-- Chains and hops
-----------------------------------------------------------------------------------------

/-- The hops of a chain lead to its end, by induction on the chain. -/
theorem Chain.reaches (chain : Chain links name path target)
    : ReflTransGen (Hop links) name target := by
  induction chain with
  | stop => exact .refl
  | step found _ ih => exact .head ⟨_, found, rfl⟩ ih

/-- Hops to a name that is no link make up a chain. The induction adds them in front, from the last
one on. -/
theorem chain_of_reaches (reaches : ReflTransGen (Hop links) name target)
    (absent : links.contains target = false)
    : ∃ path, Chain links name path target := by
  induction reaches using ReflTransGen.head_induction_on with
  | refl => exact ⟨[], .stop (by simpa [Table.contains] using absent)⟩
  | @head name next hop _ ih =>
      obtain ⟨path, chain⟩ := ih
      obtain ⟨link, found, rfl⟩ := hop
      exact ⟨name :: path, .step found chain⟩

/-- An alias resolves to a name exactly if hops lead from it to the name, which is no alias. -/
theorem resolveTarget_eq_ok_iff_reaches
    : resolveTarget links name = .ok target
      ↔ links.contains name = true
        ∧ ReflTransGen (Hop links) name target
        ∧ links.contains target = false := by
  rw [resolveTarget_eq_ok]
  constructor
  · rintro ⟨path, chain⟩
    obtain ⟨link, found⟩ := chain.link_of_mem (List.mem_cons_self ..)
    refine ⟨by simp [Table.contains, found], chain.reaches, ?_⟩
    simp [Table.contains, chain.target_absent]
  · rintro ⟨present, reaches, absent⟩
    obtain ⟨path, chain⟩ := chain_of_reaches reaches absent
    cases chain with
    | stop => simp [present] at absent
    | step found later => exact ⟨_, .step found later⟩

-----------------------------------------------------------------------------------------
-- Cycles
-----------------------------------------------------------------------------------------

/-- No name on the way to the end of a chain lies on a cycle, which would lead past the end. The
induction is on the chain: a cycle through its first name is one through the second. -/
theorem Chain.not_cycle (chain : Chain links name path target)
    : ¬ TransGen (Hop links) name name := by
  induction chain with
  | stop absent =>
      intro cycle
      obtain ⟨_, ⟨link, found, _⟩, _⟩ := TransGen.head'_iff.mp cycle
      simp [absent] at found
  | step found _ ih =>
      intro cycle
      obtain ⟨next, hop, back⟩ := TransGen.head'_iff.mp cycle
      obtain rfl := hop_rightUnique links hop ⟨_, found, rfl⟩
      exact ih (.tail' back hop)

/-- From a name that leads to a cycle, links lead to no end. -/
theorem ReachesCycle.neverLeaves (reaches : ReachesCycle links name) : NeverLeaves links name := by
  obtain ⟨middle, to_middle, cycle⟩ := reaches
  intro reached to_reached
  rw [← Bool.not_eq_false]
  intro absent
  -- Hops never split, so one of the two names is reached by way of the other.
  rcases to_middle.total_of_right_unique (hop_rightUnique links) to_reached with onward | back
  · obtain ⟨path, chain⟩ := chain_of_reaches onward absent
    exact chain.not_cycle cycle
  · have on_cycle : TransGen (Hop links) reached middle := .trans_right back cycle
    obtain ⟨next, hop, _⟩ := TransGen.head'_iff.mp on_cycle
    rw [contains_iff_exists_hop.mpr ⟨next, hop⟩] at absent
    cases absent

/-- The names of links that hops reach from a name. -/
def Passed (links : Table Link) (name : String) : Type :=
  {middle : String // ReflTransGen (Hop links) name middle ∧ links.contains middle = true}

/-- There are no more of them than links. -/
instance (links : Table Link) (name : String) : Finite (Passed links name) := by
  refine Set.Finite.subset (links.names.finite_toSet) fun middle passed => ?_
  obtain ⟨link, found⟩ := Option.isSome_iff_exists.mp passed.2
  exact List.mem_map.mpr ⟨_, Table.mem_of_get? found, rfl⟩

/-- Of two such names, hops lead from the second one to the first one. -/
def Passed.Behind (later earlier : Passed links name) : Prop :=
  TransGen (Hop links) earlier.1 later.1

/-- Links that lead from a name to no end lead to a cycle. Otherwise the order in which they pass
their names would be well founded, there being as many as links at most, and they would lead on from
the last name. -/
theorem NeverLeaves.reachesCycle (never : NeverLeaves links name) : ReachesCycle links name := by
  by_contra acyclic
  have : IsTrans (Passed links name) Passed.Behind :=
    ⟨fun _ _ _ first second => TransGen.trans second first⟩
  have : Std.Irrefl (@Passed.Behind links name) :=
    ⟨fun passed cycle => acyclic ⟨passed.1, passed.2.1, cycle⟩⟩
  have wellFounded : WellFounded (@Passed.Behind links name) :=
    Finite.wellFounded_of_trans_of_irrefl _
  obtain ⟨⟨last, reached, present⟩, _, is_last⟩ :=
    wellFounded.has_min Set.univ ⟨⟨name, .refl, never name .refl⟩, trivial⟩
  obtain ⟨next, hop⟩ := contains_iff_exists_hop.mp present
  have reached_next := reached.tail hop
  exact is_last ⟨next, reached_next, never next reached_next⟩ trivial (.single hop)

/-- Links lead from a name to no end exactly if they lead to a cycle. -/
theorem neverLeaves_iff_reachesCycle : NeverLeaves links name ↔ ReachesCycle links name :=
  ⟨NeverLeaves.reachesCycle, ReachesCycle.neverLeaves⟩

-----------------------------------------------------------------------------------------
-- The bound on the hops
-----------------------------------------------------------------------------------------

/-- An alias resolves exactly if links do not lead from it to a cycle. -/
theorem exists_resolveTarget_iff
    : (∃ target, resolveTarget links name = .ok target)
      ↔ links.contains name = true ∧ ¬ ReachesCycle links name := by
  simp only [← neverLeaves_iff_reachesCycle, resolveTarget_eq_ok_iff_reaches, exists_and_left,
    NeverLeaves, not_forall, Bool.not_eq_true, exists_prop]

/-- An alias resolves to the one name that links lead to from it and that is no alias, however many
they are. A name is refused exactly if it is no alias or links lead from it to no end, which they do
exactly if they lead to a cycle. -/
theorem resolveTarget_reaches (links : Table Link) (name : String)
    : (∀ target,
        resolveTarget links name = .ok target
        ↔ links.contains name = true
          ∧ ReflTransGen (Hop links) name target
          ∧ links.contains target = false)
      ∧ ((∃ last, resolveTarget links name = .error (.unknownZone name last))
        ↔ links.contains name = false ∨ NeverLeaves links name)
      ∧ (NeverLeaves links name ↔ ReachesCycle links name)
      ∧ ((∃ target, resolveTarget links name = .ok target)
        ↔ links.contains name = true ∧ ¬ ReachesCycle links name) := by
  refine ⟨fun target => resolveTarget_eq_ok_iff_reaches, ?_, neverLeaves_iff_reachesCycle,
    exists_resolveTarget_iff⟩
  rw [neverLeaves_iff_reachesCycle, ← not_iff_not, not_or, Bool.not_eq_false,
    ← exists_resolveTarget_iff]
  constructor
  · intro accepted
    cases outcome : resolveTarget links name with
    | ok target => exact ⟨target, rfl⟩
    | error fault =>
        obtain ⟨last, rfl⟩ := resolveTarget_eq_error outcome
        exact absurd ⟨last, outcome⟩ accepted
  · rintro ⟨target, resolved⟩ ⟨last, refused⟩
    simp [resolved] at refused

/-- A chain through all links is followed to its end, and a cycle is noticed from outside it. -/
example
    : resolveTarget [("A", ⟨"B", "A", 1⟩), ("B", ⟨"C", "B", 2⟩)] "A" = .ok "C"
      ∧ resolveTarget [("A", ⟨"B", "A", 1⟩), ("B", ⟨"B", "B", 2⟩)] "A"
        = .error (.unknownZone "A" "B") := by
  decide

end CivilTime.Link
