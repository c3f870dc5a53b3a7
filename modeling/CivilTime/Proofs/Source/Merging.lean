import CivilTime.Proofs.Source.Entries
import CivilTime.Proofs.Table

/-! Merging the tables of two sources adds the entries of the second one to the first.
The entries of a source are added one at a time, while a merge adds the rule sets, the zones and the
links of its tables in turn. Both come to the same records, and to the same errors in another order.
-/

namespace CivilTime

-----------------------------------------------------------------------------------------
-- Tables of names
-----------------------------------------------------------------------------------------

namespace Table

variable {α β : Type} {table front back : Table α} {name other : String}

theorem alter_alter (table : Table α) (name : String) (first second : Option α → α)
    : (table.alter name first).alter name second
      = table.alter name fun old => second (some (first old)) := by
  induction table with
  | nil => simp [alter]
  | cons entry rest ih =>
      obtain ⟨key, value⟩ := entry
      by_cases same : key = name
      · simp [alter, same]
      · simp [alter, same, ih]

/-- Changes of two names can be made in either order, unless both names are new. -/
theorem alter_comm (different : name ≠ other) (known : name ∈ table.names)
    (first second : Option α → α)
    : (table.alter name first).alter other second
      = (table.alter other second).alter name first := by
  induction table with
  | nil => cases known
  | cons entry rest ih =>
      obtain ⟨key, value⟩ := entry
      by_cases here : key = name
      · have not_other : key ≠ other := here ▸ different
        simp [alter, here, different]
      · by_cases there : key = other
        · simp [alter, there, different.symm]
        · have later : name ∈ names rest := by simpa [names, Ne.symm here] using known
          simp [alter, here, there, ih later]

theorem names_alter (table : Table α) (name : String) (change : Option α → α)
    : (table.alter name change).names
      = if name ∈ table.names then table.names else table.names ++ [name] := by
  induction table with
  | nil => simp [alter, names]
  | cons entry rest ih =>
      obtain ⟨key, value⟩ := entry
      by_cases here : key = name
      · simp [alter, here, names]
      · simp only [alter, here, if_false, names, List.map_cons, List.mem_cons,
          Ne.symm here, false_or] at ih ⊢
        rw [ih]
        by_cases known : name ∈ rest.map Prod.fst
        · simp only [known, if_true]
        · simp only [known, if_false, List.cons_append]

theorem mem_names_alter (table : Table α) (name : String) (change : Option α → α)
    : name ∈ (table.alter name change).names := by
  rw [names_alter]
  split
  case isTrue known => exact known
  case isFalse => simp

theorem names_subset_alter (known : other ∈ table.names) (change : Option α → α)
    : other ∈ (table.alter name change).names := by
  rw [names_alter]
  split
  · exact known
  · exact List.mem_append_left _ known

theorem nodup_alter (nodup : table.names.Nodup) (change : Option α → α)
    : (table.alter name change).names.Nodup := by
  rw [names_alter]
  split
  case isTrue => exact nodup
  case isFalse new =>
    refine List.nodup_append.mpr ⟨nodup, by simp, ?_⟩
    rintro other member _ single rfl
    exact new (List.mem_singleton.mp single ▸ member)

theorem contains_append (front back : Table α) (name : String)
    : Table.contains (front ++ back) name = (front.contains name || back.contains name) := by
  rw [Bool.eq_iff_iff, Bool.or_eq_true, contains_iff, contains_iff, contains_iff, names,
    List.map_append, List.mem_append]
  rfl

theorem contains_singleton (entry : String × α) (name : String)
    : Table.contains [entry] name = decide (name = entry.1) := by
  rw [Bool.eq_iff_iff, contains_iff, decide_eq_true_iff]
  simp [names]

/-- The entries whose names another table does not have. -/
def fresh (front back : Table α) : Table α := back.filter fun entry => !front.contains entry.1

/-- The entries whose names another table has. -/
def taken (front back : Table α) : Table α := back.filter fun entry => front.contains entry.1

theorem contains_append_fresh (front back : Table α) (name : String)
    : Table.contains (front ++ fresh front back) name
      = (front.contains name || back.contains name) := by
  rw [contains_append, Bool.eq_iff_iff, Bool.or_eq_true, Bool.or_eq_true]
  simp only [contains_iff, fresh, names, List.mem_map, List.mem_filter, Bool.not_eq_true']
  constructor
  · rintro (here | ⟨entry, ⟨member, _⟩, same⟩)
    · exact .inl here
    · exact .inr ⟨entry, member, same⟩
  · rintro (here | ⟨entry, member, rfl⟩)
    · exact .inl here
    · cases known : front.contains entry.1 with
      | true => exact .inl (List.mem_map.mp (contains_iff.mp known))
      | false => exact .inr ⟨entry, ⟨member, known⟩, rfl⟩

/-- The first table goes before the entries of the second one that are fresh behind it. -/
theorem get?_append_fresh (front back : Table α) (name : String)
    : Table.get? (front ++ fresh front back) name = (front.get? name).or (back.get? name) := by
  have kept (absent : front.get? name = none) : (fresh front back).get? name = back.get? name := by
    induction back with
    | nil => rfl
    | cons entry rest ih =>
        unfold get? at absent ih ⊢
        rw [lookup_cons_eq, ← ih, fresh, List.filter_cons]
        by_cases same : name = entry.1
        · subst same
          simp [contains, get?, absent, lookup_cons_eq]
        · rw [if_neg same]
          split
          · rw [lookup_cons_eq, if_neg same]
            rfl
          · rfl
  unfold get? at kept ⊢
  rw [List.lookup_append]
  cases found : List.lookup name front with
  | none => exact kept found
  | some value => rfl

/-- Entries are fresh behind two tables if they are fresh behind each of them. -/
theorem fresh_append_fresh (first second third : Table α)
    : fresh (first ++ fresh first second) third = fresh first (fresh second third) := by
  have both
      : fresh first (fresh second third)
        = third.filter fun entry => !first.contains entry.1 && !second.contains entry.1 :=
    List.filter_filter ..
  rw [both, fresh]
  refine List.filter_congr fun entry _ => ?_
  rw [contains_append_fresh, Bool.not_or]

theorem fresh_concat (front back : Table α) (entry : String × α)
    : fresh front (back ++ [entry])
      = fresh front back ++ if front.contains entry.1 then [] else [entry] := by
  rw [fresh, List.filter_append]
  cases known : front.contains entry.1 <;> simp [fresh, known]

theorem taken_concat (front back : Table α) (entry : String × α)
    : taken front (back ++ [entry])
      = taken front back ++ if front.contains entry.1 then [entry] else [] := by
  rw [taken, List.filter_append]
  cases known : front.contains entry.1 <;> simp [taken, known]

/-- What is fresh does not change with an entry of a name that does not occur. -/
theorem fresh_snoc (front : Table α) {entry : String × α} (absent : entry.1 ∉ back.names)
    : fresh (front ++ [entry]) back = fresh front back
      ∧ taken (front ++ [entry]) back = taken front back := by
  have same : ∀ e ∈ back, Table.contains (front ++ [entry]) e.1 = front.contains e.1 := by
    intro e member
    have different : e.1 ≠ entry.1 := fun same => absent (same ▸ List.mem_map_of_mem member)
    rw [contains_append, contains_singleton, decide_eq_false different, Bool.or_false]
  exact ⟨List.filter_congr fun e member => by rw [same e member],
    List.filter_congr fun e member => by rw [same e member]⟩

/-- Other values under the same names. -/
def mapValues (change : α → β) (table : Table α) : Table β :=
  table.map fun (name, value) => (name, change value)

theorem names_mapValues (change : α → β) (table : Table α)
    : (table.mapValues change).names = table.names := by
  rw [names, mapValues, List.map_map]
  rfl

theorem contains_mapValues (change : α → β) (table : Table α) (name : String)
    : (table.mapValues change).contains name = table.contains name := by
  rw [Bool.eq_iff_iff, contains_iff, contains_iff, names_mapValues]

theorem fresh_mapValues (change : α → β) (front back : Table α)
    : fresh (front.mapValues change) (back.mapValues change)
      = (fresh front back).mapValues change := by
  rw [fresh, fresh, mapValues, mapValues, List.filter_map]
  congr 1
  refine List.filter_congr fun entry _ => ?_
  exact congrArg (!·) (contains_mapValues change front entry.1)

theorem mapValues_append_fresh (change : α → β) (front back : Table α)
    : Table.mapValues change (front ++ fresh front back)
      = front.mapValues change ++ fresh (front.mapValues change) (back.mapValues change) := by
  rw [fresh_mapValues, mapValues, List.map_append]
  rfl

theorem fresh_append (first second third : Table α)
    : fresh first (second ++ third) = fresh first second ++ fresh first third :=
  List.filter_append ..

theorem nodup_append_fresh (front_nodup : front.names.Nodup) (back_nodup : back.names.Nodup)
    : (Table.names (front ++ fresh front back)).Nodup := by
  rw [names, List.map_append]
  refine List.nodup_append.mpr ⟨front_nodup, (List.filter_sublist.map _).nodup back_nodup, ?_⟩
  rintro name front_name _ fresh_name rfl
  obtain ⟨entry, member, rfl⟩ := List.mem_map.mp fresh_name
  have absent := (List.mem_filter.mp member).2
  rw [contains_iff.mpr front_name] at absent
  cases absent

theorem get?_mapValues (change : α → β) (table : Table α) (name : String)
    : (table.mapValues change).get? name = (table.get? name).map change := by
  unfold get?
  induction table with
  | nil => rfl
  | cons entry rest ih =>
      change List.lookup name ((entry.1, change entry.2) :: Table.mapValues change rest) = _
      rw [lookup_cons_eq, lookup_cons_eq, ih]
      split <;> rfl

end Table

-----------------------------------------------------------------------------------------
-- Rule sets
-----------------------------------------------------------------------------------------

namespace RuleSet

/-- The rule set behind the one that has its name already. -/
def joined (rules : RuleSet) : Option RuleSet → RuleSet
  | some old => old.append rules
  | none => rules

/-- The rule sets of one table added to those of another one. -/
def merge (front back : Table RuleSet) : Table RuleSet :=
  back.foldl (fun table (name, rules) => table.alter name rules.joined) front

theorem joined_joined (first second : RuleSet) (old : Option RuleSet)
    : second.joined (some (first.joined old)) = (first.append second).joined old := by
  cases old <;> simp [joined, append]

theorem merge_alter_comm {front back : Table RuleSet} {name : String}
    (known : name ∈ front.names) (absent : name ∉ back.names) (change : Option RuleSet → RuleSet)
    : merge (front.alter name change) back = (merge front back).alter name change := by
  induction back generalizing front with
  | nil => rfl
  | cons entry rest ih =>
      have different : name ≠ entry.1 := fun same => absent (by simp [Table.names, same])
      have later : name ∉ Table.names rest := fun member => absent (List.mem_cons_of_mem _ member)
      change merge ((front.alter name change).alter entry.1 entry.2.joined) rest = _
      rw [Table.alter_comm different known]
      exact ih (Table.names_subset_alter known _) later

/-- Adding a rule set before a merge is adding it behind the merge. -/
theorem merge_alter_joined {back : Table RuleSet} (nodup : back.names.Nodup)
    (front : Table RuleSet) (name : String) (rules : RuleSet)
    : merge front (back.alter name rules.joined) = (merge front back).alter name rules.joined := by
  induction back generalizing front with
  | nil => rfl
  | cons entry rest ih =>
      obtain ⟨key, old⟩ := entry
      obtain ⟨absent, rest_nodup⟩ := List.nodup_cons.mp nodup
      rw [Table.alter]
      by_cases same : key = name
      · subst same
        rw [if_pos rfl]
        change merge (front.alter key (old.append rules).joined) rest
          = (merge (front.alter key old.joined) rest).alter key rules.joined
        -- the rest has other names, so both changes of this one can be made in front of it
        rw [← merge_alter_comm (Table.mem_names_alter ..) absent, Table.alter_alter]
        congr 2
        exact funext fun older => (joined_joined old rules older).symm
      · rw [if_neg same]
        exact ih rest_nodup _

/-- Merging keeps the names of rule sets apart. -/
theorem nodup_merge {front : Table RuleSet} (nodup : front.names.Nodup) (back : Table RuleSet)
    : (merge front back).names.Nodup := by
  induction back generalizing front with
  | nil => exact nodup
  | cons entry rest ih => exact ih (Table.nodup_alter nodup _)

theorem merge_assoc {second : Table RuleSet} (nodup : second.names.Nodup)
    (first third : Table RuleSet)
    : merge first (merge second third) = merge (merge first second) third := by
  induction third generalizing second with
  | nil => rfl
  | cons entry rest ih =>
      change merge first (merge (second.alter entry.1 entry.2.joined) rest) = _
      rw [ih (Table.nodup_alter nodup _), merge_alter_joined nodup]
      rfl

end RuleSet

-----------------------------------------------------------------------------------------
-- Tables of a source
-----------------------------------------------------------------------------------------

namespace Tables

variable {t u : Tables}

/-- The error for a zone whose name is taken. -/
def zoneClash (entry : String × ZoneRecord) : LineError :=
  { line := entry.2.line, fault := .duplicateName entry.1 }

/-- The error for a link whose name is taken. -/
def linkClash (entry : String × Link) : LineError :=
  { line := entry.2.line, fault := .duplicateName entry.1 }

/-- Tables without a name that is defined twice, in which links stand under their own names. -/
structure Distinct (t : Tables) : Prop where
  rules : t.rules.names.Nodup
  zones : t.zones.names.Nodup
  links : t.links.names.Nodup
  named : ∀ entry ∈ t.links, entry.2.name = entry.1

theorem addRule_eq (t : Tables) (r : Recurrence)
    : t.addRule r
      = { t with
          rules := t.rules.alter r.name (RuleSet.mk r.name [r]).joined } := by
  have change_eq
      : (fun old : Option RuleSet => (old.getD (.empty r.name)).push r)
        = (RuleSet.mk r.name [r]).joined := by
    funext old
    cases old <;> rfl
  rw [addRule, change_eq]

theorem foldl_addRuleSet (t : Tables) (entries : Table RuleSet)
    : entries.foldl (fun t (name, rules) => t.addRuleSet name rules) t
      = { t with rules := RuleSet.merge t.rules entries } := by
  induction entries generalizing t with
  | nil => rfl
  | cons entry rest ih => exact ih (t.addRuleSet entry.1 entry.2)

/-- Adding zones of different names leaves out those whose names are taken, and reports them. -/
theorem foldl_addZone {entries : Table ZoneRecord} (nodup : entries.names.Nodup) (t : Tables)
    : entries.foldl (fun t (name, record) => t.addZone name record) t
      = { t with
          zones := t.zones ++ Table.fresh t.zones entries
          errors := t.errors ++ (Table.taken t.zones entries).map zoneClash } := by
  induction entries generalizing t with
  | nil => simp [Table.fresh, Table.taken]
  | cons entry rest ih =>
      obtain ⟨absent, rest_nodup⟩ := List.nodup_cons.mp nodup
      rw [List.foldl_cons, ih rest_nodup]
      simp only [addZone]
      cases known : t.zones.contains entry.1 with
      | true =>
          simp [report, Table.fresh, Table.taken, known, zoneClash]
      | false =>
          have kept := Table.fresh_snoc t.zones absent
          simp only [Bool.false_eq_true, if_false, kept.1, kept.2]
          simp [Table.fresh, Table.taken, known]

/-- Adding links of different names leaves out those whose names are taken, and reports them. -/
theorem foldl_addLink {entries : Table Link} (nodup : entries.names.Nodup)
    (named : ∀ entry ∈ entries, entry.2.name = entry.1) (t : Tables)
    : entries.foldl (fun t (_, link) => t.addLink link) t
      = { t with
          links := t.links ++ Table.fresh t.links entries
          errors := t.errors ++ (Table.taken t.links entries).map linkClash } := by
  induction entries generalizing t with
  | nil => simp [Table.fresh, Table.taken]
  | cons entry rest ih =>
      obtain ⟨absent, rest_nodup⟩ := List.nodup_cons.mp nodup
      obtain ⟨here, later⟩ := List.forall_mem_cons.mp named
      rw [List.foldl_cons, ih rest_nodup later]
      simp only [addLink, here]
      cases known : t.links.contains entry.1 with
      | true =>
          simp [report, Table.fresh, Table.taken, known, linkClash]
      | false =>
          have kept := Table.fresh_snoc t.links absent
          simp only [Bool.false_eq_true, if_false, kept.1, kept.2]
          simp [Table.fresh, Table.taken, known]

/-- A merge appends the rule sets to those of their names, and appends the zones and links whose
names are not taken.
-/
theorem extend_eq (distinct : u.Distinct) (t : Tables)
    : t.extend u
      = { rules := RuleSet.merge t.rules u.rules
          zones := t.zones ++ Table.fresh t.zones u.zones
          links := t.links ++ Table.fresh t.links u.links
          errors :=
            t.errors ++ (Table.taken t.zones u.zones).map zoneClash
              ++ (Table.taken t.links u.links).map linkClash ++ u.errors } := by
  simp only [extend, foldl_addRuleSet, foldl_addZone distinct.zones,
    foldl_addLink distinct.links distinct.named]

theorem Distinct.extend (distinct : t.Distinct) (later : u.Distinct) : (t.extend u).Distinct := by
  rw [extend_eq later]
  exact
    { rules := RuleSet.nodup_merge distinct.rules _
      zones := Table.nodup_append_fresh distinct.zones later.zones
      links := Table.nodup_append_fresh distinct.links later.links
      named := fun entry member =>
        (List.mem_append.mp member).elim (distinct.named entry)
          fun fresh => later.named entry (List.mem_of_mem_filter fresh) }

theorem distinct_empty : empty.Distinct where
  rules := .nil
  zones := .nil
  links := .nil
  named := by simp [empty]

theorem Distinct.add (distinct : t.Distinct) (entry : Entry) : (t.add entry).Distinct := by
  cases entry with
  | rule r => exact { distinct with rules := Table.nodup_alter distinct.rules _ }
  | error error => exact { distinct with }
  | zone name record =>
      simp only [Tables.add, addZone]
      split
      case isTrue => exact { distinct with }
      case isFalse new =>
        exact { distinct with zones := Table.nodup_append distinct.zones new record }
  | link link =>
      simp only [Tables.add, addLink]
      split
      case isTrue => exact { distinct with }
      case isFalse new =>
        refine { distinct with links := Table.nodup_append distinct.links new link, named := ?_ }
        intro entry member
        rcases List.mem_append.mp member with before | new
        · exact distinct.named entry before
        · rw [List.mem_singleton.mp new]

theorem Distinct.addAll (distinct : t.Distinct) (entries : List Entry)
    : (t.addAll entries).Distinct := by
  induction entries generalizing t with
  | nil => exact distinct
  | cons entry rest ih => exact ih (distinct.add entry)

theorem distinct_ofText (text : String) : (Tables.ofText text).Distinct := by
  rw [ofText_eq]
  exact distinct_empty.addAll _

/-- Tables of the same records, whose errors may stand in another order. -/
structure Same (t u : Tables) : Prop where
  rules : t.rules = u.rules
  zones : t.zones = u.zones
  links : t.links = u.links
  errors : t.errors.Perm u.errors

theorem Same.refl (t : Tables) : t.Same t := ⟨rfl, rfl, rfl, .rfl⟩

theorem Same.trans {v : Tables} (first : t.Same u) (second : u.Same v) : t.Same v :=
  ⟨first.rules.trans second.rules, first.zones.trans second.zones, first.links.trans second.links,
    first.errors.trans second.errors⟩

theorem Same.report (same : t.Same u) (error : LineError)
    : (t.report error).Same (u.report error) :=
  ⟨same.rules, same.zones, same.links, same.errors.append_right [error]⟩

theorem Same.add (same : t.Same u) (entry : Entry) : (t.add entry).Same (u.add entry) := by
  cases entry with
  | rule r =>
      refine ⟨?_, same.zones, same.links, same.errors⟩
      simp only [Tables.add, addRule, same.rules]
  | error error => exact same.report error
  | zone name record =>
      simp only [Tables.add, addZone, same.zones]
      split
      · exact same.report _
      · exact ⟨same.rules, rfl, same.links, same.errors⟩
  | link link =>
      simp only [Tables.add, addLink, same.links]
      split
      · exact same.report _
      · exact ⟨same.rules, same.zones, rfl, same.errors⟩

/-- An entry can be added behind a merge instead of before it. A clash with the first tables is then
reported behind the errors of the second ones.
-/
theorem add_extend_same (distinct : u.Distinct) (t : Tables) (entry : Entry)
    : ((t.extend u).add entry).Same (t.extend (u.add entry)) := by
  rw [extend_eq distinct, extend_eq (distinct.add entry)]
  cases entry with
  | rule r =>
      simp only [Tables.add, addRule_eq, RuleSet.merge_alter_joined distinct.rules]
      exact .refl _
  | error error =>
      refine ⟨rfl, rfl, rfl, ?_⟩
      simp only [Tables.add, report, List.append_assoc]
      exact .rfl
  | zone name record =>
      simp only [Tables.add, addZone, Table.contains_append_fresh]
      cases u.zones.contains name with
      | true =>
          simp only [Bool.or_true, if_true, report, List.append_assoc]
          exact .refl _
      | false =>
          simp only [Bool.or_false, Bool.false_eq_true, if_false, Table.fresh_concat,
            Table.taken_concat]
          cases t.zones.contains name with
          | true =>
              -- the clash is reported last, and in the merge in front of the link clashes
              refine ⟨rfl, by simp [report], rfl, ?_⟩
              simp only [if_true, report, List.map_append, List.append_assoc]
              refine (List.Perm.refl _).append ((List.Perm.refl _).append ?_)
              rw [← List.append_assoc]
              exact List.perm_append_comm
          | false => refine ⟨rfl, ?_, rfl, ?_⟩ <;> simp
  | link link =>
      simp only [Tables.add, addLink, Table.contains_append_fresh]
      cases u.links.contains link.name with
      | true =>
          simp only [Bool.or_true, if_true, report, List.append_assoc]
          exact .refl _
      | false =>
          simp only [Bool.or_false, Bool.false_eq_true, if_false, Table.fresh_concat,
            Table.taken_concat]
          cases t.links.contains link.name with
          | true =>
              -- the clash is reported last, and in the merge in front of the errors of `u`
              refine ⟨rfl, rfl, by simp [report], ?_⟩
              simp only [if_true, report, List.map_append, List.append_assoc]
              refine (List.Perm.refl _).append ((List.Perm.refl _).append
                ((List.Perm.refl _).append ?_))
              exact List.perm_append_comm
          | false => refine ⟨rfl, rfl, ?_, ?_⟩ <;> simp

/-- Adding entries is merging with the tables that hold them, by induction from the last entry. -/
theorem addAll_same_extend (t : Tables) (entries : List Entry)
    : (t.addAll entries).Same (t.extend (empty.addAll entries)) := by
  induction entries using List.reverseRecOn with
  | nil =>
      rw [addAll_nil, addAll_nil, extend_eq distinct_empty]
      refine ⟨rfl, ?_, ?_, ?_⟩ <;> simp [empty, Table.fresh, Table.taken]
  | append_singleton front entry ih =>
      rw [addAll_append, addAll_append]
      exact (ih.add entry).trans (add_extend_same (distinct_empty.addAll front) t entry)

end Tables

end CivilTime
