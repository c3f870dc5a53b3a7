import CivilTime.Proofs.Source.Contents

/-! What becomes of the tables when an error stands in the place of one of their entries.
Where nothing has been reported all names are apart, so the zones and links are those of the entries
and do not depend on each other. A rule set is made of the rules of its name and of nothing else.
-/

namespace CivilTime

namespace Entry

/-- The zone that an entry defines. -/
def zone? : Entry → Option (String × ZoneRecord)
  | .zone name record => some (name, record)
  | _ => none

/-- The link that an entry defines. -/
def link? : Entry → Option (String × Link)
  | .link l => some (l.name, l)
  | _ => none

/-- The error that an entry reports. -/
def error? : Entry → Option LineError
  | .error e => some e
  | _ => none

end Entry

/-- The rule set of some recurrences, absent if there are none. -/
def RuleSet.ofRecurrences? (name : String) (recurrences : List Recurrence) : Option RuleSet :=
  if recurrences.isEmpty then none else some { name, recurrences }

namespace Tables

variable {t u v : Tables} {entry : Entry} {entries rest : List Entry} {name : String}

-----------------------------------------------------------------------------------------
-- Names that are apart
-----------------------------------------------------------------------------------------

/-- The zones, links and errors of some entries follow those of the first tables in the second
ones. -/
structure Gains (t : Tables) (entries : List Entry) (u : Tables) : Prop where
  zones : u.zones = t.zones ++ entries.filterMap Entry.zone?
  links : u.links = t.links ++ entries.filterMap Entry.link?
  errors : u.errors = t.errors ++ entries.filterMap Entry.error?

theorem filterMap_singleton_append {β : Type} (read : Entry → Option β)
    : (entry :: rest).filterMap read = [entry].filterMap read ++ rest.filterMap read :=
  List.filterMap_append (l := [entry])

theorem Gains.nil (t : Tables) : t.Gains [] t := by
  constructor <;> exact (List.append_nil _).symm

theorem Gains.cons (first : t.Gains [entry] u) (later : u.Gains rest v)
    : t.Gains (entry :: rest) v := by
  constructor
  · rw [later.zones, first.zones, List.append_assoc, ← filterMap_singleton_append]
  · rw [later.links, first.links, List.append_assoc, ← filterMap_singleton_append]
  · rw [later.errors, first.errors, List.append_assoc, ← filterMap_singleton_append]

/-- An entry is added as it is, unless its name is taken. -/
theorem gains_add (zone_new : ∀ zone ∈ entry.zone?, ¬ t.zones.contains zone.1 = true)
    (link_new : ∀ link ∈ entry.link?, ¬ t.links.contains link.1 = true)
    : t.Gains [entry] (t.add entry) := by
  cases entry with
  | rule r => exact ⟨(List.append_nil _).symm, (List.append_nil _).symm, (List.append_nil _).symm⟩
  | error e => exact ⟨(List.append_nil _).symm, (List.append_nil _).symm, rfl⟩
  | zone name record =>
      rw [add, addZone, if_neg (zone_new _ rfl)]
      exact ⟨rfl, (List.append_nil _).symm, (List.append_nil _).symm⟩
  | link l =>
      rw [add, addLink, if_neg (link_new _ rfl)]
      exact ⟨(List.append_nil _).symm, rfl, (List.append_nil _).symm⟩

/-- No two zones and no two links of the tables and of further entries share a name. -/
structure Apart (t : Tables) (entries : List Entry) : Prop where
  zones : Table.names (t.zones ++ entries.filterMap Entry.zone?) |>.Nodup
  links : Table.names (t.links ++ entries.filterMap Entry.link?) |>.Nodup

/-- A name that is not repeated is new where it comes. -/
theorem not_contains_of_nodup {α : Type} {table later : Table α} {value : α}
    (nodup : Table.names (table ++ (name, value) :: later) |>.Nodup)
    : ¬ table.contains name = true := by
  rw [Table.names, List.map_append] at nodup
  intro known
  exact (List.nodup_append.mp nodup).2.2 name (Table.contains_iff.mp known) name (by simp) rfl

/-- Entries whose names are apart are added as they are, by induction on the entries. -/
theorem Apart.gains (apart : t.Apart entries) : t.Gains entries (t.addAll entries) := by
  induction entries generalizing t with
  | nil => exact .nil t
  | cons entry rest ih =>
      have first : t.Gains [entry] (t.add entry) := by
        apply gains_add
        · intro zone defined
          have nodup := apart.zones
          rw [List.filterMap_cons_some defined] at nodup
          exact not_contains_of_nodup nodup
        · intro link defined
          have nodup := apart.links
          rw [List.filterMap_cons_some defined] at nodup
          exact not_contains_of_nodup nodup
      refine first.cons (ih ?_)
      constructor
      · rw [first.zones, List.append_assoc, ← filterMap_singleton_append]
        exact apart.zones
      · rw [first.links, List.append_assoc, ← filterMap_singleton_append]
        exact apart.links

/-- What has been reported stays so, by induction on the entries. -/
theorem errors_subset_addAll (t : Tables) (entries : List Entry)
    : t.errors ⊆ (t.addAll entries).errors := by
  induction entries generalizing t with
  | nil => exact List.Subset.refl _
  | cons entry rest ih => exact List.Subset.trans (t.keeps_add entry).errors (ih (t.add entry))

/-- Where nothing has been reported, the entries have been added as they are. The induction is on
the entries. -/
theorem gains_of_clean (clean : (t.addAll entries).errors = [])
    : t.Gains entries (t.addAll entries) := by
  induction entries generalizing t with
  | nil => exact .nil t
  | cons entry rest ih =>
      have unreported : (t.add entry).errors = [] :=
        List.subset_nil.mp (clean ▸ errors_subset_addAll (t.add entry) rest)
      refine (gains_add ?_ ?_).cons (ih clean)
      · intro zone defined taken
        cases entry with
        | zone name record =>
            cases defined
            rw [add, addZone, if_pos taken] at unreported
            simp [report] at unreported
        | rule | link | error => cases defined
      · intro link defined taken
        cases entry with
        | link l =>
            cases defined
            rw [add, addLink, if_pos taken] at unreported
            simp [report] at unreported
        | rule | zone | error => cases defined

/-- Where nothing has been reported, no entry is an error. -/
theorem errors_of_clean (clean : (empty.addAll entries).errors = [])
    : entries.filterMap Entry.error? = [] :=
  (gains_of_clean clean).errors.symm.trans clean

-----------------------------------------------------------------------------------------
-- Rule sets
-----------------------------------------------------------------------------------------

/-- Every rule set carries its name and has a recurrence. -/
def RulesFilled (t : Tables) : Prop :=
  ∀ name, t.rules.get? name = RuleSet.ofRecurrences? name (t.recurrencesOf name)

/-- Only rules change the rule sets. -/
theorem rules_add (no_rule : ∀ r, entry ≠ .rule r) (t : Tables)
    : (t.add entry).rules = t.rules := by
  cases entry with
  | rule r => exact absurd rfl (no_rule r)
  | error e => rfl
  | zone other record =>
      simp only [add, addZone]
      split <;> rfl
  | link l =>
      simp only [add, addLink]
      split <;> rfl

theorem RulesFilled.add (filled : t.RulesFilled) (entry : Entry) : (t.add entry).RulesFilled := by
  intro name
  cases entry with
  | error | zone | link =>
      rw [recurrencesOf, rules_add (by simp)]
      exact filled name
  | rule r =>
      rw [recurrencesOf_add, Entry.recurrence?]
      simp only [Tables.add, addRule, Table.get?_alter]
      by_cases same : r.name = name
      · subst same
        rw [if_pos rfl, if_pos rfl, filled r.name]
        unfold RuleSet.ofRecurrences?
        cases t.recurrencesOf r.name <;> rfl
      · rw [if_neg (Ne.symm same), if_neg same, Option.toList_none, List.append_nil]
        exact filled name

/-- The rule sets of entries carry their names and have recurrences, by induction on the entries. -/
theorem RulesFilled.addAll (filled : t.RulesFilled) (entries : List Entry)
    : (t.addAll entries).RulesFilled := by
  induction entries generalizing t with
  | nil => exact filled
  | cons entry rest ih => exact ih (filled.add entry)

theorem rulesFilled_empty : empty.RulesFilled := fun _ => rfl

/-- The rule sets depend on those of the tables in front of the entries only, by induction on the
entries. -/
theorem rules_addAll_congr (same : t.rules = u.rules) (entries : List Entry)
    : (t.addAll entries).rules = (u.addAll entries).rules := by
  induction entries generalizing t u with
  | nil => exact same
  | cons entry rest ih =>
      apply ih
      cases entry with
      | rule r => simp only [add, addRule, same]
      | error | zone | link => rw [rules_add (by simp), rules_add (by simp), same]

-----------------------------------------------------------------------------------------
-- An entry that is missing
-----------------------------------------------------------------------------------------

/-- The second tables hold what the first ones do, apart from one entry. A rule is missing behind
those of the front. -/
inductive Misses (t front u : Tables) : Entry → Prop
  | rule {r : Recurrence} {later : List Recurrence}
    (held
      : t.rules.get? r.name
        = RuleSet.ofRecurrences? r.name (front.recurrencesOf r.name ++ r :: later))
    (left
      : u.rules.get? r.name
        = RuleSet.ofRecurrences? r.name (front.recurrencesOf r.name ++ later))
    (others : ∀ name, name ≠ r.name → u.rules.get? name = t.rules.get? name)
    (zones : u.zones = t.zones) (links : u.links = t.links)
    : Misses t front u (.rule r)
  | zone {name : String} {record : ZoneRecord} (held : t.zones.get? name = some record)
    (left : u.zones = t.zones.filter fun zone => zone.1 ≠ name) (rules : u.rules = t.rules)
    (links : u.links = t.links)
    : Misses t front u (.zone name record)
  | link {l : Link} (held : t.links.get? l.name = some l)
    (left : u.links = t.links.filter fun link => link.1 ≠ l.name) (rules : u.rules = t.rules)
    (zones : u.zones = t.zones)
    : Misses t front u (.link l)

/-- Without its entry of a name, a table without repeated names has no entry of the name. -/
theorem filter_ne_of_nodup {α : Type} {before behind : Table α} {value : α}
    (nodup : Table.names (before ++ (name, value) :: behind) |>.Nodup)
    : (before ++ (name, value) :: behind).filter (fun entry => entry.1 ≠ name)
      = before ++ behind := by
  rw [Table.names, (List.perm_middle.map Prod.fst).nodup_iff] at nodup
  have others : ∀ entry ∈ before ++ behind, entry.1 ≠ name := by
    intro entry member same
    have repeated : entry.1 ∈ (before ++ behind).map Prod.fst := List.mem_map_of_mem member
    rw [same] at repeated
    exact (List.nodup_cons.mp nodup).1 repeated
  rw [List.filter_append, List.filter_cons_of_neg (by simp), ← List.filter_append]
  exact List.filter_eq_self.mpr fun entry member => decide_eq_true (others entry member)

section Reading

variable {β : Type} {read : Entry → Option β} {value : β}

/-- What an entry without a value stands among has the values of the others. -/
theorem filterMap_of_none (unread : read entry = none) (before behind : List Entry)
    : (before ++ entry :: behind).filterMap read = (before ++ behind).filterMap read := by
  rw [List.filterMap_append, List.filterMap_cons_none unread, List.filterMap_append]

/-- The value of an entry stands between those of the others. -/
theorem filterMap_of_some (held : read entry = some value) (before behind : List Entry)
    : (before ++ entry :: behind).filterMap read
      = before.filterMap read ++ value :: behind.filterMap read := by
  rw [List.filterMap_append, List.filterMap_cons_some held]

end Reading

section Missing

variable {before behind : List Entry}

/-- What an entry defines under a name is missing if an error stands in its place, and nothing else
is. -/
theorem removed_of_error {α : Type} {read : Entry → Option (String × α)} {value : α}
    {table left : Table α} {error : LineError} (defined : read entry = some (name, value))
    (undefined : read (.error error) = none) (nodup : table.names.Nodup)
    (table_eq : table = (before ++ entry :: behind).filterMap read)
    (left_eq : left = (before ++ .error error :: behind).filterMap read)
    : table.get? name = some value ∧ left = table.filter fun item => item.1 ≠ name := by
  rw [filterMap_of_some defined] at table_eq
  constructor
  · apply Table.get?_of_mem nodup
    rw [table_eq]
    simp
  · rw [table_eq] at nodup ⊢
    rw [left_eq, filterMap_of_none undefined, List.filterMap_append]
    exact (filter_ne_of_nodup nodup).symm

/-- Where nothing has been reported, names stay apart if an error stands in the place of an entry.
-/
theorem apart_of_error (clean : (empty.addAll (before ++ entry :: behind)).errors = [])
    (error : LineError)
    : empty.Apart (before ++ .error error :: behind) := by
  have gains := gains_of_clean clean
  have distinct := distinct_empty.addAll (before ++ entry :: behind)
  have fewer : (before ++ behind).Sublist (before ++ entry :: behind) :=
    (List.sublist_cons_self ..).append_left before
  constructor
  · have nodup := distinct.zones
    rw [gains.zones] at nodup
    rw [filterMap_of_none rfl]
    exact nodup.sublist ((fewer.filterMap Entry.zone?).map Prod.fst)
  · have nodup := distinct.links
    rw [gains.links] at nodup
    rw [filterMap_of_none rfl]
    exact nodup.sublist ((fewer.filterMap Entry.link?).map Prod.fst)

/-- A rule set holds the rules in front of an entry, the one of the entry and those behind it. -/
theorem get?_rules_of_mid (before : List Entry) (entry : Entry) (behind : List Entry)
    (name : String)
    : (empty.addAll (before ++ entry :: behind)).rules.get? name
      = RuleSet.ofRecurrences? name
          ((empty.addAll before).recurrencesOf name
            ++ (entry :: behind).filterMap (Entry.recurrence? name)) := by
  rw [rulesFilled_empty.addAll, recurrencesOf_addAll, recurrencesOf_addAll, List.filterMap_append,
    List.append_assoc]

/-- Without a rule its rule set misses the rule, and the other rule sets miss nothing. -/
theorem rules_miss_rule (r : Recurrence) (error : LineError)
    (zones
      : (empty.addAll (before ++ .error error :: behind)).zones
        = (empty.addAll (before ++ .rule r :: behind)).zones)
    (links
      : (empty.addAll (before ++ .error error :: behind)).links
        = (empty.addAll (before ++ .rule r :: behind)).links)
    : (empty.addAll (before ++ .rule r :: behind)).Misses (empty.addAll before)
        (empty.addAll (before ++ .error error :: behind)) (.rule r) := by
  have held := get?_rules_of_mid before (.rule r) behind r.name
  have left := get?_rules_of_mid before (.error error) behind r.name
  have own : Entry.recurrence? r.name (.rule r) = some r := if_pos rfl
  rw [List.filterMap_cons_some own] at held
  refine .rule held left (fun name other => ?_) zones links
  have another : Entry.recurrence? name (.rule r) = none := if_neg other.symm
  rw [get?_rules_of_mid, get?_rules_of_mid, List.filterMap_cons_none another]
  rfl

/-- Where nothing has been reported, an error in the place of an entry is reported alone, and the
tables miss no more than the entry. -/
theorem misses_of_error (clean : (empty.addAll (before ++ entry :: behind)).errors = [])
    (error : LineError)
    : (empty.addAll (before ++ .error error :: behind)).errors = [error]
      ∧ (empty.addAll (before ++ entry :: behind)).Misses (empty.addAll before)
          (empty.addAll (before ++ .error error :: behind)) entry := by
  have gains := gains_of_clean clean
  have gains_error := (apart_of_error clean error).gains
  have distinct := distinct_empty.addAll (before ++ entry :: behind)
  have zones_eq (no_zone : entry.zone? = none)
      : (empty.addAll (before ++ .error error :: behind)).zones
        = (empty.addAll (before ++ entry :: behind)).zones := by
    rw [gains.zones, gains_error.zones, filterMap_of_none rfl, filterMap_of_none no_zone]
  have links_eq (no_link : entry.link? = none)
      : (empty.addAll (before ++ .error error :: behind)).links
        = (empty.addAll (before ++ entry :: behind)).links := by
    rw [gains.links, gains_error.links, filterMap_of_none rfl, filterMap_of_none no_link]
  have rules_eq (no_rule : ∀ r, entry ≠ .rule r)
      : (empty.addAll (before ++ .error error :: behind)).rules
        = (empty.addAll (before ++ entry :: behind)).rules := by
    rw [addAll_append, addAll_append, addAll_cons, addAll_cons]
    apply rules_addAll_congr
    rw [rules_add no_rule, rules_add (by simp)]
  have unreported := errors_of_clean clean
  rw [List.filterMap_append, List.append_eq_nil_iff] at unreported
  constructor
  · have behind_unreported : behind.filterMap Entry.error? = [] :=
      List.sublist_nil.mp (unreported.2 ▸ (List.sublist_cons_self entry behind).filterMap _)
    have reported : Entry.error? (.error error) = some error := rfl
    rw [gains_error.errors, filterMap_of_some reported, unreported.1, behind_unreported]
    rfl
  · cases entry with
    | error e => simp [Entry.error?] at unreported
    | rule r => exact rules_miss_rule r error (zones_eq rfl) (links_eq rfl)
    | zone name record =>
        obtain ⟨held, left⟩ :=
          removed_of_error rfl rfl distinct.zones gains.zones
            gains_error.zones
        exact .zone held left (rules_eq (by simp)) (links_eq rfl)
    | link l =>
        obtain ⟨held, left⟩ :=
          removed_of_error rfl rfl distinct.links gains.links
            gains_error.links
        exact .link held left (rules_eq (by simp)) (zones_eq rfl)

end Missing

end Tables

end CivilTime
