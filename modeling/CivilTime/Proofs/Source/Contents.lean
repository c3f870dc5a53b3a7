import CivilTime.Proofs.Source.Merging

/-! What becomes of the entries of a source.
Each of them is found in the tables, or has left an error there if its name is taken, and the tables
tell no other lines than those of their entries.
-/

namespace CivilTime

namespace Entry

/-- The recurrence that an entry adds to the rule set with a name. -/
def recurrence? (name : String) : Entry → Option Recurrence
  | .rule r => if r.name = name then some r else none
  | _ => none

/-- The line that an entry tells. A rule tells none. -/
def line? : Entry → Option Nat
  | .rule _ => none
  | .zone _ record => some record.line
  | .link l => some l.line
  | .error e => some e.line

end Entry

namespace Tables

variable {t u : Tables} {entry : Entry}

/-- The recurrences of the rule set with a name, none if there is no such set. -/
def recurrencesOf (t : Tables) (name : String) : List Recurrence :=
  ((t.rules.get? name).map (·.recurrences)).getD []

/-- A zone, a link or an error tells the number of a line. -/
def Mentions (t : Tables) (line : Nat) : Prop :=
  (∃ error ∈ t.errors, error.line = line)
  ∨ (∃ entry ∈ t.zones, entry.2.line = line)
  ∨ ∃ entry ∈ t.links, entry.2.line = line

/-- What an entry comes to. A zone or link whose name is taken comes to an error on its line. -/
def Shows (t : Tables) : Entry → Prop
  | .rule r => r ∈ t.recurrencesOf r.name
  | .zone name record =>
    t.zones.get? name = some record ∨ ∃ error ∈ t.errors, error.line = record.line
  | .link link => t.links.get? link.name = some link ∨ ∃ error ∈ t.errors, error.line = link.line
  | .error error => error ∈ t.errors

theorem recurrencesOf_add (t : Tables) (entry : Entry) (name : String)
    : (t.add entry).recurrencesOf name
      = t.recurrencesOf name ++ (entry.recurrence? name).toList := by
  cases entry with
  | rule r =>
      simp only [add, addRule, recurrencesOf, Table.get?_alter, Entry.recurrence?]
      by_cases same : r.name = name
      · subst same
        simp only [if_true]
        cases t.rules.get? r.name with
        | none => rfl
        | some rules => rfl
      · rw [if_neg (Ne.symm same), if_neg same]
        exact (List.append_nil _).symm
  | error error => exact (List.append_nil _).symm
  | zone name record =>
      simp only [add, addZone]
      split <;> exact (List.append_nil _).symm
  | link link =>
      simp only [add, addLink]
      split <;> exact (List.append_nil _).symm

/-- The recurrences of a rule set are those of its entries, in order. -/
theorem recurrencesOf_addAll (t : Tables) (entries : List Entry) (name : String)
    : (t.addAll entries).recurrencesOf name
      = t.recurrencesOf name ++ entries.filterMap (Entry.recurrence? name) := by
  induction entries generalizing t with
  | nil => exact (List.append_nil _).symm
  | cons entry rest ih =>
      rw [addAll_cons, ih, recurrencesOf_add, List.append_assoc, List.filterMap_cons]
      cases entry.recurrence? name <;> rfl

/-- What is found in the first tables is found in the second ones as well. -/
structure Keeps (t u : Tables) : Prop where
  recurrences : ∀ name, t.recurrencesOf name ⊆ u.recurrencesOf name
  zones : ∀ name record, t.zones.get? name = some record → u.zones.get? name = some record
  links : ∀ name link, t.links.get? name = some link → u.links.get? name = some link
  errors : t.errors ⊆ u.errors

theorem keeps_add (t : Tables) (entry : Entry) : t.Keeps (t.add entry) where
  recurrences := by
    intro name
    rw [recurrencesOf_add]
    exact List.subset_append_left ..
  zones := by
    intro name record found
    cases entry with
    | rule r => exact found
    | error error => exact found
    | link link =>
        simp only [add, addLink]
        split <;> exact found
    | zone other record =>
        simp only [add, addZone]
        split
        · exact found
        · exact Table.get?_append_left found _
  links := by
    intro name link found
    cases entry with
    | rule r => exact found
    | error error => exact found
    | zone other record =>
        simp only [add, addZone]
        split <;> exact found
    | link other =>
        simp only [add, addLink]
        split
        · exact found
        · exact Table.get?_append_left found _
  errors := by
    cases entry with
    | rule r => exact List.Subset.refl _
    | error error => exact List.subset_append_left ..
    | zone name record =>
        simp only [add, addZone]
        split
        · exact List.subset_append_left ..
        · exact List.Subset.refl _
    | link link =>
        simp only [add, addLink]
        split
        · exact List.subset_append_left ..
        · exact List.Subset.refl _

theorem Shows.keeps (shows : t.Shows entry) (keeps : t.Keeps u) : u.Shows entry := by
  have kept_error {line : Nat} (reported : ∃ error ∈ t.errors, error.line = line)
      : ∃ error ∈ u.errors, error.line = line := by
    obtain ⟨error, member, line_eq⟩ := reported
    exact ⟨error, keeps.errors member, line_eq⟩
  cases entry with
  | rule r => exact keeps.recurrences r.name shows
  | error error => exact keeps.errors shows
  | zone name record => exact shows.imp (keeps.zones name record) kept_error
  | link link => exact shows.imp (keeps.links link.name link) kept_error

theorem shows_add (t : Tables) (entry : Entry) : (t.add entry).Shows entry := by
  cases entry with
  | rule r =>
      rw [Shows, recurrencesOf_add, Entry.recurrence?, if_pos rfl]
      exact List.mem_append_right _ (List.mem_singleton_self r)
  | error error => exact List.mem_append_right _ (List.mem_singleton_self error)
  | zone name record =>
      simp only [Shows, add, addZone]
      split
      case isTrue => exact .inr ⟨_, List.mem_append_right _ (List.mem_singleton_self _), rfl⟩
      case isFalse new => exact .inl (Table.get?_append_new new record)
  | link link =>
      simp only [Shows, add, addLink]
      split
      case isTrue => exact .inr ⟨_, List.mem_append_right _ (List.mem_singleton_self _), rfl⟩
      case isFalse new => exact .inl (Table.get?_append_new new link)

/-- Every entry comes to something, by induction on the entries. -/
theorem shows_addAll {entries : List Entry} (member : entry ∈ entries) (t : Tables)
    : (t.addAll entries).Shows entry := by
  have kept (u : Tables) (later : List Entry) (shows : u.Shows entry)
      : (u.addAll later).Shows entry := by
    induction later generalizing u with
    | nil => exact shows
    | cons next rest ih => exact ih (u.add next) (shows.keeps (u.keeps_add next))
  induction entries generalizing t with
  | nil => cases member
  | cons first rest ih =>
      rcases List.mem_cons.mp member with rfl | later
      · exact kept _ rest (t.shows_add entry)
      · exact ih later _

theorem mentions_report {error : LineError} {line : Nat}
    (mentions : (t.report error).Mentions line)
    : t.Mentions line ∨ error.line = line := by
  rcases mentions with ⟨other, member, told⟩ | others
  · rcases List.mem_append.mp member with before | same
    · exact .inl (.inl ⟨other, before, told⟩)
    · exact .inr (List.mem_singleton.mp same ▸ told)
  · exact .inl (.inr others)

theorem mentions_add {line : Nat} (mentions : (t.add entry).Mentions line)
    : t.Mentions line ∨ entry.line? = some line := by
  cases entry with
  | rule r => exact .inl mentions
  | error error => exact (mentions_report mentions).imp_right (congrArg some)
  | zone name record =>
      simp only [add, addZone] at mentions
      split at mentions
      · exact (mentions_report mentions).imp_right (congrArg some)
      · rcases mentions with reported | ⟨entry, member, told⟩ | linked
        · exact .inl (.inl reported)
        · rcases List.mem_append.mp member with before | same
          · exact .inl (.inr (.inl ⟨entry, before, told⟩))
          · rw [List.mem_singleton.mp same] at told
            exact .inr (congrArg some told)
        · exact .inl (.inr (.inr linked))
  | link link =>
      simp only [add, addLink] at mentions
      split at mentions
      · exact (mentions_report mentions).imp_right (congrArg some)
      · rcases mentions with reported | zoned | ⟨entry, member, told⟩
        · exact .inl (.inl reported)
        · exact .inl (.inr (.inl zoned))
        · rcases List.mem_append.mp member with before | same
          · exact .inl (.inr (.inr ⟨entry, before, told⟩))
          · rw [List.mem_singleton.mp same] at told
            exact .inr (congrArg some told)

/-- The lines that tables tell are those of their entries. -/
theorem mentions_addAll {line : Nat} {entries : List Entry}
    (mentions : (t.addAll entries).Mentions line)
    : t.Mentions line ∨ ∃ entry ∈ entries, entry.line? = some line := by
  induction entries generalizing t with
  | nil => exact .inl mentions
  | cons first rest ih =>
      rcases ih mentions with before | ⟨entry, member, told⟩
      · exact (mentions_add before).imp_right fun told => ⟨first, List.mem_cons_self .., told⟩
      · exact .inr ⟨entry, List.mem_cons_of_mem _ member, told⟩

end Tables

end CivilTime
