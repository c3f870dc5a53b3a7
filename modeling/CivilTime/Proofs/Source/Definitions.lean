import CivilTime.Proofs.Source.Accounts
import CivilTime.Proofs.Source.Refusals

/-! The definitions of zone and link names in a source.
They stand in the order of their lines. The tables define the names that any of them defines, and
report each definition of a name that one in front of it defines.
-/

namespace CivilTime

/-- What a name stands for. A zone and a link may have the same name. -/
inductive NameKind where
  | zone | link
  deriving DecidableEq, Repr

/-- The definition of a name, on the header of a zone or the line of a link. -/
structure Definition where
  file : String
  kind : NameKind
  name : String
  line : Nat
  deriving DecidableEq, Repr

namespace Definition

/-- The name with what it stands for. -/
def key (d : Definition) : NameKind × String := (d.kind, d.name)

/-- The error for a definition whose name is taken. -/
def clash (d : Definition) : LineError := { line := d.line, fault := .duplicateName d.name }

/-- The definitions of names that are known, or that one in front of them defines. -/
def further (known : List (NameKind × String)) : List Definition → List Definition
  | [] => []
  | d :: rest => (if d.key ∈ known then [d] else []) ++ further (known ++ [d.key]) rest

theorem further_append (known : List (NameKind × String)) (front back : List Definition)
    : further known (front ++ back)
      = further known front ++ further (known ++ front.map key) back := by
  induction front generalizing known with
  | nil => simp [further]
  | cons d rest ih => simp [further, ih]

theorem further_subset (known : List (NameKind × String)) (definitions : List Definition)
    : further known definitions ⊆ definitions := by
  induction definitions generalizing known with
  | nil => exact List.Subset.refl []
  | cons d rest ih =>
      refine List.append_subset.mpr ⟨?_, List.subset_cons_of_subset d (ih _)⟩
      split <;> simp

end Definition

/-- The definition of the name of a zone or a link. -/
def Entry.definition? (file : String) : Entry → Option Definition
  | .zone name record => some { file, kind := .zone, name, line := record.line }
  | .link l => some { file, kind := .link, name := l.name, line := l.line }
  | _ => none

/-- The definitions in the text of a file, in order. -/
def Definition.listOf (file text : String) : List Definition :=
  (Entry.listOf text).filterMap (Entry.definition? file)

-----------------------------------------------------------------------------------------
-- Lines
-----------------------------------------------------------------------------------------

/-- A definition stands on the header of a zone whose lines make up a record, or on the line of a
link, with no zone open in front of it. -/
inductive Definition.Stands (file text : String) : Definition → Prop
  | zone {position : Nat} {name : String} {record : ZoneRecord}
    (idle : OpenZone.inFrontOf text position = .idle)
    (completes : Completes (Text.columnLines text) position name record)
    : Stands file text { file, kind := .zone, name, line := position + 1 }
  | link {position : Nat} {columns : List String} {link : Link}
    (idle : OpenZone.inFrontOf text position = .idle)
    (found : (Text.columnLines text)[position]? = some columns)
    (read : Record.onLine false (position + 1) columns = .ok (some (.link link)))
    : Stands file text { file, kind := .link, name := link.name, line := position + 1 }

section Lines

variable {file text name : String} {position : Nat} {d : Definition} {record : ZoneRecord}
  {columns : List String}

theorem Definition.stands_of_completes
    (idle : OpenZone.before (Text.columnLines text) position = .idle)
    (completes : Completes (Text.columnLines text) position name record)
    : Stands file text { file, kind := .zone, name, line := record.line } := by
  have idle := (OpenZone.inFrontOf_eq text position).trans idle
  exact completes.line_eq ▸ .zone idle completes

theorem Definition.stands_of_at? {entry : Entry}
    (added : Entry.at? (Text.columnLines text) position = some entry)
    (defines : entry.definition? file = some d)
    : Stands file text d := by
  cases found : (Text.columnLines text)[position]? with
  | none => rw [Entry.at?, found] at added; cases added
  | some columns =>
      obtain ⟨inside, -⟩ := List.getElem?_eq_some_iff.mp found
      have step := OpenZone.step_at found
      rw [added] at step
      generalize OpenZone.before (Text.columnLines text) (position + 1) = behind at step
      generalize zone_eq : OpenZone.before (Text.columnLines text) position = zone at step
      cases step with
      | refused => cases defines
      | rule => cases defines
      | link read =>
          cases defines
          cases Record.shape_of_onLine read with
          | link numbered =>
              have idle := (OpenZone.inFrontOf_eq text position).trans zone_eq
              exact numbered ▸ .link idle found read
      | single read endless =>
          cases defines
          exact stands_of_completes zone_eq (.single found read endless)
      | closed read endless =>
          cases defines
          obtain ⟨start, _, idle, awaits⟩ := OpenZone.awaits_of_before inside.le zone_eq
          exact stands_of_completes idle (.closed awaits found read endless)

/-- A line that is a link adds it. -/
theorem Entry.at?_of_link {lines : List (List String)} {link : Link}
    (idle : OpenZone.before lines position = .idle) (found : lines[position]? = some columns)
    (read : Record.onLine false (position + 1) columns = .ok (some (.link link)))
    : at? lines position = some (.link link) := by
  rw [at?_eq found, idle, OpenZone.takeLine_eq (by simp) (Record.ne_nil_of_onLine read),
    OpenZone.takeColumns, OpenZone.expectsLine, read]
  rfl

/-- The lines of a zone add its record. -/
theorem Entry.mem_listOf_of_completes
    (idle : OpenZone.before (Text.columnLines text) position = .idle)
    (completes : Completes (Text.columnLines text) position name record)
    : .zone name record ∈ listOf text := by
  cases completes with
  | single found read endless =>
      apply mem_listOf_of_at?
      rw [at?_eq found, idle, OpenZone.takeLine_eq (by simp) (Record.ne_nil_of_onLine read)]
      simp only [OpenZone.takeColumns, OpenZone.expectsLine, read, OpenZone.takeRecord,
        OpenZone.takeZone, endless, if_true]
  | closed awaits found read endless =>
      apply mem_listOf_of_at?
      rw [at?_eq found, awaits.before_eq idle,
        OpenZone.takeLine_eq (by simp) (Record.ne_nil_of_onLine read)]
      simp only [OpenZone.takeColumns, OpenZone.expectsLine, read, OpenZone.takeRecord,
        OpenZone.takeZone, endless, if_true]
  | unfinished awaits =>
      rw [mem_listOf_iff, awaits.before_eq idle]
      exact .inr (List.mem_singleton_self _)

/-- The definitions of a text are those that stand in it. -/
theorem Definition.mem_listOf_iff : d ∈ listOf file text ↔ Stands file text d := by
  rw [listOf, List.mem_filterMap]
  constructor
  · rintro ⟨entry, member, defines⟩
    rcases Entry.mem_listOf_iff.mp member with ⟨position, added⟩ | closing
    · exact stands_of_at? added defines
    · generalize zone_eq : OpenZone.before _ _ = zone at closing
      cases zone with
      | idle => cases closing
      | discarding => cases closing
      | collecting name record =>
          obtain rfl := List.mem_singleton.mp closing
          cases defines
          obtain ⟨start, _, idle, awaits⟩ := OpenZone.awaits_of_before le_rfl zone_eq
          exact stands_of_completes idle (.unfinished awaits)
  · rintro (⟨idle, completes⟩ | ⟨idle, found, read⟩)
    · rw [OpenZone.inFrontOf_eq] at idle
      refine ⟨_, Entry.mem_listOf_of_completes idle completes, ?_⟩
      rw [Entry.definition?, completes.line_eq]
    · rw [OpenZone.inFrontOf_eq] at idle
      refine ⟨_, Entry.mem_listOf_of_at? (Entry.at?_of_link idle found read), ?_⟩
      cases Record.shape_of_onLine read with
      | link numbered => rw [Entry.definition?, numbered]

/-- The lines of definitions increase up to a position, and are in front of the zone that is open
there. -/
structure Definition.Ordered (definitions : List Definition) (position : Nat) (zone : OpenZone)
    : Prop where
  increasing : definitions.Pairwise (·.line < ·.line)
  passed : ∀ d ∈ definitions, d.line ≤ position
  header
    : ∀ name record, zone = .collecting name record
        → record.line ≤ position ∧ ∀ d ∈ definitions, d.line < record.line

namespace Definition.Ordered

variable {definitions : List Definition} {zone behind : OpenZone}

/-- A line without a definition keeps the order if it opens no zone in front of itself. -/
theorem withoutEntry (ordered : Ordered definitions position zone)
    (header
      : ∀ name record, behind = .collecting name record
          → record.line = position + 1
            ∨ ∃ former, zone = .collecting name former ∧ record.line = former.line)
    : Ordered (definitions ++ []) (position + 1) behind := by
  rw [List.append_nil]
  refine ⟨ordered.increasing, fun d member => Nat.le_succ_of_le (ordered.passed d member), ?_⟩
  intro name record behind_eq
  rcases header name record behind_eq with line_eq | ⟨former, zone_eq, line_eq⟩
  · exact ⟨line_eq.le, fun d member => line_eq ▸ Nat.lt_succ_of_le (ordered.passed d member)⟩
  · obtain ⟨le, below⟩ := ordered.header name former zone_eq
    exact ⟨line_eq ▸ Nat.le_succ_of_le le, line_eq ▸ below⟩

/-- A definition behind the others keeps the order if no zone is open behind it. -/
theorem snoc (ordered : Ordered definitions position zone) (d : Definition)
    (below : ∀ other ∈ definitions, other.line < d.line) (passed : d.line ≤ position + 1)
    : Ordered (definitions ++ [d]) (position + 1) .idle where
  increasing := by
    refine List.pairwise_append.mpr ⟨ordered.increasing, List.pairwise_singleton _ _, ?_⟩
    simpa using below
  passed := by
    intro other member
    rcases List.mem_append.mp member with former | last
    · exact (ordered.passed other former).trans (Nat.le_succ _)
    · exact List.mem_singleton.mp last ▸ passed
  header := by simp

theorem step {entry : Option Entry} (ordered : Ordered definitions position zone)
    (step : OpenZone.Step (position + 1) columns zone behind entry)
    : Ordered (definitions ++ entry.toList.filterMap (Entry.definition? file)) (position + 1)
        behind := by
  have here (d : Definition) (line_eq : d.line = position + 1)
      : Ordered (definitions ++ [d]) (position + 1) .idle :=
    ordered.snoc d (fun other member => line_eq ▸ Nat.lt_succ_of_le (ordered.passed other member))
      line_eq.le
  cases step with
  | blank => exact ordered.withoutEntry fun _ record same => .inr ⟨record, same, rfl⟩
  | passed => exact ordered.withoutEntry (by simp)
  | passedLast => exact ordered.withoutEntry (by simp)
  | rule => exact ordered.withoutEntry (by simp)
  | refused _ _ behind_eq =>
      exact ordered.withoutEntry fun name record same =>
        absurd (behind_eq.symm.trans same) (OpenZone.afterRefused_ne_collecting _ _ name record)
  | header read =>
      refine ordered.withoutEntry fun _ _ same => .inl ?_
      cases same
      cases Record.shape_of_onLine read with
      | header numbered => exact numbered
  | @further name record =>
      refine ordered.withoutEntry fun _ _ same => .inr ?_
      cases same
      exact ⟨record, rfl, rfl⟩
  | link read =>
      cases Record.shape_of_onLine read with
      | link numbered => exact here _ numbered
  | single read =>
      cases Record.shape_of_onLine read with
      | header numbered => exact here _ numbered
  | @closed name record =>
      obtain ⟨le, below⟩ := ordered.header name record rfl
      exact ordered.snoc _ below (le.trans (Nat.le_succ _))

/-- The definitions of the first lines are in order, by induction on the number of lines. -/
theorem of_take (file : String) {lines : List (List String)} (inside : position ≤ lines.length)
    : Ordered ((OpenZone.idle.run 0 (lines.take position)).2.filterMap (Entry.definition? file))
        position (OpenZone.before lines position) := by
  induction position with
  | zero => exact ⟨.nil, by simp [OpenZone.run], by simp [OpenZone.before, OpenZone.run]⟩
  | succ position ih =>
      have found := List.getElem?_eq_getElem (l := lines) inside
      rw [OpenZone.run_take_succ found, List.filterMap_append]
      exact (ih (Nat.le_of_succ_le inside)).step (OpenZone.step_at found)

end Definition.Ordered

/-- The definitions of a text are in the order of their lines. -/
theorem Definition.increasing_listOf (file text : String)
    : (listOf file text).Pairwise (·.line < ·.line) := by
  have ordered := Ordered.of_take file (Nat.le_refl (Text.columnLines text).length)
  have behind_eq
      : (OpenZone.idle.run 0 (Text.columnLines text)).1
        = OpenZone.before (Text.columnLines text) (Text.columnLines text).length := by
    rw [OpenZone.before, List.take_length]
  rw [List.take_length] at ordered
  rw [listOf, Entry.listOf, List.filterMap_append, behind_eq]
  generalize OpenZone.before _ _ = zone at ordered ⊢
  cases zone with
  | idle => exact (List.append_nil _).symm ▸ ordered.increasing
  | discarding => exact (List.append_nil _).symm ▸ ordered.increasing
  | collecting name record =>
      obtain ⟨-, below⟩ := ordered.header name record rfl
      refine List.pairwise_append.mpr ⟨ordered.increasing, List.pairwise_singleton _ _, ?_⟩
      intro d member last last_member
      rw [List.mem_singleton.mp last_member]
      exact below d member

-----------------------------------------------------------------------------------------
-- Tables
-----------------------------------------------------------------------------------------

/-- No line of a text is refused for a name that is defined again. -/
theorem Entry.isDuplicate_of_mem {error : LineError} (member : .error error ∈ listOf text)
    : error.fault.isDuplicate = false := by
  rcases mem_listOf_iff.mp member with ⟨position, added⟩ | closing
  · cases found : (Text.columnLines text)[position]? with
    | none => rw [at?, found] at added; cases added
    | some columns =>
        have step := OpenZone.step_at found
        rw [added] at step
        generalize OpenZone.before (Text.columnLines text) (position + 1) = behind at step
        generalize OpenZone.before (Text.columnLines text) position = zone at step
        cases step with
        | refused _ read => exact Record.isDuplicate_of_onLine read
  · generalize OpenZone.before _ _ = zone at closing
    cases zone <;> simp [OpenZone.closing] at closing

end Lines

/-- A name that a table contains, if need be because it has been appended. -/
theorem Table.contains_of_new {α : Type} (table : Table α) (name : String) (value : α)
    (other : String)
    : Table.contains (if table.contains name then table else table ++ [(name, value)]) other
      = (table.contains other || decide (other = name)) := by
  split
  case isTrue taken =>
    by_cases same : other = name
    · simp [same, taken]
    · simp [same]
  case isFalse => rw [contains_append, contains_singleton]

namespace Tables

variable {t : Tables} {file : String} {entries : List Entry} {known : List (NameKind × String)}

/-- Whether tables have a zone or link of a name. -/
def defines (t : Tables) : NameKind × String → Bool
  | (.zone, name) => t.zones.contains name
  | (.link, name) => t.links.contains name

/-- The names that tables define are the ones that are known. -/
def Knows (t : Tables) (known : List (NameKind × String)) : Prop :=
  ∀ key, t.defines key = true ↔ key ∈ known

theorem knows_empty : empty.Knows [] := by
  rintro ⟨_ | _, name⟩ <;> simp [defines, empty, Table.contains, Table.get?]

theorem contains_addZone (t : Tables) (name : String) (record : ZoneRecord) (other : String)
    : (t.addZone name record).zones.contains other
      = (t.zones.contains other || decide (other = name)) := by
  have added
      : (t.addZone name record).zones
        = if t.zones.contains name then t.zones else t.zones ++ [(name, record)] := by
    unfold addZone
    split <;> rfl
  rw [added, Table.contains_of_new]

theorem contains_addLink (t : Tables) (link : Link) (other : String)
    : (t.addLink link).links.contains other
      = (t.links.contains other || decide (other = link.name)) := by
  have added
      : (t.addLink link).links
        = if t.links.contains link.name then t.links else t.links ++ [(link.name, link)] := by
    unfold addLink
    split <;> rfl
  rw [added, Table.contains_of_new]

/-- A definition makes its name known. -/
theorem Knows.add (knows : t.Knows known) (file : String) (entry : Entry)
    : (t.add entry).Knows (known ++ (entry.definition? file).toList.map Definition.key) := by
  rintro ⟨kind, other⟩
  rw [List.mem_append, ← knows]
  cases entry with
  | rule r => simp [Entry.definition?, Tables.add, addRule, defines]
  | error error => simp [Entry.definition?, Tables.add, report, defines]
  | zone name record =>
      cases kind with
      | zone => simp [Entry.definition?, Tables.add, defines, contains_addZone, Definition.key]
      | link =>
          have same : (t.addZone name record).links = t.links := by
            unfold addZone
            split <;> rfl
          simp [Entry.definition?, Tables.add, defines, same, Definition.key]
  | link l =>
      cases kind with
      | link => simp [Entry.definition?, Tables.add, defines, contains_addLink, Definition.key]
      | zone =>
          have same : (t.addLink l).zones = t.zones := by
            unfold addLink
            split <;> rfl
          simp [Entry.definition?, Tables.add, defines, same, Definition.key]

/-- A definition is reported if its name is taken. -/
theorem errors_add {entry : Entry} {d : Definition} (defined : entry.definition? file = some d)
    (t : Tables)
    : (t.add entry).errors = t.errors ++ if t.defines d.key then [d.clash] else [] := by
  cases entry with
  | rule r => cases defined
  | error error => cases defined
  | zone name record =>
      cases defined
      have taken_eq : t.defines (.zone, name) = t.zones.contains name := rfl
      simp only [Tables.add, addZone, Definition.key, taken_eq]
      split <;> simp [*, report, Definition.clash]
  | link l =>
      cases defined
      have taken_eq : t.defines (.link, l.name) = t.links.contains l.name := rfl
      simp only [Tables.add, addLink, Definition.key, taken_eq]
      split <;> simp [*, report, Definition.clash]

/-- What an entry has reported for a name that is defined again is its definition, if the name is
known. -/
theorem Knows.duplicates_add (knows : t.Knows known) (file : String) {entry : Entry}
    (plain : ∀ error, entry = .error error → error.fault.isDuplicate = false)
    : (t.add entry).errors.filter (·.fault.isDuplicate)
      = t.errors.filter (·.fault.isDuplicate)
        ++ (Definition.further known (entry.definition? file).toList).map Definition.clash := by
  cases defined : entry.definition? file with
  | some d =>
      rw [errors_add defined, List.filter_append]
      by_cases member : d.key ∈ known
      · have taken := (knows d.key).mpr member
        simp [taken, member, Definition.further, Definition.clash, LineFault.isDuplicate]
      · have new : t.defines d.key = false :=
          Bool.eq_false_of_not_eq_true fun taken => member ((knows d.key).mp taken)
        simp [new, member, Definition.further]
  | none =>
      cases entry with
      | rule r => exact (List.append_nil _).symm
      | error error =>
          have unreported := plain error rfl
          simp [Tables.add, report, unreported, Definition.further]
      | zone name record => cases defined
      | link l => cases defined

/-- Definitions make their names known, by induction on the entries. -/
theorem Knows.addAll (knows : t.Knows known) (file : String) (entries : List Entry)
    : (t.addAll entries).Knows
        (known ++ (entries.filterMap (Entry.definition? file)).map Definition.key) := by
  induction entries generalizing t known with
  | nil => simpa using knows
  | cons entry rest ih =>
      have added := ih (knows.add file entry)
      rw [addAll_cons, List.filterMap_cons]
      cases defined : entry.definition? file <;> simpa [defined] using added

/-- Entries are reported if they are definitions of names that are known in front of them. The
induction is on the entries. -/
theorem Knows.duplicates_addAll (knows : t.Knows known) (file : String)
    (plain : ∀ error, .error error ∈ entries → error.fault.isDuplicate = false)
    : (t.addAll entries).errors.filter (·.fault.isDuplicate)
      = t.errors.filter (·.fault.isDuplicate)
        ++ (Definition.further known (entries.filterMap (Entry.definition? file))).map
          Definition.clash := by
  induction entries generalizing t known with
  | nil => simp [Definition.further]
  | cons entry rest ih =>
      obtain ⟨here, later⟩ : (∀ error, entry = .error error → error.fault.isDuplicate = false)
          ∧ ∀ error, .error error ∈ rest → error.fault.isDuplicate = false :=
        ⟨fun error same => plain error (by simp [same]),
          fun error member => plain error (List.mem_cons_of_mem _ member)⟩
      rw [addAll_cons, ih (knows.add file entry) later, knows.duplicates_add file here,
        List.filterMap_cons]
      cases entry.definition? file with
      | none => simp [Definition.further]
      | some d => simp [Definition.further]

end Tables

end CivilTime
