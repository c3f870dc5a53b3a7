import CivilTime.Proofs.Outcome
import CivilTime.Proofs.Rule.Stream
import CivilTime.Zone.Compilation

/-! What a zone record is refused for.
A record that does not compile has a fault of its own lines, formats or rules. The faults of refused
lines and of links that lead to no zone come from elsewhere, so a report can be told apart by them.
-/

namespace CivilTime

/-- The faults for which a zone record does not compile. -/
def Fault.isOfZone : Fault → Bool
  | .simultaneousTransitions .. | .malformedZone .. | .badNameFormat _ | .searchExhausted .. => true
  | .malformedRecord _ | .unknownZone .. => false

/-- The faults of rules and of name formats, which say nothing about the lines of a zone. -/
def Fault.isOfRules : Fault → Bool
  | .simultaneousTransitions .. | .badNameFormat _ | .searchExhausted .. => true
  | .malformedZone .. | .malformedRecord _ | .unknownZone .. => false

theorem Fault.isOfZone_of_isOfRules {fault : Fault} (of_rules : fault.isOfRules = true)
    : fault.isOfZone = true := by
  cases fault <;> first | rfl | cases of_rules

/-- A step that fails does so with a fault of a kind. -/
structure FailsBy {α : Type} (kind : Fault → Bool) (outcome : Except Fault α) : Prop where
  isOfKind : ∀ fault, outcome = .error fault → kind fault = true

section Steps

variable {α β : Type} {kind : Fault → Bool} {first : Except Fault α}

theorem FailsBy.ok (value : α) : FailsBy kind (.ok value) := ⟨fun _ failed => nomatch failed⟩

theorem FailsBy.error {fault : Fault} (of_kind : kind fault = true)
    : FailsBy kind (Except.error fault : Except Fault α) := by
  refine ⟨?_⟩
  rintro _ ⟨⟩
  exact of_kind

theorem FailsBy.bind {rest : α → Except Fault β} (here : FailsBy kind first)
    (later : ∀ value, FailsBy kind (rest value))
    : FailsBy kind (first >>= rest) := by
  refine ⟨fun fault failed => ?_⟩
  rcases bind_eq_error.mp failed with failed | ⟨value, _, failed⟩
  · exact here.isOfKind fault failed
  · exact (later value).isOfKind fault failed

theorem FailsBy.map {change : α → β} (here : FailsBy kind first)
    : FailsBy kind (first.map change) := by
  cases first with
  | ok value => exact .ok _
  | error fault => exact .error (here.isOfKind fault rfl)

/-- The faults of rules and of formats are among those of zones. -/
theorem FailsBy.ofZone (here : FailsBy Fault.isOfRules first) : FailsBy Fault.isOfZone first :=
  ⟨fun fault failed => Fault.isOfZone_of_isOfRules (here.isOfKind fault failed)⟩

end Steps

-----------------------------------------------------------------------------------------
-- Rules
-----------------------------------------------------------------------------------------

theorem NameFormat.apply_failsOfRules (format : NameFormat) (stdOffset savings : Int)
    (letter : Option String)
    : FailsBy Fault.isOfRules (format.apply stdOffset savings letter) := by
  unfold apply
  split
  · exact .ok _
  · exact .error rfl

theorem Recurrence.nextFromYear_failsOfRules (r : Recurrence)
    (after stdOffset savings minYear : Int)
    : FailsBy Fault.isOfRules (r.nextFromYear after stdOffset savings minYear) := by
  refine ⟨fun fault failed => ?_⟩
  rw [(searchForward_error failed).1]
  rfl

theorem RuleSet.nextAfterYears_failsOfRules (rules : RuleSet) (after stdOffset savings : Int)
    (used : List (Option Int))
    : FailsBy Fault.isOfRules (rules.nextAfterYears after stdOffset savings used) := by
  refine ⟨fun fault failed => ?_⟩
  rcases nextAfterYears_error failed with ⟨_, _, _, _, _, _, _, rfl⟩ | ⟨index, r, _, failed⟩
  · rfl
  · unfold candidate? at failed
    split at failed
    · cases failed
    · exact (r.nextFromYear_failsOfRules ..).map.isOfKind fault failed

/-- The failures of a stream are faults of rules, by induction on the limit of its items. -/
theorem Stream.isOfRules_of_mem_itemsUpTo {limit : Nat} {s : Stream} {fault : Fault}
    (member : .error fault ∈ itemsUpTo limit s)
    : fault.isOfRules = true := by
  induction limit generalizing s with
  | zero => simp [itemsUpTo] at member
  | succ limit ih =>
      rcases step : s.next? with ⟨_ | item, rest⟩
      · simp [itemsUpTo, step] at member
      · rw [itemsUpTo_of_some step] at member
        rcases List.mem_cons.mp member with rfl | later
        · exact (s.rules.nextAfterYears_failsOfRules ..).isOfKind fault (next?_error step).2.1
        · exact ih later

/-- A visit of a stream fails of a kind that has the faults of rules if the visitor does. The
induction is on the items. -/
theorem Stream.visit_failsBy {kind : Fault → Bool} {σ ρ : Type}
    {visitor : σ → Transition → Except Fault (Visit σ ρ)}
    (of_rules : ∀ fault, fault.isOfRules = true → kind fault = true)
    (visits : ∀ state t, FailsBy kind (visitor state t)) (s : Stream) (state : σ)
    : FailsBy kind (s.visit visitor state) := by
  rw [visit, visitUpTo_eq]
  have failures (fault : Fault) (member : .error fault ∈ itemsUpTo s.lengthBound s) :=
    of_rules fault (isOfRules_of_mem_itemsUpTo member)
  generalize itemsUpTo s.lengthBound s = items at failures
  induction items generalizing state with
  | nil => exact .ok _
  | cons item others ih =>
      cases item with
      | error fault => exact .error (failures fault (by simp))
      | ok t =>
          unfold visitItems
          cases visited : visitor state t with
          | error fault => exact .error ((visits state t).isOfKind fault visited)
          | ok outcome =>
              cases outcome with
              | done result => exact .ok _
              | running next =>
                  exact ih next fun fault member => failures fault (by simp [member])

theorem RuleSet.stateAt_failsOfRules (rules : RuleSet) (instant stdOffset : Int)
    (previous : Option LineOffsets)
    : FailsBy Fault.isOfRules (rules.stateAt instant stdOffset previous) := by
  unfold stateAt
  split
  · exact .ok _
  · refine .bind ?_ fun (last, following) => ?_
    · refine .bind (Stream.visit_failsBy (fun _ => id) (fun _ _ => .ok _) ..) fun visited => ?_
      cases visited <;> exact .ok _
    · dsimp only
      split
      · split
        · refine .bind ?_ fun _ => .ok _
          exact .bind (Recurrence.nextFromYear_failsOfRules ..).map fun _ => .ok _
        · exact .ok _
      · exact .ok _

-----------------------------------------------------------------------------------------
-- Lines
-----------------------------------------------------------------------------------------

namespace Compilation

variable (zone : String) (line : ZoneLine)

theorem pushSpan_failsOfZone (timeline : Timeline) (span : Interval)
    : FailsBy Fault.isOfZone (pushSpan zone timeline span) := by
  unfold pushSpan
  cases timeline.push span with
  | ok next => exact .ok _
  | error defect => exact .error rfl

theorem compileFixed_failsOfZone (progress : Progress) (savings : Int)
    : FailsBy Fault.isOfZone (compileFixed zone line progress savings) :=
  .bind (NameFormat.apply_failsOfRules ..).ofZone fun _ =>
    .bind (pushSpan_failsOfZone ..) fun _ => .ok _

theorem finish_failsOfZone (segment : Segment)
    : FailsBy Fault.isOfZone (segment.finish zone line) :=
  .bind (pushSpan_failsOfZone ..) fun _ => .ok _

theorem followChange_failsOfZone (rules : RuleSet) (cutoff : Option Int) (segment : Segment)
    (t : Transition)
    : FailsBy Fault.isOfZone (followChange zone line rules cutoff segment t) := by
  unfold followChange
  split
  · exact .ok _
  · refine .bind (pushSpan_failsOfZone ..) fun timeline => ?_
    refine .bind (NameFormat.apply_failsOfRules ..).ofZone fun name => ?_
    dsimp only
    split
    · split <;> exact .ok _
    · exact .ok _

theorem compileRules_failsOfZone (rules : RuleSet) (progress : Progress) (isLast : Bool)
    : FailsBy Fault.isOfZone (compileRules zone line rules progress isLast) := by
  refine .bind (rules.stateAt_failsOfRules ..).ofZone fun state => ?_
  refine .bind (NameFormat.apply_failsOfRules ..).ofZone fun name => ?_
  refine .bind
    (Stream.visit_failsBy (fun _ => Fault.isOfZone_of_isOfRules)
      (fun _ _ => followChange_failsOfZone ..) ..)
    fun visited => ?_
  match visited with
  | .running segment => exact finish_failsOfZone zone line segment
  | .done (.settled segment) => exact finish_failsOfZone zone line segment
  | .done (.tail timeline tail) => exact .ok _

theorem compileLine_failsOfZone (table : Table RuleSet) (progress : Progress) (isLast : Bool)
    : FailsBy Fault.isOfZone (compileLine zone table line progress isLast) := by
  unfold compileLine
  split
  · exact .error rfl
  · split
    · exact compileFixed_failsOfZone ..
    · exact compileFixed_failsOfZone ..
    · split
      · exact .error rfl
      · exact compileRules_failsOfZone ..

theorem complete_failsOfZone (timeline : Timeline) (tail : Option Tail)
    : FailsBy Fault.isOfZone (complete zone timeline tail) := by
  unfold complete
  split
  · exact .ok _
  · exact .error rfl

/-- Lines fail of a zone, by induction on the lines. -/
theorem compileLines_failsOfZone (table : Table RuleSet) (lines : List ZoneLine)
    (progress : Progress)
    : FailsBy Fault.isOfZone (compileLines zone table lines progress) := by
  induction lines generalizing progress with
  | nil => exact complete_failsOfZone ..
  | cons line rest ih =>
      refine .bind (compileLine_failsOfZone ..) fun lineEnd => ?_
      match lineEnd with
      | .next next => exact ih next
      | .tail timeline tail => exact complete_failsOfZone ..

end Compilation

/-- A record that does not compile has a fault of a zone. -/
theorem ZoneRecord.compile_failsOfZone (record : ZoneRecord) (name : String)
    (table : Table RuleSet)
    : FailsBy Fault.isOfZone (record.compile name table) := by
  unfold compile
  split
  · exact .error rfl
  · exact Compilation.compileLines_failsOfZone ..

end CivilTime
