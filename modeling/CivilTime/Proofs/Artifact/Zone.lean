import CivilTime.Proofs.Artifact.Decoder
import CivilTime.Proofs.Rule.Reach
import CivilTime.Proofs.Source.Column
import CivilTime.Proofs.Zone.Lookup
import CivilTime.Proofs.Zone.NameFormat

/-! Zones are read as they are written.
An encoder only adds strings behind those that are there, so the indices that it writes are good for
every later stage of the strings. What an encoder writes, the decoder of the same part takes back
under the strings at the end. The times of a recurrence come back as their seconds.
-/

namespace CivilTime

/-- The recurrence with its times written as seconds, which leaves a negative zero without its
sign. -/
def Recurrence.inSeconds (r : Recurrence) : Recurrence :=
  { r with
    time := { r.time with time := .ofSeconds r.time.time.seconds }
    save := .ofSeconds r.save.seconds }

/-- The tail with the times of its recurrences written as seconds. -/
def Tail.inSeconds (t : Tail) : Tail :=
  { t with rules := { t.rules with recurrences := t.rules.recurrences.map Recurrence.inSeconds } }

/-- The zone with the times of its tail's recurrences written as seconds. -/
def CompiledZone.inSeconds (z : CompiledZone) : CompiledZone :=
  { z with tail := z.tail.map Tail.inSeconds }

/-- A recurrence whose years and day fit into an artifact. -/
structure Recurrence.Encodable (r : Recurrence) : Prop where
  first : r.first.InRange
  last : r.last.InRange
  day : ∀ day ∈ r.day.namedDay?, day ≤ 255

/-- A tail that fits into an artifact. Its start is implied by the end of the last interval, and the
name of its rule set by the first recurrence. -/
structure Tail.Encodable (t : Tail) : Prop where
  start_lt : t.start < endOfTime
  stdOffset : Instant.Representable t.stdOffset
  initialSavings : Instant.Representable t.initialSavings
  format : ∃ source, t.format = .ofSource source
  named : t.rules.recurrences.head?.map (·.name) = some t.rules.name
  recurrences : ∀ r ∈ t.rules.recurrences, r.Encodable

/-- An interval whose instants and offsets are signed numbers of sixty-four bits. -/
structure Interval.Encodable (i : Interval) : Prop where
  start : Instant.Representable i.start
  stop : Instant.Representable i.stop
  stdOffset : Instant.Representable i.stdOffset
  savings : Instant.Representable i.savings
  wallOffset : Instant.Representable i.wallOffset

/-- A zone that fits into an artifact. Its tail starts where its intervals end. -/
structure CompiledZone.Encodable (z : CompiledZone) : Prop where
  contiguous : Contiguous z.intervals
  intervals : ∀ i ∈ z.intervals, i.Encodable
  tail : ∀ t ∈ z.tail, z.intervals.getLast?.map (·.stop) = some t.start ∧ t.Encodable

/-- Contiguous intervals start one behind the other. -/
theorem Contiguous.starts_increasing {intervals : List Interval}
    (contiguous : Contiguous intervals)
    : (intervals.map (·.start)).IsChain (· < ·) := by
  refine (List.pairwise_map.mpr ?_).isChain
  refine contiguous.ordered.imp_of_mem fun member _ le => ?_
  exact Int.lt_of_lt_of_le (contiguous.forward _ member) le

/-- Intervals that are read as they are written. Their starts increase from the beginning of time
on, each ends where the next one starts, and the last one is open or ends behind its start. -/
structure Storable (intervals : List Interval) : Prop where
  start_eq : intervals.head?.map (·.start) = some beginningOfTime
  increasing : (intervals.map (·.start)).IsChain (· < ·)
  touching : intervals.IsChain fun i j => i.stop = j.start
  ended : ∀ last ∈ intervals.getLast?, last.isOpen = true ∨ last.start < last.stop
  encodable : ∀ i ∈ intervals, i.Encodable

theorem CompiledZone.Encodable.storable {z : CompiledZone} (encodable : z.Encodable)
    : Storable z.intervals where
  start_eq := encodable.contiguous.start_eq
  increasing := encodable.contiguous.starts_increasing
  touching := encodable.contiguous.touching
  ended last last_eq :=
    .inr (encodable.contiguous.forward last (List.mem_of_getLast? last_eq))
  encodable := encodable.intervals

/-- The end that is written for intervals, which an open last one leaves out. -/
def explicitEnd (intervals : List Interval) : Option Int :=
  intervals.getLast?.bind fun last => if last.isOpen then none else some last.stop

namespace Artifact

-----------------------------------------------------------------------------------------
-- Strings
-----------------------------------------------------------------------------------------

/-- An encoder keeps the strings that are there. -/
def Keeps {α : Type} (encoder : Encoder α) : Prop :=
  ∀ strings, strings <+: (encoder.run strings).2

/-- A decoder takes a value from what an encoder writes, under any strings that those behind the
encoder begin. -/
def Encodes {α : Type} (encoder : Encoder (List UInt8)) (decoder : Strings → Decoder α) (value : α)
    : Prop :=
  ∀ strings final,
    (encoder.run strings).2 <+: final
    → final.length < 2 ^ 64
    → Decodes (decoder final) (encoder.run strings).1 value

/-- A string keeps its index when strings are added. -/
theorem getElem?_of_prefix {strings final : Strings} {index : Nat} {s : String}
    (within : strings <+: final) (found : strings[index]? = some s)
    : final[index]? = some s := by
  obtain ⟨added, rfl⟩ := within
  rw [List.getElem?_append_left (List.getElem?_eq_some_iff.mp found).1, found]

/-- A string that is there has its index, and a new one is added behind the others. -/
theorem run_intern (s : String) (strings : Strings)
    : (Encoder.intern s).run strings
      = match strings.idxOf? s with
        | some index => (index, strings)
        | none => (strings.length, strings ++ [s]) := by
  change StateT.run (match strings.idxOf? s with | some index => _ | none => _) strings = _
  cases strings.idxOf? s <;> rfl

/-- Giving a string its index keeps the strings. -/
theorem keeps_intern (s : String) : Keeps (Encoder.intern s) := by
  intro strings
  rw [run_intern]
  cases strings.idxOf? s with
  | some index => exact List.prefix_refl _
  | none => exact List.prefix_append _ _

/-- The index of a string leads to it. -/
theorem getElem?_intern (s : String) (strings : Strings)
    : ((Encoder.intern s).run strings).2[((Encoder.intern s).run strings).1]? = some s := by
  rw [run_intern]
  cases found : strings.idxOf? s with
  | some index =>
      obtain ⟨inside, same, _⟩ := List.idxOf?_eq_some_iff.mp found
      exact List.getElem?_eq_some_iff.mpr ⟨inside, same⟩
  | none => simp

/-- The index of a string leads to it among all later strings. -/
theorem intern_within (s : String) {strings final : Strings}
    (within : ((Encoder.intern s).run strings).2 <+: final)
    : ((Encoder.intern s).run strings).1 < final.length
      ∧ Decoder.stringAt final ((Encoder.intern s).run strings).1 = .ok s := by
  have found := getElem?_of_prefix within (getElem?_intern s strings)
  refine ⟨(List.getElem?_eq_some_iff.mp found).1, ?_⟩
  rw [Decoder.stringAt, found]

/-- A string is read as it is written. -/
theorem encodes_string (s : String) : Encodes (Encoder.string s) Decoder.string s := by
  intro strings final within fits
  obtain ⟨inside, found⟩ := intern_within s within
  exact (Decoder.decodes_varint (Nat.lt_trans inside fits)).bind_nil (decodes_ok found)

/-- Writing optional letters keeps the strings. -/
theorem keeps_letter (letter : Option String) : Keeps (Encoder.letter letter) := by
  cases letter with
  | none => exact List.prefix_refl
  | some s => exact keeps_intern s

/-- Optional letters are read as they are written. -/
theorem encodes_letter (letter : Option String)
    : Encodes (Encoder.letter letter) Decoder.letter letter := by
  intro strings final within fits
  cases letter with
  | none =>
      have zero : [0] = writeVarint 0 := by rw [writeVarint]; rfl
      change Decodes _ [0] none
      rw [zero]
      exact (Decoder.decodes_varint (by decide)).bind_nil (decodes_pure none)
  | some s =>
      obtain ⟨inside, found⟩ := intern_within s within
      have index_fits := Nat.lt_of_le_of_lt (Nat.succ_le_of_lt inside) fits
      exact (Decoder.decodes_varint index_fits).bind_nil
        ((decodes_ok found).bind_nil (decodes_pure _))

-----------------------------------------------------------------------------------------
-- Recurrences
-----------------------------------------------------------------------------------------

/-- A year bound is read as it is written. -/
theorem decodes_yearBound {bound : YearBound} (range : bound.InRange)
    : Decodes Decoder.yearBound (Encoder.yearBytes bound) bound := by
  cases bound with
  | earliest => exact (Decoder.decodes_byte rfl).bind_nil (decodes_pure _)
  | latest => exact (Decoder.decodes_byte rfl).bind_nil (decodes_pure _)
  | year y =>
      have bounds : -2147483648 ≤ y ∧ y ≤ 2147483647 := range
      have representable : Instant.Representable y := by
        unfold Instant.Representable beginningOfTime endOfTime
        omega
      refine Decodes.bind (Decoder.decodes_byte (b := 1) rfl) ?_
      refine (Decoder.decodes_signed representable).bind_nil ?_
      rw [if_pos bounds]
      exact decodes_pure _

/-- A month is read as it is written, by cases on the month. -/
theorem decodes_month (month : Month) : Decodes Decoder.month [month.number.toUInt8] month := by
  cases month <;> exact (Decoder.decodes_byte rfl).bind_nil (decodes_pure _)

/-- A week day is read as it is written, by cases on the week day. -/
theorem decodes_weekDay (weekDay : WeekDay)
    : Decodes Decoder.weekDay [weekDay.number.toUInt8] weekDay := by
  cases weekDay <;> exact (Decoder.decodes_byte rfl).bind_nil (decodes_pure _)

/-- A day of eight bits is read as it is written. -/
theorem decodes_day {day : Nat} (le : day ≤ 255) : Decodes Decoder.byte [day.toUInt8] day := by
  refine Decoder.decodes_byte ?_
  rw [Nat.toUInt8, UInt8.toNat_ofNat']
  omega

/-- A day rule is read as it is written, if its day has eight bits. -/
theorem decodes_dayRule {rule : DayRule} (small : ∀ day ∈ rule.namedDay?, day ≤ 255)
    : Decodes Decoder.dayRule (Encoder.dayBytes rule) rule := by
  cases rule with
  | fixed day =>
      refine Decodes.bind (Decoder.decodes_byte (b := 0) rfl) ?_
      exact (decodes_day (small day rfl)).map DayRule.fixed
  | last weekDay =>
      refine Decodes.bind (Decoder.decodes_byte (b := 1) rfl) ?_
      exact (decodes_weekDay weekDay).map DayRule.last
  | onOrAfter weekDay day =>
      refine Decodes.bind (Decoder.decodes_byte (b := 2) rfl) ?_
      refine (decodes_weekDay weekDay).bind ?_
      exact (decodes_day (small day rfl)).map (DayRule.onOrAfter weekDay)
  | onOrBefore weekDay day =>
      refine Decodes.bind (Decoder.decodes_byte (b := 3) rfl) ?_
      refine (decodes_weekDay weekDay).bind ?_
      exact (decodes_day (small day rfl)).map (DayRule.onOrBefore weekDay)

/-- The clock of a time of day is read as it is written, by cases on the clock. -/
theorem decodes_clockMode (mode : ClockMode)
    : Decodes Decoder.clockMode [Encoder.modeTag mode] mode := by
  cases mode <;> exact (Decoder.decodes_byte rfl).bind_nil (decodes_pure _)

/-- The seconds of a time of the clock have sixty-four bits. -/
theorem representable_seconds (t : ClockTime) : Instant.Representable t.seconds := by
  have := t.seconds_bounds
  unfold Instant.Representable beginningOfTime endOfTime
  omega

/-- Writing a recurrence keeps the strings. -/
theorem keeps_recurrence (r : Recurrence) : Keeps (Encoder.recurrence r) :=
  fun strings => (keeps_intern r.name strings).trans (keeps_letter r.letter _)

/-- A recurrence is read as it is written, up to the form of its times. -/
theorem encodes_recurrence {r : Recurrence} (encodable : r.Encodable)
    : Encodes (Encoder.recurrence r) Decoder.recurrence r.inSeconds := by
  intro strings final within fits
  have within_name := (keeps_letter r.letter ((Encoder.string r.name).run strings).2).trans within
  have name := encodes_string r.name strings final within_name fits
  have letter := encodes_letter r.letter _ final within fits
  change Decodes (Decoder.recurrence final) (_ ++ _ ++ _ ++ _ ++ _ ++ _ ++ _ ++ _ ++ _) _
  simp only [List.append_assoc]
  refine name.bind ((decodes_yearBound encodable.first).bind ?_)
  refine (decodes_yearBound encodable.last).bind ((decodes_month r.month).bind ?_)
  refine (decodes_dayRule encodable.day).bind ?_
  refine (Decoder.decodes_signed (representable_seconds _)).bind ?_
  refine (decodes_clockMode r.time.mode).bind ?_
  refine (Decoder.decodes_signed (representable_seconds _)).bind ?_
  exact letter.bind_nil (decodes_pure _)

-----------------------------------------------------------------------------------------
-- Lists
-----------------------------------------------------------------------------------------

section Each

variable {α : Type} {encode : α → Encoder (List UInt8)} {values : List α}

/-- Writing the values of a list keeps the strings, by induction on the values. -/
theorem keeps_each (keeps : ∀ v, Keeps (encode v)) (values : List α)
    : Keeps (Encoder.each encode values) := by
  induction values with
  | nil => exact List.prefix_refl
  | cons v rest ih => exact fun strings => (keeps v strings).trans (ih _)

/-- The bytes of a list are those of its values. What holds of the bytes of each value under the
strings at the end holds of all of them. The induction is on the values. -/
theorem each_parts {R : List UInt8 → α → Prop} {final : Strings} (keeps : ∀ v, Keeps (encode v))
    (each
      : ∀ v ∈ values, ∀ strings,
          ((encode v).run strings).2 <+: final → R ((encode v).run strings).1 v)
    (strings : Strings) (within : ((Encoder.each encode values).run strings).2 <+: final)
    : ∃ parts,
        ((Encoder.each encode values).run strings).1 = parts.flatten
        ∧ List.Forall₂ R parts values := by
  induction values generalizing strings with
  | nil => exact ⟨[], rfl, .nil⟩
  | cons v rest ih =>
      obtain ⟨first, later⟩ := List.forall_mem_cons.mp each
      obtain ⟨parts, parts_eq, related⟩ := ih later ((encode v).run strings).2 within
      refine ⟨((encode v).run strings).1 :: parts, ?_, .cons (first strings ?_) related⟩
      · rw [List.flatten_cons, ← parts_eq]
        rfl
      · exact (keeps_each keeps rest _).trans within

/-- Values of at least one byte are no more than their bytes, by induction on the values. -/
theorem length_le_each (some_byte : ∀ v strings, 0 < ((encode v).run strings).1.length)
    (values : List α) (strings : Strings)
    : values.length ≤ ((Encoder.each encode values).run strings).1.length := by
  induction values generalizing strings with
  | nil => exact Nat.zero_le _
  | cons v rest ih =>
      have first := some_byte v strings
      have later := ih ((encode v).run strings).2
      change rest.length + 1
        ≤ (((encode v).run strings).1
            ++ ((Encoder.each encode rest).run ((encode v).run strings).2).1).length
      rw [List.length_append]
      omega

end Each

-----------------------------------------------------------------------------------------
-- Tails
-----------------------------------------------------------------------------------------

/-- A recurrence takes at least one byte. -/
theorem recurrence_length_pos (r : Recurrence) (strings : Strings)
    : 0 < ((Encoder.recurrence r).run strings).1.length := by
  change 0 < (_ ++ _ ++ _ ++ [r.month.number.toUInt8] ++ _ ++ _ ++ _ ++ _ ++ _ : List UInt8).length
  simp only [List.length_append, List.length_singleton]
  omega

/-- Writing a tail keeps the strings. -/
theorem keeps_tail (t : Tail) : Keeps (Encoder.tail t) :=
  fun strings =>
    ((keeps_intern t.format.source strings).trans (keeps_letter t.initialLetter _)).trans
      (keeps_each keeps_recurrence _ _)

/-- A tail has no more recurrences than bytes. -/
theorem length_le_tail (t : Tail) (strings : Strings)
    : t.rules.recurrences.length ≤ ((Encoder.tail t).run strings).1.length := by
  change _ ≤ (_ ++ _ ++ _ ++ _ ++ _ ++ ((Encoder.each Encoder.recurrence _).run _).1).length
  rw [List.length_append]
  exact (length_le_each recurrence_length_pos _ _).trans (Nat.le_add_left ..)

/-- A tail is read as it is written, up to the form of its times, if its recurrences can be
counted. -/
theorem encodes_tail {t : Tail} (encodable : t.Encodable)
    (count : t.rules.recurrences.length < 2 ^ 64)
    : Encodes (Encoder.tail t) (fun strings => Decoder.tail strings t.start) t.inSeconds := by
  intro strings final within fits
  have within_letter := (keeps_each keeps_recurrence t.rules.recurrences _).trans within
  have within_format := (keeps_letter t.initialLetter _).trans within_letter
  have format := encodes_string t.format.source strings final within_format fits
  have letter := encodes_letter t.initialLetter _ final within_letter fits
  obtain ⟨parts, parts_eq, related⟩ :=
    each_parts (R := fun part r => Decodes (Decoder.recurrence final) part r.inSeconds)
      keeps_recurrence
      (fun r member strings within =>
        encodes_recurrence (encodable.recurrences r member) strings final within fits)
      _ within
  have many := Decoder.decodes_many (List.forall₂_map_right_iff.mpr related)
  rw [List.length_map] at many
  obtain ⟨source, format_eq⟩ := encodable.format
  change Decodes (Decoder.tail final t.start) (_ ++ _ ++ _ ++ _ ++ _ ++ _) _
  simp only [List.append_assoc]
  refine (Decoder.decodes_signed encodable.stdOffset).bind (format.bind ?_)
  refine (Decoder.decodes_signed encodable.initialSavings).bind (letter.bind ?_)
  refine (Decoder.decodes_varint count).bind ?_
  change Decodes _ ((Encoder.each Encoder.recurrence _).run _).1 _
  rw [parts_eq]
  refine many.bind_nil ?_
  obtain ⟨start, stdOffset, tail_format, initialSavings, initialLetter, name, recurrences⟩ := t
  cases recurrences with
  | nil => cases encodable.named
  | cons r rest =>
      cases encodable.named
      have kept : NameFormat.ofSource tail_format.source = tail_format := by
        rw [show tail_format = .ofSource source from format_eq, NameFormat.source_ofSource]
      simp only [List.map_cons, kept]
      exact decodes_pure _

-----------------------------------------------------------------------------------------
-- Intervals
-----------------------------------------------------------------------------------------

/-- Writing an interval keeps the strings. -/
theorem keeps_interval (i : Interval) : Keeps (Encoder.interval i) := keeps_intern i.name

/-- An interval takes at least one byte. -/
theorem interval_length_pos (i : Interval) (strings : Strings)
    : 0 < ((Encoder.interval i).run strings).1.length := by
  have some_byte := writeVarint_length_pos (foldSign i.wallOffset)
  change 0 < (writeVarint (foldSign i.wallOffset) ++ _ ++ _).length
  simp only [List.length_append]
  omega

/-- An interval is read as it is written, between any two instants. -/
theorem encodes_interval {i : Interval} (encodable : i.Encodable) (start stop : Int)
    : Encodes (Encoder.interval i) (fun strings => Decoder.interval strings start stop)
        { i with start, stop } := by
  intro strings final within fits
  have name := encodes_string i.name strings final within fits
  change Decodes (Decoder.interval final start stop) (_ ++ _ ++ _) _
  simp only [List.append_assoc]
  refine (Decoder.decodes_signed encodable.wallOffset).bind ?_
  refine (Decoder.decodes_signed encodable.savings).bind (name.bind_nil ?_)
  have standard : Instant.wrap (i.wallOffset - i.savings) = i.stdOffset := by
    rw [Interval.wallOffset, Int.add_sub_cancel]
    exact Instant.wrap_eq encodable.stdOffset
  rw [standard]
  exact decodes_pure _

/-- The starts of later intervals are read as they are written. Each is representable and lies
behind the one before it. The induction is on the intervals. -/
theorem decodes_starts {intervals : List Interval} {base last : Int} (taken : List Int)
    (representable : ∀ i ∈ intervals, Instant.Representable i.start)
    (increasing : (last :: intervals.map (·.start)).IsChain (· < ·))
    : Decodes (Decoder.starts base last taken intervals.length)
        (Encoder.startBytes base intervals) (taken.reverse ++ intervals.map (·.start)) := by
  induction intervals generalizing base last taken with
  | nil =>
      rw [List.map_nil, List.append_nil]
      exact decodes_pure _
  | cons i rest ih =>
      obtain ⟨here, later⟩ := List.forall_mem_cons.mp representable
      rw [List.map_cons, List.isChain_cons_cons] at increasing
      refine (Decoder.decodes_signed (Instant.representable_wrap _)).bind ?_
      rw [Instant.wrap_add_wrap here, if_neg (Int.not_le.mpr increasing.1), List.map_cons]
      have read := @ih i.start i.start (i.start :: taken) later increasing.2
      rwa [List.reverse_cons, List.append_assoc, List.singleton_append] at read

/-- The last one of some intervals is read as an open one. The induction is on the intervals behind
the first one. -/
theorem decodes_intervals {final : Strings} {first : Interval} {rest : List Interval}
    {parts : List (List UInt8)} (taken : List Interval)
    (touching : (first :: rest).IsChain fun i j => i.stop = j.start)
    (each
      : List.Forall₂
          (fun part i =>
            ∀ start stop, Decodes (Decoder.interval final start stop) part { i with start, stop })
          parts (first :: rest))
    : Decodes (Decoder.intervals final first.start taken (rest.map (·.start))) parts.flatten
        (taken.reverse ++ Decoder.endLast endOfTime (first :: rest)) := by
  induction rest generalizing first parts taken with
  | nil =>
      cases each with
      | @cons part _ parts _ one none_left =>
          cases none_left
          rw [List.flatten_cons, List.flatten_nil, List.append_nil]
          refine (one first.start endOfTime).bind_nil ?_
          rw [List.reverse_cons]
          exact decodes_pure _
  | cons second rest ih =>
      cases each with
      | @cons part _ parts _ one later =>
          rw [List.isChain_cons_cons] at touching
          have here : Decodes (Decoder.interval final first.start second.start) part first := by
            have read := one first.start second.start
            rw [← touching.1] at read ⊢
            exact read
          have read := ih (first :: taken) touching.2 later
          rw [List.reverse_cons, List.append_assoc, List.singleton_append] at read
          exact here.bind read

/-- The start from which the end of the last interval is counted is the last one that is written. -/
theorem lastBase_eq (first : Interval) (rest : List Interval)
    : Encoder.lastBase (first :: rest) = (rest.map (·.start)).getLast?.getD 0 := by
  rw [Encoder.lastBase, List.tail_cons, List.getLast?_map]
  cases rest.getLast? <;> rfl

/-- The last start is the last one that is written, or the beginning of time. -/
theorem last_start_eq {first last : Interval} {rest : List Interval}
    (last_eq : (first :: rest).getLast? = some last) (start_eq : first.start = beginningOfTime)
    : (rest.map (·.start)).getLast?.getD beginningOfTime = last.start := by
  rw [List.getLast?_map]
  cases rest with
  | nil =>
      cases last_eq
      exact start_eq.symm
  | cons second rest =>
      rw [List.getLast?_cons_cons] at last_eq
      rw [last_eq]
      rfl

/-- The end of the last interval is read as it is written, unless it is open. -/
theorem decodes_coverage {first : Interval} {rest : List Interval}
    (storable : Storable (first :: rest))
    : Decodes (Decoder.coverage (rest.map (·.start))) (Encoder.endBytes (first :: rest))
        (explicitEnd (first :: rest)) := by
  have start_eq : first.start = beginningOfTime := by simpa using storable.start_eq
  obtain ⟨last, last_eq⟩ : ∃ last, (first :: rest).getLast? = some last :=
    ⟨_, List.getLast?_eq_some_getLast (by simp)⟩
  have representable := (storable.encodable last (List.mem_of_getLast? last_eq)).stop
  have ended := storable.ended last last_eq
  unfold Encoder.endBytes explicitEnd
  simp only [last_eq, Option.bind_some]
  cases opened : last.isOpen with
  | true => exact (Decoder.decodes_byte rfl).bind_nil (decodes_pure _)
  | false =>
      have forward : last.start < last.stop := ended.resolve_left (by simp [opened])
      rw [if_neg (by decide), if_neg (by decide), lastBase_eq]
      refine Decodes.bind (Decoder.decodes_byte (b := 1) rfl) ?_
      refine (Decoder.decodes_signed (Instant.representable_wrap _)).bind_nil ?_
      rw [Instant.wrap_add_wrap representable, last_start_eq last_eq start_eq,
        if_neg (Int.not_le.mpr forward)]
      exact decodes_pure _

/-- The last interval is ended where it is asked for. -/
theorem endLast_concat (front : List Interval) (last : Interval) (stop : Int)
    : Decoder.endLast stop (front ++ [last]) = front ++ [{ last with stop }] := by
  induction front with
  | nil => rfl
  | cons i rest ih =>
      rw [List.cons_append, List.cons_append, ← ih]
      cases rest <;> rfl

/-- Ending the last interval twice leaves the second end. -/
theorem endLast_endLast (intervals : List Interval) (stop other : Int)
    : Decoder.endLast stop (Decoder.endLast other intervals) = Decoder.endLast stop intervals := by
  rcases List.eq_nil_or_concat intervals with rfl | ⟨front, last, rfl⟩
  · rfl
  · simp only [List.concat_eq_append, endLast_concat]

/-- Ending the last interval where it ends changes nothing. -/
theorem endLast_eq {intervals : List Interval} {last : Interval}
    (last_eq : intervals.getLast? = some last)
    : Decoder.endLast last.stop intervals = intervals := by
  obtain ⟨front, rfl⟩ := List.getLast?_eq_some_iff.mp last_eq
  rw [endLast_concat]

/-- Intervals that are read with an open end, and then ended where they have been written to end,
are as they were. -/
theorem ended_eq (intervals : List Interval)
    : (match explicitEnd intervals with
        | some stop => Decoder.endLast stop (Decoder.endLast endOfTime intervals)
        | none => Decoder.endLast endOfTime intervals)
      = intervals := by
  unfold explicitEnd
  cases last_eq : intervals.getLast? with
  | none =>
      rw [List.getLast?_eq_none_iff.mp last_eq]
      rfl
  | some last =>
      rw [Option.bind_some]
      cases opened : last.isOpen with
      | false => exact (endLast_endLast ..).trans (endLast_eq last_eq)
      | true =>
          have stop_eq : last.stop = endOfTime := by simpa [Interval.isOpen] using opened
          rw [if_pos rfl, ← stop_eq]
          exact endLast_eq last_eq

-----------------------------------------------------------------------------------------
-- Zones
-----------------------------------------------------------------------------------------

/-- Writing an optional tail keeps the strings. -/
theorem keeps_optionalTail (tail : Option Tail) : Keeps (Encoder.optionalTail tail) := by
  cases tail with
  | none => exact List.prefix_refl
  | some t => exact keeps_tail t

/-- An optional tail is read as it is written, behind the end that it starts at. -/
theorem encodes_optionalTail {tail : Option Tail} {stop : Option Int}
    (encodable : ∀ t ∈ tail, stop = some t.start ∧ t.Encodable)
    (count : ∀ t ∈ tail, t.rules.recurrences.length < 2 ^ 64)
    : Encodes (Encoder.optionalTail tail) (fun strings => Decoder.optionalTail strings stop)
        (tail.map Tail.inSeconds) := by
  intro strings final within fits
  cases tail with
  | none => exact (Decoder.decodes_byte rfl).bind_nil (decodes_pure _)
  | some t =>
      obtain ⟨rfl, fitting⟩ := encodable t rfl
      have read := encodes_tail fitting (count t rfl) strings final within fits
      exact Decodes.bind (Decoder.decodes_byte (b := 1) rfl) (read.map some)

/-- Writing a zone keeps the strings. -/
theorem keeps_zone (z : CompiledZone) : Keeps (Encoder.zone z) :=
  fun strings => (keeps_each keeps_interval z.intervals strings).trans (keeps_optionalTail z.tail _)

/-- The bytes of a zone are those of its parts. -/
theorem bytes_zone (z : CompiledZone) (strings : Strings)
    : ((Encoder.zone z).run strings).1
      = writeVarint z.intervals.length ++ Encoder.startBytes 0 z.intervals.tail
        ++ ((Encoder.each Encoder.interval z.intervals).run strings).1
        ++ Encoder.endBytes z.intervals
        ++ ((Encoder.optionalTail z.tail).run
              ((Encoder.each Encoder.interval z.intervals).run strings).2).1 :=
  rfl

/-- A zone has no more intervals than bytes, and its tail no more recurrences. -/
theorem counts_le_zone (z : CompiledZone) (strings : Strings)
    : z.intervals.length ≤ ((Encoder.zone z).run strings).1.length
      ∧ ∀ t ∈ z.tail, t.rules.recurrences.length ≤ ((Encoder.zone z).run strings).1.length := by
  obtain ⟨intervals, tail⟩ := z
  rw [bytes_zone]
  simp only [List.length_append]
  constructor
  · have := length_le_each interval_length_pos intervals strings
    omega
  · rintro t rfl
    have recurrences
        := length_le_tail t ((Encoder.each Encoder.interval intervals).run strings).2
    change _ ≤ _ + (1 :: ((Encoder.tail t).run _).1).length
    rw [List.length_cons]
    omega

/-- Whatever its tail comes to, the intervals of a zone are read as they are written, if they can be
counted. -/
theorem comesTo_zone {z : CompiledZone} {strings final : Strings}
    {outcome : Except DecodeError (Option Tail)} (storable : Storable z.intervals)
    (count : z.intervals.length < 2 ^ 64)
    (within : ((Encoder.zone z).run strings).2 <+: final) (fits : final.length < 2 ^ 64)
    (tail
      : ComesTo (Decoder.optionalTail final (explicitEnd z.intervals))
          ((Encoder.optionalTail z.tail).run
            ((Encoder.each Encoder.interval z.intervals).run strings).2).1
          outcome)
    : ComesTo (Decoder.zone final) ((Encoder.zone z).run strings).1
        (outcome.map fun tail => { z with tail }) := by
  obtain ⟨intervals, optional⟩ := z
  dsimp only at *
  cases intervals with
  | nil => cases storable.start_eq
  | cons first rest =>
      have start_eq : first.start = beginningOfTime := by simpa using storable.start_eq
      obtain ⟨parts, parts_eq, related⟩ :=
        each_parts
          (R := fun part i =>
            ∀ start stop, Decodes (Decoder.interval final start stop) part { i with start, stop })
          keeps_interval
          (fun i member strings within start stop =>
            encodes_interval (storable.encodable i member) start stop strings final within fits)
          strings ((keeps_optionalTail optional _).trans within)
      have increasing := storable.increasing
      rw [List.map_cons, start_eq] at increasing
      have starts
          : Decodes (Decoder.starts 0 beginningOfTime [] rest.length) (Encoder.startBytes 0 rest)
              (rest.map (·.start)) :=
        decodes_starts []
          (fun i member => (storable.encodable i (List.mem_cons_of_mem _ member)).start) increasing
      have explicit := decodes_intervals [] storable.touching related
      rw [start_eq] at explicit
      have coverage := decodes_coverage storable
      rw [bytes_zone, parts_eq]
      simp only [List.append_assoc]
      refine (Decoder.decodes_varint count).bind_comesTo (starts.bind_comesTo ?_)
      refine explicit.bind_comesTo (coverage.bind_comesTo ?_)
      have written (tail : Option Tail) : CompiledZone.mk (first :: rest) tail = ⟨_, tail⟩ :=
        congrArg (CompiledZone.mk · tail) (ended_eq (first :: rest)).symm
      simp only [written]
      exact tail.bind_pure _

/-- What the reader comes to on the bytes of a zone, under any strings that those behind the zone
begin, as long as both can be counted. -/
def ZoneComesTo (z : CompiledZone) (outcome : Except DecodeError CompiledZone) : Prop :=
  ∀ strings final,
    ((Encoder.zone z).run strings).1.length < 2 ^ 64
    → ((Encoder.zone z).run strings).2 <+: final
    → final.length < 2 ^ 64
    → ComesTo (Decoder.zone final) ((Encoder.zone z).run strings).1 outcome

/-- A zone is read as it is written, up to the form of its times. -/
theorem zone_comesTo_inSeconds {z : CompiledZone} (storable : Storable z.intervals)
    (tail : ∀ t ∈ z.tail, z.intervals.getLast?.map (·.stop) = some t.start ∧ t.Encodable)
    : ZoneComesTo z (.ok z.inSeconds) := by
  intro strings final short within fits
  obtain ⟨count, tail_count⟩ := counts_le_zone z strings
  have tail_behind : ∀ t ∈ z.tail, explicitEnd z.intervals = some t.start ∧ t.Encodable := by
    intro t member
    obtain ⟨stop_eq, encodable⟩ := tail t member
    obtain ⟨last, last_eq, stop_eq⟩ := Option.map_eq_some_iff.mp stop_eq
    have closed : last.isOpen = false := by
      have := encodable.start_lt
      simp only [Interval.isOpen, beq_eq_false_iff_ne]
      omega
    rw [explicitEnd, last_eq, Option.bind_some, closed, stop_eq]
    exact ⟨rfl, encodable⟩
  have read_tail :=
    encodes_optionalTail tail_behind
      (fun t member => Nat.lt_of_le_of_lt (tail_count t member) short) _ final within fits
  exact comesTo_zone storable (Nat.lt_of_le_of_lt count short) within fits read_tail.comesTo

theorem zone_comesTo_of_encodable {z : CompiledZone} (encodable : z.Encodable)
    : ZoneComesTo z (.ok z.inSeconds) :=
  zone_comesTo_inSeconds encodable.storable encodable.tail

/-- A zone with a tail at the end of time is rejected. The last interval in front of such a tail is
written as an open one. -/
theorem zone_comesTo_error {z : CompiledZone} {t : Tail} (storable : Storable z.intervals)
    (is_tail : z.tail = some t)
    (stop_eq : z.intervals.getLast?.map (·.stop) = some endOfTime)
    : ZoneComesTo z (.error (.inconsistent .tailAfterOpenInterval)) := by
  intro strings final short within fits
  have endless : explicitEnd z.intervals = none := by
    obtain ⟨last, last_eq, stop_eq⟩ := Option.map_eq_some_iff.mp stop_eq
    have opened : last.isOpen = true := beq_iff_eq.mpr stop_eq
    rw [explicitEnd, last_eq, Option.bind_some, if_pos opened]
  have rejected (strings : Strings)
      : ComesTo (Decoder.optionalTail final (explicitEnd z.intervals))
          ((Encoder.optionalTail z.tail).run strings).1
          (.error (.inconsistent .tailAfterOpenInterval)) := by
    rw [endless, is_tail]
    exact (Decoder.decodes_byte (b := 1) rfl).bind_comesTo (comesTo_fail _ _)
  have count := Nat.lt_of_le_of_lt (counts_le_zone z strings).1 short
  exact comesTo_zone storable count within fits (rejected _)

end Artifact

end CivilTime
