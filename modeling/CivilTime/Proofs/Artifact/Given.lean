import CivilTime.Proofs.Artifact.Zone

/-! What decoders give, whatever bytes they take it from.
Numbers have sixty-four bits, times are those that some seconds stand for, and the rule set of a
tail is named after the first recurrence. A part of a zone that has been read is therefore one that
is read when it is written.
-/

namespace CivilTime

/-- Times that some seconds stand for are kept by writing them as seconds. -/
theorem ClockTime.ofSeconds_seconds (s : Int) : ofSeconds (ofSeconds s).seconds = ofSeconds s := by
  unfold ofSeconds seconds
  by_cases negative : s < 0
  · simp only [negative, decide_true, if_true, ClockTime.mk.injEq, decide_eq_true_eq]
    omega
  · simp only [negative, decide_false, Bool.false_eq_true, if_false, ClockTime.mk.injEq,
      decide_eq_false_iff_not]
    omega

/-- An interval whose offsets from universal time have sixty-four bits. -/
def Interval.OffsetsFit (i : Interval) : Prop :=
  Instant.Representable i.stdOffset ∧ Instant.Representable i.savings

/-- A tail that is read as it is written, unless it starts at the end of time. -/
structure Tail.Rewritable (t : Tail) : Prop where
  encodable : t.start < endOfTime → t.Encodable
  inSeconds : t.inSeconds = t

namespace Artifact

/-- A decoder gives values with a property only, whatever bytes it takes them from. -/
def Gives {α : Type} (decoder : Decoder α) (P : α → Prop) : Prop :=
  ∀ c value next, decoder.run c = .ok (value, next) → P value

variable {α β : Type} {P : α → Prop} {Q : β → Prop} {decoder : Decoder α} {next : α → Decoder β}

/-- Nothing needs to be known of what a decoder gives. -/
theorem gives_any (decoder : Decoder α) : Gives decoder fun _ => True :=
  fun _ _ _ _ => trivial

theorem gives_pure {value : α} (holds : P value) : Gives (pure value) P := by
  intro c result rest taken
  obtain ⟨rfl, -⟩ := Prod.mk.inj (pure_eq_ok.mp taken)
  exact holds

/-- A decoder that fails gives nothing. -/
theorem gives_fail (error : DecodeError) : Gives (Decoder.fail error) P := by
  intro c value rest taken
  cases taken

theorem Gives.bind (first : Gives decoder P) (later : ∀ value, P value → Gives (next value) Q)
    : Gives (decoder >>= next) Q := by
  intro c result rest taken
  rw [StateT.run_bind] at taken
  obtain ⟨⟨value, between⟩, first_taken, taken⟩ := bind_eq_ok.mp taken
  exact later value (first c value between first_taken) between result rest taken

/-- Whatever a decoder gives, what follows it gives values with a property. -/
theorem gives_bind (later : ∀ value, Gives (next value) Q) : Gives (decoder >>= next) Q :=
  (gives_any decoder).bind fun value _ => later value

theorem Gives.map (gives : Gives decoder P) {change : α → β}
    (changed : ∀ value, P value → Q (change value))
    : Gives (change <$> decoder) Q := by
  rw [← bind_pure_comp]
  exact gives.bind fun value holds => gives_pure (changed value holds)

theorem Gives.decode {bytes : List UInt8} {value : α} (gives : Gives decoder P)
    (decoded : decoder.decode bytes = .ok value)
    : P value := by
  obtain ⟨⟨_, rest⟩, taken, rfl⟩ := map_eq_ok.mp decoded
  exact gives _ _ rest taken

-----------------------------------------------------------------------------------------
-- Numbers
-----------------------------------------------------------------------------------------

namespace Decoder

variable {strings : Strings}

theorem gives_varint : Gives varint (· < 2 ^ 64) := by
  refine gives_bind fun c => ?_
  split
  case h_1 => exact gives_fail _
  case h_2 => exact gives_fail _
  case h_3 read => exact gives_bind fun _ => gives_pure (readVarint_lt read)

theorem gives_signed : Gives signed Instant.Representable :=
  gives_varint.map fun _ => representable_unfoldSign

theorem gives_byte : Gives byte (· ≤ 255) := by
  refine gives_bind fun c => ?_
  split
  case h_1 => exact gives_fail _
  case h_2 b _ _ => exact gives_bind fun _ => gives_pure (Nat.le_of_lt_succ b.toNat_lt)

/-- The values of a list have the property of each. The induction is on their number. -/
theorem gives_takeMany {α : Type} {decoder : Decoder α} {P : α → Prop} (gives : Gives decoder P)
    {taken : List α} (held : ∀ value ∈ taken, P value) (count : Nat)
    : Gives (takeMany decoder taken count) fun values => ∀ value ∈ values, P value := by
  induction count generalizing taken with
  | zero => exact gives_pure fun value member => held value (List.mem_reverse.mp member)
  | succ count ih =>
      exact gives.bind fun value holds => ih (List.forall_mem_cons.mpr ⟨holds, held⟩)

-----------------------------------------------------------------------------------------
-- Recurrences and tails
-----------------------------------------------------------------------------------------

theorem gives_yearBound : Gives yearBound YearBound.InRange := by
  refine gives_bind fun tag => ?_
  split
  · exact gives_pure (by decide)
  · refine gives_bind fun year => ?_
    split
    case isTrue range => exact gives_pure range
    case isFalse => exact gives_fail _
  · exact gives_pure (by decide)
  · exact gives_fail _

theorem gives_dayRule : Gives dayRule fun rule => ∀ day ∈ rule.namedDay?, day ≤ 255 := by
  refine gives_bind fun tag => ?_
  split
  · exact gives_byte.map fun day le named is_day => Option.some.inj is_day ▸ le
  · exact (gives_any _).map fun weekDay _ named is_day => nomatch is_day
  · refine gives_bind fun weekDay => ?_
    exact gives_byte.map fun day le named is_day => Option.some.inj is_day ▸ le
  · refine gives_bind fun weekDay => ?_
    exact gives_byte.map fun day le named is_day => Option.some.inj is_day ▸ le
  · exact gives_fail _

/-- A recurrence fits into an artifact, and its times are already those of seconds. -/
theorem gives_recurrence (strings : Strings)
    : Gives (recurrence strings) fun r => r.Encodable ∧ r.inSeconds = r := by
  refine gives_bind fun name => ?_
  refine gives_yearBound.bind fun first first_range => ?_
  refine gives_yearBound.bind fun last last_range => gives_bind fun month => ?_
  refine gives_dayRule.bind fun day small => ?_
  refine gives_bind fun seconds => gives_bind fun mode => gives_bind fun save => ?_
  refine gives_bind fun letter => gives_pure ⟨⟨first_range, last_range, small⟩, ?_⟩
  simp only [Recurrence.inSeconds, ClockTime.ofSeconds_seconds]

/-- A tail starts where it is asked to, and it has recurrences. -/
theorem gives_tail (strings : Strings) (start : Int)
    : Gives (tail strings start) fun t =>
        t.start = start ∧ t.rules.recurrences ≠ [] ∧ t.Rewritable := by
  refine gives_signed.bind fun stdOffset std_fits => gives_bind fun format => ?_
  refine gives_signed.bind fun savings savings_fits => gives_bind fun letter => ?_
  refine gives_bind fun count => ?_
  refine (gives_takeMany (gives_recurrence strings) (by simp) count).bind fun recurrences each => ?_
  cases recurrences with
  | nil => exact gives_fail _
  | cons r rest =>
      refine gives_pure ⟨rfl, List.cons_ne_nil r rest, ?_, ?_⟩
      · exact fun start_lt =>
          { start_lt
            stdOffset := std_fits
            initialSavings := savings_fits
            format := ⟨format, rfl⟩
            named := rfl
            recurrences := fun r member => (each r member).1 }
      · have kept : (r :: rest).map Recurrence.inSeconds = r :: rest :=
          (List.map_congr_left fun r member => (each r member).2).trans (List.map_id _)
        simp only [Tail.inSeconds, kept]

/-- An interval is read with the bounds that are asked for, and with offsets of sixty-four bits. -/
theorem gives_interval (strings : Strings) (start stop : Int)
    : Gives (interval strings start stop) fun i =>
        (i.start = start ∧ i.stop = stop) ∧ i.OffsetsFit := by
  refine gives_bind fun wall => gives_signed.bind fun savings fits => gives_bind fun name => ?_
  exact gives_pure ⟨⟨rfl, rfl⟩, Instant.representable_wrap _, fits⟩

end Decoder

end Artifact

end CivilTime
