import CivilTime.Proofs.Text.Cut
import CivilTime.Zone.NameFormat

/-! Which formats can be applied, and which abbreviations they give.
A source with a slash behind its first character writes a pair of names, and any other one a
template with escapes of one kind at most. A pair can be applied unless its second name is missing,
and a template unless it is empty or a percent sign in it begins no escape of its kind. A template
without escapes may still end in a percent sign.
-/

namespace CivilTime.NameFormat

/-- A format gives a name if it can be applied, and then the one that it fills in. -/
theorem apply_eq_ok {format : NameFormat} {stdOffset savings : Int}
    {letter : Option String} {name : String}
    : format.apply stdOffset savings letter = .ok name
      ↔ format.isApplicable = true ∧ name = format.fill stdOffset savings letter := by
  unfold apply
  split
  · rename_i applicable
    simp [applicable, eq_comm]
  · rename_i applicable
    simp [applicable]

-----------------------------------------------------------------------------------------
-- What a source writes
-----------------------------------------------------------------------------------------

/-- The first slash of a source stands between two names, the first of which is not empty. -/
structure Pairs (source standard saved : String) : Prop where
  source_eq : source = standard ++ "/" ++ saved
  named : standard ≠ ""
  first : '/' ∉ standard.toList

/-- The format that a source writes: a pair of names, or else a template for letters if these occur
in it, or else one for the offset if this does, or else a name. -/
inductive Writes (source : String) : NameFormat → Prop where
  | pair {standard saved : String} (pairs : Pairs source standard saved)
    : Writes source (.pair standard saved)
  | letter (unpaired : ∀ standard saved, ¬ Pairs source standard saved)
      (letters : ['%', 's'] <:+: source.toList)
    : Writes source (.letter source)
  | offset (unpaired : ∀ standard saved, ¬ Pairs source standard saved)
      (no_letters : ¬ ['%', 's'] <:+: source.toList)
      (offsets : ['%', 'z'] <:+: source.toList)
    : Writes source (.offset source)
  | literal (unpaired : ∀ standard saved, ¬ Pairs source standard saved)
      (no_letters : ¬ ['%', 's'] <:+: source.toList)
      (no_offsets : ¬ ['%', 'z'] <:+: source.toList)
    : Writes source (.literal source)

variable {source standard saved name : String} {format other : NameFormat}

/-- The two names of a pair are what the source is cut into. -/
theorem pairs_iff
    : Pairs source standard saved
      ↔ standard ≠ ""
        ∧ Text.cutAt? (· == '/') source.toList = some (standard.toList, saved.toList) := by
  rw [Text.cutAt?_eq_some_iff]
  constructor
  · rintro ⟨rfl, named, first⟩
    refine ⟨named, '/', rfl, by simp, fun x member => ?_⟩
    simpa using fun same : x = '/' => first (same ▸ member)
  · rintro ⟨named, slash, is_slash, source_eq, others⟩
    obtain rfl : slash = '/' := by simpa using is_slash
    refine ⟨String.toList_inj.mp (by simp [source_eq]), named, fun member => ?_⟩
    simpa using others '/' member

/-- The format that is read from a source is one that it writes. -/
theorem writes_ofSource (source : String) : Writes source (ofSource source) := by
  unfold ofSource
  dsimp only
  split
  case h_1 c standard saved cut =>
    refine .pair (pairs_iff.mpr ⟨fun empty => ?_, by simpa using cut⟩)
    simpa using congrArg String.toList empty
  case h_2 uncut =>
    have unpaired (standard saved : String) : ¬ Pairs source standard saved := by
      intro pairs
      obtain ⟨named, cut⟩ := pairs_iff.mp pairs
      cases standard_eq : standard.toList with
      | nil => exact named (String.toList_eq_nil_iff.mp standard_eq)
      | cons c rest => exact uncut c rest _ (standard_eq ▸ cut)
    split
    case isTrue letters => exact .letter unpaired (Text.hasMark_iff.mp letters)
    case isFalse no_letters =>
      rw [Text.hasMark_iff] at no_letters
      split
      case isTrue offsets => exact .offset unpaired no_letters (Text.hasMark_iff.mp offsets)
      case isFalse no_offsets =>
        rw [Text.hasMark_iff] at no_offsets
        exact .literal unpaired no_letters no_offsets

/-- A source writes one format only. -/
theorem Writes.unique (writes : Writes source format) (also : Writes source other)
    : format = other := by
  cases writes with
  | pair pairs =>
      cases also with
      | pair other_pairs =>
          have cut := (pairs_iff.mp pairs).2
          rw [(pairs_iff.mp other_pairs).2] at cut
          obtain ⟨standard_eq, saved_eq⟩ := Prod.mk.inj (Option.some.inj cut)
          rw [String.toList_inj.mp standard_eq, String.toList_inj.mp saved_eq]
      | letter unpaired | offset unpaired | literal unpaired => exact absurd pairs (unpaired _ _)
  | letter unpaired letters =>
      cases also with
      | pair pairs => exact absurd pairs (unpaired _ _)
      | letter => rfl
      | offset _ no_letters | literal _ no_letters => exact absurd letters no_letters
  | offset unpaired no_letters offsets =>
      cases also with
      | pair pairs => exact absurd pairs (unpaired _ _)
      | letter _ letters => exact absurd letters no_letters
      | offset => rfl
      | literal _ _ no_offsets => exact absurd offsets no_offsets
  | literal unpaired no_letters no_offsets =>
      cases also with
      | pair pairs => exact absurd pairs (unpaired _ _)
      | letter _ letters => exact absurd letters no_letters
      | offset _ _ offsets => exact absurd offsets no_offsets
      | literal => rfl

/-- A source writes the format that is read from it. -/
theorem writes_iff : Writes source format ↔ ofSource source = format :=
  ⟨(writes_ofSource source).unique, fun same => same ▸ writes_ofSource source⟩

/-- Only a name can be empty. -/
theorem Writes.ne_empty (writes : Writes source format) (marked : format ≠ .literal source)
    : source ≠ "" := by
  rintro rfl
  exact marked (writes_iff.mp writes).symm

/-- The source of a format is the one that it has been read from. -/
theorem source_ofSource (source : String) : (ofSource source).source = source := by
  have writes := writes_ofSource source
  generalize ofSource source = format at writes
  cases writes with
  | pair pairs => exact pairs.source_eq.symm
  | letter | offset | literal => rfl

-----------------------------------------------------------------------------------------
-- The escapes of a template
-----------------------------------------------------------------------------------------

/-- A percent sign of a template begins no escape: what follows it is not the mark of the escapes,
which a template without escapes does not have. -/
def Stray (mark : Option Char) (template : List Char) : Prop :=
  ∃ front back, template = front ++ '%' :: back ∧ ∀ c ∈ mark, back.head? ≠ some c

/-- The escapes of a template with a mark are replaced by a value. -/
inductive Replaced (mark : Char) (value : List Char) : List Char → List Char → Prop where
  | nil : Replaced mark value [] []
  | plain {c : Char} {template filled : List Char} (ordinary : c ≠ '%')
      (later : Replaced mark value template filled)
    : Replaced mark value (c :: template) (c :: filled)
  | escape {template filled : List Char} (later : Replaced mark value template filled)
    : Replaced mark value ('%' :: mark :: template) (value ++ filled)

variable {mark : Option Char} {escape : Char} {value template filled : List Char}

/-- What follows the percent signs of a template is what follows the first character, if it is one,
and what follows those behind it. -/
theorem forall_percent_cons {P : List Char → Prop} {c : Char} {rest : List Char}
    : (∀ front back, c :: rest = front ++ '%' :: back → P back)
      ↔ (c = '%' → P rest) ∧ ∀ front back, rest = front ++ '%' :: back → P back := by
  constructor
  · intro each
    refine ⟨?_, fun front back rest_eq => each (c :: front) back (congrArg _ rest_eq)⟩
    rintro rfl
    exact each [] rest rfl
  · rintro ⟨here, later⟩ front back template_eq
    cases front with
    | nil =>
        obtain ⟨rfl, rfl⟩ := List.cons.inj template_eq
        exact here rfl
    | cons x front => exact later front back (List.cons.inj template_eq).2

/-- A character is ordinary if it is neither a percent sign with something behind it nor one at the
end. -/
theorem ordinary_of_unmatched {c : Char} {rest : List Char}
    (not_escape : ∀ x others, c = '%' → rest = x :: others → False)
    (not_last : c = '%' → rest = [] → False)
    : c ≠ '%' := by
  intro percent
  cases rest with
  | nil => exact not_last percent rfl
  | cons x others => exact not_escape x others percent rfl

/-- The check of a template looks at what follows each percent sign: the mark, or nothing where
there is no mark. The induction follows the check. -/
theorem escapesAllowed_iff (apart : mark ≠ some '%')
    : escapesAllowed mark template = true
      ↔ ∀ front back, template = front ++ '%' :: back → back.head? = mark := by
  fun_induction escapesAllowed mark template with
  | case1 => simp
  | case2 c rest ih =>
      rw [Bool.and_eq_true, beq_iff_eq, ih, forall_percent_cons, forall_percent_cons]
      constructor
      · rintro ⟨rfl, later⟩
        exact ⟨fun _ => rfl, fun percent => absurd (congrArg some percent) apart, later⟩
      · rintro ⟨here, _, later⟩
        exact ⟨here rfl, later⟩
  | case3 =>
      rw [forall_percent_cons, Option.isNone_iff_eq_none]
      simp [eq_comm]
  | case4 c rest not_escape not_last ih =>
      have ordinary := ordinary_of_unmatched not_escape not_last
      rw [ih, forall_percent_cons]
      simp [ordinary]

/-- A template with a mark passes the check exactly if none of its percent signs is stray. -/
theorem escapesAllowed_some_iff (apart : escape ≠ '%')
    : escapesAllowed (some escape) template = true ↔ ¬ Stray (some escape) template := by
  rw [escapesAllowed_iff (by simpa using apart)]
  simp [Stray]

/-- A template without a mark passes the check also if its one percent sign is the last character.
-/
theorem escapesAllowed_none_iff
    : escapesAllowed none template = true
      ↔ '%' ∉ template ∨ ∃ front, template = front ++ ['%'] ∧ '%' ∉ front := by
  rw [escapesAllowed_iff (by simp)]
  constructor
  · intro each
    by_cases occurs : '%' ∈ template
    · obtain ⟨front, back, rfl, first⟩ := List.eq_append_cons_of_mem occurs
      have last : back = [] := List.head?_eq_none_iff.mp (each front back rfl)
      exact .inr ⟨front, by rw [last], first⟩
    · exact .inl occurs
  · rintro (absent | ⟨front, rfl, first⟩) start back template_eq
    · exact absurd (by simp [template_eq]) absent
    · rcases List.eq_nil_or_concat' back with rfl | ⟨middle, last, rfl⟩
      · rfl
      · -- With something behind it the percent sign would stand in front of the last one.
        rw [← List.cons_append, ← List.append_assoc] at template_eq
        have front_eq := (List.append_inj' template_eq rfl).1
        exact absurd (by simp [front_eq]) first

/-- A replacement starts with a character that begins no escape. -/
theorem replaceMark_of_ne {c : Char} (ordinary : c ≠ '%') (rest : List Char)
    : Text.replaceMark '%' escape value (c :: rest)
      = c :: Text.replaceMark '%' escape value rest := by
  cases rest with
  | nil => rfl
  | cons x rest => simp [Text.replaceMark, ordinary]

/-- Escapes can be replaced in one way only. -/
theorem Replaced.eq_replaceMark (replaced : Replaced escape value template filled)
    : filled = Text.replaceMark '%' escape value template := by
  induction replaced with
  | nil => rfl
  | plain ordinary _ ih => rw [replaceMark_of_ne ordinary, ← ih]
  | escape _ ih => simp [Text.replaceMark, ← ih]

/-- The escapes of a template that passes the check are replaced. The induction follows the check.
-/
theorem replaced_replaceMark (allowed : escapesAllowed (some escape) template = true)
    : Replaced escape value template (Text.replaceMark '%' escape value template) := by
  fun_induction escapesAllowed (some escape) template with
  | case1 => exact .nil
  | case2 c rest ih =>
      obtain ⟨same, later⟩ := Bool.and_eq_true_iff.mp allowed
      obtain rfl : c = escape := by simpa using same
      simpa [Text.replaceMark] using (ih later).escape
  | case3 => simp at allowed
  | case4 c rest not_escape not_last ih =>
      have ordinary := ordinary_of_unmatched not_escape not_last
      rw [replaceMark_of_ne ordinary]
      exact (ih allowed).plain ordinary

-----------------------------------------------------------------------------------------
-- Formats that cannot be applied
-----------------------------------------------------------------------------------------

/-- The reasons for which a source is no format that can be applied: it is empty, the second name of
its pair is, or it is a template with a percent sign that begins no escape of its kind. -/
inductive Unfit (source : String) : Prop where
  | empty (source_eq : source = "")
  | halfPair {standard : String} (writes : Writes source (.pair standard ""))
  | letter (writes : Writes source (.letter source)) (stray : Stray (some 's') source.toList)
  | offset (writes : Writes source (.offset source)) (stray : Stray (some 'z') source.toList)
  | literal (writes : Writes source (.literal source)) (percent : '%' ∈ source.toList)

/-- A name whose one percent sign is its last character. -/
def EndsInPercent (source : String) : Prop :=
  Writes source (.literal source)
  ∧ ∃ front, source.toList = front ++ ['%'] ∧ '%' ∉ front

/-- The abbreviation that a source gives: one of the two names of a pair, or the template with its
escapes replaced. -/
inductive Gives (source : String) (stdOffset savings : Int) (letter : Option String)
    : String → Prop where
  | standard {standard saved : String} (writes : Writes source (.pair standard saved))
      (unsaved : savings = 0)
    : Gives source stdOffset savings letter standard
  | saved {standard saved : String} (writes : Writes source (.pair standard saved))
      (saving : savings ≠ 0)
    : Gives source stdOffset savings letter saved
  | letter {name : String} (writes : Writes source (.letter source))
      (replaced : Replaced 's' (letter.getD "").toList source.toList name.toList)
    : Gives source stdOffset savings letter name
  | offset {name : String} (writes : Writes source (.offset source))
      (replaced
        : Replaced 'z' (offsetText (stdOffset + savings)).toList source.toList name.toList)
    : Gives source stdOffset savings letter name
  | literal (writes : Writes source (.literal source))
    : Gives source stdOffset savings letter source

variable {stdOffset savings : Int} {letter : Option String}

/-- The reasons for which a source cannot be applied, in terms of the format that is read from it.
-/
theorem unfit_iff
    : Unfit source
      ↔ source = ""
        ∨ (∃ standard, ofSource source = .pair standard "")
        ∨ (ofSource source = .letter source ∧ Stray (some 's') source.toList)
        ∨ (ofSource source = .offset source ∧ Stray (some 'z') source.toList)
        ∨ (ofSource source = .literal source ∧ '%' ∈ source.toList) := by
  simp only [← writes_iff]
  constructor
  · rintro (empty | half | ⟨writes, stray⟩ | ⟨writes, stray⟩ | ⟨writes, percent⟩)
    · exact .inl empty
    · exact .inr (.inl ⟨_, half⟩)
    · exact .inr (.inr (.inl ⟨writes, stray⟩))
    · exact .inr (.inr (.inr (.inl ⟨writes, stray⟩)))
    · exact .inr (.inr (.inr (.inr ⟨writes, percent⟩)))
  · rintro (empty | ⟨_, half⟩ | ⟨writes, stray⟩ | ⟨writes, stray⟩ | ⟨writes, percent⟩)
    · exact .empty empty
    · exact .halfPair half
    · exact .letter writes stray
    · exact .offset writes stray
    · exact .literal writes percent

/-- A format can be applied exactly if its source is fit for it, or is a name with a percent sign at
its end. -/
theorem isApplicable_ofSource
    : (ofSource source).isApplicable = true ↔ ¬ Unfit source ∨ EndsInPercent source := by
  rw [unfit_iff, EndsInPercent, writes_iff]
  have writes := writes_ofSource source
  generalize ofSource source = format at writes
  cases writes with
  | pair pairs =>
      have source_ne := (Writes.pair pairs).ne_empty (by simp)
      simp [isApplicable, source_ne, pairs.named]
  | letter unpaired letters =>
      have source_ne := (Writes.letter unpaired letters).ne_empty (by simp)
      simp [isApplicable, source_ne, escapesAllowed_some_iff]
  | offset unpaired no_letters offsets =>
      have source_ne := (Writes.offset unpaired no_letters offsets).ne_empty (by simp)
      simp [isApplicable, source_ne, escapesAllowed_some_iff]
  | literal =>
      have ends (front : List Char) (source_eq : source.toList = front ++ ['%']) : source ≠ "" := by
        rintro rfl
        simp at source_eq
      simp only [isApplicable, escapesAllowed_none_iff, Bool.and_eq_true, Bool.not_eq_true',
        String.isEmpty_eq_false_iff, reduceCtorEq, exists_false, false_and, false_or, true_and,
        not_or]
      constructor
      · rintro ⟨source_ne, absent | last⟩
        · exact .inl ⟨source_ne, absent⟩
        · exact .inr last
      · rintro (⟨source_ne, absent⟩ | ⟨front, source_eq, first⟩)
        · exact ⟨source_ne, .inl absent⟩
        · exact ⟨ends front source_eq, .inr ⟨front, source_eq, first⟩⟩

/-- What a fit source gives is what its format fills in. -/
theorem gives_iff (fit : ¬ Unfit source)
    : Gives source stdOffset savings letter name
      ↔ name = (ofSource source).fill stdOffset savings letter := by
  constructor
  · rintro (⟨writes, unsaved⟩ | ⟨writes, saving⟩ | ⟨writes, replaced⟩ | ⟨writes, replaced⟩ | writes)
    · rw [writes_iff.mp writes, fill, if_pos unsaved]
    · rw [writes_iff.mp writes, fill, if_neg saving]
    · rw [writes_iff.mp writes, fill, ← replaced.eq_replaceMark, String.ofList_toList]
    · rw [writes_iff.mp writes, fill, ← replaced.eq_replaceMark, String.ofList_toList]
    · rw [writes_iff.mp writes, fill]
  · rintro rfl
    have applicable := isApplicable_ofSource.mpr (.inl fit)
    have writes := writes_ofSource source
    generalize ofSource source = format at writes applicable
    cases writes with
    | pair pairs =>
        by_cases unsaved : savings = 0
        · rw [fill, if_pos unsaved]
          exact .standard (.pair pairs) unsaved
        · rw [fill, if_neg unsaved]
          exact .saved (.pair pairs) unsaved
    | letter unpaired letters =>
        have allowed := (Bool.and_eq_true_iff.mp applicable).2
        refine .letter (.letter unpaired letters) ?_
        rw [fill, String.toList_ofList]
        exact replaced_replaceMark allowed
    | offset unpaired no_letters offsets =>
        have allowed := (Bool.and_eq_true_iff.mp applicable).2
        refine .offset (.offset unpaired no_letters offsets) ?_
        rw [fill, String.toList_ofList]
        exact replaced_replaceMark allowed
    | literal unpaired no_letters no_offsets =>
        exact .literal (.literal unpaired no_letters no_offsets)

/-- A name that ends in a percent sign is filled in as it stands, but it is no fit one. -/
theorem EndsInPercent.fill_eq (ends : EndsInPercent source)
    : Unfit source ∧ (ofSource source).fill stdOffset savings letter = source := by
  obtain ⟨writes, front, source_eq, _⟩ := ends
  refine ⟨.literal writes (by simp [source_eq]), ?_⟩
  rw [writes_iff.mp writes, fill]

/-- A format is refused exactly if its source is unfit and no name with a percent sign at its end.
-/
theorem apply_ofSource_eq_error_iff {fault : Fault}
    : (ofSource source).apply stdOffset savings letter = .error fault
      ↔ fault = .badNameFormat source ∧ Unfit source ∧ ¬ EndsInPercent source := by
  have refused_iff
      : (ofSource source).isApplicable = false ↔ Unfit source ∧ ¬ EndsInPercent source := by
    rw [← Bool.not_eq_true, isApplicable_ofSource, not_or, not_not]
  rw [← refused_iff, apply, source_ofSource]
  cases (ofSource source).isApplicable <;> simp [eq_comm]

/-- A format gives the abbreviation of its source if this is fit, and the source itself if it is a
name with a percent sign at its end. -/
theorem apply_ofSource_eq_ok_iff
    : (ofSource source).apply stdOffset savings letter = .ok name
      ↔ (¬ Unfit source ∧ Gives source stdOffset savings letter name)
        ∨ (EndsInPercent source ∧ name = source) := by
  rw [apply_eq_ok, isApplicable_ofSource]
  constructor
  · rintro ⟨fit | ends, rfl⟩
    · exact .inl ⟨fit, (gives_iff fit).mpr rfl⟩
    · exact .inr ⟨ends, ends.fill_eq.2⟩
  · rintro (⟨fit, gives⟩ | ⟨ends, rfl⟩)
    · exact ⟨.inl fit, (gives_iff fit).mp gives⟩
    · exact ⟨.inr ends, ends.fill_eq.2.symm⟩

end CivilTime.NameFormat
