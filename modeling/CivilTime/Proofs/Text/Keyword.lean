import CivilTime.Proofs.Text.LowerCase
import CivilTime.Source.Record
import Mathlib.Data.List.Nodup

/-! A text stands for the one keyword of a table that it begins.
Where no keyword of a table begins another one, a text that spells a keyword begins no other one, so
stopping at a keyword that is spelled out and stopping at the second one that is begun come to the
same: which keywords a text begins decides on what it stands for, in whatever order they are met.
-/

namespace CivilTime.Text

variable {α : Type} {text word : String} {table : List (String × α)}

/-- A text begins a word, in any case of the ASCII letters. -/
def Begins (text word : String) : Prop := foldCase text.toList <+: foldCase word.toList

instance : Decidable (Begins text word) := inferInstanceAs (Decidable (_ <+: _))

/-- The words of a table of keywords, none of which begins another one. -/
structure KeywordTable (words : List String) : Prop where
  nonempty : ∀ word ∈ words, word ≠ ""
  ascii : ∀ word ∈ words, ∀ c ∈ word.toList, c.toNat < 128
  apart : words.Pairwise fun a b => ¬ Begins a b ∧ ¬ Begins b a

instance (words : List String) : Decidable (KeywordTable words) :=
  decidable_of_iff
    ((∀ word ∈ words, word ≠ "")
      ∧ (∀ word ∈ words, word.toList.all (·.toNat < 128) = true)
      ∧ words.Pairwise fun a b => ¬ Begins a b ∧ ¬ Begins b a)
    ⟨fun ⟨nonempty, ascii, apart⟩ => ⟨nonempty, by simpa using ascii, apart⟩,
      fun table => ⟨table.nonempty, by simpa using table.ascii, table.apart⟩⟩

/-- The words of the tables that the columns of a source are read by. -/
def keywordTables : List (List String) :=
  [RecordKind.keywords.map Prod.fst, Month.keywords.map Prod.fst, WeekDay.keywords.map Prod.fst,
    ["minimum", "maximum"], ["only", "minimum", "maximum"], ["only"]]

theorem keywordTable_of_mem : ∀ words ∈ keywordTables, KeywordTable words := by decide +kernel

theorem KeywordTable.perm {words others : List String} (table : KeywordTable words)
    (perm : words.Perm others)
    : KeywordTable others where
  nonempty word member := table.nonempty word (perm.mem_iff.mpr member)
  ascii word member := table.ascii word (perm.mem_iff.mpr member)
  apart := (perm.pairwise_iff And.symm).mp table.apart

-----------------------------------------------------------------------------------------
-- Beginnings of words
-----------------------------------------------------------------------------------------

theorem Begins.refl (text : String) : Begins text text := List.prefix_rfl

theorem Begins.trans {short middle long : String} (inner : Begins short middle)
    (outer : Begins middle long)
    : Begins short long :=
  List.IsPrefix.trans inner outer

theorem abbreviates_iff : abbreviates text.toList word.toList = true ↔ Begins text word :=
  List.isPrefixOf_iff_prefix

/-- A text that spells a word begins it and is begun by it. -/
theorem begins_of_spelled (spelled : sameIgnoringCase word.toList text.toList = true)
    : Begins text word ∧ Begins word text := by
  have same : foldCase word.toList = foldCase text.toList := beq_iff_eq.mp spelled
  unfold Begins
  rw [same]
  exact ⟨List.prefix_rfl, List.prefix_rfl⟩

-----------------------------------------------------------------------------------------
-- The search
-----------------------------------------------------------------------------------------

/-- The only member of a list that has exactly one. -/
def only? : List α → Option α
  | [value] => some value
  | _ => none

theorem only?_eq_some_iff {values : List α} {value : α}
    : only? values = some value ↔ values = [value] := by
  match values with
  | [] => simp [only?]
  | [_] => simp [only?]
  | _ :: _ :: _ => simp [only?]

theorem only?_perm {values others : List α} (perm : values.Perm others)
    : only? values = only? others := by
  ext value
  rw [only?_eq_some_iff, only?_eq_some_iff]
  constructor
  · intro single
    exact List.perm_singleton.mp (single ▸ perm.symm)
  · intro single
    exact List.perm_singleton.mp (single ▸ perm)

/-- The entries of a table whose words a text begins. -/
def begun (text : String) (table : List (String × α)) : List (String × α) :=
  table.filter fun entry => decide (Begins text entry.1)

/-- The search gives the only value among the one found so far and those of the words that the text
begins. Once a word has been found, no word of the rest spells the text or a part of it: it would
begin the word that has been found. The induction is on the table. -/
theorem matchKeyword_eq {found : Option α}
    (apart : (table.map Prod.fst).Pairwise fun a b => ¬ Begins a b ∧ ¬ Begins b a)
    (others : found.isSome → ∀ entry ∈ table, ¬ Begins entry.1 text)
    : matchKeyword text.toList found table
      = only? (found.toList ++ (begun text table).map Prod.snd) := by
  induction table generalizing found with
  | nil => cases found <;> rfl
  | cons entry rest ih =>
      obtain ⟨word, value⟩ := entry
      obtain ⟨apart_word, apart_rest⟩ := List.pairwise_cons.mp apart
      have apart_entry : ∀ entry ∈ rest, ¬ Begins word entry.1 ∧ ¬ Begins entry.1 word :=
        fun entry member => apart_word entry.1 (List.mem_map_of_mem member)
      have others_rest (some : found.isSome) (entry) (member : entry ∈ rest)
          : ¬ Begins entry.1 text :=
        others some entry (List.mem_cons_of_mem _ member)
      unfold matchKeyword
      split
      case isTrue spelled =>
        obtain ⟨begins, back⟩ := begins_of_spelled spelled
        have first : found = none := by
          apply Option.not_isSome_iff_eq_none.mp
          intro some
          exact others some (word, value) (List.mem_cons_self ..) back
        have nothing : begun text rest = [] := by
          apply List.filter_eq_nil_iff.mpr
          intro entry member begun_too
          exact (apart_entry entry member).1 (back.trans (of_decide_eq_true begun_too))
        have here : begun text ((word, value) :: rest) = (word, value) :: begun text rest :=
          List.filter_cons_of_pos (decide_eq_true begins)
        rw [first, here, nothing]
        rfl
      split
      case isTrue short =>
        have begins := abbreviates_iff.mp short
        have here : begun text ((word, value) :: rest) = (word, value) :: begun text rest :=
          List.filter_cons_of_pos (decide_eq_true begins)
        cases found with
        | some earlier => rw [here]; rfl
        | none =>
            have later : ∀ entry ∈ rest, ¬ Begins entry.1 text := by
              intro entry member inner
              exact (apart_entry entry member).2 (inner.trans begins)
            rw [ih apart_rest fun _ => later, here]
            rfl
      case isFalse unlike =>
        have here : begun text ((word, value) :: rest) = begun text rest :=
          List.filter_cons_of_neg (by simpa [abbreviates_iff] using unlike)
        rw [ih apart_rest others_rest, here]

theorem keyword?_eq (well : KeywordTable (table.map Prod.fst)) (filled : text ≠ "")
    : keyword? table text = only? ((begun text table).map Prod.snd) := by
  have nonempty : ¬ text.isEmpty = true := by simpa using filled
  rw [keyword?, if_neg nonempty]
  exact matchKeyword_eq well.apart (by simp)

/-- No entry of a table occurs twice, since a word begins itself. -/
theorem KeywordTable.nodup (well : KeywordTable (table.map Prod.fst)) : table.Nodup := by
  refine List.Nodup.of_map Prod.fst (well.apart.imp ?_)
  rintro word _ ⟨unlike, _⟩ rfl
  exact unlike (.refl word)

theorem mem_begun {entry : String × α}
    : entry ∈ begun text table ↔ entry ∈ table ∧ Begins text entry.1 := by
  rw [begun, List.mem_filter, decide_eq_true_eq]

/-- A text begins one word alone exactly if it begins some word and no entry but that word's. -/
theorem begun_eq_singleton_iff (well : KeywordTable (table.map Prod.fst)) {entry : String × α}
    : begun text table = [entry]
      ↔ entry ∈ table
        ∧ Begins text entry.1
        ∧ ∀ other ∈ table, Begins text other.1 → other = entry := by
  constructor
  · intro single
    have member : entry ∈ begun text table := by
      rw [single]
      exact List.mem_singleton_self entry
    obtain ⟨listed, begins⟩ := mem_begun.mp member
    refine ⟨listed, begins, ?_⟩
    intro other other_listed other_begins
    have among := mem_begun.mpr ⟨other_listed, other_begins⟩
    rw [single] at among
    exact List.mem_singleton.mp among
  · rintro ⟨listed, begins, alone⟩
    have nodup : (begun text table).Nodup := well.nodup.filter _
    apply List.perm_singleton.mp
    apply (List.perm_ext_iff_of_nodup nodup (List.nodup_singleton _)).mpr
    intro other
    rw [mem_begun, List.mem_singleton]
    constructor
    · rintro ⟨other_listed, other_begins⟩
      exact alone other other_listed other_begins
    · rintro rfl
      exact ⟨listed, begins⟩

-----------------------------------------------------------------------------------------
-- Bytes
-----------------------------------------------------------------------------------------

/-- The first byte of a character is ASCII only if the character is. -/
theorem exists_utf8EncodeChar_eq_cons (c : Char)
    : ∃ b more, String.utf8EncodeChar c = b :: more ∧ (b.toNat < 128 → c.toNat < 128) := by
  by_cases ascii : c.toNat < 128
  · exact ⟨_, _, utf8EncodeChar_of_ascii ascii, fun _ => ascii⟩
  · have value : c.toNat = c.val.toNat := rfl
    simp only [String.utf8EncodeChar]
    split
    · omega
    · split
      · exact ⟨_, _, rfl, by simp only [UInt8.toNat_ofNat']; omega⟩
      · split
        · exact ⟨_, _, rfl, by simp only [UInt8.toNat_ofNat']; omega⟩
        · exact ⟨_, _, rfl, by simp only [UInt8.toNat_ofNat']; omega⟩

/-- In front of ASCII characters, bytes begin as the characters do. The induction is on the
characters that begin. -/
theorem flatMap_prefix_iff {short long : List Char} (ascii : ∀ c ∈ long, c.toNat < 128)
    : short.flatMap String.utf8EncodeChar <+: long.flatMap String.utf8EncodeChar
      ↔ short <+: long := by
  constructor
  · intro begins
    induction short generalizing long with
    | nil => exact List.nil_prefix
    | cons c rest ih =>
        obtain ⟨b, more, encoded, narrow⟩ := exists_utf8EncodeChar_eq_cons c
        rw [List.flatMap_cons, encoded, List.cons_append] at begins
        cases long with
        | nil => exact absurd begins (by simp)
        | cons d later =>
            have ascii_head : d.toNat < 128 := ascii d (List.mem_cons_self ..)
            rw [List.flatMap_cons, utf8EncodeChar_of_ascii ascii_head, List.singleton_append,
              List.cons_prefix_cons] at begins
            obtain ⟨rfl, begins⟩ := begins
            have ascii_first : c.toNat < 128 := by
              apply narrow
              rw [UInt8.toNat_ofNat']
              omega
            rw [utf8EncodeChar_of_ascii ascii_first] at encoded
            obtain ⟨byte_eq, rfl⟩ := List.cons.inj encoded
            have codes := congrArg UInt8.toNat byte_eq
            rw [UInt8.toNat_ofNat', UInt8.toNat_ofNat', Nat.mod_eq_of_lt (by omega),
              Nat.mod_eq_of_lt (by omega)] at codes
            obtain rfl := Char.toNat_inj.mp codes
            apply List.cons_prefix_cons.mpr
            exact ⟨rfl, ih (fun e member => ascii e (List.mem_cons_of_mem _ member)) begins⟩
  · rintro ⟨rest, rfl⟩
    rw [List.flatMap_append]
    exact List.prefix_append _ _

/-- A text begins an ASCII word exactly if its bytes do, whatever characters the text has. -/
theorem begins_iff_bytes (ascii : ∀ c ∈ word.toList, c.toNat < 128)
    : Begins text word
      ↔ (encode text).map foldByte <+: (encode word).map foldByte := by
  have ascii_folded : ∀ c ∈ foldCase word.toList, c.toNat < 128 := by
    intro c member
    obtain ⟨d, listed, rfl⟩ := List.mem_map.mp member
    have small := ascii d listed
    rw [toNat_toLower]
    split <;> omega
  rw [← encode_lowercase, ← encode_lowercase, encode_eq_flatMap, encode_eq_flatMap, lowercase,
    lowercase, String.toList_ofList, String.toList_ofList, flatMap_prefix_iff ascii_folded]
  rfl

-----------------------------------------------------------------------------------------
-- What a text stands for
-----------------------------------------------------------------------------------------

/-- In a table of keywords, a text stands for a value exactly if it is not empty and begins the word
of the value and no other one. The order of the table does not matter, and what a text begins is
told by its bytes. The tables of the columns are such tables. -/
theorem keyword?_unambiguous (well : KeywordTable (table.map Prod.fst))
    : (∀ text value,
        keyword? table text = some value
        ↔ text ≠ ""
          ∧ ∃ word,
              (word, value) ∈ table
              ∧ Begins text word
              ∧ ∀ other ∈ table, Begins text other.1 → other = (word, value))
      ∧ (∀ other : List (String × α),
          other.Perm table → ∀ text, keyword? other text = keyword? table text)
      ∧ (∀ text, ∀ word ∈ table.map Prod.fst,
          Begins text word ↔ (encode text).map foldByte <+: (encode word).map foldByte)
      ∧ ∀ words ∈ keywordTables, KeywordTable words := by
  refine ⟨?_, ?_, ?_, keywordTable_of_mem⟩
  · intro text value
    by_cases filled : text = ""
    · subst filled
      simp [keyword?]
    · rw [keyword?_eq well filled, only?_eq_some_iff, List.map_eq_singleton_iff]
      constructor
      · rintro ⟨⟨word, _⟩, single, rfl⟩
        exact ⟨filled, word, (begun_eq_singleton_iff well).mp single⟩
      · rintro ⟨_, word, alone⟩
        exact ⟨(word, value), (begun_eq_singleton_iff well).mpr alone, rfl⟩
  · intro other perm text
    by_cases filled : text = ""
    · subst filled
      simp [keyword?]
    · have other_well := well.perm (perm.map Prod.fst).symm
      rw [keyword?_eq well filled, keyword?_eq other_well filled]
      exact only?_perm ((perm.filter _).map _)
  · intro text word member
    exact begins_iff_bytes (well.ascii word member)

/-- Witness: in whatever order the months are listed, `ja` stands for January, while `Ju` begins two
months and stands for none. -/
theorem keyword?_unambiguous_months
    : keyword? Month.keywords "ja" = some .jan
      ∧ keyword? Month.keywords.reverse "ja" = some .jan
      ∧ Begins "Ju" "June"
      ∧ Begins "Ju" "July"
      ∧ keyword? Month.keywords "Ju" = none := by
  have well : KeywordTable (Month.keywords.map Prod.fst) :=
    keywordTable_of_mem _ (by simp [keywordTables])
  obtain ⟨stands_iff, reordered, _, _⟩ := keyword?_unambiguous well
  have january : keyword? Month.keywords "ja" = some .jan := by
    apply (stands_iff "ja" .jan).mpr
    exact ⟨by decide, "January", by decide, by decide +kernel, by decide +kernel⟩
  refine ⟨january, ?_, by decide +kernel, by decide +kernel, ?_⟩
  · rw [reordered _ (List.reverse_perm _), january]
  · apply Option.eq_none_iff_forall_ne_some.mpr
    intro month spelled
    obtain ⟨_, word, _, _, alone⟩ := (stands_iff "Ju" month).mp spelled
    have june := alone ("June", .jun) (by decide) (by decide +kernel)
    have july := alone ("July", .jul) (by decide) (by decide +kernel)
    exact absurd (june.trans july.symm) (by decide)

end CivilTime.Text
