import FourWorlds.Proofs.Lexer

/-! # Texts as rows of words

A text is laid out as a row: blanks in front, and words, each an item with the blanks behind it. The
tokens of a row are its items at the byte offsets where they stand. A lexer reads a row back if the
table of the lexer gives each item where it stands, and every text is such a row, up to its end or to
the first place at which nothing is spelt.

* `Row`, `Row.text`, `Row.tokens`: blanks and words, the text they make, and its items as tokens.
* `Lexer.Gives`, `Lexer.Stuck`: what the table gives at the front of a text, and that it gives nothing.
* `Lexer.reading?_eq_some_iff_gives`, `Lexer.reading?_eq_none_iff`: what is read is what the table gives.
* `Lexer.tokensFrom_row_append`: a row in front of a text.
* `Lexer.exists_row`: every text is a row up to where nothing is spelt.
* `lexer_meets_table`: the tokens of a text, and the offset at which it has none, by the table. -/

namespace FourWorlds

variable {κ : Type}

/-! ## Rows -/

/-- Blanks alone, or nothing. -/
abbrev Gap := {gap : List Char // ∀ c ∈ gap, isBlank c}

/-- No blanks. -/
def Gap.none : Gap := ⟨[], nofun⟩

/-- A single space. -/
def Gap.space : Gap := ⟨[' '], List.forall_mem_singleton.2 (by decide)⟩

/-- An item of a text with the blanks behind it. -/
structure Word (κ : Type) where
  /-- The item: what is spelt, and how. -/
  item : Spelling κ
  /-- The blanks behind it. -/
  gap : Gap

/-- Words in a row, with blanks in front of the first one. -/
structure Row (κ : Type) where
  /-- The blanks in front. -/
  front : Gap
  /-- The words, in order. -/
  words : List (Word κ)

namespace Word

/-- The characters of a word. -/
def text (x : Word κ) : List Char := x.item.text ++ x.gap

/-- The characters of some words, one after another. -/
def textOf (words : List (Word κ)) : List Char := words.flatMap text

/-- The items of some words as tokens, the first of which stands at the offset. -/
def tokensOf (offset : Nat) : List (Word κ) → List (Token κ)
  | [] => []
  | x :: words =>
    ⟨x.item.kind, x.item.text, offset⟩ :: tokensOf (offset + byteLength x.text) words

/-- No words have no characters. -/
@[simp] theorem textOf_nil : textOf ([] : List (Word κ)) = [] := rfl

/-- The characters of a word and others. -/
theorem textOf_cons (x : Word κ) (words : List (Word κ)) :
    textOf (x :: words) = x.text ++ textOf words :=
  List.flatMap_cons

/-- The characters of a word and others, with a tail behind them. -/
theorem textOf_cons_append (x : Word κ) (words : List (Word κ)) (tail : List Char) :
    textOf (x :: words) ++ tail = x.item.text ++ (x.gap ++ (textOf words ++ tail)) := by
  simp only [textOf_cons, text, List.append_assoc]

/-- There is a token for each word. -/
@[simp] theorem length_tokensOf (offset : Nat) (words : List (Word κ)) :
    (tokensOf offset words).length = words.length := by
  induction words generalizing offset with
  | nil => rfl
  | cons x words ih => rw [tokensOf, List.length_cons, List.length_cons, ih]

end Word

namespace Row

/-- The characters of a row. -/
def text (row : Row κ) : List Char := row.front ++ Word.textOf row.words

/-- The items of a row as tokens, at the byte offsets where they stand. -/
def tokens (row : Row κ) : List (Token κ) := Word.tokensOf (byteLength row.front.1) row.words

end Row

/-! ## What a table gives -/

namespace Lexer

variable {L : Lexer κ} {s : Spelling κ} {c : Char} {offset : Nat} {rest tail text : List Char}
  {words : List (Word κ)}

/-- **What a table gives at the front of a text**: of the spellings that fit there the longest, of
equally long ones the first listed, and only where none fits a single letter. Of two spellings that
fit in one place one begins with the other, so the longer one has both more characters and more
bytes. -/
inductive Gives (L : Lexer κ) (text : List Char) : Spelling κ → Prop
  /-- No spelling that fits is longer, and none listed before it is as long. -/
  | spelling {before after : List (Spelling κ)} {s : Spelling κ} :
      L.spellings = before ++ s :: after → s.text <+: text →
      (∀ t ∈ before, t.text <+: text → t.text.length < s.text.length) →
      (∀ t ∈ after, t.text <+: text → t.text.length ≤ s.text.length) → Gives L text s
  /-- The first character is a letter, and no spelling fits. -/
  | letter {c : Char} {kind : κ} : (∀ t ∈ L.spellings, ¬ t.text <+: text) →
      text.head? = some c → L.letter c = some kind → Gives L text ⟨kind, [c]⟩

/-- **Nothing is spelt** at the front of a text: no spelling fits, and the first character is neither
blank nor a letter. -/
def Stuck (L : Lexer κ) (text : List Char) : Prop :=
  (∀ t ∈ L.spellings, ¬ t.text <+: text)
    ∧ ∃ c, text.head? = some c ∧ ¬ isBlank c ∧ L.letter c = none

/-- No spelling fits exactly if none is left of the table. -/
theorem filter_fits_eq_nil_iff :
    L.spellings.filter (·.text.isPrefixOf text) = [] ↔ ∀ t ∈ L.spellings, ¬ t.text <+: text := by
  simp only [List.filter_eq_nil_iff, List.isPrefixOf_iff_prefix]

/-- The first of the longest spellings that fit, among all that are listed. -/
theorem firstLongest_filter_iff : s.FirstLongest (L.spellings.filter (·.text.isPrefixOf text)) ↔
    ∃ before after, L.spellings = before ++ s :: after ∧ s.text <+: text
      ∧ (∀ t ∈ before, t.text <+: text → t.text.length < s.text.length)
      ∧ ∀ t ∈ after, t.text <+: text → t.text.length ≤ s.text.length := by
  constructor
  · rintro ⟨fitting, fitting', heq, hbefore, hafter⟩
    obtain ⟨before, others, hsplit, rfl, hothers⟩ := List.filter_eq_append_iff.1 heq
    obtain ⟨between, after, rfl, hbetween, hs, rfl⟩ := List.filter_eq_cons_iff.1 hothers
    refine ⟨before ++ between, after, by rw [hsplit, List.append_assoc],
      List.isPrefixOf_iff_prefix.1 hs, fun t ht hprefix => ?_, fun t ht hprefix => ?_⟩
    · rcases List.mem_append.1 ht with ht | ht
      · exact hbefore t (List.mem_filter.2 ⟨ht, List.isPrefixOf_iff_prefix.2 hprefix⟩)
      · exact absurd (List.isPrefixOf_iff_prefix.2 hprefix) (hbetween t ht)
    · exact hafter t (List.mem_filter.2 ⟨ht, List.isPrefixOf_iff_prefix.2 hprefix⟩)
  · rintro ⟨before, after, heq, hs, hbefore, hafter⟩
    refine ⟨before.filter (·.text.isPrefixOf text), after.filter (·.text.isPrefixOf text), ?_,
      fun t ht => ?_, fun t ht => ?_⟩
    · have hfits : s.text.isPrefixOf text := List.isPrefixOf_iff_prefix.2 hs
      rw [heq, List.filter_append, List.filter_cons, if_pos hfits]
    · obtain ⟨ht, hprefix⟩ := List.mem_filter.1 ht
      exact hbefore t ht (List.isPrefixOf_iff_prefix.1 hprefix)
    · obtain ⟨ht, hprefix⟩ := List.mem_filter.1 ht
      exact hafter t ht (List.isPrefixOf_iff_prefix.1 hprefix)

/-- **What is read at the front of a text is what the table gives there.** -/
theorem reading?_eq_some_iff_gives : L.reading? text = some s ↔ L.Gives text s := by
  rw [reading?]
  constructor
  · intro h
    split at h
    · next t hlongest =>
        obtain rfl := Option.some.inj h
        obtain ⟨before, after, heq, hs, hbefore, hafter⟩ :=
          firstLongest_filter_iff.1 (Spelling.longest?_eq_some_iff.1 hlongest)
        exact .spelling heq hs hbefore hafter
    · next hnone =>
        have hfits := filter_fits_eq_nil_iff.1 (Spelling.longest?_eq_none_iff.1 hnone)
        obtain ⟨c, hhead, hletter⟩ := Option.bind_eq_some_iff.1 h
        obtain ⟨kind, hkind, rfl⟩ := Option.map_eq_some_iff.1 hletter
        exact .letter hfits hhead hkind
  · intro h
    cases h with
    | spelling heq hs hbefore hafter =>
        have hlongest := firstLongest_filter_iff.2 ⟨_, _, heq, hs, hbefore, hafter⟩
        rw [Spelling.longest?_eq_some_iff.2 hlongest]
    | letter hfits hhead hkind =>
        rw [filter_fits_eq_nil_iff.2 hfits, hhead]
        simp [Spelling.longest?, hkind]

/-- Nothing is read at the front of a text exactly if no spelling fits and no letter stands there. -/
theorem reading?_eq_none_iff : L.reading? text = none ↔
    (∀ t ∈ L.spellings, ¬ t.text <+: text) ∧ ∀ c ∈ text.head?, L.letter c = none := by
  rw [← filter_fits_eq_nil_iff, ← Spelling.longest?_eq_none_iff, reading?]
  cases Spelling.longest? (L.spellings.filter (·.text.isPrefixOf text)) with
  | some t => simp
  | none => simp [Option.bind_eq_none_iff]

/-! ## Rows that are read back -/

/-- Each of some words is given by the table where it stands, in front of the others and of a tail,
and begins with no blank. -/
def GivesEach (L : Lexer κ) (tail : List Char) : List (Word κ) → Prop
  | [] => True
  | x :: words => (∀ c ∈ x.item.text.head?, ¬ isBlank c)
      ∧ L.Gives (x.item.text ++ (x.gap ++ (Word.textOf words ++ tail))) x.item
      ∧ GivesEach L tail words

/-- Words that are given are read back in front of the tokens of the tail. -/
theorem tokensFrom_textOf_append (h : L.GivesEach tail words) :
    L.tokensFrom offset (Word.textOf words ++ tail) = do
      let tokens ← L.tokensFrom (offset + byteLength (Word.textOf words)) tail
      return Word.tokensOf offset words ++ tokens := by
  induction words generalizing offset with
  | nil =>
      rw [Word.textOf_nil, List.nil_append, byteLength_nil, Nat.add_zero]
      cases L.tokensFrom offset tail <;> rfl
  | cons x words ih =>
      obtain ⟨hblank, hgives, hwords⟩ := h
      have hlength : offset + byteLength x.item.text + byteLength x.gap.1
          = offset + byteLength x.text := by
        rw [Word.text, byteLength_append, Nat.add_assoc]
      have hend : offset + byteLength x.text + byteLength (Word.textOf words)
          = offset + byteLength (Word.textOf (x :: words)) := by
        rw [Word.textOf_cons, byteLength_append, Nat.add_assoc]
      rw [Word.textOf_cons_append, tokensFrom_eq_cons hblank (reading?_eq_some_iff_gives.2 hgives),
        tokensFrom_append x.gap.2, ih hwords, hlength, hend, Word.tokensOf]
      cases L.tokensFrom (offset + byteLength (Word.textOf (x :: words))) tail <;> rfl

/-- **A row in front of a text.** If the table gives each item of the row where it stands, these are
the first tokens. -/
theorem tokensFrom_row_append {row : Row κ} (h : L.GivesEach tail row.words) :
    L.tokensFrom 0 (row.text ++ tail) = do
      let tokens ← L.tokensFrom (byteLength row.text) tail
      return row.tokens ++ tokens := by
  rw [Row.text, List.append_assoc, tokensFrom_append row.front.2, tokensFrom_textOf_append h,
    Nat.zero_add, byteLength_append, Row.tokens]

/-- Where nothing is spelt the tokens end. -/
theorem tokensFrom_of_stuck (h : L.Stuck text) :
    L.tokensFrom offset text = .error (.unknownSymbol offset) := by
  obtain ⟨hfits, c, hhead, hblank, hletter⟩ := h
  obtain ⟨rest, rfl⟩ := List.head?_eq_some_iff.1 hhead
  have hnone : L.reading? (c :: rest) = none := by
    refine reading?_eq_none_iff.2 ⟨hfits, fun b hb => ?_⟩
    obtain rfl := Option.some.inj hb
    exact hletter
  have htrim : trimStart (c :: rest) = c :: rest := List.dropWhile_cons_of_neg hblank
  rw [tokensFrom_of_reading?_eq_none htrim hnone, List.takeWhile_cons_of_neg hblank, byteLength_nil,
    Nat.add_zero]

/-- A row that is a whole text is read back as its tokens. -/
theorem tokens_of_row {text : String} {row : Row κ} (htext : row.text = text.toList)
    (h : L.GivesEach [] row.words) : L.tokens text = .ok row.tokens := by
  have hrow : L.tokensFrom 0 (row.text ++ []) = .ok (row.tokens ++ []) := by
    rw [tokensFrom_row_append h, tokensFrom_of_trimStart_eq_nil rfl]
    rfl
  rw [tokens, ← htext]
  simpa using hrow

/-- A text has no tokens if nothing is spelt behind a row in front. -/
theorem tokens_of_row_of_stuck {text : String} {row : Row κ} (htext : row.text ++ tail = text.toList)
    (h : L.GivesEach tail row.words) (hstuck : L.Stuck tail) :
    L.tokens text = .error (.unknownSymbol (byteLength row.text)) := by
  rw [tokens, ← htext, tokensFrom_row_append h, tokensFrom_of_stuck hstuck]
  rfl

/-- **Every text is a row** whose items the table gives, up to its end or to a place where nothing is
spelt. -/
theorem exists_row (L : Lexer κ) (text : List Char) : ∃ (row : Row κ) (tail : List Char),
    row.text ++ tail = text ∧ L.GivesEach tail row.words ∧ (tail = [] ∨ L.Stuck tail) := by
  induction hlength : text.length using Nat.strongRecOn generalizing text with
  | ind length ih =>
      rcases L.front_cases text with
        hblank | ⟨gap, c, rest, rfl, hgap, hc, hnone⟩ | ⟨gap, s, rest, rfl, hgap, hhead, hread, hlt⟩
      · exact ⟨⟨⟨text, hblank⟩, []⟩, [], by simp [Row.text], trivial, .inl rfl⟩
      · obtain ⟨hfits, hletter⟩ := reading?_eq_none_iff.1 hnone
        exact ⟨⟨⟨gap, hgap⟩, []⟩, c :: rest, by simp [Row.text], trivial,
          .inr ⟨hfits, c, rfl, hc, hletter c rfl⟩⟩
      · -- What is read is the first item, and the blanks in front of the rest stand behind it.
        obtain ⟨row, tail, rfl, hgives, hend⟩ := ih _ (hlength ▸ hlt) rest rfl
        have htext : s.text ++ (row.text ++ tail)
            = s.text ++ (row.front ++ (Word.textOf row.words ++ tail)) := by
          rw [Row.text, List.append_assoc]
        refine ⟨⟨⟨gap, hgap⟩, ⟨s, row.front⟩ :: row.words⟩, tail, ?_, ⟨hhead, ?_, hgives⟩, hend⟩
        · rw [htext, Row.text, List.append_assoc, Word.textOf_cons_append]
        · rw [← htext]
          exact reading?_eq_some_iff_gives.1 hread

/-- Items that are given are not empty, so there are not more of them than characters. -/
theorem length_words_le (h : L.GivesEach tail words) :
    words.length ≤ (Word.textOf words).length := by
  induction words with
  | nil => exact Nat.zero_le _
  | cons x words ih =>
      obtain ⟨-, hgives, hwords⟩ := h
      have hpos := List.length_pos_iff.2
        (text_ne_nil_of_reading? (reading?_eq_some_iff_gives.2 hgives))
      have hle := ih hwords
      rw [Word.textOf_cons, List.length_append, Word.text, List.length_append, List.length_cons]
      omega

/-- **The tokens of a text are those of a row** that is the whole text and whose items the table
gives. -/
theorem tokens_eq_ok_iff_exists_row {text : String} {tokens : List (Token κ)} :
    L.tokens text = .ok tokens ↔ ∃ row : Row κ,
      row.text = text.toList ∧ L.GivesEach [] row.words ∧ row.tokens = tokens := by
  constructor
  · intro h
    obtain ⟨row, tail, htext, hgives, rfl | hstuck⟩ := L.exists_row text.toList
    · rw [List.append_nil] at htext
      rw [tokens_of_row htext hgives] at h
      exact ⟨row, htext, hgives, Except.ok.inj h⟩
    · rw [tokens_of_row_of_stuck htext hgives hstuck] at h
      cases h
  · rintro ⟨row, htext, hgives, rfl⟩
    exact tokens_of_row htext hgives

/-- **A text has no tokens** exactly if behind a row whose items the table gives nothing is spelt. -/
theorem tokens_eq_error_iff_exists_row {text : String} {e : ParseError} :
    L.tokens text = .error e ↔ ∃ (row : Row κ) (tail : List Char), row.text ++ tail = text.toList
      ∧ L.GivesEach tail row.words ∧ L.Stuck tail ∧ e = .unknownSymbol (byteLength row.text) := by
  constructor
  · intro h
    obtain ⟨row, tail, htext, hgives, rfl | hstuck⟩ := L.exists_row text.toList
    · rw [List.append_nil] at htext
      rw [tokens_of_row htext hgives] at h
      cases h
    · rw [tokens_of_row_of_stuck htext hgives hstuck] at h
      exact ⟨row, tail, htext, hgives, hstuck, (Except.error.inj h).symm⟩
  · rintro ⟨row, tail, htext, hgives, hstuck, rfl⟩
    exact tokens_of_row_of_stuck htext hgives hstuck

/-- A text has at most as many tokens as characters. -/
theorem length_tokens_le {text : String} {tokens : List (Token κ)} (h : L.tokens text = .ok tokens) :
    tokens.length ≤ text.length := by
  obtain ⟨row, htext, hgives, rfl⟩ := tokens_eq_ok_iff_exists_row.1 h
  have hwords := length_words_le hgives
  rw [← String.length_toList, ← htext, Row.text, Row.tokens, Word.length_tokensOf,
    List.length_append]
  omega

end Lexer

/-- **A lexer does what its table says.** The tokens of a text are those of a row, which is the whole
text, with each item the one that the table gives where it stands: the longest spelling that fits
there, of equally long ones the first listed, and only where none fits a letter. There are at most as
many as characters. A text has no tokens exactly if such a row stands in front of a place at which
nothing is spelt, and the error is the byte offset of this place. -/
theorem lexer_meets_table (L : Lexer κ) (text : String) :
    (∀ tokens, L.tokens text = .ok tokens ↔ ∃ row : Row κ,
        row.text = text.toList ∧ L.GivesEach [] row.words ∧ row.tokens = tokens)
      ∧ (∀ e, L.tokens text = .error e ↔ ∃ (row : Row κ) (tail : List Char),
        row.text ++ tail = text.toList ∧ L.GivesEach tail row.words ∧ L.Stuck tail
          ∧ e = .unknownSymbol (byteLength row.text))
      ∧ ((∃ tokens, L.tokens text = .ok tokens ∧ tokens.length ≤ text.length)
        ∨ ∃ offset, L.tokens text = .error (.unknownSymbol offset)) := by
  refine ⟨fun tokens => Lexer.tokens_eq_ok_iff_exists_row,
    fun e => Lexer.tokens_eq_error_iff_exists_row, ?_⟩
  cases h : L.tokens text with
  | ok tokens => exact .inl ⟨tokens, rfl, Lexer.length_tokens_le h⟩
  | error e =>
      obtain ⟨row, tail, -, -, -, rfl⟩ := Lexer.tokens_eq_error_iff_exists_row.1 h
      exact .inr ⟨_, rfl⟩

/-- The longer of two spellings is read where both fit, as the kind listed first. -/
example : (Lexer.ofTable [(0, ["-", "->"]), (1, ["->"])] fun _ => none).tokens "->-"
    = .ok [⟨0, ['-', '>'], 0⟩, ⟨0, ['-'], 2⟩] := by
  cbv

end FourWorlds
