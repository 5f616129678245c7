import FourWorlds.Text.Blank
import FourWorlds.Text.ParseError

/-! # Lexers given by a table of spellings

A lexer lists the spellings of each kind of token. Between tokens blanks are skipped. Where a token
begins, the longest spelling found there is read, and of equal ones the first listed; where there is
none, a single character is read if the lexer takes it as a letter. A table may list the empty text,
but nothing is ever read from it.

* `Token`: a kind, the text it was read from, and the byte offset of that text.
* `Lexer.ofTable`: the lexer of a table with several spellings to a kind.
* `Lexer.reading?`: what is read at the beginning of a text.
* `Lexer.tokens`: the tokens of a text, or the first offset at which nothing can be read. -/

namespace FourWorlds

variable {κ : Type}

/-- A token read from a text. -/
structure Token (κ : Type) where
  /-- What the token is. -/
  kind : κ
  /-- The text the token was read from. -/
  text : List Char
  /-- The byte offset of that text. -/
  offset : Nat
  deriving DecidableEq, Repr

/-- One way to spell a kind of token. -/
structure Spelling (κ : Type) where
  /-- What is spelt. -/
  kind : κ
  /-- How it is spelt. -/
  text : List Char
  deriving DecidableEq, Repr

/-- Spellings, and the characters that are tokens without being among them. -/
structure Lexer (κ : Type) where
  /-- The spellings, those of an earlier kind first. -/
  spellings : List (Spelling κ)
  /-- What a character is that begins no spelling. -/
  letter : Char → Option κ
  /-- Nothing is spelt by the empty text. -/
  text_ne_nil : ∀ s ∈ spellings, s.text ≠ []

/-- The spellings of a table with several spellings to a kind, the empty text passed over: any other
spelling is longer, and alone it would be read without end. -/
def Spelling.ofTable (table : List (κ × List String)) : List (Spelling κ) :=
  (table.flatMap fun (kind, texts) => texts.map fun text => ⟨kind, text.toList⟩).filter
    (!·.text.isEmpty)

/-- The spellings of a table are the texts listed in it that are not empty. -/
theorem Spelling.mem_ofTable {table : List (κ × List String)} {s : Spelling κ} :
    s ∈ ofTable table ↔
      (∃ texts, (s.kind, texts) ∈ table ∧ String.ofList s.text ∈ texts) ∧ s.text ≠ [] := by
  obtain ⟨kind, text⟩ := s
  simp only [ofTable, List.mem_filter, List.mem_flatMap, List.mem_map]
  constructor
  · rintro ⟨⟨⟨k, texts⟩, hrow, t, ht, heq⟩, hne⟩
    obtain ⟨rfl, rfl⟩ : k = kind ∧ t.toList = text := by simpa using heq
    exact ⟨⟨texts, hrow, by simpa using ht⟩, by simpa using hne⟩
  · rintro ⟨⟨texts, hrow, ht⟩, hne⟩
    exact ⟨⟨(kind, texts), hrow, String.ofList text, ht, by simp⟩, by simpa using hne⟩

/-- The longer of two spellings, or the first of equally long ones. -/
def Spelling.longer (s t : Spelling κ) : Spelling κ :=
  if s.text.length < t.text.length then t else s

/-- The longest of some spellings, the first of equally long ones. -/
def Spelling.longest? : List (Spelling κ) → Option (Spelling κ)
  | [] => none
  | s :: rest => some (rest.foldl longer s)

/-- The longest of some spellings is one of them. -/
theorem Spelling.mem_of_longest? {spellings : List (Spelling κ)} {s : Spelling κ}
    (h : longest? spellings = some s) : s ∈ spellings := by
  cases spellings with
  | nil => simp [longest?] at h
  | cons t rest =>
    obtain rfl : rest.foldl longer t = s := by simpa [longest?] using h
    clear h
    induction rest generalizing t with
    | nil => simp
    | cons u rest ih =>
      rw [List.foldl_cons]
      rcases List.mem_cons.1 (ih (longer t u)) with h | h
      · rw [h, longer]; split <;> simp
      · exact List.mem_cons_of_mem _ (List.mem_cons_of_mem _ h)

namespace Lexer

/-- The lexer of a table with several spellings to a kind. -/
def ofTable (table : List (κ × List String)) (letter : Char → Option κ) : Lexer κ where
  spellings := Spelling.ofTable table
  letter
  text_ne_nil _ hs := (Spelling.mem_ofTable.1 hs).2

/-- What is read at the beginning of a text: its longest spelling, or else a single letter. -/
def reading? (L : Lexer κ) (text : List Char) : Option (Spelling κ) :=
  match Spelling.longest? (L.spellings.filter (·.text.isPrefixOf text)) with
  | some s => some s
  | none => text.head?.bind fun c => (L.letter c).map fun kind => ⟨kind, [c]⟩

/-- Something is always read. -/
theorem text_ne_nil_of_reading? {L : Lexer κ} {text : List Char} {s : Spelling κ}
    (h : L.reading? text = some s) : s.text ≠ [] := by
  unfold reading? at h
  split at h
  · next t ht =>
    obtain rfl : t = s := by simpa using h
    exact L.text_ne_nil t (List.mem_filter.1 (Spelling.mem_of_longest? ht)).1
  · obtain ⟨c, _, hc⟩ := Option.bind_eq_some_iff.1 h
    obtain ⟨kind, _, rfl⟩ := Option.map_eq_some_iff.1 hc
    simp

/-- The tokens of a text whose first character stands at the offset. -/
def tokensFrom (L : Lexer κ) (offset : Nat) (text : List Char) :
    Except ParseError (List (Token κ)) :=
  match _htext : trimStart text with
  | [] => .ok []
  | c :: rest =>
    let start := offset + byteLength (text.takeWhile isBlank)
    match _hread : L.reading? (c :: rest) with
    | none => .error (.unknownSymbol start)
    | some s => do
      let tokens ← L.tokensFrom (start + byteLength s.text) ((c :: rest).drop s.text.length)
      return ⟨s.kind, s.text, start⟩ :: tokens
termination_by text.length
decreasing_by
  have hpos := List.length_pos_iff.2 (text_ne_nil_of_reading? _hread)
  have hle := length_trimStart_le text
  rw [_htext, List.length_cons] at hle
  simp only [List.length_drop, List.length_cons]
  omega

/-- The tokens of a text, or the error at the first offset where none can be read. -/
def tokens (L : Lexer κ) (text : String) : Except ParseError (List (Token κ)) :=
  L.tokensFrom 0 text.toList

end Lexer

end FourWorlds
