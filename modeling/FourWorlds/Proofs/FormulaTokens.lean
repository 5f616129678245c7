import FourWorlds.Formula.Printer
import FourWorlds.Formula.Token
import FourWorlds.Proofs.Lexer

/-! # The tokens of written formulas

In the table of formulas a spelling begins with another one only where `\top` begins with `\to`. So a
spelling is read back whatever follows it, unless it is `\to` with the letter `p` behind it, and the
notations write a blank there. A formula written in any notation is read as the tokens of its symbols.

* `Formula.reading?_spelling`, `Formula.reading?_letter`: reading a spelling, and a letter.
* `Formula.exists_text_eq_singleton`: a letter is a single character.
* `Token.view`, `Symbol.view`: what a token is in a formula, and what a symbol is read as.
* `Formula.exists_tokens_text`: the tokens of a written formula. -/

namespace FourWorlds

/-! ## The table of formulas -/

namespace Formula

variable {s t : Spelling FormulaKind} {rest : List Char}

/-- **Only one spelling begins with another.** -/
theorem eq_or_of_prefix : ∀ s ∈ lexer.spellings, ∀ t ∈ lexer.spellings, s.text <+: t.text →
    t = s ∨ s.text = "\\to".toList ∧ t.text = "\\top".toList := by
  simp only [← List.isPrefixOf_iff_prefix]
  decide +kernel

/-- A spelling begins with no blank, and with no lowercase letter unless it is `v`. -/
theorem head_of_mem_spellings (hs : s ∈ lexer.spellings) {c : Char} (hc : s.text.head? = some c) :
    ¬ isBlank c ∧ (c.isLower → c = 'v') := by
  have hall : lexer.spellings.all fun s =>
      s.text.head?.all fun c => !isBlank c && (!c.isLower || c == 'v') := by
    decide +kernel
  have hhead := List.all_eq_true.1 hall s hs
  rw [hc, Option.all_some, Bool.and_eq_true, Bool.or_eq_true, beq_iff_eq] at hhead
  refine ⟨by simpa using hhead.1, fun hlower => hhead.2.resolve_left ?_⟩
  rw [hlower]
  decide

/-- **A spelling is read back**, whatever follows it, unless it is `\to` in front of the letter `p`. -/
theorem reading?_spelling (hs : s ∈ lexer.spellings)
    (hto : s.text = "\\to".toList → rest.head? ≠ some 'p') :
    lexer.reading? (s.text ++ rest) = some s := by
  refine Lexer.reading?_append hs fun t ht hprefix hfits => ?_
  rcases eq_or_of_prefix s hs t ht hprefix with heq | ⟨hshort, hlong⟩
  · exact heq
  · -- The letter behind `\to` would be that of `\top`.
    rw [hshort, hlong] at hfits
    obtain ⟨more, hmore⟩ := hfits
    have hcommon : "\\to".toList ++ 'p' :: more = "\\to".toList ++ rest := hmore
    have hrest : 'p' :: more = rest := List.append_cancel_left hcommon
    exact absurd (by rw [← hrest, List.head?_cons]) (hto hshort)

/-- A lowercase letter is read as a letter, unless it is the spelling `v`. -/
theorem reading?_letter {c : Char} (hlower : c.isLower) (hv : c ≠ 'v') :
    lexer.reading? (c :: rest) = some ⟨.letter, [c]⟩ := by
  refine Lexer.reading?_cons (fun t ht hhead => ?_) (if_pos hlower)
  exact hv ((head_of_mem_spellings ht hhead).2 hlower)

/-- **A letter is a single character.** No spelling stands for a letter, so a token that is one was
read as such. -/
theorem exists_text_eq_singleton {text : String} {tokens : List (Token FormulaKind)}
    (h : lexer.tokens text = .ok tokens) {t : Token FormulaKind} (ht : t ∈ tokens)
    (hkind : t.kind = .letter) : ∃ c, t.text = [c] := by
  have hspellings : ∀ s ∈ lexer.spellings, s.kind ≠ .letter := by decide +kernel
  exact (Lexer.tiles_of_tokensFrom_eq_ok h).exists_text_eq_singleton hspellings ht hkind

end Formula

/-! ## What a token is, and what a symbol is read as -/

/-- What a token is in a formula: its kind, and for a letter which one. -/
def Token.view (t : Token FormulaKind) : FormulaKind × Option Char :=
  (t.kind, if t.kind = .letter then t.text.head? else none)

namespace Symbol

/-- The kind of token that a symbol is read as. -/
def kind : Symbol → FormulaKind
  | atom _ => .letter
  | top => .top
  | bottom => .bottom
  | operator o => .operator o
  | connective c => .connective c
  | opening => .opening
  | closing => .closing

/-- What the token of a symbol is: its kind, and for an atom its letter. -/
def view (x : Symbol) : FormulaKind × Option Char :=
  (x.kind, match x with
    | atom y => some y.letter
    | _ => none)

/-- The symbols other than atoms. -/
def fixed : List Symbol :=
  [top, bottom, operator .not, operator .box, operator .diamond, connective .and, connective .or,
    connective .implies, connective .iff, opening, closing]

/-- A symbol is an atom or one of the others. -/
theorem eq_atom_or_mem_fixed (x : Symbol) : (∃ y, x = atom y) ∨ x ∈ fixed := by
  cases x with
  | atom y => exact .inl ⟨y, rfl⟩
  | operator o => cases o <;> exact .inr (by decide)
  | connective c => cases c <;> exact .inr (by decide)
  | top | bottom | opening | closing => exact .inr (by decide)

end Symbol

namespace Notation

/-- A symbol as it is spelt in a notation, without the blanks around it. -/
def item (style : Notation) (x : Symbol) : Spelling FormulaKind :=
  ⟨x.kind, trim (style.spelling x).toList⟩

/-- An atom is spelt by its letter. -/
theorem item_atom (style : Notation) (y : Atom) : style.item (.atom y) = ⟨.letter, [y.letter]⟩ := by
  cases style <;> cases y <;> decide

/-- A symbol that is no atom is spelt as in the table. -/
theorem item_mem_spellings (style : Notation) :
    ∀ x ∈ Symbol.fixed, style.item x ∈ Formula.lexer.spellings := by
  cases style <;> decide +kernel

/-- A notation that spells a symbol `\to` writes a blank behind it. -/
theorem getLast?_spelling_of_item_eq_to (style : Notation) {x : Symbol}
    (h : (style.item x).text = "\\to".toList) : (style.spelling x).toList.getLast? = some ' ' := by
  have hfixed : ∀ x ∈ Symbol.fixed, (style.item x).text = "\\to".toList →
      (style.spelling x).toList.getLast? = some ' ' := by
    cases style <;> decide +kernel
  rcases x.eq_atom_or_mem_fixed with ⟨y, rfl⟩ | hx
  · rw [item_atom] at h
    exact absurd (congrArg List.length h) (by simp)
  · exact hfixed x hx h

variable {style : Notation} {x : Symbol} {rest : List Char}

/-- The token of a spelt symbol is what the symbol is read as. -/
theorem view_item (offset : Nat) :
    Token.view ⟨(style.item x).kind, (style.item x).text, offset⟩ = x.view := by
  cases x with
  | atom y => rw [item_atom]; rfl
  | _ => rfl

/-- A symbol spelt without blanks begins with none. -/
theorem not_isBlank_item : ∀ c ∈ (style.item x).text.head?, ¬ isBlank c := by
  intro c hc
  rcases x.eq_atom_or_mem_fixed with ⟨y, rfl⟩ | hx
  · rw [item_atom] at hc
    obtain rfl := Option.some.inj hc
    cases y <;> decide
  · exact (Formula.head_of_mem_spellings (style.item_mem_spellings x hx) hc).1

/-- **A spelt symbol is read back**, unless it is `\to` in front of the letter `p`. -/
theorem reading?_item (hto : (style.item x).text = "\\to".toList → rest.head? ≠ some 'p') :
    Formula.lexer.reading? ((style.item x).text ++ rest) = some (style.item x) := by
  rcases x.eq_atom_or_mem_fixed with ⟨y, rfl⟩ | hx
  · rw [item_atom]
    exact Formula.reading?_letter (by cases y <;> decide) (by cases y <;> decide)
  · exact Formula.reading?_spelling (style.item_mem_spellings x hx) hto

end Notation

/-! ## The tokens of a written formula -/

namespace Formula

/-- **A written symbol gives one token**, whatever stands before and behind it. -/
theorem tokensFrom_spelling (style : Notation) (x : Symbol) (offset : Nat) (rest : List Char) :
    ∃ start next, lexer.tokensFrom offset ((style.spelling x).toList ++ rest) = do
      let tokens ← lexer.tokensFrom next rest
      return ⟨(style.item x).kind, (style.item x).text, start⟩ :: tokens := by
  obtain ⟨before, after, htext, hbefore, hafter⟩ := exists_append_trim (style.spelling x).toList
  have hitem : trim (style.spelling x).toList = (style.item x).text := rfl
  rw [hitem] at htext
  have hto : (style.item x).text = "\\to".toList → (after ++ rest).head? ≠ some 'p' := by
    intro heq
    have hlast := style.getLast?_spelling_of_item_eq_to heq
    rcases after with _ | ⟨c, after⟩
    · -- Without a blank behind it the spelling would end in `o`.
      rw [htext, heq, List.append_nil, List.getLast?_append] at hlast
      exact absurd (show some 'o' = some ' ' from hlast) (by decide)
    · intro hhead
      obtain rfl := Option.some.inj hhead
      exact absurd (hafter 'p' List.mem_cons_self) (by decide)
  refine ⟨offset + byteLength before,
    offset + byteLength before + byteLength (style.item x).text + byteLength after, ?_⟩
  rw [htext, List.append_assoc, List.append_assoc, Lexer.tokensFrom_append hbefore,
    Lexer.tokensFrom_eq_cons Notation.not_isBlank_item (Notation.reading?_item hto),
    Lexer.tokensFrom_append hafter]

/-- A written row of symbols is read as these, each spelt as in the notation. -/
theorem exists_tokensFrom_items (style : Notation) (xs : List Symbol) (offset : Nat) :
    ∃ tokens, lexer.tokensFrom offset (xs.flatMap fun x => (style.spelling x).toList) = .ok tokens
      ∧ tokens.map Token.spelling = xs.map style.item := by
  induction xs generalizing offset with
  | nil => exact ⟨[], Lexer.tokensFrom_of_trimStart_eq_nil rfl, rfl⟩
  | cons x xs ih =>
      obtain ⟨start, next, heq⟩ := tokensFrom_spelling style x offset
        (xs.flatMap fun x => (style.spelling x).toList)
      obtain ⟨tokens, htokens, hitems⟩ := ih next
      refine ⟨⟨(style.item x).kind, (style.item x).text, start⟩ :: tokens, ?_, ?_⟩
      · rw [List.flatMap_cons, heq, htokens]
        rfl
      · rw [List.map_cons, List.map_cons, hitems, Token.spelling]

/-- A written row of symbols is read as the tokens of the symbols. -/
theorem exists_tokensFrom_symbols (style : Notation) (xs : List Symbol) (offset : Nat) :
    ∃ tokens, lexer.tokensFrom offset (xs.flatMap fun x => (style.spelling x).toList) = .ok tokens
      ∧ tokens.map Token.view = xs.map Symbol.view := by
  obtain ⟨tokens, htokens, hitems⟩ := exists_tokensFrom_items style xs offset
  refine ⟨tokens, htokens, ?_⟩
  -- What a token is in a formula does not depend on its offset.
  have hview := congrArg (List.map fun s => Token.view ⟨s.kind, s.text, 0⟩) hitems
  simp only [List.map_map] at hview
  rwa [show (fun s => Token.view ⟨s.kind, s.text, 0⟩) ∘ style.item = Symbol.view from
    funext fun x => Notation.view_item 0] at hview

/-- A text that consists of symbols in a notation is read as the tokens of these. -/
theorem exists_tokens_of_toList_eq {text : String} {xs : List Symbol} (style : Notation)
    (h : text.toList = xs.flatMap fun x => (style.spelling x).toList) :
    ∃ tokens, lexer.tokens text = .ok tokens ∧ tokens.map Token.view = xs.map Symbol.view := by
  rw [Lexer.tokens, h]
  exact exists_tokensFrom_symbols style xs 0

/-- **A written formula is read as the tokens of its symbols**, in every notation. -/
theorem exists_tokens_text (style : Notation) (φ : Formula) :
    ∃ tokens, lexer.tokens (φ.text style) = .ok tokens
      ∧ tokens.map Token.view = φ.symbols.map Symbol.view := by
  refine exists_tokens_of_toList_eq style ?_
  rw [text, String.toList_join, List.flatMap_map]

end Formula

end FourWorlds
