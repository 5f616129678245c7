import FourWorlds.Proofs.FormulaReader
import FourWorlds.Proofs.FrameReader
import FourWorlds.Proofs.Juxtaposition
import Mathlib.Data.List.Forall2

/-! # Reading without regard to spelling

Readers look at the kinds of tokens, and at the text of letters alone. So on two sequences of tokens
of the same kinds and letters, however spelt and wherever placed, they move in lockstep: each step is
taken on both or on neither, and what is found in one is found in the other. Offsets go into errors
only, and there each sequence tells that of its own token.

* `Token.Alike`: tokens of one kind, and of one letter if they are letters.
* `ParseError.Matches`, `Agree`: errors that differ in offsets alone, at tokens that correspond, and
  readings that both succeed alike or both fail with such errors.
* `FormulaReader.InStep`: a reader that moves in lockstep; `Level.inStep_within`: all readers of
  formulas do.
* `Place.agree_scan`: the machine of frames does.
* `readers_ignore_spelling`: two texts with tokens of the same kinds and letters are read alike. -/

namespace FourWorlds

variable {κ β γ δ ε : Type}

/-! ## Readings that agree -/

/-- Tokens of one kind, and of one letter if they are letters. -/
structure Token.Alike (letter : κ) (t u : Token κ) : Prop where
  /-- They are of one kind. -/
  kind_eq : t.kind = u.kind
  /-- A letter is spelt in one way. -/
  text_eq : t.kind = letter → t.text = u.text

/-- Tokens of the same number in two sequences. -/
def Token.SameNumber (ts us : List (Token κ)) (t u : Token κ) : Prop :=
  ∃ i : Nat, ts[i]? = some t ∧ us[i]? = some u

/-- **Errors match**: they are of one sort and name the same letter, and where they tell an offset, it
is in each that of a token, and these tokens are related. -/
inductive ParseError.Matches (P : Token κ → Token κ → Prop) : ParseError → ParseError → Prop
  /-- Both texts are blank. -/
  | blank : Matches P .blank .blank
  /-- Both texts end too early. -/
  | unexpectedEnd : Matches P .unexpectedEnd .unexpectedEnd
  /-- The same letter is no atom. -/
  | unknownAtom {letter : Char} {t u : Token κ} : P t u →
      Matches P (.unknownAtom letter t.offset) (.unknownAtom letter u.offset)
  /-- The same letter is no world. -/
  | unknownWorld {letter : Char} {t u : Token κ} : P t u →
      Matches P (.unknownWorld letter t.offset) (.unknownWorld letter u.offset)
  /-- Another token is required. -/
  | unexpectedSymbol {t u : Token κ} : P t u →
      Matches P (.unexpectedSymbol t.offset) (.unexpectedSymbol u.offset)
  /-- No token is expected. -/
  | unreadInput {t u : Token κ} : P t u → Matches P (.unreadInput t.offset) (.unreadInput u.offset)
  /-- A term begins too deep. -/
  | tooDeep {t u : Token κ} : P t u → Matches P (.tooDeep t.offset) (.tooDeep u.offset)

/-- **Readings agree**: both succeed with related results, or both fail with errors that match. -/
inductive Agree (P : Token κ → Token κ → Prop) (R : β → γ → Prop) :
    Except ParseError β → Except ParseError γ → Prop
  /-- Both succeed. -/
  | ok {x : β} {y : γ} : R x y → Agree P R (.ok x) (.ok y)
  /-- Both fail. -/
  | error {e e' : ParseError} : e.Matches P e' → Agree P R (.error e) (.error e')

variable {P Q : Token κ → Token κ → Prop} {R : β → γ → Prop} {S : δ → ε → Prop}

/-- Errors at related tokens match also if these are related in a weaker sense. -/
theorem ParseError.Matches.mono {e e' : ParseError} (h : e.Matches P e')
    (hPQ : ∀ t u, P t u → Q t u) : e.Matches Q e' := by
  cases h with
  | blank => exact .blank
  | unexpectedEnd => exact .unexpectedEnd
  | unknownAtom htu => exact .unknownAtom (hPQ _ _ htu)
  | unknownWorld htu => exact .unknownWorld (hPQ _ _ htu)
  | unexpectedSymbol htu => exact .unexpectedSymbol (hPQ _ _ htu)
  | unreadInput htu => exact .unreadInput (hPQ _ _ htu)
  | tooDeep htu => exact .tooDeep (hPQ _ _ htu)

namespace Agree

/-- **Sequences of steps agree** if the first steps do, and the later ones on related results. -/
theorem bind {x : Except ParseError β} {y : Except ParseError γ} {f : β → Except ParseError δ}
    {g : γ → Except ParseError ε} (h : Agree P R x y) (hfg : ∀ b c, R b c → Agree P S (f b) (g c)) :
    Agree P S (x >>= f) (y >>= g) := by
  cases h with
  | ok hR => exact hfg _ _ hR
  | error he => exact .error he

/-- Results that agree do so after being changed alike. -/
theorem map {x : Except ParseError β} {y : Except ParseError γ} {f : β → δ} {g : γ → ε}
    (h : Agree P R x y) (hfg : ∀ b c, R b c → S (f b) (g c)) : Agree P S (x.map f) (y.map g) := by
  cases h with
  | ok hR => exact .ok (hfg _ _ hR)
  | error he => exact .error he

/-- Readings agree also if tokens are related in a weaker sense. -/
theorem mono {x : Except ParseError β} {y : Except ParseError γ} (h : Agree P R x y)
    (hPQ : ∀ t u, P t u → Q t u) : Agree Q R x y := by
  cases h with
  | ok hR => exact .ok hR
  | error he => exact .error (he.mono hPQ)

end Agree

/-! ## Steps of two cursors -/

namespace Cursor

variable {c d : Cursor κ}

/-- Two cursors whose unread tokens are related read related tokens, or none. -/
theorem advance_cases (h : List.Forall₂ P c.unread d.unread) : c.advance = none ∧ d.advance = none
    ∨ ∃ t u b e, c.advance = some (t, b) ∧ d.advance = some (u, e) ∧ P t u
      ∧ List.Forall₂ P b.unread e.unread := by
  obtain ⟨passed, unread⟩ := c
  obtain ⟨passed', unread'⟩ := d
  cases h with
  | nil => exact .inl ⟨rfl, rfl⟩
  | cons htu hrest => exact .inr ⟨_, _, _, _, rfl, rfl, htu, hrest⟩

/-- They take the same conditional steps, if the test finds the same in related tokens. -/
theorem advanceWhen_cases {test : Token κ → Option β} (htest : ∀ t u, P t u → test t = test u)
    (h : List.Forall₂ P c.unread d.unread) : c.advanceWhen test = none ∧ d.advanceWhen test = none
    ∨ ∃ found b e, c.advanceWhen test = some (found, b) ∧ d.advanceWhen test = some (found, e)
      ∧ List.Forall₂ P b.unread e.unread := by
  rcases advance_cases h with ⟨hc, hd⟩ | ⟨t, u, b, e, hc, hd, htu, hrest⟩
  · exact .inl ⟨by rw [advanceWhen, hc]; rfl, by rw [advanceWhen, hd]; rfl⟩
  · rw [advanceWhen, advanceWhen, hc, hd, Option.bind_some, Option.bind_some]
    dsimp only
    rw [htest t u htu]
    cases test u with
    | none => exact .inl ⟨rfl, rfl⟩
    | some found => exact .inr ⟨found, b, e, rfl, rfl, hrest⟩

/-- They meet the same requirements, if related tokens are of one kind. -/
theorem agree_expect [DecidableEq κ] (hkind : ∀ t u, P t u → t.kind = u.kind) (kind : κ)
    (h : List.Forall₂ P c.unread d.unread) : Agree P P (c.expect kind).1 (d.expect kind).1
      ∧ List.Forall₂ P (c.expect kind).2.unread (d.expect kind).2.unread := by
  rcases advance_cases h with ⟨hc, hd⟩ | ⟨t, u, b, e, hc, hd, htu, hrest⟩
  · simp only [expect, hc, hd]
    exact ⟨.error .unexpectedEnd, h⟩
  · simp only [expect, hc, hd, hkind t u htu]
    refine ⟨?_, hrest⟩
    by_cases hu : u.kind = kind
    · rw [if_pos hu, if_pos hu]
      exact .ok htu
    · rw [if_neg hu, if_neg hu]
      exact .error (.unexpectedSymbol htu)

/-- They are finished both or neither. -/
theorem agree_finish (h : List.Forall₂ P c.unread d.unread) : Agree P Eq c.finish d.finish := by
  obtain ⟨passed, unread⟩ := c
  obtain ⟨passed', unread'⟩ := d
  cases h with
  | nil => exact .ok rfl
  | cons htu _ => exact .error (.unreadInput htu)

end Cursor

/-! ## Readers of formulas -/

namespace FormulaReader

variable {P : Token FormulaKind → Token FormulaKind → Prop}
  {head rest operand expression : FormulaReader}

/-- **A reader moves in lockstep** on related tokens: it finds the same formula before related tokens,
or fails with errors that match. -/
def InStep (P : Token FormulaKind → Token FormulaKind → Prop) (reader : FormulaReader) : Prop :=
  ∀ ⦃c d : Cursor FormulaKind⦄, List.Forall₂ P c.unread d.unread →
    Agree P (fun x y => x.1 = y.1 ∧ List.Forall₂ P x.2.unread y.2.unread) (reader c) (reader d)

variable (hP : ∀ t u, P t u → t.Alike .letter u)

include hP in
/-- A chain moves in lockstep if its parts do. -/
theorem inStep_chain (tier : Tier) (hhead : head.InStep P) (hrest : rest.InStep P) :
    (chain tier head rest).InStep P := by
  intro c d h
  refine (hhead h).bind ?_
  rintro ⟨φ, b⟩ ⟨_, e⟩ ⟨rfl, hbe⟩
  dsimp only
  have htest : ∀ t u, P t u → t.kind.connective? tier = u.kind.connective? tier :=
    fun t u htu => by rw [(hP t u htu).kind_eq]
  rcases Cursor.advanceWhen_cases htest hbe with ⟨hb, he⟩ | ⟨k, b', e', hb, he, hrest'⟩
  · rw [hb, he]
    exact .ok ⟨rfl, hbe⟩
  · rw [hb, he]
    refine (hrest hrest').bind ?_
    rintro ⟨ψ, _⟩ ⟨_, _⟩ ⟨rfl, hend⟩
    exact .ok ⟨rfl, hend⟩

include hP in
/-- A formula and a closing parenthesis are read in lockstep if the formula is. -/
theorem inStep_closed (hexpression : expression.InStep P) : (closed expression).InStep P := by
  intro c d h
  refine (hexpression h).bind ?_
  rintro ⟨φ, b⟩ ⟨_, e⟩ ⟨rfl, hbe⟩
  obtain ⟨hfound, hrest⟩ := Cursor.agree_expect (fun t u htu => (hP t u htu).kind_eq) .closing hbe
  exact hfound.bind fun _ _ _ => .ok ⟨rfl, hrest⟩

/-- A letter is read in the same way wherever it stands. -/
theorem agree_letter {t u : Token FormulaKind} {c d : Cursor FormulaKind} (htu : P t u)
    (htext : t.text = u.text) (h : List.Forall₂ P c.unread d.unread) :
    Agree P (fun x y => x.1 = y.1 ∧ List.Forall₂ P x.2.unread y.2.unread) (letter t c)
      (letter u d) := by
  rw [letter, letter, htext]
  cases Atom.ofLetter? (u.text.headD default) with
  | none => exact .error (.unknownAtom htu)
  | some x => exact .ok ⟨rfl, h⟩

include hP in
/-- A term is read in lockstep if its parts are. -/
theorem inStep_term (hoperand : operand.InStep P) (hexpression : expression.InStep P) :
    (term operand expression).InStep P := by
  intro c d h
  rw [term, term]
  rcases Cursor.advance_cases h with ⟨hc, hd⟩ | ⟨t, u, b, e, hc, hd, htu, hrest⟩
  · rw [hc, hd]
    exact .error .unexpectedEnd
  · obtain ⟨hkind, htext⟩ := hP t u htu
    rw [hc, hd]
    dsimp only
    rw [← hkind]
    cases ht : t.kind with
    | letter => exact agree_letter htu (htext ht) hrest
    | top => exact .ok ⟨rfl, hrest⟩
    | bottom => exact .ok ⟨rfl, hrest⟩
    | operator o =>
        refine (hoperand hrest).bind ?_
        rintro ⟨φ, _⟩ ⟨_, _⟩ ⟨rfl, hend⟩
        exact .ok ⟨rfl, hend⟩
    | opening => exact inStep_closed hP hexpression hrest
    | connective | closing => exact .error (.unexpectedSymbol htu)

/-- What begins too deep is refused in lockstep. -/
theorem inStep_tooDeep : tooDeep.InStep P := by
  intro c d h
  rw [tooDeep, tooDeep]
  rcases Cursor.advance_cases h with ⟨hc, hd⟩ | ⟨t, u, b, e, hc, hd, htu, -⟩
  · rw [hc, hd]
    exact .error .unexpectedEnd
  · rw [hc, hd]
    exact .error (.tooDeep htu)

end FormulaReader

/-- **The readers for any number of depths move in lockstep.** -/
theorem Level.inStep_within {P : Token FormulaKind → Token FormulaKind → Prop}
    (hP : ∀ t u, P t u → t.Alike .letter u) (n : Nat) : (within n).term.InStep P
      ∧ (within n).disjunct.InStep P ∧ (within n).expression.InStep P := by
  induction n with
  | zero =>
      have hrefusing : FormulaReader.tooDeep.InStep P := FormulaReader.inStep_tooDeep
      exact ⟨hrefusing, hrefusing, hrefusing⟩
  | succ n ih =>
      obtain ⟨hterm, hdisjunct, hexpression⟩ := ih
      have hterm' := FormulaReader.inStep_term hP hterm hexpression
      have hdisjunct' := FormulaReader.inStep_chain hP .tight hterm' hdisjunct
      exact ⟨hterm', hdisjunct', FormulaReader.inStep_chain hP .loose hdisjunct' hexpression⟩

/-- **Related tokens are read as the same formula**, or fail with errors that match. -/
theorem Formula.agree_ofTokens {P : Token FormulaKind → Token FormulaKind → Prop}
    (hP : ∀ t u, P t u → t.Alike .letter u) {ts us : List (Token FormulaKind)}
    (h : List.Forall₂ P ts us) : Agree P Eq (ofTokens ts) (ofTokens us) := by
  cases h with
  | nil => exact .error .blank
  | @cons t u ts us htu hrest =>
      have hread : Agree P (fun x y => x.1 = y.1 ∧ List.Forall₂ P x.2.unread y.2.unread)
          ((Level.within (maxDepth + 1)).expression (.ofTokens (t :: ts)))
          ((Level.within (maxDepth + 1)).expression (.ofTokens (u :: us))) :=
        (Level.inStep_within hP (maxDepth + 1)).2.2 (.cons htu hrest)
      rw [ofTokens_of_ne_nil (List.cons_ne_nil _ _), ofTokens_of_ne_nil (List.cons_ne_nil _ _)]
      refine hread.bind ?_
      rintro ⟨φ, b⟩ ⟨_, e⟩ ⟨rfl, hbe⟩
      exact (Cursor.agree_finish hbe).bind fun _ _ _ => .ok rfl

/-! ## The machine of frames -/

namespace Place

variable {P : Token FrameKind → Token FrameKind → Prop} {t u : Token FrameKind}
  {ts us : List (Token FrameKind)}

/-- Tokens that are alike name the same world. -/
theorem world?_eq_of_alike (h : t.Alike .letter u) : t.world? = u.world? := by
  rw [Token.world?, Token.world?, ← h.kind_eq]
  by_cases hkind : t.kind = .letter
  · rw [if_pos hkind, if_pos hkind, h.text_eq hkind]
  · rw [if_neg hkind, if_neg hkind]

/-- Tokens that are alike lead from a place to the same one. -/
theorem next?_eq_of_alike (h : t.Alike .letter u) (p : Place) : p.next? t = p.next? u := by
  cases p with
  | source | target v => rw [next?, next?, world?_eq_of_alike h]
  | relator v | separator => rw [next?, next?, h.kind_eq]

/-- Tokens that are alike end the same relation. -/
theorem ended_eq_of_alike (h : t.Alike .letter u) (p : Place) : p.ended t = p.ended u := by
  cases p with
  | target v => rw [ended, ended, world?_eq_of_alike h]
  | source | relator v | separator => rfl

/-- Tokens that are alike are refused alike. -/
theorem matches_refusal (htu : P t u) (h : t.Alike .letter u) (p : Place) :
    (p.refusal t).Matches P (p.refusal u) := by
  cases p with
  | source | target v =>
      rw [refusal, refusal, ← h.kind_eq]
      by_cases hkind : t.kind = .letter
      · rw [if_pos hkind, if_pos hkind, h.text_eq hkind]
        exact .unknownWorld htu
      · rw [if_neg hkind, if_neg hkind]
        exact .unexpectedSymbol htu
  | relator v => exact .unexpectedSymbol htu
  | separator => exact .unreadInput htu

/-- **The machine of frames moves in lockstep**: it finds the same relations in related tokens, or
fails with errors that match. -/
theorem agree_scan (hP : ∀ t u, P t u → t.Alike .letter u) (h : List.Forall₂ P ts us) (p : Place) :
    Agree P Eq (p.scan ts) (p.scan us) := by
  induction h generalizing p with
  | nil =>
      rw [scan_nil]
      by_cases hp : p = separator
      · rw [if_pos hp]
        exact .ok rfl
      · rw [if_neg hp]
        exact .error .unexpectedEnd
  | @cons t u ts us htu _ ih =>
      have halike := hP t u htu
      have hnext := next?_eq_of_alike halike p
      cases hu : p.next? u with
      | none =>
          rw [scan_cons_of_none hu, scan_cons_of_none (hnext.trans hu)]
          exact .error (matches_refusal htu halike p)
      | some q =>
          rw [scan_cons_of_some hu, scan_cons_of_some (hnext.trans hu), ended_eq_of_alike halike]
          exact (ih q).map fun _ _ h => h ▸ rfl

end Place

/-- **Related tokens are read as the same frame**, or fail with errors that match. -/
theorem Frame.agree_ofTokens {P : Token FrameKind → Token FrameKind → Prop}
    (hP : ∀ t u, P t u → t.Alike .letter u) {ts us : List (Token FrameKind)}
    (h : List.Forall₂ P ts us) : Agree P Eq (ofTokens ts) (ofTokens us) := by
  have hscan := (Place.agree_scan hP h .source).map (f := ofRelations) (g := ofRelations) (S := Eq)
    fun _ _ heq => heq ▸ rfl
  cases h with
  | nil => exact .error .blank
  | cons =>
      rw [ofTokens_eq (List.cons_ne_nil _ _), ofTokens_eq (List.cons_ne_nil _ _)]
      exact hscan

/-! ## Texts -/

/-- Sequences of tokens that are alike are alike at each number. -/
theorem forall₂_alike_and_sameNumber {letter : κ} {ts us : List (Token κ)}
    (h : List.Forall₂ (Token.Alike letter) ts us) :
    List.Forall₂ (fun t u => t.Alike letter u ∧ Token.SameNumber ts us t u) ts us := by
  obtain ⟨hlength, halike⟩ := List.forall₂_iff_zip.1 h
  refine List.forall₂_iff_zip.2 ⟨hlength, fun {t u} htu => ⟨halike htu, ?_⟩⟩
  obtain ⟨i, hi⟩ := List.mem_iff_getElem?.1 htu
  exact ⟨i, List.getElem?_zip_eq_some.1 hi⟩

/-- **Texts are read by the kinds and letters of their tokens.** Where two texts have as many tokens,
the corresponding ones of the same kind, and of the same letter if they are letters, either the same
formula is read from both, or both fail with the same error, which names the same letter if it names
one, and if it tells an offset, tells that of the token of the same number in each. So it is with
frames. -/
theorem readers_ignore_spelling :
    (∀ (text text' : String) (ts us : List (Token FormulaKind)),
        Formula.lexer.tokens text = .ok ts → Formula.lexer.tokens text' = .ok us →
        List.Forall₂ (Token.Alike .letter) ts us →
        Agree (Token.SameNumber ts us) Eq (Formula.read text) (Formula.read text'))
      ∧ ∀ (text text' : String) (ts us : List (Token FrameKind)),
        Frame.lexer.tokens text = .ok ts → Frame.lexer.tokens text' = .ok us →
        List.Forall₂ (Token.Alike .letter) ts us →
        Agree (Token.SameNumber ts us) Eq (Frame.read text) (Frame.read text') := by
  constructor
  · intro text text' ts us hts hus h
    rw [Formula.read, Formula.read, hts, hus]
    exact (Formula.agree_ofTokens (fun _ _ => And.left) (forall₂_alike_and_sameNumber h)).mono
      fun _ _ => And.right
  · intro text text' ts us hts hus h
    rw [Frame.read, Frame.read, hts, hus]
    exact (Frame.agree_ofTokens (fun _ _ => And.left) (forall₂_alike_and_sameNumber h)).mono
      fun _ _ => And.right

/-- In two spellings of one text a conjunct is missing before the closing parenthesis, the third token
of both, and two frames name the same letter that is no world. -/
theorem readers_ignore_spelling_third_token :
    let ts : List (Token FormulaKind) :=
      [⟨.letter, ['p'], 0⟩, ⟨.connective .and, ['&'], 2⟩, ⟨.closing, [')'], 4⟩]
    let us : List (Token FormulaKind) :=
      [⟨.letter, ['p'], 1⟩, ⟨.connective .and, ['∧'], 2⟩, ⟨.closing, "\\right)".toList, 5⟩]
    let vs : List (Token FrameKind) :=
      [⟨.letter, ['a'], 0⟩, ⟨.relator, ['R'], 1⟩, ⟨.letter, ['z'], 2⟩]
    let ws : List (Token FrameKind) :=
      [⟨.letter, ['a'], 0⟩, ⟨.relator, ['≺'], 1⟩, ⟨.letter, ['z'], 5⟩]
    (Formula.lexer.tokens "p & )" = .ok ts ∧ Formula.lexer.tokens " p∧\\right)" = .ok us
        ∧ List.Forall₂ (Token.Alike .letter) ts us
        ∧ Formula.read "p & )" = .error (.unexpectedSymbol 4)
        ∧ Agree (Token.SameNumber ts us) Eq (Formula.read "p & )") (Formula.read " p∧\\right)"))
      ∧ Frame.lexer.tokens "aRz" = .ok vs ∧ Frame.lexer.tokens "a≺ z" = .ok ws
        ∧ List.Forall₂ (Token.Alike .letter) vs ws
        ∧ Agree (Token.SameNumber vs ws) Eq (Frame.read "aRz") (Frame.read "a≺ z") := by
  intro ts us vs ws
  -- Each text is a row of items, none of which fuse.
  have hletter : Formula.IsItem ⟨.letter, ['p']⟩ := .inr ⟨'p', by decide, by decide, rfl⟩
  have hts : Formula.lexer.tokens "p & )" = .ok ts :=
    @Formula.tokens_row ⟨.none, [⟨⟨.letter, ['p']⟩, .space⟩, ⟨⟨.connective .and, ['&']⟩, .space⟩,
        ⟨⟨.closing, [')']⟩, .none⟩]⟩
      (List.forall_mem_cons.2 ⟨hletter, List.forall_mem_cons.2 ⟨.inl (by decide +kernel),
        List.forall_mem_singleton.2 (.inl (by decide +kernel))⟩⟩)
  have hus : Formula.lexer.tokens " p∧\\right)" = .ok us :=
    @Formula.tokens_row ⟨.space, [⟨⟨.letter, ['p']⟩, .none⟩, ⟨⟨.connective .and, ['∧']⟩, .none⟩,
        ⟨⟨.closing, "\\right)".toList⟩, .none⟩]⟩
      (List.forall_mem_cons.2 ⟨hletter, List.forall_mem_cons.2 ⟨.inl (by decide +kernel),
        List.forall_mem_singleton.2 (.inl (by decide +kernel))⟩⟩)
  have hvs : Frame.lexer.tokens "aRz" = .ok vs :=
    @Frame.tokens_row ⟨.none, [⟨⟨.letter, ['a']⟩, .none⟩, ⟨⟨.relator, ['R']⟩, .none⟩,
        ⟨⟨.letter, ['z']⟩, .none⟩]⟩
      (List.forall_mem_cons.2 ⟨.inr ⟨'a', by decide, rfl⟩, List.forall_mem_cons.2
        ⟨.inl (by decide +kernel), List.forall_mem_singleton.2 (.inr ⟨'z', by decide, rfl⟩)⟩⟩)
  have hws : Frame.lexer.tokens "a≺ z" = .ok ws :=
    @Frame.tokens_row ⟨.none, [⟨⟨.letter, ['a']⟩, .none⟩, ⟨⟨.relator, ['≺']⟩, .space⟩,
        ⟨⟨.letter, ['z']⟩, .none⟩]⟩
      (List.forall_mem_cons.2 ⟨.inr ⟨'a', by decide, rfl⟩, List.forall_mem_cons.2
        ⟨.inl (by decide +kernel), List.forall_mem_singleton.2 (.inr ⟨'z', by decide, rfl⟩)⟩⟩)
  have hformula : List.Forall₂ (Token.Alike .letter) ts us :=
    .cons ⟨rfl, fun _ => rfl⟩ (.cons ⟨rfl, by simp⟩ (.cons ⟨rfl, by simp⟩ .nil))
  have hframe : List.Forall₂ (Token.Alike .letter) vs ws :=
    .cons ⟨rfl, fun _ => rfl⟩ (.cons ⟨rfl, by simp⟩ (.cons ⟨rfl, fun _ => rfl⟩ .nil))
  have hread : Formula.read "p & )" = .error (.unexpectedSymbol 4) := by
    rw [Formula.read, hts]
    rfl
  exact ⟨⟨hts, hus, hformula, hread, readers_ignore_spelling.1 _ _ ts us hts hus hformula⟩,
    hvs, hws, hframe, readers_ignore_spelling.2 _ _ vs ws hvs hws hframe⟩

end FourWorlds
