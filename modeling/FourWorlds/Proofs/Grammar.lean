import FourWorlds.Formula.Token
import Mathlib.Data.ENat.Basic

/-! # The grammar of formulas

The grammar as a derivation relation on sequences of tokens, with the depth at which each phrase
stands. The whole expression stands at depth zero and the head of a phrase at the depth of the phrase;
what follows a connective, an operator or an opening parenthesis stands one deeper.

* `Phrase`, `Derives`: the kinds of phrase, and the trees they derive from sequences of tokens when no
  term stands deeper than a limit.
* `Derives.depth_le`, `Derives.mono`: the limit bounds the depth of a phrase, and may be raised.
* `nestings`, `Derives.of_nestings`: no term stands deeper than there are tokens with something one
  deeper behind them.
* `Derives.of_length`: nor deeper than there are tokens, so a finite limit is enough. -/

namespace FourWorlds

/-- A kind of phrase of the grammar. -/
inductive Phrase where
  /-- Disjuncts joined by `→` and `↔`. -/
  | expression
  /-- Terms joined by `∧` and `∨`. -/
  | disjunct
  /-- An atom, a constant, a prefixed term or a parenthesised expression. -/
  | term
  deriving DecidableEq, Repr

/-- **The grammar.** A sequence of tokens is a phrase at some depth that spells a formula, and no
term in it stands deeper than the limit. -/
inductive Derives (limit : ℕ∞) :
    Phrase → Nat → List (Token FormulaKind) → Formula → Prop
  /-- `expression := disjunct` -/
  | ofDisjunct {d : Nat} {ts φ} : Derives limit .disjunct d ts φ → Derives limit .expression d ts φ
  /-- `expression := disjunct ('→' | '↔') expression` -/
  | loose {d : Nat} {ts t us c φ ψ} : Derives limit .disjunct d ts φ →
      t.kind = .connective c → c = .implies ∨ c = .iff → Derives limit .expression (d + 1) us ψ →
      Derives limit .expression d (ts ++ t :: us) (.join c φ ψ)
  /-- `disjunct := term` -/
  | ofTerm {d : Nat} {ts φ} : Derives limit .term d ts φ → Derives limit .disjunct d ts φ
  /-- `disjunct := term ('∧' | '∨') disjunct` -/
  | tight {d : Nat} {ts t us c φ ψ} : Derives limit .term d ts φ →
      t.kind = .connective c → c = .and ∨ c = .or → Derives limit .disjunct (d + 1) us ψ →
      Derives limit .disjunct d (ts ++ t :: us) (.join c φ ψ)
  /-- `term := 'p' | 'q' | 'r' | 's'` -/
  | atom {d : Nat} {t} {x : Atom} : d ≤ limit → t.kind = .letter → t.text.head? = some x.letter →
      Derives limit .term d [t] (.atom x)
  /-- `term := '⊤'` -/
  | top {d : Nat} {t} : d ≤ limit → t.kind = .top → Derives limit .term d [t] .top
  /-- `term := '⊥'` -/
  | bottom {d : Nat} {t} : d ≤ limit → t.kind = .bottom → Derives limit .term d [t] .bottom
  /-- `term := ('¬' | '□' | '⋄') term` -/
  | operator {d : Nat} {t ts o φ} : d ≤ limit → t.kind = .operator o → Derives limit .term (d + 1) ts φ →
      Derives limit .term d (t :: ts) (.apply o φ)
  /-- `term := '(' expression ')'` -/
  | parenthesised {d : Nat} {t ts u φ} : d ≤ limit → t.kind = .opening →
      Derives limit .expression (d + 1) ts φ → u.kind = .closing →
      Derives limit .term d (t :: (ts ++ [u])) φ

namespace Derives

variable {limit limit' : ℕ∞} {p : Phrase} {d : Nat} {ts : List (Token FormulaKind)} {φ : Formula}

/-- Every phrase begins with a term at its own depth. -/
theorem depth_le (h : Derives limit p d ts φ) : d ≤ limit := by
  induction h with
  | ofDisjunct _ ih | ofTerm _ ih => exact ih
  | loose _ _ _ _ ih | tight _ _ _ _ ih => exact ih
  | atom hd | top hd | bottom hd | operator hd | parenthesised hd => exact hd

/-- No phrase is empty. -/
theorem ne_nil (h : Derives limit p d ts φ) : ts ≠ [] := by
  induction h with
  | ofDisjunct _ ih | ofTerm _ ih => exact ih
  | loose | tight | atom | top | bottom | operator | parenthesised => simp

/-- A phrase within a limit is one within any greater limit. -/
theorem mono (h : Derives limit p d ts φ) (hle : limit ≤ limit') : Derives limit' p d ts φ := by
  induction h with
  | ofDisjunct _ ih => exact .ofDisjunct ih
  | loose _ hkind hc _ ihφ ihψ => exact .loose ihφ hkind hc ihψ
  | ofTerm _ ih => exact .ofTerm ih
  | tight _ hkind hc _ ihφ ihψ => exact .tight ihφ hkind hc ihψ
  | atom hd hkind hletter => exact .atom (hd.trans hle) hkind hletter
  | top hd hkind => exact .top (hd.trans hle) hkind
  | bottom hd hkind => exact .bottom (hd.trans hle) hkind
  | operator hd hkind _ ih => exact .operator (hd.trans hle) hkind ih
  | parenthesised hd hkind _ hclosing ih => exact .parenthesised (hd.trans hle) hkind ih hclosing

/-- A term is a phrase of every kind. -/
theorem of_term (h : Derives limit .term d ts φ) : Derives limit p d ts φ := by
  cases p with
  | term => exact h
  | disjunct => exact .ofTerm h
  | expression => exact .ofDisjunct (.ofTerm h)

end Derives

/-! ## The depth of a phrase -/

/-- Whether what is read behind a token of a kind stands one deeper. -/
def FormulaKind.nests : FormulaKind → Bool
  | operator _ | connective _ | opening => true
  | letter | top | bottom | closing => false

/-- The number of tokens behind which what is read stands one deeper. -/
def nestings (tokens : List (Token FormulaKind)) : Nat := tokens.countP fun t => t.kind.nests

section Nestings

variable {t : Token FormulaKind} {kind : FormulaKind}

/-- A token of such a kind counts with those behind it. -/
theorem nestings_cons_of_nests (hkind : t.kind = kind) (h : kind.nests)
    (ts : List (Token FormulaKind)) : nestings (t :: ts) = nestings ts + 1 :=
  List.countP_cons_of_pos (hkind ▸ h)

/-- A token of another kind does not count. -/
theorem nestings_cons_of_not_nests (hkind : t.kind = kind) (h : ¬ kind.nests)
    (ts : List (Token FormulaKind)) : nestings (t :: ts) = nestings ts :=
  List.countP_cons_of_neg (hkind ▸ h)

/-- Of two sequences in a row the tokens of both count. -/
theorem nestings_append (ts us : List (Token FormulaKind)) :
    nestings (ts ++ us) = nestings ts + nestings us :=
  List.countP_append

end Nestings

namespace Derives

variable {limit : ℕ∞} {p : Phrase} {d : Nat} {ts : List (Token FormulaKind)} {φ : Formula}

/-- **No term of a phrase stands deeper below it** than the phrase has tokens behind which what is read
stands one deeper. -/
theorem of_nestings (h : Derives limit p d ts φ) : Derives (d + nestings ts : ℕ) p d ts φ := by
  induction h with
  | ofDisjunct _ ih => exact .ofDisjunct ih
  | ofTerm _ ih => exact .ofTerm ih
  -- The connective counts, so the bound of the second part is within that of the whole.
  | loose _ hkind hc _ ihφ ihψ =>
      have hcount := nestings_cons_of_nests hkind rfl
      refine .loose (ihφ.mono ?_) hkind hc (ihψ.mono ?_) <;>
        rw [Nat.cast_le, nestings_append, hcount] <;> omega
  | tight _ hkind hc _ ihφ ihψ =>
      have hcount := nestings_cons_of_nests hkind rfl
      refine .tight (ihφ.mono ?_) hkind hc (ihψ.mono ?_) <;>
        rw [Nat.cast_le, nestings_append, hcount] <;> omega
  | atom _ hkind hletter => exact .atom (Nat.cast_le.2 (Nat.le_add_right _ _)) hkind hletter
  | top _ hkind => exact .top (Nat.cast_le.2 (Nat.le_add_right _ _)) hkind
  | bottom _ hkind => exact .bottom (Nat.cast_le.2 (Nat.le_add_right _ _)) hkind
  | operator _ hkind _ ih =>
      have hcount := nestings_cons_of_nests hkind rfl
      refine .operator (Nat.cast_le.2 (Nat.le_add_right _ _)) hkind (ih.mono ?_)
      rw [Nat.cast_le, hcount]
      omega
  | parenthesised _ hkind _ hclosing ih =>
      have hcount := nestings_cons_of_nests hkind rfl
      refine .parenthesised (Nat.cast_le.2 (Nat.le_add_right _ _)) hkind (ih.mono ?_) hclosing
      rw [Nat.cast_le, hcount, nestings_append]
      omega

/-- **No term of a phrase stands deeper below it than the phrase has tokens.** -/
theorem of_length (h : Derives limit p d ts φ) : Derives (d + ts.length : ℕ) p d ts φ := by
  have hle : nestings ts ≤ ts.length := List.countP_le_length
  exact h.of_nestings.mono (Nat.cast_le.2 (Nat.add_le_add_left hle d))

end Derives

end FourWorlds
