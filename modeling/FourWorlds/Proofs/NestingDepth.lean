import FourWorlds.Proofs.RoundTrip

/-! # How deep a formula is written that was read

A written formula has parentheses around every joined formula inside another one, also where the
text that it was read from needed none. So its terms may stand deeper than those of the text, but at
most twice as deep: a connective, behind which the text is one deeper, comes with one parenthesis at
most. The repeated conjunction of an atom, which is read without parentheses, comes within one of
that bound.

* `Phrase.NestsWithin`, `Derives.nestsWithin`: how deep the terms of a phrase stand once it is
  written, by the kind of phrase.
* `Formula.topNest_le_of_derives`, `Formula.exists_derives_text`: a written formula stands at most
  twice as deep as what it was read from.
* `conjunctionText`, `Formula.conjunction`: the text `p & p & … & p`, and the formula that it
  spells.
* `written_at_most_twice_as_deep`: texts with few tokens behind which something stands deeper are
  read back when the formula is written, and with one more the repeated conjunction is not. -/

namespace FourWorlds

variable {limit d : ℕ} {p : Phrase} {ts tokens : List (Token FormulaKind)} {φ : Formula}

/-! ## The depth of what is written -/

/-- The terms of a formula stand no deeper if it is written by itself than inside another one. -/
theorem Formula.topNest_le_nest (φ : Formula) : φ.topNest ≤ φ.nest := by
  cases φ with
  | top | bottom | atom | apply => exact le_rfl
  | join c φ ψ =>
      rw [topNest, nest]
      omega

/-- How deep the terms may stand of a formula that is written inside another one, if it was read as
a phrase of a kind at some depth with no term deeper than a limit. A term that needs any depth
leaves one to spare. An expression may take one more than twice its depth for the parentheses around
it, unless it is written by itself. -/
def Phrase.NestsWithin (limit d : Nat) (φ : Formula) : Phrase → Prop
  | .expression => φ.nest + 2 * d ≤ 2 * limit + 1 ∧ φ.topNest + 2 * d ≤ 2 * limit
  | .disjunct => φ.nest + 2 * d ≤ 2 * limit
  | .term => φ.nest = 0 ∨ φ.nest + 2 * d < 2 * limit

/-- **The terms of a phrase stand at most twice as deep once it is written**, but for the
parentheses around it. -/
theorem Derives.nestsWithin (h : Derives limit p d ts φ) : p.NestsWithin limit d φ := by
  induction h with
  | @ofDisjunct d ts φ _ ih =>
      have hle := φ.topNest_le_nest
      simp only [Phrase.NestsWithin] at ih ⊢
      constructor <;> omega
  | loose _ _ _ _ ihφ ihψ =>
      -- Behind the connective twice the depth is two less, which pays for both sets of parentheses.
      simp only [Phrase.NestsWithin, Formula.nest, Formula.topNest] at ihφ ihψ ⊢
      constructor <;> omega
  | ofTerm hφ ih =>
      have hd := Nat.cast_le.1 hφ.depth_le
      simp only [Phrase.NestsWithin] at ih ⊢
      omega
  | tight _ _ _ hψ ihφ ihψ =>
      -- The second part begins one deeper than the first, so there is room for the parentheses.
      have hd := Nat.cast_le.1 hψ.depth_le
      simp only [Phrase.NestsWithin, Formula.nest] at ihφ ihψ ⊢
      omega
  | atom | top | bottom => exact .inl rfl
  | operator _ _ hφ ih =>
      have hd := Nat.cast_le.1 hφ.depth_le
      simp only [Phrase.NestsWithin, Formula.nest] at ih ⊢
      omega
  | parenthesised _ _ _ _ ih =>
      -- The parentheses that were read leave room for those that are written.
      simp only [Phrase.NestsWithin] at ih ⊢
      omega

/-- **A written formula stands at most twice as deep** as what it was read from. -/
theorem Formula.topNest_le_of_derives (h : Derives limit .expression 0 ts φ) :
    φ.topNest ≤ 2 * limit := by
  obtain ⟨-, hle⟩ := h.nestsWithin
  exact hle

namespace Formula

/-- What the grammar derives from some tokens it also derives from those of the written formula,
with no term deeper than twice the limit. -/
theorem exists_derives_text (h : Derives limit .expression 0 ts φ) (style : Notation) :
    ∃ written, lexer.tokens (φ.text style) = .ok written
      ∧ Derives (2 * limit : ℕ) .expression 0 written φ := by
  obtain ⟨written, htokens, hview⟩ := exists_tokens_text style φ
  exact ⟨written, htokens, derives_of_topNest_le hview (topNest_le_of_derives h)⟩

/-- A text is read as what the grammar derives from its tokens. -/
theorem read_eq_ok_iff_of_tokens {text : String} (htokens : lexer.tokens text = .ok tokens) :
    read text = .ok φ ↔ Derives maxDepth .expression 0 tokens φ := by
  rw [read, htokens]
  exact ofTokens_eq_ok_iff

/-- A formula whose terms stand beyond the limit is refused in every notation. -/
theorem exists_read_text_eq_tooDeep (h : maxDepth < φ.topNest) (style : Notation) :
    ∃ offset, read (φ.text style) = .error (.tooDeep offset) := by
  obtain ⟨written, htokens, hview⟩ := exists_tokens_text style φ
  obtain ⟨t, -, herror⟩ := exists_ofTokens_eq_tooDeep hview h
  refine ⟨t.offset, ?_⟩
  rw [read, htokens]
  exact herror

end Formula

/-- A token that is what an atom is read as is derived as a term. -/
theorem Derives.atom_of_view_eq {t : Token FormulaKind} {x : Atom} (hd : d ≤ limit)
    (h : t.view = (Symbol.atom x).view) : Derives limit .term d [t] (.atom x) :=
  .atom (Nat.cast_le.2 hd) (Token.kind_eq_of_view_eq h) (Token.head?_text_of_view_eq h)

/-! ## Repeated conjunctions -/

/-- The text `p & p & … & p` with a number of connectives. -/
def conjunctionText : Nat → String
  | 0 => "p"
  | n + 1 => "p & " ++ conjunctionText n

namespace Formula

/-- The formula that is spelt by `p & p & … & p` with a number of connectives. -/
def conjunction : Nat → Formula
  | 0 => atom .p
  | n + 1 => and (atom .p) (conjunction n)

/-- The symbols of the text `p & p & … & p`, which are fewer than those of the formula once there
are two connectives. -/
def conjunctionSymbols : Nat → List Symbol
  | 0 => [.atom .p]
  | n + 1 => .atom .p :: .connective .and :: conjunctionSymbols n

variable {n : Nat}

/-- Written inside another one, a repeated conjunction needs two depths for each connective. -/
theorem nest_conjunction (n : Nat) : (conjunction n).nest = 2 * n := by
  induction n with
  | zero => rfl
  | succ n ih =>
      rw [conjunction, nest, ih, nest]
      omega

/-- Written by itself, it needs one depth less. -/
theorem topNest_conjunction (n : Nat) : (conjunction n).topNest = 2 * n - 1 := by
  cases n with
  | zero => rfl
  | succ n =>
      rw [conjunction, topNest, nest_conjunction, nest]
      omega

/-- The text consists of its symbols. -/
theorem toList_conjunctionText (n : Nat) : (conjunctionText n).toList
    = (conjunctionSymbols n).flatMap fun x => (Notation.ascii.spelling x).toList := by
  induction n with
  | zero => rfl
  | succ n ih =>
      rw [conjunctionText, String.toList_append, ih]
      rfl

/-- **A repeated conjunction is read from its text**, one deeper with each connective. -/
theorem derives_conjunction (h : tokens.map Token.view = (conjunctionSymbols n).map Symbol.view)
    {limit d : ℕ} (hd : d + n ≤ limit) :
    Derives limit .disjunct d tokens (conjunction n) ∧ nestings tokens = n := by
  induction n generalizing tokens d with
  | zero =>
      obtain ⟨t, rest, rfl, ht, hrest⟩ := List.map_eq_cons_iff.1 h
      obtain rfl := List.map_eq_nil_iff.1 hrest
      have hkind : t.kind = .letter := Token.kind_eq_of_view_eq ht
      exact ⟨.ofTerm (.atom_of_view_eq hd ht),
        nestings_cons_of_not_nests hkind Bool.false_ne_true []⟩
  | succ n ih =>
      obtain ⟨t, rest, rfl, ht, hrest⟩ := List.map_eq_cons_iff.1 h
      obtain ⟨u, us, rfl, hu, hus⟩ := List.map_eq_cons_iff.1 hrest
      have hkind : t.kind = .letter := Token.kind_eq_of_view_eq ht
      have hand : u.kind = .connective .and := Token.kind_eq_of_view_eq hu
      have hfirst : Derives limit .term d [t] (.atom .p) := .atom_of_view_eq (by omega) ht
      -- What follows the connective is the repeated conjunction with one fewer, a depth below.
      obtain ⟨hsecond, hcount⟩ : Derives limit .disjunct (d + 1) us (conjunction n)
          ∧ nestings us = n := ih hus (by omega)
      refine ⟨.tight hfirst hand (.inl rfl) hsecond, ?_⟩
      rw [nestings_cons_of_not_nests hkind Bool.false_ne_true, nestings_cons_of_nests hand rfl,
        hcount]

/-- The tokens of the text of a repeated conjunction are those from which the grammar derives it. -/
theorem exists_tokens_conjunctionText (n : Nat) :
    ∃ tokens, lexer.tokens (conjunctionText n) = .ok tokens ∧ nestings tokens = n
      ∧ Derives n .expression 0 tokens (conjunction n) := by
  obtain ⟨tokens, htokens, hview⟩ := exists_tokens_of_toList_eq .ascii (toList_conjunctionText n)
  obtain ⟨hderives, hcount⟩ := derives_conjunction hview (Nat.zero_add n).le
  exact ⟨tokens, htokens, hcount, .ofDisjunct hderives⟩

end Formula

/-- **A written formula is at most twice as deep as what it was read from.** If a text is read as a
formula and has at most 512 operators, connectives and opening parentheses, then the text of the
formula in every notation is read back; for the grammar derives the formula from its written tokens
within twice the depth at which it derives it from those of the text. With one connective more it
may not be: the text `p & p & … & p` is read with up to 1024 connectives, but what is written of it
with more than 512 is refused in every notation as nested too deeply. -/
theorem written_at_most_twice_as_deep :
    (∀ (text : String) (tokens : List (Token FormulaKind)) (φ : Formula),
        Formula.lexer.tokens text = .ok tokens → Formula.read text = .ok φ → nestings tokens ≤ 512 →
        ∀ style, Formula.read (φ.text style) = .ok φ)
      ∧ (∀ (limit : ℕ) (tokens : List (Token FormulaKind)) (φ : Formula),
        Derives limit .expression 0 tokens φ →
        ∀ style, ∃ written, Formula.lexer.tokens (φ.text style) = .ok written
          ∧ Derives (2 * limit : ℕ) .expression 0 written φ)
      ∧ ∀ n ≤ 1024, Formula.read (conjunctionText n) = .ok (.conjunction n)
        ∧ (∃ tokens, Formula.lexer.tokens (conjunctionText n) = .ok tokens ∧ nestings tokens = n)
        ∧ (512 < n → ∀ style, ∃ offset,
          Formula.read ((Formula.conjunction n).text style) = .error (.tooDeep offset)) := by
  refine ⟨?_, fun limit tokens φ h => Formula.exists_derives_text h, fun n hn => ?_⟩
  · intro text tokens φ htokens hread hcount style
    -- Counting the tokens gives a limit that may be well below the reader's own.
    have hderives := ((Formula.read_eq_ok_iff_of_tokens htokens).1 hread).of_nestings
    rw [Nat.zero_add] at hderives
    obtain ⟨written, hwritten, h⟩ := Formula.exists_derives_text hderives style
    refine (Formula.read_eq_ok_iff_of_tokens hwritten).2 (h.mono (Nat.cast_le.2 ?_))
    rw [maxDepth]
    omega
  · obtain ⟨tokens, htokens, hcount, hderives⟩ := Formula.exists_tokens_conjunctionText n
    refine ⟨?_, ⟨tokens, htokens, hcount⟩, fun hlt => Formula.exists_read_text_eq_tooDeep ?_⟩
    · exact (Formula.read_eq_ok_iff_of_tokens htokens).2 (hderives.mono (Nat.cast_le.2 hn))
    · rw [Formula.topNest_conjunction, maxDepth]
      omega

/-- With 512 connectives the text `p & p & … & p` is read as a formula that is written so as to be
read back in every notation, its terms standing at most twice as deep; with 513 it is read as one
that is written so as to be refused. -/
theorem written_at_most_twice_as_deep_conjunction :
    (∃ tokens, Formula.lexer.tokens (conjunctionText 512) = .ok tokens ∧ nestings tokens ≤ 512
        ∧ Derives 512 .expression 0 tokens (.conjunction 512))
      ∧ Formula.read (conjunctionText 512) = .ok (.conjunction 512)
      ∧ (∀ style, Formula.read ((Formula.conjunction 512).text style) = .ok (.conjunction 512))
      ∧ (∀ style, ∃ written,
        Formula.lexer.tokens ((Formula.conjunction 512).text style) = .ok written
          ∧ Derives 1024 .expression 0 written (.conjunction 512))
      ∧ Formula.read (conjunctionText 513) = .ok (.conjunction 513)
      ∧ ∀ style, ∃ offset,
        Formula.read ((Formula.conjunction 513).text style) = .error (.tooDeep offset) := by
  obtain ⟨tokens, htokens, hcount, hderives⟩ := Formula.exists_tokens_conjunctionText 512
  obtain ⟨hwithin, hdepth, hconjunction⟩ := written_at_most_twice_as_deep
  obtain ⟨hread, -⟩ := hconjunction 512 (by omega)
  obtain ⟨hread', -, hrefused⟩ := hconjunction 513 (by omega)
  exact ⟨⟨tokens, htokens, hcount.le, hderives⟩, hread,
    hwithin (conjunctionText 512) tokens _ htokens hread hcount.le,
    hdepth 512 tokens _ hderives, hread', hrefused (by omega)⟩

end FourWorlds
