import FourWorlds.Proofs.FormulaReader
import FourWorlds.Proofs.FormulaTokens

/-! # Written formulas are read back

A written formula has parentheses around every joined formula inside another one, so each formula in
it is a term. How deep its terms stand depends on its shape alone: an operand stands one deeper than
its operator, and of a joined formula in parentheses the first part stands one deeper and the second
one two deeper. While that stays within the limit the reader gives back the formula, in every notation;
beyond it the reader refuses the first term that stands too deep.

* `Formula.nest`, `Formula.topNest`: how deep the terms stand of a formula inside another one, and of
  a whole one.
* `Spelt`: the tokens of a formula inside another one.
* `Spelt.derives`, `Spelt.exists_tooDeep`: the formula is derived from them within its depth, and
  refused by readers for fewer depths.
* `read_text_iff_topNest`: a written formula is read back exactly if its depth is within the limit,
  and refused as nested too deeply otherwise. -/

namespace FourWorlds

namespace Formula

/-- How much deeper than its own first token the terms stand of a formula that is written inside
another one. -/
def nest : Formula → Nat
  | top | bottom | atom _ => 0
  | apply _ φ => 1 + φ.nest
  | join _ φ ψ => max (1 + φ.nest) (2 + ψ.nest)

/-- How deep the terms stand of a formula that is written by itself. -/
def topNest : Formula → Nat
  | join _ φ ψ => max φ.nest (1 + ψ.nest)
  | φ => φ.nest

end Formula

/-! ## The tokens of a formula inside another one -/

/-- The tokens spell a formula the way it is written inside another one. -/
inductive Spelt : Formula → List (Token FormulaKind) → Prop
  /-- The constant that is true everywhere. -/
  | top {t} : t.kind = .top → Spelt .top [t]
  /-- The constant that is true nowhere. -/
  | bottom {t} : t.kind = .bottom → Spelt .bottom [t]
  /-- An atom. -/
  | atom {t} {x : Atom} : t.kind = .letter → t.text.head? = some x.letter → Spelt (.atom x) [t]
  /-- A prefix operator in front of its operand. -/
  | apply {t ts o φ} : t.kind = .operator o → Spelt φ ts → Spelt (.apply o φ) (t :: ts)
  /-- Two formulas with a connective between them, in parentheses. -/
  | join {t ts u us v c φ ψ} : t.kind = .opening → Spelt φ ts → u.kind = .connective c →
      Spelt ψ us → v.kind = .closing → Spelt (.join c φ ψ) (t :: (ts ++ u :: us ++ [v]))

namespace Token

variable {t : Token FormulaKind}

/-- A token that is what a symbol is read as has the kind of the symbol. -/
theorem kind_eq_of_view_eq {x : Symbol} (h : t.view = x.view) : t.kind = x.kind :=
  congrArg Prod.fst h

/-- A token that is what an atom is read as begins with the letter of the atom. -/
theorem head?_text_of_view_eq {x : Atom} (h : t.view = (Symbol.atom x).view) :
    t.text.head? = some x.letter := by
  have hkind : t.kind = .letter := kind_eq_of_view_eq h
  have hletter : (if t.kind = .letter then t.text.head? else none) = some x.letter :=
    congrArg Prod.snd h
  rwa [if_pos hkind] at hletter

end Token

namespace Spelt

variable {φ ψ : Formula} {ts us rest : List (Token FormulaKind)} {u : Token FormulaKind}
  {c : Connective}

/-- **The tokens of the symbols of a formula spell it.** -/
theorem exists_of_map_view {symbols : List Symbol}
    (h : ts.map Token.view = (φ.nestedSymbols symbols).map Symbol.view) :
    ∃ us rest, ts = us ++ rest ∧ Spelt φ us ∧ rest.map Token.view = symbols.map Symbol.view := by
  induction φ generalizing ts symbols with
  | top =>
      obtain ⟨t, rest, rfl, ht, hrest⟩ := List.map_eq_cons_iff.1 h
      exact ⟨[t], rest, rfl, .top (Token.kind_eq_of_view_eq ht), hrest⟩
  | bottom =>
      obtain ⟨t, rest, rfl, ht, hrest⟩ := List.map_eq_cons_iff.1 h
      exact ⟨[t], rest, rfl, .bottom (Token.kind_eq_of_view_eq ht), hrest⟩
  | atom x =>
      obtain ⟨t, rest, rfl, ht, hrest⟩ := List.map_eq_cons_iff.1 h
      exact ⟨[t], rest, rfl,
        .atom (Token.kind_eq_of_view_eq ht) (Token.head?_text_of_view_eq ht), hrest⟩
  | apply o φ ih =>
      obtain ⟨t, ts, rfl, ht, hts⟩ := List.map_eq_cons_iff.1 h
      obtain ⟨us, rest, rfl, hφ, hrest⟩ := ih hts
      exact ⟨t :: us, rest, rfl, .apply (Token.kind_eq_of_view_eq ht) hφ, hrest⟩
  | join c φ ψ ihφ ihψ =>
      obtain ⟨t, ts, rfl, ht, hts⟩ := List.map_eq_cons_iff.1 h
      obtain ⟨us, ts, rfl, hφ, hts⟩ := ihφ hts
      obtain ⟨u, ts, rfl, hu, hts⟩ := List.map_eq_cons_iff.1 hts
      obtain ⟨vs, ts, rfl, hψ, hts⟩ := ihψ hts
      obtain ⟨v, rest, rfl, hv, hrest⟩ := List.map_eq_cons_iff.1 hts
      refine ⟨t :: (us ++ u :: vs ++ [v]), rest, by simp, ?_, hrest⟩
      exact .join (Token.kind_eq_of_view_eq ht) hφ (Token.kind_eq_of_view_eq hu) hψ
        (Token.kind_eq_of_view_eq hv)

/-- Every formula is spelt by at least one token. -/
theorem ne_nil (h : Spelt φ ts) : ts ≠ [] := by
  cases h <;> exact List.cons_ne_nil _ _

/-! ## Within the limit -/

/-- Two terms with a connective between them are an expression, whatever the connective. -/
theorem derives_join {limit : ℕ∞} {d : ℕ} (hφ : Derives limit .term d ts φ)
    (hu : u.kind = .connective c) (hψ : Derives limit .term (d + 1) us ψ) :
    Derives limit .expression d (ts ++ u :: us) (.join c φ ψ) := by
  cases c with
  | and | or => exact .ofDisjunct (.tight hφ hu (by simp) (.ofTerm hψ))
  | implies | iff => exact .loose (.ofTerm hφ) hu (by simp) (.ofDisjunct (.ofTerm hψ))

/-- **A formula is derived as a term from the tokens that spell it**, if its terms stand within the
limit. -/
theorem derives (h : Spelt φ ts) {limit d : ℕ} (hd : d + φ.nest ≤ limit) :
    Derives limit .term d ts φ := by
  have hcast : ∀ d n : ℕ, d + n ≤ limit → (d : ℕ∞) ≤ limit := fun d n h => Nat.cast_le.2 (by omega)
  induction h generalizing d with
  | top hkind => exact .top (hcast d _ hd) hkind
  | bottom hkind => exact .bottom (hcast d _ hd) hkind
  | atom hkind hletter => exact .atom (hcast d _ hd) hkind hletter
  | apply hkind _ ih =>
      rw [Formula.nest] at hd
      exact .operator (hcast d _ hd) hkind (ih (by omega))
  | join hopening _ hu _ hclosing ihφ ihψ =>
      rw [Formula.nest] at hd
      refine .parenthesised (hcast d _ hd) hopening ?_ hclosing
      exact derives_join (ihφ (by omega)) hu (ihψ (by omega))

end Spelt

/-! ## Beyond the limit -/

namespace FormulaReader

variable {head rest operand expression : FormulaReader} {e : ParseError} {tier : Tier}

/-- A chain fails where its head fails. -/
theorem chain_eq_error_of_head {c : Cursor FormulaKind} (h : head c = .error e) :
    chain tier head rest c = .error e := by
  rw [chain, h]
  rfl

/-- A chain fails where what follows the connective fails. -/
theorem chain_eq_error_of_rest {c b b' : Cursor FormulaKind} {φ : Formula} {k : Connective}
    (hhead : head c = .ok (φ, b))
    (hconnective : b.advanceWhen (·.kind.connective? tier) = some (k, b')) (h : rest b' = .error e) :
    chain tier head rest c = .error e := by
  rw [chain, hhead]
  dsimp only [bind, Except.bind]
  rw [hconnective]
  dsimp only
  rw [h]

variable {t : Token FormulaKind} {passed unread : List (Token FormulaKind)}

/-- A term fails where the operand behind its operator fails. -/
theorem term_eq_error_of_operator {o : Operator} (hkind : t.kind = .operator o)
    (h : operand ⟨t :: passed, unread⟩ = .error e) :
    term operand expression ⟨passed, t :: unread⟩ = .error e := by
  simp only [term, Cursor.advance, hkind, h]
  rfl

/-- A term fails where the expression behind its parenthesis fails. -/
theorem term_eq_error_of_opening (hkind : t.kind = .opening)
    (h : expression ⟨t :: passed, unread⟩ = .error e) :
    term operand expression ⟨passed, t :: unread⟩ = .error e := by
  simp only [term, Cursor.advance, hkind, closed, h]
  rfl

end FormulaReader

namespace Level

variable {n : ℕ} {c : Cursor FormulaKind} {e : ParseError}

/-- The reader of the phrases of a tier is the chain of its operands. -/
theorem reader_phrase (n : ℕ) (tier : Tier) : (within (n + 1)).reader tier.phrase
    = .chain tier ((within (n + 1)).reader tier.operand) ((within n).reader tier.phrase) := by
  cases tier <;> rfl

/-- Every phrase fails where the term at its front fails. -/
theorem reader_eq_error_of_term (h : (within n).term c = .error e) (p : Phrase) :
    (within n).reader p c = .error e := by
  rcases n with _ | n
  · rw [within, reader_refusing]
    exact h
  · have hdisjunct : (within (n + 1)).disjunct c = .error e :=
      FormulaReader.chain_eq_error_of_head h
    cases p with
    | term => exact h
    | disjunct => exact hdisjunct
    | expression => exact FormulaReader.chain_eq_error_of_head hdisjunct

/-- An expression fails where a phrase at its front fails. -/
theorem expression_eq_error_of_reader {p : Phrase} (h : (within n).reader p c = .error e) :
    (within n).expression c = .error e := by
  cases p with
  | expression => exact h
  | term => exact reader_eq_error_of_term h .expression
  | disjunct =>
      rcases n with _ | n
      · exact h
      · exact FormulaReader.chain_eq_error_of_head h

end Level

namespace Spelt

variable {φ ψ : Formula} {ts us : List (Token FormulaKind)} {u : Token FormulaKind}
  {k : Connective}

/-- The first token of a formula is refused by the readers for no depth. -/
theorem exists_tooDeep_zero (h : Spelt φ ts) (passed rest : List (Token FormulaKind)) :
    ∃ t ∈ ts, (Level.within 0).term ⟨passed, ts ++ rest⟩ = .error (.tooDeep t.offset) := by
  obtain ⟨t, ts, rfl⟩ := List.exists_cons_of_ne_nil h.ne_nil
  exact ⟨t, List.mem_cons_self, rfl⟩

/-- A formula in front of a connective is read as an operand of it, by readers for more depths than
its terms need. -/
theorem reader_operand_eq_ok (h : Spelt φ ts) (hu : u.kind = .connective k) {m : ℕ}
    (hle : φ.nest ≤ m) (passed rest : List (Token FormulaKind)) :
    ((Level.within (m + 1)).reader k.tier.operand) ⟨passed, ts ++ u :: rest⟩
      = .ok (φ, ⟨ts.reverse ++ passed, u :: rest⟩) := by
  have hderives : Derives m k.tier.operand 0 ts φ := by
    have hterm : Derives m .term 0 ts φ := h.derives (by omega)
    cases k.tier with
    | tight => exact hterm
    | loose => exact .ofTerm hterm
  -- An operand does not go on with the connective that joins it.
  have hstops : k.tier.operand.Stops (u :: rest) := by
    intro t ht k' hk'
    obtain rfl := Option.some.inj ht
    obtain rfl : k = k' := FormulaKind.connective.inj (hu.symm.trans hk')
    exact Tier.not_goesOnWith_operand rfl
  exact (Level.exact_within (Nat.zero_add _) _ _ _ _).2 ⟨ts, ⟨rfl, rfl⟩, hderives, hstops⟩

/-- **Two terms with a connective between them are refused** if either stands too deep: the first one
stands as deep as the expression, and the second one a depth below. -/
theorem exists_tooDeep_join (hφ : Spelt φ ts) (hu : u.kind = .connective k) {n : ℕ}
    (hn : n ≤ max φ.nest (1 + ψ.nest))
    (ihφ : ∀ n passed rest, n ≤ φ.nest →
      ∃ t ∈ ts, (Level.within n).term ⟨passed, ts ++ rest⟩ = .error (.tooDeep t.offset))
    (ihψ : ∀ n passed rest, n ≤ ψ.nest →
      ∃ t ∈ us, (Level.within n).term ⟨passed, us ++ rest⟩ = .error (.tooDeep t.offset))
    (passed rest : List (Token FormulaKind)) :
    ∃ t ∈ ts ++ u :: us, (Level.within n).expression ⟨passed, ts ++ u :: us ++ rest⟩
      = .error (.tooDeep t.offset) := by
  rw [List.append_assoc, List.cons_append]
  by_cases hle : n ≤ φ.nest
  · -- The first term stands too deep, and the expression begins with it.
    obtain ⟨t, ht, herror⟩ := ihφ n passed (u :: (us ++ rest)) hle
    exact ⟨t, List.mem_append_left _ ht, Level.reader_eq_error_of_term herror .expression⟩
  · -- The first term is read, and the second one stands too deep for the readers a depth below.
    obtain ⟨m, rfl⟩ : ∃ m, n = m + 1 := ⟨n - 1, by omega⟩
    obtain ⟨t, ht, herror⟩ := ihψ m (u :: (ts.reverse ++ passed)) rest (by omega)
    refine ⟨t, List.mem_append_right _ (List.mem_cons_of_mem _ ht), ?_⟩
    have hread := hφ.reader_operand_eq_ok hu (Nat.le_of_not_lt hle) passed (us ++ rest)
    have hadvance : Cursor.advanceWhen (·.kind.connective? k.tier)
        ⟨ts.reverse ++ passed, u :: (us ++ rest)⟩
        = some (k, ⟨u :: (ts.reverse ++ passed), us ++ rest⟩) :=
      Cursor.advanceWhen_eq_some_iff.2
        ⟨u, rfl, FormulaKind.connective?_eq_some_iff.2 ⟨hu, rfl⟩⟩
    have hphrase : ((Level.within (m + 1)).reader k.tier.phrase) ⟨passed, ts ++ u :: (us ++ rest)⟩
        = .error (.tooDeep t.offset) := by
      rw [Level.reader_phrase]
      exact FormulaReader.chain_eq_error_of_rest hread hadvance
        (Level.reader_eq_error_of_term herror _)
    exact Level.expression_eq_error_of_reader hphrase

/-- **A formula is refused as nested too deeply** by readers for fewer depths than its terms need,
at one of the tokens that spell it. -/
theorem exists_tooDeep (h : Spelt φ ts) {n : ℕ} (hn : n ≤ φ.nest)
    (passed rest : List (Token FormulaKind)) :
    ∃ t ∈ ts, (Level.within n).term ⟨passed, ts ++ rest⟩ = .error (.tooDeep t.offset) := by
  induction h generalizing n passed rest with
  | top hkind =>
      obtain rfl := Nat.le_zero.1 hn
      exact exists_tooDeep_zero (.top hkind) passed rest
  | bottom hkind =>
      obtain rfl := Nat.le_zero.1 hn
      exact exists_tooDeep_zero (.bottom hkind) passed rest
  | atom hkind hletter =>
      obtain rfl := Nat.le_zero.1 hn
      exact exists_tooDeep_zero (.atom hkind hletter) passed rest
  | @apply t ts o φ hkind hφ ih =>
      rcases n with _ | n
      · exact exists_tooDeep_zero (.apply hkind hφ) passed rest
      · rw [Formula.nest] at hn
        have hle : n ≤ φ.nest := by omega
        obtain ⟨t', ht', herror⟩ := ih hle (t :: passed) rest
        exact ⟨t', List.mem_cons_of_mem _ ht',
          FormulaReader.term_eq_error_of_operator hkind herror⟩
  | @join t ts u us v c φ ψ hopening hφ hu hψ hclosing ihφ ihψ =>
      rcases n with _ | n
      · exact exists_tooDeep_zero (.join hopening hφ hu hψ hclosing) passed rest
      · rw [Formula.nest] at hn
        have hle : n ≤ max φ.nest (1 + ψ.nest) := by omega
        obtain ⟨t', ht', herror⟩ := exists_tooDeep_join hφ hu hle
          (fun n passed rest hn => ihφ hn passed rest) (fun n passed rest hn => ihψ hn passed rest)
          (t :: passed) (v :: rest)
        refine ⟨t', List.mem_cons_of_mem _ (List.mem_append_left _ ht'), ?_⟩
        rw [List.cons_append, List.append_assoc]
        exact FormulaReader.term_eq_error_of_opening hopening herror

end Spelt

/-! ## Whole formulas -/

namespace Formula

variable {φ : Formula} {tokens : List (Token FormulaKind)}

/-- The tokens of the symbols of a formula spell it, or spell its two parts around its connective. -/
theorem spelt_or_of_map_view (h : tokens.map Token.view = φ.symbols.map Symbol.view) :
    Spelt φ tokens ∧ φ.topNest = φ.nest ∨ ∃ c χ ψ ts u us, φ = .join c χ ψ
      ∧ tokens = ts ++ u :: us ∧ Spelt χ ts ∧ u.kind = .connective c ∧ Spelt ψ us := by
  have hnested : ∀ φ : Formula, tokens.map Token.view = (φ.nestedSymbols []).map Symbol.view →
      Spelt φ tokens := by
    intro φ h
    obtain ⟨us, rest, rfl, hφ, hrest⟩ := Spelt.exists_of_map_view h
    rw [List.map_nil, List.map_eq_nil_iff] at hrest
    rwa [hrest, List.append_nil]
  cases φ with
  | join c χ ψ =>
      obtain ⟨ts, rest, rfl, hχ, hrest⟩ := Spelt.exists_of_map_view h
      obtain ⟨u, rest, rfl, hu, hrest⟩ := List.map_eq_cons_iff.1 hrest
      obtain ⟨us, rest, rfl, hψ, hrest⟩ := Spelt.exists_of_map_view hrest
      rw [List.map_nil, List.map_eq_nil_iff] at hrest
      refine .inr ⟨c, χ, ψ, ts, u, us, rfl, ?_, hχ, Token.kind_eq_of_view_eq hu, hψ⟩
      rw [hrest, List.append_nil]
  | top | bottom | atom | apply => exact .inl ⟨hnested _ h, rfl⟩

/-- A formula is derived from the tokens of its symbols, if its terms stand within the limit. -/
theorem derives_of_topNest_le (h : tokens.map Token.view = φ.symbols.map Symbol.view) {limit : ℕ}
    (hnest : φ.topNest ≤ limit) : Derives limit .expression 0 tokens φ := by
  rcases spelt_or_of_map_view h with ⟨hφ, heq⟩ | ⟨c, χ, ψ, ts, u, us, rfl, rfl, hχ, hu, hψ⟩
  · exact .ofDisjunct (.ofTerm (hφ.derives (by omega)))
  · rw [topNest] at hnest
    exact Spelt.derives_join (hχ.derives (by omega)) hu (hψ.derives (by omega))

/-- The symbols of a formula are read back if its terms stand within the limit. -/
theorem ofTokens_eq_ok_of_topNest_le (h : tokens.map Token.view = φ.symbols.map Symbol.view)
    (hnest : φ.topNest ≤ maxDepth) : ofTokens tokens = .ok φ :=
  ofTokens_eq_ok_iff.2 (derives_of_topNest_le h hnest)

/-- The symbols of a formula are refused as nested too deeply if its terms stand beyond the limit. -/
theorem exists_ofTokens_eq_tooDeep (h : tokens.map Token.view = φ.symbols.map Symbol.view)
    (hnest : maxDepth < φ.topNest) : ∃ t ∈ tokens, ofTokens tokens = .error (.tooDeep t.offset) := by
  have hexpression : ∃ t ∈ tokens, (Level.within (maxDepth + 1)).expression (.ofTokens tokens)
      = .error (.tooDeep t.offset) := by
    rcases spelt_or_of_map_view h with ⟨hφ, heq⟩ | ⟨c, χ, ψ, ts, u, us, rfl, rfl, hχ, hu, hψ⟩
    · have hle : maxDepth + 1 ≤ φ.nest := by omega
      obtain ⟨t, ht, herror⟩ := hφ.exists_tooDeep hle [] []
      rw [List.append_nil] at herror
      exact ⟨t, ht, Level.reader_eq_error_of_term herror .expression⟩
    · rw [topNest] at hnest
      obtain ⟨t, ht, herror⟩ := Spelt.exists_tooDeep_join hχ hu (Nat.succ_le_of_lt hnest)
        (fun n passed rest hn => hχ.exists_tooDeep hn passed rest)
        (fun n passed rest hn => hψ.exists_tooDeep hn passed rest) [] []
      rw [List.append_nil] at herror
      exact ⟨t, ht, herror⟩
  obtain ⟨t, ht, herror⟩ := hexpression
  refine ⟨t, ht, ?_⟩
  have hne : tokens.isEmpty = false := by
    cases tokens with
    | nil => cases ht
    | cons => rfl
  rw [ofTokens, hne, herror]
  rfl

end Formula

/-- **Written formulas are read back.** A formula written in any notation is read back exactly if the
depth at which its terms stand is at most 1024, and otherwise it is refused as nested too deeply at
the offset of one of the tokens of its text, which is the number of bytes in front of that token. So
its three texts are all read back or all
refused. -/
theorem read_text_iff_topNest (φ : Formula) :
    (∀ style : Notation, (Formula.read (φ.text style) = .ok φ ↔ φ.topNest ≤ 1024)
        ∧ ((∃ tokens t before after, Formula.lexer.tokens (φ.text style) = .ok tokens ∧ t ∈ tokens
          ∧ (φ.text style).toList = before ++ t.text ++ after ∧ t.offset = byteLength before
          ∧ Formula.read (φ.text style) = .error (.tooDeep t.offset))
            ↔ 1024 < φ.topNest))
      ∧ ((∀ style, Formula.read (φ.text style) = .ok φ)
        ∨ ∀ style, ∃ offset, Formula.read (φ.text style) = .error (.tooDeep offset)) := by
  have hread : ∀ style, φ.topNest ≤ 1024 → Formula.read (φ.text style) = .ok φ := by
    intro style hle
    obtain ⟨tokens, htokens, hview⟩ := Formula.exists_tokens_text style φ
    exact bind_eq_ok_iff.2 ⟨tokens, htokens, Formula.ofTokens_eq_ok_of_topNest_le hview hle⟩
  have hrefused : ∀ style, 1024 < φ.topNest → ∃ tokens t before after,
      Formula.lexer.tokens (φ.text style) = .ok tokens ∧ t ∈ tokens
        ∧ (φ.text style).toList = before ++ t.text ++ after ∧ t.offset = byteLength before
        ∧ Formula.read (φ.text style) = .error (.tooDeep t.offset) := by
    intro style hlt
    obtain ⟨tokens, htokens, hview⟩ := Formula.exists_tokens_text style φ
    obtain ⟨t, ht, herror⟩ := Formula.exists_ofTokens_eq_tooDeep hview hlt
    obtain ⟨before, after, htext, hoffset⟩ :=
      (Lexer.tiles_of_tokensFrom_eq_ok htokens).exists_append_of_mem ht
    refine ⟨tokens, t, before, after, htokens, ht, htext, hoffset.trans (Nat.zero_add _), ?_⟩
    rw [Formula.read, htokens]
    exact herror
  refine ⟨fun style => ⟨⟨fun h => ?_, hread style⟩, ⟨?_, hrefused style⟩⟩, ?_⟩
  · by_contra hnot
    obtain ⟨_, t, _, _, -, -, -, -, herror⟩ := hrefused style (by omega)
    rw [h] at herror
    cases herror
  · rintro ⟨_, t, _, _, -, -, -, -, herror⟩
    by_contra hnot
    rw [hread style (by omega)] at herror
    cases herror
  · by_cases hle : φ.topNest ≤ 1024
    · exact .inl fun style => hread style hle
    · refine .inr fun style => ?_
      obtain ⟨_, t, _, _, -, -, -, -, herror⟩ := hrefused style (by omega)
      exact ⟨t.offset, herror⟩

end FourWorlds
