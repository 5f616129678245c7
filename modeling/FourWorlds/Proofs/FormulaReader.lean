import FourWorlds.Formula.Reader
import FourWorlds.Proofs.Cursor
import FourWorlds.Proofs.Grammar

/-! # Readers of formulas and the grammar

A reader of a kind of phrase takes the longest phrase of its kind: it stops only where no connective
follows that the phrase could go on with. So the tokens settle where each phrase ends, and reading
never has a choice.

* `Phrase.Stops`: no connective follows that a phrase of a kind could go on with.
* `FormulaReader.Exact`: a reader reads the phrases of a kind up to where they stop, and no others.
* `FormulaReader.exact_term`, `FormulaReader.exact_chain`: readers made of exact ones are exact.
* `Level.exact_within`: the readers for a number of depths are exact for that limit.
* `read_eq_ok_iff_derives`: a text is read as a formula exactly if the grammar derives the formula
  from its tokens, and it derives one formula at most. -/

namespace FourWorlds

/-! ## Where phrases stop -/

/-- The connectives that a phrase of a kind goes on with if one follows it. -/
def Phrase.GoesOnWith (c : Connective) : Phrase → Prop
  | .expression => True
  | .disjunct => c.tier = .tight
  | .term => False

/-- No connective follows that a phrase of a kind could go on with. -/
def Phrase.Stops (p : Phrase) (unread : List (Token FormulaKind)) : Prop :=
  ∀ t ∈ unread.head?, ∀ c, t.kind = .connective c → ¬ p.GoesOnWith c

/-- Every phrase stops at the end. -/
theorem Phrase.stops_nil (p : Phrase) : p.Stops [] := by simp [Stops]

/-- A phrase stops before a token that is no connective. -/
theorem Phrase.stops_cons_of_ne {p : Phrase} {t : Token FormulaKind}
    {unread : List (Token FormulaKind)} (h : ∀ c, t.kind ≠ .connective c) :
    p.Stops (t :: unread) := by
  intro u hu c hc
  obtain rfl := Option.some.inj hu
  exact absurd hc (h c)

namespace Tier

/-- The phrases that the connectives of a tier join. -/
def operand : Tier → Phrase
  | tight => .term
  | loose => .disjunct

/-- The phrases made by the connectives of a tier. -/
def phrase : Tier → Phrase
  | tight => .disjunct
  | loose => .expression

/-- A phrase goes on with the connectives of its tier, and with those its operands go on with. -/
theorem goesOnWith_phrase_iff {tier : Tier} {c : Connective} :
    tier.phrase.GoesOnWith c ↔ tier.operand.GoesOnWith c ∨ c.tier = tier := by
  cases tier <;> cases c <;> simp [phrase, operand, Phrase.GoesOnWith, Connective.tier]

/-- An operand does not go on with a connective of the tier that joins it. -/
theorem not_goesOnWith_operand {tier : Tier} {c : Connective} (h : c.tier = tier) :
    ¬ tier.operand.GoesOnWith c := by
  subst h
  cases c <;> simp [operand, Phrase.GoesOnWith, Connective.tier]

/-- The phrases of a tier are those of no other tier. -/
theorem phrase_inj {tier tier' : Tier} (h : tier.phrase = tier'.phrase) : tier = tier' := by
  cases tier <;> cases tier' <;> trivial

/-- A term is the phrase of no tier. -/
theorem phrase_ne_term (tier : Tier) : tier.phrase ≠ .term := by
  cases tier <;> decide

/-- An operand stops before a connective of the tier that joins it. -/
theorem operand_stops_cons {tier : Tier} {t : Token FormulaKind} {k : Connective}
    (hkind : t.kind = .connective k) (htier : k.tier = tier) (unread : List (Token FormulaKind)) :
    tier.operand.Stops (t :: unread) := by
  intro u hu k' hk'
  obtain rfl := Option.some.inj hu
  obtain rfl : k = k' := FormulaKind.connective.inj (hkind.symm.trans hk')
  exact not_goesOnWith_operand htier

end Tier

/-- A token stands for a connective of a tier exactly if its kind is that connective. -/
theorem FormulaKind.connective?_eq_some_iff {kind : FormulaKind} {tier : Tier} {c : Connective} :
    kind.connective? tier = some c ↔ kind = .connective c ∧ c.tier = tier := by
  cases kind with
  | connective c' =>
      rw [connective?, FormulaKind.connective.injEq]
      by_cases h : c'.tier = tier
      · rw [if_pos h, Option.some.injEq]
        exact (and_iff_left_of_imp fun heq => heq ▸ h).symm
      · rw [if_neg h]
        exact iff_of_false nofun fun ⟨heq, hc⟩ => h (heq ▸ hc)
  | _ => simp [connective?]

/-- A phrase of a tier is an operand, or an operand joined to a phrase of the tier one deeper. -/
theorem derives_phrase_iff {limit : ℕ∞} {tier : Tier} {d : Nat} {ts : List (Token FormulaKind)}
    {χ : Formula} : Derives limit tier.phrase d ts χ ↔ Derives limit tier.operand d ts χ
      ∨ ∃ ts₁ t us c φ ψ, ts = ts₁ ++ t :: us ∧ χ = .join c φ ψ ∧ t.kind = .connective c
        ∧ c.tier = tier ∧ Derives limit tier.operand d ts₁ φ
        ∧ Derives limit tier.phrase (d + 1) us ψ := by
  constructor
  · intro h
    cases tier with
    | tight =>
        cases h with
        | ofTerm h => exact .inl h
        | tight hφ hkind hc hψ =>
            refine .inr ⟨_, _, _, _, _, _, rfl, rfl, hkind, ?_, hφ, hψ⟩
            rcases hc with rfl | rfl <;> rfl
    | loose =>
        cases h with
        | ofDisjunct h => exact .inl h
        | loose hφ hkind hc hψ =>
            refine .inr ⟨_, _, _, _, _, _, rfl, rfl, hkind, ?_, hφ, hψ⟩
            rcases hc with rfl | rfl <;> rfl
  · rintro (h | ⟨ts₁, t, us, c, φ, ψ, rfl, rfl, hkind, rfl, hφ, hψ⟩)
    · cases tier with
      | tight => exact .ofTerm h
      | loose => exact .ofDisjunct h
    · cases c with
      | and | or => exact .tight hφ hkind (by simp) hψ
      | implies | iff => exact .loose hφ hkind (by simp) hψ

namespace FormulaReader

/-! ## Exact readers -/

/-- A reader reads the phrases of a kind up to where they stop, and no others. -/
def Exact (reader : FormulaReader) (limit : ℕ∞) (p : Phrase) (d : Nat) : Prop :=
  ∀ c φ e, reader c = .ok (φ, e) ↔
    ∃ ts, c.Passes ts e ∧ Derives limit p d ts φ ∧ p.Stops e.unread

variable {limit : ℕ∞} {d : Nat} {head rest operand expression : FormulaReader}

/-- What a chain reads: its head, and if a connective of the tier follows, the rest after it. -/
theorem chain_eq_ok_iff {tier : Tier} {c e : Cursor FormulaKind} {χ : Formula} :
    chain tier head rest c = .ok (χ, e) ↔ ∃ φ b, head c = .ok (φ, b)
      ∧ (b.advanceWhen (·.kind.connective? tier) = none ∧ φ = χ ∧ b = e
        ∨ ∃ k b' ψ, b.advanceWhen (·.kind.connective? tier) = some (k, b')
          ∧ rest b' = .ok (ψ, e) ∧ .join k φ ψ = χ) := by
  rw [chain, bind_eq_ok_iff, Prod.exists]
  refine exists_congr fun φ => exists_congr fun b => and_congr_right fun _ => ?_
  dsimp only
  generalize b.advanceWhen (fun t => t.kind.connective? tier) = found
  rcases found with _ | ⟨k, b'⟩
  · simp [pure, Except.pure]
  · rw [bind_eq_ok_iff]
    simp [pure, Except.pure]

/-- **A chain of exact readers is exact.** -/
theorem exact_chain (tier : Tier) (hhead : head.Exact limit tier.operand d)
    (hrest : rest.Exact limit tier.phrase (d + 1)) :
    (chain tier head rest).Exact limit tier.phrase d := by
  intro c χ e
  rw [chain_eq_ok_iff]
  constructor
  · rintro ⟨φ, b, hφ, ⟨hnone, rfl, rfl⟩ | ⟨k, b', ψ, hsome, hψ, rfl⟩⟩
    · -- No connective of the tier follows, so the phrase stops where its head does.
      obtain ⟨ts, hpass, hderives, hstops⟩ := (hhead c φ b).1 hφ
      refine ⟨ts, hpass, derives_phrase_iff.2 (.inl hderives), fun t ht k hk hgoes => ?_⟩
      rcases Tier.goesOnWith_phrase_iff.1 hgoes with hgoes | htier
      · exact hstops t ht k hk hgoes
      · have hfound := FormulaKind.connective?_eq_some_iff.2 ⟨hk, htier⟩
        rw [Cursor.advanceWhen_eq_none_iff.1 hnone t ht] at hfound
        cases hfound
    · -- The phrase is made of the head, the connective that was read, and the rest.
      obtain ⟨ts, hpass, hderives, -⟩ := (hhead c φ b).1 hφ
      obtain ⟨t, hadvance, hkind⟩ := Cursor.advanceWhen_eq_some_iff.1 hsome
      obtain ⟨hkind, htier⟩ := FormulaKind.connective?_eq_some_iff.1 hkind
      obtain ⟨us, hpass', hderives', hstops'⟩ := (hrest b' ψ e).1 hψ
      refine ⟨ts ++ t :: us, ?_, ?_, hstops'⟩
      · exact Cursor.passes_append_iff.2 ⟨b, hpass, Cursor.passes_cons_iff.2 ⟨b', hadvance, hpass'⟩⟩
      · exact derives_phrase_iff.2
          (.inr ⟨ts, t, us, k, φ, ψ, rfl, rfl, hkind, htier, hderives, hderives'⟩)
  · rintro ⟨ts, hpass, hderives, hstops⟩
    rcases derives_phrase_iff.1 hderives with
      hderives | ⟨ts₁, t, us, k, φ, ψ, rfl, rfl, hkind, htier, hφ, hψ⟩
    · -- The phrase is its head alone: the operand stops where the phrase does.
      refine ⟨χ, e, (hhead c χ e).2 ⟨ts, hpass, hderives, ?_⟩, .inl ⟨?_, rfl, rfl⟩⟩
      · exact fun t ht k hk hgoes =>
          hstops t ht k hk (Tier.goesOnWith_phrase_iff.2 (.inl hgoes))
      · refine Cursor.advanceWhen_eq_none_iff.2 fun t ht => ?_
        by_contra hne
        obtain ⟨k, hfound⟩ := Option.ne_none_iff_exists'.1 hne
        obtain ⟨hk, htier⟩ := FormulaKind.connective?_eq_some_iff.1 hfound
        exact hstops t ht k hk (Tier.goesOnWith_phrase_iff.2 (.inr htier))
    · -- The head stops before the connective, which belongs to the tier and not to the head.
      obtain ⟨b, hpass, hpass'⟩ := Cursor.passes_append_iff.1 hpass
      obtain ⟨b', hadvance, hpass'⟩ := Cursor.passes_cons_iff.1 hpass'
      refine ⟨φ, b, (hhead c φ b).2 ⟨ts₁, hpass, hφ, ?_⟩, .inr ⟨k, b', ψ, ?_, ?_, rfl⟩⟩
      · rw [(Cursor.of_advance hadvance).1]
        intro u hu k' hk'
        obtain rfl := Option.some.inj hu
        obtain rfl : k = k' := FormulaKind.connective.inj (hkind.symm.trans hk')
        exact Tier.not_goesOnWith_operand htier
      · exact Cursor.advanceWhen_eq_some_iff.2
          ⟨t, hadvance, FormulaKind.connective?_eq_some_iff.2 ⟨hkind, htier⟩⟩
      · exact (hrest b' ψ e).2 ⟨us, hpass', hψ, hstops⟩

/-- What is read behind an opening parenthesis: an expression, and a closing one after it. -/
theorem closed_eq_ok_iff {c e : Cursor FormulaKind} {φ : Formula} :
    closed expression c = .ok (φ, e) ↔
      ∃ b u, expression c = .ok (φ, b) ∧ b.advance = some (u, e) ∧ u.kind = .closing := by
  rw [closed, bind_eq_ok_iff, Prod.exists]
  constructor
  · rintro ⟨χ, b, hφ, h⟩
    obtain ⟨u, hfound, h⟩ := bind_eq_ok_iff.1 h
    obtain ⟨rfl, rfl⟩ := Prod.mk.inj (Except.ok.inj h)
    exact ⟨b, u, hφ, Cursor.expect_eq_ok_iff.1 (Prod.ext hfound rfl)⟩
  · rintro ⟨b, u, hφ, hu⟩
    refine ⟨φ, b, hφ, ?_⟩
    dsimp only
    rw [Cursor.expect_eq_ok_iff.2 hu]
    rfl

/-- A letter is read exactly if it is that of an atom. -/
theorem letter_eq_ok_iff {t : Token FormulaKind} {c e : Cursor FormulaKind} {φ : Formula} :
    letter t c = .ok (φ, e) ↔ ∃ x : Atom, t.text.head? = some x.letter ∧ .atom x = φ ∧ c = e := by
  have hfind : ∀ x, Atom.ofLetter? (t.text.headD default) = some x
      ↔ t.text.head? = some x.letter := by
    intro x
    cases t.text with
    | nil => cases x <;> exact iff_of_false (by decide) nofun
    | cons l text =>
        rw [List.headD_cons, List.head?_cons, Option.some.injEq]
        constructor
        · intro h
          have hfound : (Atom.all.find? fun y => decide (y.letter = l)) = some x := h
          have hletter := List.find?_some hfound
          exact (of_decide_eq_true hletter).symm
        · exact fun h => h ▸ Atom.ofLetter?_letter x
  simp only [letter, ← hfind]
  cases Atom.ofLetter? (t.text.headD default) <;> simp

/-- What a term reader reads is derived as a term, if its parts read what is derived one deeper. -/
theorem exists_derives_of_term_eq_ok (hoperand : operand.Exact limit .term (d + 1))
    (hexpression : expression.Exact limit .expression (d + 1)) (hd : d ≤ limit)
    {c e : Cursor FormulaKind} {φ : Formula} (h : term operand expression c = .ok (φ, e)) :
    ∃ ts, c.Passes ts e ∧ Derives limit .term d ts φ := by
  rw [term] at h
  rcases hadvance : c.advance with _ | ⟨t, b⟩
  · rw [hadvance] at h
    cases h
  -- The tokens of the term are the one read and those passed over after it.
  suffices hafter : ∃ ts, b.Passes ts e ∧ Derives limit .term d (t :: ts) φ by
    obtain ⟨ts, hpass, hderives⟩ := hafter
    exact ⟨t :: ts, Cursor.passes_cons_iff.2 ⟨b, hadvance, hpass⟩, hderives⟩
  rw [hadvance] at h
  dsimp only at h
  cases hkind : t.kind with
  | letter =>
      rw [hkind] at h
      obtain ⟨x, hletter, rfl, rfl⟩ := letter_eq_ok_iff.1 h
      exact ⟨[], Cursor.passes_nil_iff.2 rfl, .atom hd hkind hletter⟩
  | top =>
      rw [hkind] at h
      obtain ⟨rfl, rfl⟩ := Prod.mk.inj (Except.ok.inj h)
      exact ⟨[], Cursor.passes_nil_iff.2 rfl, .top hd hkind⟩
  | bottom =>
      rw [hkind] at h
      obtain ⟨rfl, rfl⟩ := Prod.mk.inj (Except.ok.inj h)
      exact ⟨[], Cursor.passes_nil_iff.2 rfl, .bottom hd hkind⟩
  | operator o =>
      rw [hkind] at h
      obtain ⟨⟨ψ, b'⟩, hψ, h⟩ := bind_eq_ok_iff.1 h
      obtain ⟨rfl, rfl⟩ := Prod.mk.inj (Except.ok.inj h)
      obtain ⟨ts, hpass, hderives, -⟩ := (hoperand b ψ b').1 hψ
      exact ⟨ts, hpass, .operator hd hkind hderives⟩
  | opening =>
      rw [hkind] at h
      obtain ⟨b', u, hφ, hu, hclosing⟩ := closed_eq_ok_iff.1 h
      obtain ⟨ts, hpass, hderives, -⟩ := (hexpression b φ b').1 hφ
      -- The expression and the parenthesis behind it are passed over in a row.
      refine ⟨ts ++ [u], Cursor.passes_append_iff.2 ⟨b', hpass, ?_⟩, ?_⟩
      · exact Cursor.passes_cons_iff.2 ⟨e, hu, Cursor.passes_nil_iff.2 rfl⟩
      · exact .parenthesised hd hkind hderives hclosing
  | connective | closing =>
      rw [hkind] at h
      cases h

/-- A term that is derived is read by a term reader whose parts read what is derived one deeper. -/
theorem term_eq_ok_of_derives (hoperand : operand.Exact limit .term (d + 1))
    (hexpression : expression.Exact limit .expression (d + 1)) {c e : Cursor FormulaKind}
    {φ : Formula} {ts : List (Token FormulaKind)} (hpass : c.Passes ts e)
    (hderives : Derives limit .term d ts φ) : term operand expression c = .ok (φ, e) := by
  cases hderives with
  | atom _ hkind hletter =>
      obtain ⟨b, hadvance, hpass⟩ := Cursor.passes_cons_iff.1 hpass
      rw [term, hadvance]
      simp only [hkind]
      exact letter_eq_ok_iff.2 ⟨_, hletter, rfl, Cursor.passes_nil_iff.1 hpass⟩
  | top _ hkind =>
      obtain ⟨b, hadvance, hpass⟩ := Cursor.passes_cons_iff.1 hpass
      obtain rfl := Cursor.passes_nil_iff.1 hpass
      simp only [term, hadvance, hkind]
  | bottom _ hkind =>
      obtain ⟨b, hadvance, hpass⟩ := Cursor.passes_cons_iff.1 hpass
      obtain rfl := Cursor.passes_nil_iff.1 hpass
      simp only [term, hadvance, hkind]
  | operator _ hkind hψ =>
      obtain ⟨b, hadvance, hpass⟩ := Cursor.passes_cons_iff.1 hpass
      -- A term stops anywhere, so the operand ends where its tokens do.
      have hread := (hoperand b _ e).2 ⟨_, hpass, hψ, fun _ _ _ _ h => h⟩
      simp only [term, hadvance, hkind, hread]
      rfl
  | parenthesised _ hkind hφ hclosing =>
      obtain ⟨b, hadvance, hafter⟩ := Cursor.passes_cons_iff.1 hpass
      obtain ⟨b', hinner, hlast⟩ := Cursor.passes_append_iff.1 hafter
      obtain ⟨e', hu, hend⟩ := Cursor.passes_cons_iff.1 hlast
      obtain rfl := Cursor.passes_nil_iff.1 hend
      -- The expression stops before the closing parenthesis, which is no connective.
      have hstops : Phrase.expression.Stops b'.unread := by
        rw [(Cursor.of_advance hu).1]
        exact Phrase.stops_cons_of_ne fun c hc => by rw [hclosing] at hc; cases hc
      have hread := (hexpression b φ b').2 ⟨_, hinner, hφ, hstops⟩
      simp only [term, hadvance, hkind]
      exact closed_eq_ok_iff.2 ⟨b', _, hread, hu, hclosing⟩

/-- **A term reader made of exact readers for what is one deeper is exact.** -/
theorem exact_term (hoperand : operand.Exact limit .term (d + 1))
    (hexpression : expression.Exact limit .expression (d + 1)) (hd : d ≤ limit) :
    (term operand expression).Exact limit .term d := by
  intro c φ e
  constructor
  · intro h
    obtain ⟨ts, hpass, hderives⟩ := exists_derives_of_term_eq_ok hoperand hexpression hd h
    exact ⟨ts, hpass, hderives, fun _ _ _ _ h => h⟩
  · rintro ⟨ts, hpass, hderives, -⟩
    exact term_eq_ok_of_derives hoperand hexpression hpass hderives

/-- Nothing is read below the last depth. -/
theorem tooDeep_ne_ok (c : Cursor FormulaKind) (result : Formula × Cursor FormulaKind) :
    tooDeep c ≠ .ok result := by
  rw [tooDeep]
  cases c.advance <;> nofun

end FormulaReader

/-! ## The readers for a number of depths -/

namespace Level

/-- The reader of a kind of phrase. -/
def reader (level : Level) : Phrase → FormulaReader
  | .expression => level.expression
  | .disjunct => level.disjunct
  | .term => level.term

/-- Below the last depth every reader refuses. -/
theorem reader_refusing (p : Phrase) : refusing.reader p = .tooDeep := by cases p <;> rfl

/-- **The readers for the depths down to a limit are exact for it.** -/
theorem exact_within {limit n d : ℕ} (h : d + n = limit + 1) (p : Phrase) :
    ((within n).reader p).Exact limit p d := by
  induction n generalizing d p with
  | zero =>
      intro c φ e
      rw [within, reader_refusing]
      refine iff_of_false (FormulaReader.tooDeep_ne_ok c _) ?_
      rintro ⟨ts, -, hderives, -⟩
      have hle := Nat.cast_le.1 hderives.depth_le
      omega
  | succ n ih =>
      have hdeeper : ∀ p, ((within n).reader p).Exact limit p (d + 1) := ih (by omega)
      have hterm : (within (n + 1)).term.Exact limit .term d :=
        FormulaReader.exact_term (hdeeper .term) (hdeeper .expression)
          (Nat.cast_le.2 (by omega))
      have hdisjunct : (within (n + 1)).disjunct.Exact limit .disjunct d :=
        FormulaReader.exact_chain .tight hterm (hdeeper .disjunct)
      cases p with
      | term => exact hterm
      | disjunct => exact hdisjunct
      | expression => exact FormulaReader.exact_chain .loose hdisjunct (hdeeper .expression)

/-- A whole sequence is read as an expression exactly if the grammar derives it. -/
theorem expression_within_eq_ok_iff {limit : ℕ} {tokens : List (Token FormulaKind)} {φ : Formula} :
    (within (limit + 1)).expression (.ofTokens tokens) = .ok (φ, ⟨tokens.reverse, []⟩)
      ↔ Derives limit .expression 0 tokens φ := by
  refine (exact_within (Nat.zero_add _) .expression _ _ _).trans ?_
  constructor
  · rintro ⟨ts, ⟨hunread, -⟩, hderives, -⟩
    obtain rfl : tokens = ts := by simpa [Cursor.ofTokens] using hunread
    exact hderives
  · exact fun h => ⟨tokens, Cursor.passes_ofTokens tokens, h, Phrase.stops_nil _⟩

end Level

/-- **The grammar derives one formula at most** from a sequence of tokens, within any limit. -/
theorem subsingleton_derives (limit : ℕ∞) (tokens : List (Token FormulaKind)) :
    {φ | Derives limit .expression 0 tokens φ}.Subsingleton := by
  intro φ hφ ψ hψ
  -- Both are derived within the number of tokens, and readers for that limit have one result.
  have hreadφ := Level.expression_within_eq_ok_iff.2 (Derives.of_length hφ)
  have hreadψ := Level.expression_within_eq_ok_iff.2 (Derives.of_length hψ)
  exact (Prod.mk.inj (Except.ok.inj (hreadφ.symm.trans hreadψ))).1

/-- Tokens are read as an expression up to the last one. -/
theorem Formula.ofTokens_of_ne_nil {tokens : List (Token FormulaKind)} (hne : tokens ≠ []) :
    ofTokens tokens = do
      let (φ, rest) ← (Level.within (maxDepth + 1)).expression (.ofTokens tokens)
      rest.finish
      return φ := by
  cases tokens with
  | nil => exact absurd rfl hne
  | cons => rfl

/-- **A sequence of tokens is read as a formula exactly if the grammar derives it.** -/
theorem Formula.ofTokens_eq_ok_iff {tokens : List (Token FormulaKind)} {φ : Formula} :
    Formula.ofTokens tokens = .ok φ ↔ Derives maxDepth .expression 0 tokens φ := by
  rw [← Level.expression_within_eq_ok_iff]
  rcases tokens with _ | ⟨t, ts⟩
  · -- Without tokens the text is called blank, and no phrase is empty either.
    refine iff_of_false nofun fun h => ?_
    exact (Level.expression_within_eq_ok_iff.1 h).ne_nil rfl
  · constructor
    · intro h
      obtain ⟨⟨ψ, b⟩, hread, h⟩ := bind_eq_ok_iff.1 h
      obtain ⟨_, hfinish, h⟩ := bind_eq_ok_iff.1 h
      obtain rfl := Except.ok.inj h
      obtain ⟨us, ⟨hunread, hpassed⟩, -⟩ :=
        (Level.exact_within (Nat.zero_add _) .expression _ _ _).1 hread
      have hend : b.unread = [] := Cursor.finish_eq_ok_iff.1 hfinish
      rw [hend, List.append_nil] at hunread
      rw [hread]
      cases b
      simp_all [Cursor.ofTokens]
    · intro h
      refine bind_eq_ok_iff.2 ⟨_, h, bind_eq_ok_iff.2 ⟨(), Cursor.finish_eq_ok_iff.2 rfl, rfl⟩⟩

/-- **Reading decides the grammar.** A text is read as a formula exactly if the lexer finds a
sequence of tokens in it from which the grammar derives the formula with no term deeper than 1024, and
with or without that limit the grammar derives one formula at most. -/
theorem read_eq_ok_iff_derives :
    (∀ (text : String) (φ : Formula), Formula.read text = .ok φ ↔
        ∃ tokens, Formula.lexer.tokens text = .ok tokens ∧ Derives 1024 .expression 0 tokens φ)
      ∧ ∀ (limit : ℕ∞) (tokens : List (Token FormulaKind)),
        {φ | Derives limit .expression 0 tokens φ}.Subsingleton := by
  refine ⟨fun text φ => ?_, subsingleton_derives⟩
  rw [Formula.read, bind_eq_ok_iff]
  exact exists_congr fun tokens => and_congr_right fun _ => Formula.ofTokens_eq_ok_iff

end FourWorlds
