import FourWorlds.Proofs.Breaks
import FourWorlds.Proofs.RoundTrip

/-! # Where readers of formulas fail

A reader fails where a phrase breaks off and what comes next does not go on with it. Which error it
gives depends on what is wanted there and on the next token alone.

* `Refuses`: the error for a next token, or for none, where something is wanted.
* `FormulaReader.Fails`: a reader fails where the phrases of a kind break off, with the error for the
  next token there, and nowhere else.
* `FormulaReader.fails_chain`, `FormulaReader.fails_term`: readers made of such readers are such.
* `Level.fails_within`, `Level.expression_within_eq_error_iff`: the readers for a number of depths
  are such for that limit. -/

namespace FourWorlds

/-- **What is refused.** The next token, or the end, does not go on with a phrase that breaks off where
something is wanted, and an error says why. A term beyond the limit is refused whatever its first
token is, unless there is none. -/
inductive Refuses (limit : Nat) : Wanted → Option (Token FormulaKind) → ParseError → Prop
  /-- The tokens have ended. -/
  | atEnd {x : Wanted} : Refuses limit x none .unexpectedEnd
  /-- A term would begin too deep. -/
  | tooDeep {d : Nat} {t} : limit < d → Refuses limit (.term d) (some t) (.tooDeep t.offset)
  /-- A letter is no atom. -/
  | unknownAtom {d : Nat} {t} : d ≤ limit → t.kind = .letter →
      Atom.ofLetter? (t.text.headD default) = none →
      Refuses limit (.term d) (some t) (.unknownAtom (t.text.headD default) t.offset)
  /-- No term begins with a closing parenthesis or a connective. -/
  | noTerm {d : Nat} {t} : d ≤ limit → (t.kind = .closing ∨ ∃ c, t.kind = .connective c) →
      Refuses limit (.term d) (some t) (.unexpectedSymbol t.offset)
  /-- The expression in parentheses neither ends nor goes on. -/
  | noClosing {t} : t.kind ≠ .closing → (∀ c, t.kind ≠ .connective c) →
      Refuses limit .closing (some t) (.unexpectedSymbol t.offset)

/-- What is refused for another reason than its depth is refused within any greater limit. -/
theorem Refuses.mono {limit limit' : Nat} {x : Wanted} {found : Option (Token FormulaKind)}
    {e : ParseError} (h : Refuses limit x found e) (he : ∀ offset, e ≠ .tooDeep offset)
    (hle : limit ≤ limit') : Refuses limit' x found e := by
  cases h with
  | atEnd => exact .atEnd
  | tooDeep => exact absurd rfl (he _)
  | unknownAtom hd hkind hnone => exact .unknownAtom (hd.trans hle) hkind hnone
  | noTerm hd hkind => exact .noTerm (hd.trans hle) hkind
  | noClosing hclosing hconnective => exact .noClosing hclosing hconnective

namespace FormulaReader

/-! ## How readers fail -/

variable {head rest operand expression : FormulaReader} {tier : Tier} {c b : Cursor FormulaKind}
  {e : ParseError}

/-- A chain fails where its head fails, or where what follows the connective fails. -/
theorem chain_eq_error_iff : chain tier head rest c = .error e ↔ head c = .error e
    ∨ ∃ φ b k b', head c = .ok (φ, b)
      ∧ b.advanceWhen (·.kind.connective? tier) = some (k, b') ∧ rest b' = .error e := by
  constructor
  · intro h
    rcases bind_eq_error_iff.1 h with h | ⟨⟨φ, b⟩, hhead, h⟩
    · exact .inl h
    · dsimp only at h
      rcases hfound : b.advanceWhen (·.kind.connective? tier) with _ | ⟨k, b'⟩
      · rw [hfound] at h
        cases h
      · rw [hfound] at h
        rcases bind_eq_error_iff.1 h with h | ⟨_, -, h⟩
        · exact .inr ⟨φ, b, k, b', hhead, hfound, h⟩
        · cases h
  · rintro (h | ⟨φ, b, k, b', hhead, hfound, h⟩)
    · exact chain_eq_error_of_head h
    · exact chain_eq_error_of_rest hhead hfound h

/-- A formula in parentheses fails where it fails itself, or where no closing one stands behind it. -/
theorem closed_eq_error_iff : closed expression c = .error e ↔ expression c = .error e
    ∨ ∃ φ b, expression c = .ok (φ, b) ∧ (b.expect .closing).1 = .error e := by
  rw [closed, bind_eq_error_iff, Prod.exists]
  refine or_congr_right (exists_congr fun φ => exists_congr fun b => and_congr_right fun _ => ?_)
  refine bind_eq_error_iff.trans (or_iff_left ?_)
  rintro ⟨_, -, h⟩
  cases h

/-- A letter fails exactly if it is that of no atom. -/
theorem letter_eq_error_iff {t : Token FormulaKind} : letter t c = .error e
    ↔ Atom.ofLetter? (t.text.headD default) = none
      ∧ e = .unknownAtom (t.text.headD default) t.offset := by
  rw [letter]
  cases Atom.ofLetter? (t.text.headD default) <;> simp [eq_comm]

/-- A term fails at its first token or at the end, or where its operand or expression fails. -/
theorem term_eq_error_iff : term operand expression c = .error e ↔
    c.advance = none ∧ e = .unexpectedEnd
      ∨ ∃ t b, c.advance = some (t, b)
        ∧ (t.kind = .letter ∧ Atom.ofLetter? (t.text.headD default) = none
            ∧ e = .unknownAtom (t.text.headD default) t.offset
          ∨ (t.kind = .closing ∨ ∃ k, t.kind = .connective k) ∧ e = .unexpectedSymbol t.offset
          ∨ (∃ o, t.kind = .operator o) ∧ operand b = .error e
          ∨ t.kind = .opening ∧ closed expression b = .error e) := by
  rw [term]
  rcases hadvance : c.advance with _ | ⟨t, b⟩
  · simp [eq_comm]
  · cases hkind : t.kind with
    | letter => simp [hkind, letter_eq_error_iff]
    | operator o => simp [hkind, bind_eq_error_iff, pure, Except.pure]
    | top | bottom | connective | opening | closing => simp [hkind, eq_comm]

/-! ## Readers that fail where phrases break off -/

/-- A reader fails where the phrases of a kind break off, with the error for the next token there, and
nowhere else. -/
def Fails (reader : FormulaReader) (limit : Nat) (p : Phrase) (d : Nat) : Prop :=
  ∀ c e, reader c = .error e ↔
    ∃ ts b x, c.Passes ts b ∧ BreaksOff limit p d ts x ∧ Refuses limit x b.unread.head? e

variable {limit d : Nat}

/-- Below the last depth readers fail at once. -/
theorem fails_tooDeep (p : Phrase) : tooDeep.Fails limit p (limit + 1) := by
  intro c e
  constructor
  · intro h
    refine ⟨[], c, .term (limit + 1), Cursor.passes_nil_iff.2 rfl, .start, ?_⟩
    rw [tooDeep] at h
    rcases hadvance : c.advance with _ | ⟨t, b⟩
    · rw [hadvance] at h
      obtain rfl := Except.error.inj h
      rw [Cursor.advance_eq_none_iff.1 hadvance]
      exact .atEnd
    · rw [hadvance] at h
      obtain rfl := Except.error.inj h
      rw [(Cursor.of_advance hadvance).1]
      exact .tooDeep (Nat.lt_succ_self limit)
  · rintro ⟨ts, b, x, hpass, hbreaks, hrefuses⟩
    obtain ⟨rfl, rfl⟩ := hbreaks.eq_start_of_lt (Nat.cast_lt.2 (Nat.lt_succ_self limit))
    obtain rfl := Cursor.passes_nil_iff.1 hpass
    rw [tooDeep, Cursor.advance]
    rcases hunread : c.unread with _ | ⟨t, rest⟩
    · rw [hunread] at hrefuses
      cases hrefuses with
      | atEnd => rfl
    · rw [hunread] at hrefuses
      cases hrefuses with
      | tooDeep => rfl
      | unknownAtom hd | noTerm hd => exact absurd hd (Nat.not_succ_le_self limit)

/-- **A chain fails where the phrases of its tier break off**, if its head is exact and its parts fail
where theirs do. -/
theorem fails_chain (tier : Tier) (hexact : head.Exact limit tier.operand d)
    (hhead : head.Fails limit tier.operand d) (hrest : rest.Fails limit tier.phrase (d + 1)) :
    (chain tier head rest).Fails limit tier.phrase d := by
  intro c e
  rw [chain_eq_error_iff]
  constructor
  · rintro (h | ⟨φ, b, k, b', hφ, hfound, h⟩)
    · obtain ⟨ts, b, x, hpass, hbreaks, hrefuses⟩ := (hhead c e).1 h
      exact ⟨ts, b, x, hpass, .first hbreaks, hrefuses⟩
    · -- The phrase breaks off behind the connective that was read.
      obtain ⟨ts, hpass, hderives, -⟩ := (hexact c φ b).1 hφ
      obtain ⟨t, hadvance, hkind⟩ := Cursor.advanceWhen_eq_some_iff.1 hfound
      obtain ⟨hkind, htier⟩ := FormulaKind.connective?_eq_some_iff.1 hkind
      obtain ⟨us, b'', x, hpass', hbreaks, hrefuses⟩ := (hrest b' e).1 h
      refine ⟨ts ++ t :: us, b'', x, ?_, .second hderives hkind htier hbreaks, hrefuses⟩
      exact Cursor.passes_append_iff.2 ⟨b, hpass, Cursor.passes_cons_iff.2 ⟨b', hadvance, hpass'⟩⟩
  · rintro ⟨ts, b, x, hpass, hbreaks, hrefuses⟩
    rcases BreaksOff.phrase_iff.1 hbreaks with
      hbreaks | ⟨ts₁, t, us, k, φ, rfl, hφ, hkind, htier, hbreaks⟩
    · exact .inl ((hhead c e).2 ⟨ts, b, x, hpass, hbreaks, hrefuses⟩)
    · -- The head stops before the connective, which belongs to the tier and not to the head.
      obtain ⟨b', hpass, hpass'⟩ := Cursor.passes_append_iff.1 hpass
      obtain ⟨b'', hadvance, hpass'⟩ := Cursor.passes_cons_iff.1 hpass'
      have hstops : tier.operand.Stops b'.unread := by
        rw [(Cursor.of_advance hadvance).1]
        exact Tier.operand_stops_cons hkind htier _
      have hread := (hexact c φ b').2 ⟨ts₁, hpass, hφ, hstops⟩
      have hfound : b'.advanceWhen (·.kind.connective? tier) = some (k, b'') :=
        Cursor.advanceWhen_eq_some_iff.2
          ⟨t, hadvance, FormulaKind.connective?_eq_some_iff.2 ⟨hkind, htier⟩⟩
      have herror := (hrest b'' e).2 ⟨us, b, x, hpass', hbreaks, hrefuses⟩
      exact .inr ⟨φ, b', k, b'', hread, hfound, herror⟩

/-- What is read behind an opening parenthesis fails where the expression breaks off, or behind it. -/
theorem fails_closed (hexact : expression.Exact limit .expression d)
    (hfails : expression.Fails limit .expression d) : closed expression c = .error e ↔
      ∃ ts b x, c.Passes ts b ∧ (BreaksOff limit .expression d ts x
          ∨ x = .closing ∧ ∃ φ, Derives limit .expression d ts φ)
        ∧ Refuses limit x b.unread.head? e := by
  rw [closed_eq_error_iff]
  constructor
  · rintro (h | ⟨φ, b, hφ, h⟩)
    · obtain ⟨ts, b, x, hpass, hbreaks, hrefuses⟩ := (hfails c e).1 h
      exact ⟨ts, b, x, hpass, .inl hbreaks, hrefuses⟩
    · obtain ⟨ts, hpass, hderives, hstops⟩ := (hexact c φ b).1 hφ
      refine ⟨ts, b, .closing, hpass, .inr ⟨rfl, φ, hderives⟩, ?_⟩
      rcases Cursor.expect_eq_error_iff.1 h with ⟨hend, rfl⟩ | ⟨t, ht, hkind, rfl⟩
      · rw [hend]
        exact .atEnd
      · -- No connective follows, since the expression would have gone on with it.
        rw [Option.mem_def.1 ht]
        exact .noClosing hkind fun k hk => hstops t ht k hk trivial
  · rintro ⟨ts, b, x, hpass, hbreaks | ⟨rfl, φ, hφ⟩, hrefuses⟩
    · exact .inl ((hfails c e).2 ⟨ts, b, x, hpass, hbreaks, hrefuses⟩)
    · generalize hfound : b.unread.head? = found at hrefuses
      cases hrefuses with
      | atEnd =>
          have hend := List.head?_eq_none_iff.1 hfound
          have hread := (hexact c φ b).2 ⟨ts, hpass, hφ, hend ▸ Phrase.stops_nil _⟩
          exact .inr ⟨φ, b, hread, Cursor.expect_eq_error_iff.2 (.inl ⟨hend, rfl⟩)⟩
      | @noClosing t hclosing hconnective =>
          have hstops : Phrase.expression.Stops b.unread := by
            intro u hu k hk
            rw [hfound] at hu
            obtain rfl := Option.some.inj hu
            exact absurd hk (hconnective k)
          have hread := (hexact c φ b).2 ⟨ts, hpass, hφ, hstops⟩
          exact .inr ⟨φ, b, hread, Cursor.expect_eq_error_iff.2 (.inr ⟨t, hfound, hclosing, rfl⟩)⟩

/-- **A term fails where terms break off**, if its parts fail where theirs do one deeper. -/
theorem fails_term (hoperand : operand.Fails limit .term (d + 1))
    (hexact : expression.Exact limit .expression (d + 1))
    (hexpression : expression.Fails limit .expression (d + 1)) (hd : d ≤ limit) :
    (term operand expression).Fails limit .term d := by
  have hle : (d : ℕ∞) ≤ limit := Nat.cast_le.2 hd
  intro c e
  rw [term_eq_error_iff]
  constructor
  · rintro (⟨hend, rfl⟩ | ⟨t, b, hadvance, h⟩)
    · refine ⟨[], c, .term d, Cursor.passes_nil_iff.2 rfl, .start, ?_⟩
      rw [Cursor.advance_eq_none_iff.1 hend]
      exact .atEnd
    have hunread : c.unread.head? = some t := by rw [(Cursor.of_advance hadvance).1]; rfl
    rcases h with ⟨hkind, hnone, rfl⟩ | ⟨hkind, rfl⟩ | ⟨⟨o, hkind⟩, h⟩ | ⟨hkind, h⟩
    · exact ⟨[], c, .term d, Cursor.passes_nil_iff.2 rfl, .start,
        hunread ▸ .unknownAtom hd hkind hnone⟩
    · exact ⟨[], c, .term d, Cursor.passes_nil_iff.2 rfl, .start, hunread ▸ .noTerm hd hkind⟩
    · obtain ⟨ts, b', x, hpass, hbreaks, hrefuses⟩ := (hoperand b e).1 h
      exact ⟨t :: ts, b', x, Cursor.passes_cons_iff.2 ⟨b, hadvance, hpass⟩,
        .operand hle hkind hbreaks, hrefuses⟩
    · obtain ⟨ts, b', x, hpass, hbreaks, hrefuses⟩ := (fails_closed hexact hexpression).1 h
      exact ⟨t :: ts, b', x, Cursor.passes_cons_iff.2 ⟨b, hadvance, hpass⟩,
        BreaksOff.term_iff.2 (.inr ⟨hle, t, ts, rfl, .inr ⟨hkind, hbreaks⟩⟩), hrefuses⟩
  · rintro ⟨ts, b, x, hpass, hbreaks, hrefuses⟩
    rcases BreaksOff.term_iff.1 hbreaks with
      ⟨rfl, rfl⟩ | ⟨-, t, us, rfl, ⟨hkind, hbreaks⟩ | ⟨hkind, hbreaks⟩⟩
    · obtain rfl := Cursor.passes_nil_iff.1 hpass
      generalize hfound : c.unread.head? = found at hrefuses
      cases hrefuses with
      | atEnd => exact .inl ⟨Cursor.advance_eq_none_iff.2 (List.head?_eq_none_iff.1 hfound), rfl⟩
      | tooDeep hlt => exact absurd hd (Nat.not_le_of_lt hlt)
      | @unknownAtom _ t _ hkind hnone =>
          obtain ⟨rest, hrest⟩ := List.head?_eq_some_iff.1 hfound
          exact .inr ⟨t, ⟨t :: c.passed, rest⟩, Cursor.advance_eq_some_iff.2 ⟨hrest, rfl⟩,
            .inl ⟨hkind, hnone, rfl⟩⟩
      | @noTerm _ t _ hkind =>
          obtain ⟨rest, hrest⟩ := List.head?_eq_some_iff.1 hfound
          exact .inr ⟨t, ⟨t :: c.passed, rest⟩, Cursor.advance_eq_some_iff.2 ⟨hrest, rfl⟩,
            .inr (.inl ⟨hkind, rfl⟩)⟩
    · obtain ⟨b', hadvance, hpass⟩ := Cursor.passes_cons_iff.1 hpass
      have hread := (hoperand b' e).2 ⟨us, b, x, hpass, hbreaks, hrefuses⟩
      exact .inr ⟨t, b', hadvance, .inr (.inr (.inl ⟨hkind, hread⟩))⟩
    · obtain ⟨b', hadvance, hpass⟩ := Cursor.passes_cons_iff.1 hpass
      have hread := (fails_closed hexact hexpression).2 ⟨us, b, x, hpass, hbreaks, hrefuses⟩
      exact .inr ⟨t, b', hadvance, .inr (.inr (.inr ⟨hkind, hread⟩))⟩

end FormulaReader

/-! ## The readers for a number of depths -/

namespace Level

/-- **The readers for the depths down to a limit fail where phrases break off within it.** -/
theorem fails_within {limit n d : ℕ} (h : d + n = limit + 1) (p : Phrase) :
    ((within n).reader p).Fails limit p d := by
  induction n generalizing d p with
  | zero =>
      obtain rfl : d = limit + 1 := h
      rw [within, reader_refusing]
      exact FormulaReader.fails_tooDeep p
  | succ n ih =>
      have hdeeper : ∀ p, ((within n).reader p).Fails limit p (d + 1) := ih (by omega)
      have hterm : (within (n + 1)).term.Fails limit .term d :=
        FormulaReader.fails_term (hdeeper .term) (exact_within (by omega) .expression)
          (hdeeper .expression) (by omega)
      have hdisjunct : (within (n + 1)).disjunct.Fails limit .disjunct d :=
        FormulaReader.fails_chain .tight (exact_within h .term) hterm (hdeeper .disjunct)
      cases p with
      | term => exact hterm
      | disjunct => exact hdisjunct
      | expression =>
          exact FormulaReader.fails_chain .loose (exact_within h .disjunct) hdisjunct
            (hdeeper .expression)

/-- A whole sequence is refused exactly where an expression breaks off in it and the next token is
refused. -/
theorem expression_within_eq_error_iff {limit : ℕ} {tokens : List (Token FormulaKind)}
    {e : ParseError} : (within (limit + 1)).expression (.ofTokens tokens) = .error e ↔
      ∃ ts rest x, tokens = ts ++ rest ∧ BreaksOff limit .expression 0 ts x
        ∧ Refuses limit x rest.head? e := by
  refine (fails_within (Nat.zero_add _) .expression _ _).trans ?_
  constructor
  · rintro ⟨ts, b, x, ⟨hunread, -⟩, hbreaks, hrefuses⟩
    exact ⟨ts, b.unread, x, hunread, hbreaks, hrefuses⟩
  · rintro ⟨ts, rest, x, rfl, hbreaks, hrefuses⟩
    exact ⟨ts, ⟨ts.reverse, rest⟩, x, ⟨rfl, by simp [Cursor.ofTokens]⟩, hbreaks, hrefuses⟩

end Level

end FourWorlds
