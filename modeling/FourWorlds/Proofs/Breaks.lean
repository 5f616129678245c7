import FourWorlds.Proofs.FormulaReader

/-! # Where phrases break off

A sequence of tokens may begin a phrase without being one. It breaks off either where a term has to
begin, at some depth, or behind an expression in parentheses that are still open. In both cases it can
be completed to a phrase.

* `Wanted`, `BreaksOff`: what has to come next, and the tokens that lead there.
* `BreaksOff.phrase_iff`, `BreaksOff.term_iff`: where the phrases of a tier break off, and terms.
* `BreaksOff.exists_derives`: tokens that break off go on to a phrase by a token of the wanted kind.
* `Exceeds`: a term begins one deeper than the limit, and none before it did.
* `Derives.within_or_exceeds`, `BreaksOff.within_or_exceeds`: without a limit, either no term stands
  deeper than a given one or the limit is exceeded. -/

namespace FourWorlds

/-- What has to come next where a phrase breaks off. -/
inductive Wanted where
  /-- A term, which begins at a depth. -/
  | term (depth : Nat)
  /-- The parenthesis that closes an expression, unless the expression goes on. -/
  | closing
  deriving DecidableEq, Repr

/-- A kind of token that can come next. -/
def Wanted.kind : Wanted → FormulaKind
  | term _ => .top
  | closing => .closing

/-- **The beginnings of phrases.** A sequence of tokens begins a phrase at some depth, with no term
deeper than the limit, and breaks off where something is wanted. -/
inductive BreaksOff (limit : ℕ∞) : Phrase → Nat → List (Token FormulaKind) → Wanted → Prop
  /-- Every phrase begins with a term at its own depth. -/
  | start {p : Phrase} {d : Nat} : BreaksOff limit p d [] (.term d)
  /-- Within the first operand of a phrase. -/
  | first {tier : Tier} {d : Nat} {ts x} : BreaksOff limit tier.operand d ts x →
      BreaksOff limit tier.phrase d ts x
  /-- Behind a connective and an operand before it. -/
  | second {tier : Tier} {d : Nat} {ts t us c φ x} : Derives limit tier.operand d ts φ →
      t.kind = .connective c → c.tier = tier → BreaksOff limit tier.phrase (d + 1) us x →
      BreaksOff limit tier.phrase d (ts ++ t :: us) x
  /-- Behind a prefix operator. -/
  | operand {d : Nat} {t ts o x} : d ≤ limit → t.kind = .operator o →
      BreaksOff limit .term (d + 1) ts x → BreaksOff limit .term d (t :: ts) x
  /-- Behind an opening parenthesis. -/
  | inner {d : Nat} {t ts x} : d ≤ limit → t.kind = .opening →
      BreaksOff limit .expression (d + 1) ts x → BreaksOff limit .term d (t :: ts) x
  /-- Behind an expression in parentheses. -/
  | closing {d : Nat} {t ts φ} : d ≤ limit → t.kind = .opening →
      Derives limit .expression (d + 1) ts φ → BreaksOff limit .term d (t :: ts) .closing

variable {limit limit' : ℕ∞} {p : Phrase} {tier : Tier} {d : Nat} {t u : Token FormulaKind}
  {ts us vs : List (Token FormulaKind)} {c : Connective} {o : Operator} {φ ψ : Formula} {x : Wanted}

namespace BreaksOff

/-- What begins a phrase within a limit does so within any greater limit. -/
theorem mono (h : BreaksOff limit p d ts x) (hle : limit ≤ limit') :
    BreaksOff limit' p d ts x := by
  induction h with
  | start => exact .start
  | first _ ih => exact .first ih
  | second hφ hkind htier _ ih => exact .second (hφ.mono hle) hkind htier ih
  | operand hd hkind _ ih => exact .operand (hd.trans hle) hkind ih
  | inner hd hkind _ ih => exact .inner (hd.trans hle) hkind ih
  | closing hd hkind hφ => exact .closing (hd.trans hle) hkind (hφ.mono hle)

/-- Where a term breaks off, a phrase of every kind does that it begins. -/
theorem of_term (h : BreaksOff limit .term d ts x) : BreaksOff limit p d ts x := by
  have hdisjunct : BreaksOff limit .disjunct d ts x := @first limit .tight d ts x h
  cases p with
  | term => exact h
  | disjunct => exact hdisjunct
  | expression => exact @first limit .loose d ts x hdisjunct

/-- A phrase deeper than the limit breaks off before its first token. -/
theorem eq_start_of_lt (h : BreaksOff limit p d ts x) (hd : limit < d) :
    ts = [] ∧ x = .term d := by
  induction h with
  | start => exact ⟨rfl, rfl⟩
  | first _ ih => exact ih hd
  | second hφ => exact absurd hφ.depth_le (not_le_of_gt hd)
  | operand hle | inner hle | closing hle => exact absurd hle (not_le_of_gt hd)

/-- A phrase of a tier breaks off within its first operand, or behind a connective of the tier. -/
theorem phrase_iff : BreaksOff limit tier.phrase d ts x ↔ BreaksOff limit tier.operand d ts x
    ∨ ∃ ts₁ t us c φ, ts = ts₁ ++ t :: us ∧ Derives limit tier.operand d ts₁ φ
      ∧ t.kind = .connective c ∧ c.tier = tier ∧ BreaksOff limit tier.phrase (d + 1) us x := by
  constructor
  · intro h
    generalize hp : tier.phrase = p at h
    cases h with
    | start => exact .inl .start
    | @first tier' _ _ _ h =>
        obtain rfl := Tier.phrase_inj hp
        exact .inl h
    | @second tier' _ _ _ _ _ _ _ hφ hkind htier h =>
        obtain rfl := Tier.phrase_inj hp
        exact .inr ⟨_, _, _, _, _, rfl, hφ, hkind, htier, h⟩
    | operand | inner | closing => exact absurd hp tier.phrase_ne_term
  · rintro (h | ⟨ts₁, t, us, c, φ, rfl, hφ, hkind, htier, h⟩)
    · exact .first h
    · exact .second hφ hkind htier h

/-- A term breaks off at its start, behind its operator, behind its opening parenthesis, or before
its closing one. -/
theorem term_iff : BreaksOff limit .term d ts x ↔ ts = [] ∧ x = .term d
    ∨ d ≤ limit ∧ ∃ t us, ts = t :: us
      ∧ ((∃ o, t.kind = .operator o) ∧ BreaksOff limit .term (d + 1) us x
        ∨ t.kind = .opening ∧ (BreaksOff limit .expression (d + 1) us x
          ∨ x = .closing ∧ ∃ φ, Derives limit .expression (d + 1) us φ)) := by
  constructor
  · intro h
    generalize hp : Phrase.term = p at h
    cases h with
    | start => exact .inl ⟨rfl, rfl⟩
    | first | second => exact absurd hp.symm (Tier.phrase_ne_term _)
    | operand hd hkind h => exact .inr ⟨hd, _, _, rfl, .inl ⟨⟨_, hkind⟩, h⟩⟩
    | inner hd hkind h => exact .inr ⟨hd, _, _, rfl, .inr ⟨hkind, .inl h⟩⟩
    | closing hd hkind hφ => exact .inr ⟨hd, _, _, rfl, .inr ⟨hkind, .inr ⟨rfl, _, hφ⟩⟩⟩
  · rintro (⟨rfl, rfl⟩ | ⟨hd, t, us, rfl, ⟨⟨o, hkind⟩, h⟩ | ⟨hkind, h | ⟨rfl, φ, hφ⟩⟩⟩)
    · exact .start
    · exact .operand hd hkind h
    · exact .inner hd hkind h
    · exact .closing hd hkind hφ

/-- **Tokens that break off go on to a phrase** by any token of a kind that is wanted. -/
theorem exists_derives (h : BreaksOff ⊤ p d ts x) (ht : t.kind = x.kind) :
    ∃ us φ, Derives ⊤ p d (ts ++ t :: us) φ := by
  induction h with
  | start => exact ⟨[], .top, .of_term (.top le_top ht)⟩
  | first _ ih =>
      obtain ⟨us, φ, hφ⟩ := ih ht
      exact ⟨us, φ, derives_phrase_iff.2 (.inl hφ)⟩
  | @second tier d ts u us c φ x hφ hkind htier _ ih =>
      obtain ⟨vs, ψ, hψ⟩ := ih ht
      refine ⟨vs, .join c φ ψ, derives_phrase_iff.2 (.inr ?_)⟩
      exact ⟨ts, u, us ++ t :: vs, c, φ, ψ, by simp, rfl, hkind, htier, hφ, hψ⟩
  | operand hd hkind _ ih =>
      obtain ⟨us, φ, hφ⟩ := ih ht
      exact ⟨us, _, .operator hd hkind hφ⟩
  | @inner d u ts x hd hkind _ ih =>
      -- The expression is completed, and a parenthesis closes it.
      obtain ⟨us, φ, hφ⟩ := ih ht
      have hclosed := Derives.parenthesised (u := ⟨.closing, [], 0⟩) hd hkind hφ rfl
      exact ⟨us ++ [⟨.closing, [], 0⟩], φ, by simpa using hclosed⟩
  | closing hd hkind hφ => exact ⟨[], _, .parenthesised hd hkind hφ ht⟩

end BreaksOff

/-! ## Beyond a limit -/

/-- A term of some tokens begins one deeper than the limit, and no term before it does. -/
def Exceeds (limit : Nat) (p : Phrase) (d : Nat) (ts : List (Token FormulaKind)) : Prop :=
  ∃ us t vs, ts = us ++ t :: vs ∧ BreaksOff limit p d us (.term (limit + 1))

namespace Exceeds

variable {limit : Nat}

/-- A phrase one deeper than the limit exceeds it with its first token. -/
theorem of_lt (hd : limit < d) (hle : d ≤ limit + 1) : Exceeds limit p d (t :: ts) := by
  obtain rfl : d = limit + 1 := by omega
  exact ⟨[], t, ts, rfl, .start⟩

/-- More tokens behind do not matter. -/
theorem append (h : Exceeds limit p d ts) (us : List (Token FormulaKind)) :
    Exceeds limit p d (ts ++ us) := by
  obtain ⟨before, t, after, rfl, hbreaks⟩ := h
  exact ⟨before, t, after ++ us, by simp, hbreaks⟩

/-- The first operand of a phrase exceeds the limit. -/
theorem first (tier : Tier) (h : Exceeds limit tier.operand d ts) :
    Exceeds limit tier.phrase d ts := by
  obtain ⟨before, t, after, rfl, hbreaks⟩ := h
  exact ⟨before, t, after, rfl, .first hbreaks⟩

/-- What follows the connective exceeds the limit. -/
theorem second (hφ : Derives limit tier.operand d ts φ) (hkind : t.kind = .connective c)
    (htier : c.tier = tier) (h : Exceeds limit tier.phrase (d + 1) us) :
    Exceeds limit tier.phrase d (ts ++ t :: us) := by
  obtain ⟨before, v, after, rfl, hbreaks⟩ := h
  exact ⟨ts ++ t :: before, v, after, by simp, .second hφ hkind htier hbreaks⟩

/-- What follows the operator exceeds the limit. -/
theorem operand (hd : d ≤ limit) (hkind : t.kind = .operator o)
    (h : Exceeds limit .term (d + 1) ts) : Exceeds limit .term d (t :: ts) := by
  obtain ⟨before, v, after, rfl, hbreaks⟩ := h
  exact ⟨t :: before, v, after, rfl, .operand (Nat.cast_le.2 hd) hkind hbreaks⟩

/-- What follows the opening parenthesis exceeds the limit. -/
theorem inner (hd : d ≤ limit) (hkind : t.kind = .opening)
    (h : Exceeds limit .expression (d + 1) ts) : Exceeds limit .term d (t :: ts) := by
  obtain ⟨before, v, after, rfl, hbreaks⟩ := h
  exact ⟨t :: before, v, after, rfl, .inner (Nat.cast_le.2 hd) hkind hbreaks⟩

end Exceeds

variable {limit : Nat}

/-- No term is due more than one below the limit. -/
theorem BreaksOff.depth_le_succ {n : Nat} (h : BreaksOff limit p d ts (.term n))
    (hd : d ≤ limit + 1) : n ≤ limit + 1 := by
  generalize hx : Wanted.term n = x at h
  induction h with
  | start => cases hx; exact hd
  | first _ ih => exact ih hd hx
  | second hφ _ _ _ ih => exact ih (Nat.succ_le_succ (Nat.cast_le.1 hφ.depth_le)) hx
  | operand hle _ _ ih | inner hle _ _ ih => exact ih (Nat.succ_le_succ (Nat.cast_le.1 hle)) hx
  | closing => cases hx

/-- A phrase one deeper than the limit exceeds it, so only one within it has to be looked into. -/
theorem or_exceeds_of_le {P : Prop} (hd : d ≤ limit + 1)
    (h : d ≤ limit → P ∨ Exceeds limit p d (t :: ts)) : P ∨ Exceeds limit p d (t :: ts) := by
  by_cases hle : d ≤ limit
  · exact h hle
  · exact .inr (.of_lt (Nat.lt_of_not_le hle) hd)

/-- A phrase with a connective is within the limit or exceeds it, if its two parts do. -/
theorem within_or_exceeds_join (hkind : t.kind = .connective c)
    (hφ : Derives limit c.tier.operand d ts φ ∨ Exceeds limit c.tier.operand d ts)
    (hψ : d ≤ limit → Derives limit c.tier.phrase (d + 1) us ψ
      ∨ Exceeds limit c.tier.phrase (d + 1) us) :
    Derives limit c.tier.phrase d (ts ++ t :: us) (.join c φ ψ)
      ∨ Exceeds limit c.tier.phrase d (ts ++ t :: us) := by
  rcases hφ with hφ | hφ
  · rcases hψ (Nat.cast_le.1 hφ.depth_le) with hψ | hψ
    · exact .inl (derives_phrase_iff.2 (.inr ⟨ts, t, us, c, φ, ψ, rfl, rfl, hkind, rfl, hφ, hψ⟩))
    · exact .inr (.second hφ hkind rfl hψ)
  · exact .inr ((hφ.first _).append _)

/-- **A phrase has no term deeper than a limit, or exceeds it.** -/
theorem Derives.within_or_exceeds (h : Derives ⊤ p d ts φ) (hd : d ≤ limit + 1) :
    Derives limit p d ts φ ∨ Exceeds limit p d ts := by
  induction h with
  | ofDisjunct _ ih => exact (ih hd).imp .ofDisjunct (Exceeds.first .loose)
  | ofTerm _ ih => exact (ih hd).imp .ofTerm (Exceeds.first .tight)
  | loose _ hkind hc _ ihφ ihψ =>
      rcases hc with rfl | rfl <;>
        exact within_or_exceeds_join hkind (ihφ hd) fun hd => ihψ (Nat.succ_le_succ hd)
  | tight _ hkind hc _ ihφ ihψ =>
      rcases hc with rfl | rfl <;>
        exact within_or_exceeds_join hkind (ihφ hd) fun hd => ihψ (Nat.succ_le_succ hd)
  -- A term beyond the limit exceeds it with its first token, whatever stands there.
  | atom _ hkind hletter =>
      exact or_exceeds_of_le hd fun hle => .inl (.atom (Nat.cast_le.2 hle) hkind hletter)
  | top _ hkind => exact or_exceeds_of_le hd fun hle => .inl (.top (Nat.cast_le.2 hle) hkind)
  | bottom _ hkind => exact or_exceeds_of_le hd fun hle => .inl (.bottom (Nat.cast_le.2 hle) hkind)
  | operator _ hkind _ ih =>
      refine or_exceeds_of_le hd fun hle => ?_
      exact (ih (Nat.succ_le_succ hle)).imp (.operator (Nat.cast_le.2 hle) hkind) (.operand hle hkind)
  | parenthesised _ hkind _ hclosing ih =>
      refine or_exceeds_of_le hd fun hle => (ih (Nat.succ_le_succ hle)).imp (fun h => ?_) fun h => ?_
      · exact .parenthesised (Nat.cast_le.2 hle) hkind h hclosing
      · exact .inner hle hkind (h.append _)

/-- **What begins a phrase has no term deeper than a limit, or exceeds it.** -/
theorem BreaksOff.within_or_exceeds (h : BreaksOff ⊤ p d ts x) (hd : d ≤ limit + 1) :
    BreaksOff limit p d ts x ∨ Exceeds limit p d ts := by
  induction h with
  | start => exact .inl .start
  | first _ ih => exact (ih hd).imp .first (.first _)
  | second hφ hkind htier _ ih =>
      rcases hφ.within_or_exceeds hd with hφ | hφ
      · have hle : _ ≤ limit := Nat.cast_le.1 hφ.depth_le
        exact (ih (Nat.succ_le_succ hle)).imp (.second hφ hkind htier) (.second hφ hkind htier)
      · exact .inr ((hφ.first _).append _)
  | operand _ hkind _ ih =>
      refine or_exceeds_of_le hd fun hle => ?_
      exact (ih (Nat.succ_le_succ hle)).imp (.operand (Nat.cast_le.2 hle) hkind) (.operand hle hkind)
  | inner _ hkind _ ih =>
      refine or_exceeds_of_le hd fun hle => ?_
      exact (ih (Nat.succ_le_succ hle)).imp (.inner (Nat.cast_le.2 hle) hkind) (.inner hle hkind)
  | closing _ hkind hφ =>
      refine or_exceeds_of_le hd fun hle => ?_
      exact (hφ.within_or_exceeds (Nat.succ_le_succ hle)).imp (.closing (Nat.cast_le.2 hle) hkind)
        (.inner hle hkind)

end FourWorlds
