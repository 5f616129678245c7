import FourWorlds.Frame.Token
import FourWorlds.Text.ParseError
import Mathlib.Logic.Basic

/-! # The grammar of frames

The grammar as a relation between sequences of tokens and the relations they list, and a machine for
it. The machine has four kinds of place, by what has to come next, and one token settles the place
after it. Tokens spell a frame if they lead from the first place to behind a relation, and they
begin the text of a frame if they lead anywhere.

* `Specifies`: the tokens list some relations; `Specification`, `Completable` and `WorldDue`: they
  list any at all, they go on to such a list, and only a world can come next.
* `Place`, `Place.next?`, `Place.refusal`: the places, the one behind a token, and the error for a
  token that does not fit.
* `Place.scan`, `Place.after?`: the relations found from a place on, or the first error, and the
  place that tokens lead to.
* `scan_source_eq_ok_iff`: what is found from the first place on is what the tokens specify.
* `specification_iff`, `completable_iff`, `worldDue_iff`: the tokens that lead to behind a relation,
  those that lead anywhere, and those that lead to a world. -/

namespace FourWorlds

/-! ## Lists of relations -/

/-- A token is the letter of a world. -/
def Token.Names (t : Token FrameKind) (w : World) : Prop :=
  t.kind = .letter ∧ t.text.head? = some w.letter

/-- Tokens that spell a relation. -/
inductive SpellsRelation : List (Token FrameKind) → Relation → Prop
  /-- `relation := world relator world` -/
  | intro {t u v : Token FrameKind} {r : Relation} : t.Names r.source → u.kind = .relator →
      v.Names r.target → SpellsRelation [t, u, v] r

/-- **The grammar.** Tokens that list some relations, in this order and as often. -/
inductive Specifies : List (Token FrameKind) → List Relation → Prop
  /-- `frame := relation` -/
  | last {ts : List (Token FrameKind)} {r : Relation} : SpellsRelation ts r → Specifies ts [r]
  /-- `frame := relation ',' frame` -/
  | more {ts us : List (Token FrameKind)} {t : Token FrameKind} {r : Relation}
      {relations : List Relation} : SpellsRelation ts r → t.kind = .separator →
      Specifies us relations → Specifies (ts ++ t :: us) (r :: relations)

/-- The tokens list some relations. -/
def Specification (ts : List (Token FrameKind)) : Prop := ∃ relations, Specifies ts relations

/-- The tokens go on to a list of relations, or are one. -/
def Completable (ts : List (Token FrameKind)) : Prop := ∃ us, Specification (ts ++ us)

/-- Behind the tokens a world is required: they go on to a list of relations, and only by worlds. -/
def WorldDue (ts : List (Token FrameKind)) : Prop :=
  Completable ts ∧ ∀ t, Completable (ts ++ [t]) → ∃ w, t.Names w

variable {t : Token FrameKind} {ts us : List (Token FrameKind)} {w : World} {r : Relation}
  {relations : List Relation}

/-! ## The worlds that tokens name -/

/-- A world has only one letter. -/
theorem World.ofLetter?_eq_some_iff {c : Char} : ofLetter? c = some w ↔ c = w.letter := by
  constructor
  · intro h
    have hletter := List.find?_some h
    exact (of_decide_eq_true hletter).symm
  · rintro rfl
    exact ofLetter?_letter w

/-- The world that a token names. -/
def Token.world? (t : Token FrameKind) : Option World :=
  if t.kind = .letter then World.ofLetter? (t.text.headD default) else none

/-- The world that a token names is the one whose letter it is. -/
theorem Token.world?_eq_some_iff : t.world? = some w ↔ t.Names w := by
  rw [world?, Names]
  by_cases hkind : t.kind = .letter
  · rw [if_pos hkind, World.ofLetter?_eq_some_iff, and_iff_right hkind]
    cases t.text with
    | nil =>
        -- Without a text the default stands in for the letter, and it is that of no world.
        cases w <;> simp [World.letter, default]
    | cons c text => simp
  · simp [hkind]

/-! ## Places -/

/-- What has to come next. -/
inductive Place where
  /-- The world that a relation leaves. -/
  | source
  /-- The sign behind the world that a relation leaves. -/
  | relator (v : World)
  /-- The world that a relation enters, behind the world it leaves. -/
  | target (v : World)
  /-- The sign before another relation, or nothing. -/
  | separator
  deriving DecidableEq, Repr

namespace Place

variable {p q : Place} {e : ParseError}

/-- The place behind a token that fits. -/
def next? : Place → Token FrameKind → Option Place
  | source, t => t.world?.map relator
  | relator v, t => if t.kind = .relator then some (target v) else none
  | target _, t => t.world?.map fun _ => separator
  | separator, t => if t.kind = .separator then some source else none

/-- The relation that ends with a token, if one does. -/
def ended : Place → Token FrameKind → List Relation
  | target v, t => t.world?.toList.map fun w => ⟨v, w⟩
  | source, _ | relator _, _ | separator, _ => []

/-- Why a token does not fit. -/
def refusal : Place → Token FrameKind → ParseError
  | source, t | target _, t =>
    if t.kind = .letter then .unknownWorld (t.text.headD default) t.offset
    else .unexpectedSymbol t.offset
  | relator _, t => .unexpectedSymbol t.offset
  | separator, t => .unreadInput t.offset

/-- The relations that end with the tokens, unless one does not fit or they stop too early. -/
def scan : Place → List (Token FrameKind) → Except ParseError (List Relation)
  | separator, [] => .ok []
  | source, [] | relator _, [] | target _, [] => .error .unexpectedEnd
  | p, t :: ts =>
    match p.next? t with
    | none => .error (p.refusal t)
    | some q => (q.scan ts).map (p.ended t ++ ·)

/-- The place behind some tokens, if all of them fit. -/
def after? (p : Place) (ts : List (Token FrameKind)) : Option Place := ts.foldlM next? p

/-! ### One token at a time -/

/-- At the end nothing may be missing. -/
theorem scan_nil (p : Place) :
    p.scan [] = if p = separator then .ok [] else .error .unexpectedEnd := by
  cases p <;> rfl

/-- A token that fits leads to the next place. -/
theorem scan_cons_of_some (h : p.next? t = some q) :
    p.scan (t :: ts) = (q.scan ts).map (p.ended t ++ ·) := by
  rw [scan, h]

/-- A token that does not fit is refused. -/
theorem scan_cons_of_none (h : p.next? t = none) : p.scan (t :: ts) = .error (p.refusal t) := by
  rw [scan, h]

/-- **What is found in a token and others.** The token fits, and the rest is found from the next
place on. -/
theorem scan_cons_eq_ok_iff : p.scan (t :: ts) = .ok relations ↔ ∃ q others,
    p.next? t = some q ∧ q.scan ts = .ok others ∧ p.ended t ++ others = relations := by
  cases hnext : p.next? t with
  | none =>
      rw [scan_cons_of_none hnext]
      simp
  | some q =>
      rw [scan_cons_of_some hnext]
      cases hscan : q.scan ts <;> simp [hscan, Except.map]

/-- Unless a relation has ended, nothing is found without a token. -/
theorem exists_cons_of_scan_eq_ok (h : p.scan ts = .ok relations) (hne : p ≠ separator) :
    ∃ t us, ts = t :: us := by
  cases ts with
  | nil =>
      rw [scan_nil, if_neg hne] at h
      cases h
  | cons t us => exact ⟨t, us, rfl⟩

/-- The place behind a token and others is the one behind the others from the next place on. -/
theorem after?_cons : p.after? (t :: ts) = (p.next? t).bind fun q => q.after? ts := by
  simp only [after?, List.foldlM_cons, Option.bind_eq_bind]

/-- The place behind some tokens and a last one is the next to that behind the others. -/
theorem after?_append_singleton (h : p.after? ts = some q) : p.after? (ts ++ [t]) = q.next? t := by
  rw [after?] at h ⊢
  simp [List.foldlM_append, h]

/-- **Behind tokens that fit the scan goes on** from the place they lead to, with the relations that
ended before. -/
theorem exists_scan_append (h : p.after? ts = some q) :
    ∃ relations, ∀ us, p.scan (ts ++ us) = (q.scan us).map (relations ++ ·) := by
  induction ts generalizing p with
  | nil =>
      obtain rfl : p = q := Option.some.inj h
      refine ⟨[], fun us => ?_⟩
      rw [List.nil_append]
      cases p.scan us <;> rfl
  | cons t ts ih =>
      rw [after?_cons] at h
      obtain ⟨q', hnext, hafter⟩ := Option.bind_eq_some_iff.1 h
      obtain ⟨relations, hscan⟩ := ih hafter
      refine ⟨p.ended t ++ relations, fun us => ?_⟩
      rw [List.cons_append, scan_cons_of_some hnext, hscan us]
      cases q.scan us with
      | error e => rfl
      | ok found => simp only [Except.map, List.append_assoc]

/-- **All tokens fit, or there is a first one that does not.** -/
theorem after?_cases (p : Place) (ts : List (Token FrameKind)) :
    (∃ q, p.after? ts = some q) ∨ ∃ before t after q, ts = before ++ t :: after
      ∧ p.after? before = some q ∧ q.next? t = none := by
  induction ts generalizing p with
  | nil => exact .inl ⟨p, rfl⟩
  | cons t ts ih =>
      cases hnext : p.next? t with
      | none => exact .inr ⟨[], t, ts, p, rfl, rfl, hnext⟩
      | some p' =>
          rcases ih p' with ⟨q, hq⟩ | ⟨before, u, after, q, rfl, hq, hnone⟩
          · refine .inl ⟨q, ?_⟩
            rw [after?_cons, hnext, Option.bind_some, hq]
          · refine .inr ⟨t :: before, u, after, q, rfl, ?_, hnone⟩
            rw [after?_cons, hnext, Option.bind_some, hq]

/-- Where a token does not fit behind others, it is refused. -/
theorem scan_of_next?_eq_none (h : p.after? ts = some q) (hnone : q.next? t = none) :
    p.scan (ts ++ t :: us) = .error (q.refusal t) := by
  obtain ⟨relations, hscan⟩ := exists_scan_append h
  rw [hscan, scan_cons_of_none hnone]
  rfl

/-- Where tokens lead to a place at which something is missing, they end unexpectedly. -/
theorem scan_of_ne_separator (h : p.after? ts = some q) (hne : q ≠ separator) :
    p.scan ts = .error .unexpectedEnd := by
  obtain ⟨relations, hscan⟩ := exists_scan_append h
  have hend := hscan []
  rw [List.append_nil, scan_nil, if_neg hne] at hend
  exact hend

/-- Tokens are scanned to their end exactly if they lead to behind a relation. -/
theorem exists_scan_eq_ok_iff :
    (∃ relations, p.scan ts = .ok relations) ↔ p.after? ts = some separator := by
  rcases p.after?_cases ts with ⟨q, hq⟩ | ⟨before, t, after, q, rfl, hq, hnone⟩
  · by_cases hsep : q = separator
    · obtain ⟨relations, hscan⟩ := exists_scan_append hq
      have hend := hscan []
      rw [List.append_nil, hsep, scan_nil, if_pos rfl] at hend
      exact iff_of_true ⟨_, hend⟩ (hsep ▸ hq)
    · rw [scan_of_ne_separator hq hsep, hq]
      simp [hsep]
  · have hstuck : p.after? (before ++ t :: after) = none := by
      rw [after?] at hq ⊢
      simp [List.foldlM_append, hq, hnone]
    rw [scan_of_next?_eq_none hq hnone, hstuck]
    simp

/-- Every place can be led from to behind a relation. -/
theorem exists_scan_eq_ok (p : Place) : ∃ us relations, p.scan us = .ok relations := by
  let world : Token FrameKind := ⟨.letter, ['a'], 0⟩
  let sign : Token FrameKind := ⟨.relator, ['R'], 0⟩
  cases p with
  | source => exact ⟨[world, sign, world], [⟨.a, .a⟩], rfl⟩
  | relator v => exact ⟨[sign, world], [⟨v, .a⟩], rfl⟩
  | target v => exact ⟨[world], [⟨v, .a⟩], rfl⟩
  | separator => exact ⟨[], [], rfl⟩

end Place

/-! ## The machine and the grammar -/

open Place

/-- A relation leads from the first place to behind it. -/
theorem SpellsRelation.scan_append (h : SpellsRelation ts r) (us : List (Token FrameKind)) :
    source.scan (ts ++ us) = (separator.scan us).map (r :: ·) := by
  obtain @⟨t, u, v, r, ht, hu, hv⟩ := h
  have hsource : source.next? t = some (relator r.source) := by
    rw [next?, Token.world?_eq_some_iff.2 ht, Option.map_some]
  have hrelator : (relator r.source).next? u = some (target r.source) := if_pos hu
  have hworld : v.world? = some r.target := Token.world?_eq_some_iff.2 hv
  have htarget : (target r.source).next? v = some separator := by
    rw [next?, hworld, Option.map_some]
  have hended : (target r.source).ended v = [r] := by
    rw [ended, hworld]
    rfl
  rw [List.cons_append, List.cons_append, List.cons_append, List.nil_append,
    scan_cons_of_some hsource, scan_cons_of_some hrelator, scan_cons_of_some htarget, hended]
  cases separator.scan us <;> rfl

/-- What the tokens specify is what is found in them. -/
theorem Specifies.scan_eq_ok (h : Specifies ts relations) : source.scan ts = .ok relations := by
  induction h with
  | @last ts r h =>
      have hscan := h.scan_append []
      rw [List.append_nil] at hscan
      exact hscan
  | @more ts us t r relations h hkind _ ih =>
      have hnext : separator.next? t = some source := if_pos hkind
      rw [h.scan_append, scan_cons_of_some hnext, ih]
      rfl

/-- Where something is found from the first place on, a relation comes first. -/
theorem exists_of_scan_source_eq_ok (h : source.scan ts = .ok relations) :
    ∃ us vs r others, ts = us ++ vs ∧ relations = r :: others ∧ SpellsRelation us r
      ∧ separator.scan vs = .ok others := by
  -- The places up to the end of the relation are left one by one, each by a token that fits.
  obtain ⟨t, ts, rfl⟩ := exists_cons_of_scan_eq_ok h nofun
  obtain ⟨p, found, hp, h, rfl⟩ := scan_cons_eq_ok_iff.1 h
  obtain ⟨v, hv, rfl⟩ := Option.map_eq_some_iff.1 hp
  obtain ⟨u, ts, rfl⟩ := exists_cons_of_scan_eq_ok h nofun
  obtain ⟨p, found, hp, h, rfl⟩ := scan_cons_eq_ok_iff.1 h
  obtain ⟨hu, rfl⟩ : u.kind = .relator ∧ target v = p := by simpa [next?] using hp
  obtain ⟨t', ts, rfl⟩ := exists_cons_of_scan_eq_ok h nofun
  obtain ⟨p, found, hp, h, rfl⟩ := scan_cons_eq_ok_iff.1 h
  obtain ⟨w, hw, rfl⟩ := Option.map_eq_some_iff.1 hp
  have hspells : SpellsRelation [t, u, t'] ⟨v, w⟩ :=
    .intro (Token.world?_eq_some_iff.1 hv) hu (Token.world?_eq_some_iff.1 hw)
  refine ⟨[t, u, t'], ts, ⟨v, w⟩, found, rfl, ?_, hspells, h⟩
  simp [ended, hw]

/-- **What is found from the first place on is what the tokens specify.** -/
theorem scan_source_eq_ok_iff : source.scan ts = .ok relations ↔ Specifies ts relations := by
  refine ⟨fun h => ?_, Specifies.scan_eq_ok⟩
  induction relations generalizing ts with
  | nil =>
      obtain ⟨us, vs, r, others, -, hnil, -⟩ := exists_of_scan_source_eq_ok h
      cases hnil
  | cons r relations ih =>
      obtain ⟨us, vs, r, others, rfl, heq, hr, hvs⟩ := exists_of_scan_source_eq_ok h
      obtain ⟨rfl, rfl⟩ := List.cons.inj heq
      cases vs with
      | nil =>
          obtain rfl : [] = relations := Except.ok.inj hvs
          rw [List.append_nil]
          exact .last hr
      | cons t vs =>
          -- Only a separator can follow, and then the other relations.
          obtain ⟨p, found, hp, hrest, rfl⟩ := scan_cons_eq_ok_iff.1 hvs
          obtain ⟨ht, rfl⟩ : t.kind = .separator ∧ source = p := by simpa [next?] using hp
          exact .more hr ht (ih hrest)

/-- Tokens are a specification exactly if they lead to behind a relation. -/
theorem specification_iff : Specification ts ↔ source.after? ts = some separator := by
  rw [← exists_scan_eq_ok_iff]
  exact exists_congr fun _ => scan_source_eq_ok_iff.symm

/-- **Tokens go on to a specification exactly if they lead anywhere.** -/
theorem completable_iff : Completable ts ↔ ∃ p, source.after? ts = some p := by
  constructor
  · rintro ⟨us, relations, h⟩
    rcases source.after?_cases ts with hfits | ⟨before, t, after, q, rfl, hq, hnone⟩
    · exact hfits
    · have hscan := scan_source_eq_ok_iff.2 h
      rw [List.append_assoc, List.cons_append, scan_of_next?_eq_none hq hnone] at hscan
      cases hscan
  · rintro ⟨p, hp⟩
    obtain ⟨us, found, hfound⟩ := p.exists_scan_eq_ok
    obtain ⟨relations, hscan⟩ := exists_scan_append hp
    refine ⟨us, relations ++ found, scan_source_eq_ok_iff.1 ?_⟩
    rw [hscan, hfound]
    rfl

/-- Tokens go on with another one exactly if it fits behind them. -/
theorem completable_append_singleton_iff {p : Place} (h : source.after? ts = some p) :
    Completable (ts ++ [t]) ↔ ∃ q, p.next? t = some q := by
  rw [completable_iff, after?_append_singleton h]

/-- **A world is required exactly where a relation leaves or enters one.** -/
theorem worldDue_iff {p : Place} (h : source.after? ts = some p) :
    WorldDue ts ↔ p = source ∨ ∃ v, p = target v := by
  have hcompletable : Completable ts := completable_iff.2 ⟨p, h⟩
  rw [WorldDue, and_iff_right hcompletable]
  simp only [completable_append_singleton_iff h]
  constructor
  · intro hworlds
    cases p with
    | source => exact .inl rfl
    | target v => exact .inr ⟨v, rfl⟩
    -- The sign that fits at one of the other places is no letter.
    | relator v =>
        obtain ⟨w, hw, -⟩ := hworlds ⟨.relator, [], 0⟩ ⟨target v, rfl⟩
        cases hw
    | separator =>
        obtain ⟨w, hw, -⟩ := hworlds ⟨.separator, [], 0⟩ ⟨source, rfl⟩
        cases hw
  · rintro (rfl | ⟨v, rfl⟩) t ⟨q, hq⟩
    · obtain ⟨w, hw, -⟩ := Option.map_eq_some_iff.1 hq
      exact ⟨w, Token.world?_eq_some_iff.1 hw⟩
    · obtain ⟨w, hw, -⟩ := Option.map_eq_some_iff.1 hq
      exact ⟨w, Token.world?_eq_some_iff.1 hw⟩

end FourWorlds
