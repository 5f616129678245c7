import FourWorlds.Frame.Reader
import FourWorlds.Proofs.Cursor
import FourWorlds.Proofs.FrameGrammar
import Mathlib.Order.Bounds.Basic

/-! # Reading frames

The reader of frames is a scan by the machine of the grammar: each of its steps requires what has to
come next at the place where it stands. So it fails at the first token that does not fit there, and
with it the tokens go on to no list of relations.

* `Frame.reading?_spelling`, `Frame.reading?_letter`: a spelling, and a letter, in front of a text.
* `Frame.ofTokens_eq`: reading tokens is a scan of them.
* `Misplaced`, `complaint`: a token with which the ones before it lead nowhere, and what is wrong
  with it, both by the grammar alone.
* `refusal_eq_complaint`: the machine refuses a token for what is wrong with it by the grammar.
* `Frame.ofTokens_cases`: the three outcomes of reading tokens.
* `frame_read_reports_first_misplaced`: the outcome for every text. -/

namespace FourWorlds

open Place

variable {t : Token FrameKind} {before ts tokens : List (Token FrameKind)} {p : Place}

/-! ## The table of frames -/

namespace Frame

variable {s : Spelling FrameKind} {rest : List Char} {offset : Nat}

/-- No spelling begins with another one. -/
theorem eq_of_prefix : ∀ s ∈ lexer.spellings, ∀ t ∈ lexer.spellings, s.text <+: t.text → t = s := by
  simp only [← List.isPrefixOf_iff_prefix]
  decide +kernel

/-- A spelling begins with no blank, and with no lowercase letter. -/
theorem head_of_mem_spellings (hs : s ∈ lexer.spellings) {c : Char} (hc : s.text.head? = some c) :
    ¬ isBlank c ∧ ¬ c.isLower := by
  have hall : lexer.spellings.all fun s => s.text.head?.all fun c => !isBlank c && !c.isLower := by
    decide +kernel
  have hhead := List.all_eq_true.1 hall s hs
  rw [hc, Option.all_some] at hhead
  simpa using hhead

/-- **A spelling is read back**, whatever follows it. -/
theorem reading?_spelling (hs : s ∈ lexer.spellings) : lexer.reading? (s.text ++ rest) = some s :=
  Lexer.reading?_append hs fun t ht hprefix _ => eq_of_prefix s hs t ht hprefix

/-- **A lowercase letter is read as a letter**, whatever follows it. -/
theorem reading?_letter {c : Char} (hlower : c.isLower) :
    lexer.reading? (c :: rest) = some ⟨.letter, [c]⟩ := by
  refine Lexer.reading?_cons (fun t ht hhead => ?_) (if_pos hlower)
  exact (head_of_mem_spellings ht hhead).2 hlower

/-- A spelling is a token in front of others. -/
theorem tiles_spelling (hs : s ∈ lexer.spellings)
    (h : lexer.Tiles (offset + byteLength s.text) rest tokens) :
    lexer.Tiles offset (s.text ++ rest) (⟨s.kind, s.text, offset⟩ :: tokens) :=
  .cons (fun _ hc => (head_of_mem_spellings hs hc).1) (reading?_spelling hs) h

/-- A lowercase letter is a token in front of others. -/
theorem tiles_letter {c : Char} (hlower : c.isLower) (h : lexer.Tiles (offset + 1) rest tokens) :
    lexer.Tiles offset (c :: rest) (⟨.letter, [c], offset⟩ :: tokens) := by
  have hblank : ∀ b ∈ [c].head?, ¬ isBlank b :=
    forall_head?_not_isBlank (not_isBlank_of_isLower hlower)
  rw [← byteLength_of_isLower hlower] at h
  exact @Lexer.Tiles.cons _ lexer ⟨.letter, [c]⟩ offset rest tokens hblank (reading?_letter hlower) h

end Frame

/-! ## The reader as a scan -/

/-- A world is read from a token that names it. -/
theorem World.readNext_of_some {passed : List (Token FrameKind)} {w : World}
    (h : t.world? = some w) : World.readNext ⟨passed, t :: ts⟩ = .ok (w, ⟨t :: passed, ts⟩) := by
  have hkind : t.kind = .letter := (Token.world?_eq_some_iff.1 h).1
  rw [Token.world?, if_pos hkind] at h
  simp only [readNext, Cursor.expect, Cursor.advance, if_pos hkind, bind, Except.bind, h]
  rfl

/-- A token that names no world is refused where one has to come next. -/
theorem World.readNext_of_none {passed : List (Token FrameKind)} (h : t.world? = none) :
    World.readNext ⟨passed, t :: ts⟩ = .error (source.refusal t) := by
  by_cases hkind : t.kind = .letter
  · rw [Token.world?, if_pos hkind] at h
    simp only [readNext, Cursor.expect, Cursor.advance, if_pos hkind, bind, Except.bind, h, refusal]
    rfl
  · simp only [readNext, Cursor.expect, Cursor.advance, if_neg hkind, bind, Except.bind, refusal]

/-- The scan of a relation begins by reading the world it leaves. -/
theorem scan_source_eq (c : Cursor FrameKind) : source.scan c.unread
    = (do let (v, rest) ← World.readNext c; (relator v).scan rest.unread) := by
  obtain ⟨passed, _ | ⟨t, ts⟩⟩ := c
  · rfl
  cases hworld : t.world? with
  | none =>
      have hnext : source.next? t = none := by rw [next?, hworld, Option.map_none]
      rw [scan_cons_of_none hnext, World.readNext_of_none hworld]
      rfl
  | some v =>
      have hnext : source.next? t = some (relator v) := by rw [next?, hworld, Option.map_some]
      rw [scan_cons_of_some hnext, World.readNext_of_some hworld]
      show ((relator v).scan ts).map ([] ++ ·) = (relator v).scan ts
      cases (relator v).scan ts <;> rfl

/-- It goes on by requiring the sign between the two worlds. -/
theorem scan_relator_eq (v : World) (c : Cursor FrameKind) : (relator v).scan c.unread
    = (do let _ ← (c.expect .relator).1; (target v).scan (c.expect .relator).2.unread) := by
  obtain ⟨passed, _ | ⟨t, ts⟩⟩ := c
  · rfl
  by_cases hkind : t.kind = .relator
  · have hnext : (relator v).next? t = some (target v) := if_pos hkind
    rw [scan_cons_of_some hnext]
    simp only [Cursor.expect, Cursor.advance, if_pos hkind]
    show ((target v).scan ts).map ([] ++ ·) = (target v).scan ts
    cases (target v).scan ts <;> rfl
  · have hnext : (relator v).next? t = none := if_neg hkind
    rw [scan_cons_of_none hnext]
    simp only [Cursor.expect, Cursor.advance, if_neg hkind]
    rfl

/-- It ends by reading the world that the relation enters. -/
theorem scan_target_eq (v : World) (c : Cursor FrameKind) : (target v).scan c.unread
    = (do let (w, rest) ← World.readNext c; (separator.scan rest.unread).map (⟨v, w⟩ :: ·)) := by
  obtain ⟨passed, _ | ⟨t, ts⟩⟩ := c
  · rfl
  cases hworld : t.world? with
  | none =>
      have hnext : (target v).next? t = none := by rw [next?, hworld, Option.map_none]
      rw [scan_cons_of_none hnext, World.readNext_of_none hworld]
      rfl
  | some w =>
      have hnext : (target v).next? t = some separator := by rw [next?, hworld, Option.map_some]
      rw [scan_cons_of_some hnext, ended, hworld, World.readNext_of_some hworld]
      rfl

/-- **The scan from the first place reads a relation**, and goes on behind it. -/
theorem scan_source_eq_readNext (c : Cursor FrameKind) : source.scan c.unread
    = (do let (r, rest) ← Relation.readNext c; (separator.scan rest.unread).map (r :: ·)) := by
  -- Where one of the three steps fails, so do both sides.
  rw [scan_source_eq, Relation.readNext]
  simp only [bind, Except.bind]
  rcases World.readNext c with e | ⟨v, c⟩
  · rfl
  simp only [scan_relator_eq, bind, Except.bind]
  generalize c.expect .relator = step
  rcases step with ⟨e | t, c⟩
  · rfl
  simp only [scan_target_eq, bind, Except.bind]
  rcases World.readNext c with e | ⟨w, c⟩
  · rfl
  · rfl

/-- Behind a separator another relation is scanned. -/
theorem scan_separator_of_advanceIf {c d : Cursor FrameKind}
    (h : c.advanceIf [.separator] = some (t, d)) :
    separator.scan c.unread = source.scan d.unread := by
  obtain ⟨u, hadvance, hu⟩ := Cursor.advanceWhen_eq_some_iff.1 h
  have hkind : u.kind = .separator ∧ u = t := by simpa using hu
  have hnext : separator.next? u = some source := if_pos hkind.1
  rw [(Cursor.of_advance hadvance).1, scan_cons_of_some hnext]
  show (source.scan d.unread).map ([] ++ ·) = source.scan d.unread
  cases source.scan d.unread <;> rfl

/-- **The scan from behind a relation reads more relations** and requires that no token is left. -/
theorem scan_separator_eq (c : Cursor FrameKind) : separator.scan c.unread
    = (do let (relations, rest) ← Frame.moreRelations c; rest.finish; return relations) := by
  fun_induction Frame.moreRelations c with
  | case1 c hnone =>
      -- No separator follows, so either no token is left or the next one is unread input.
      have hother := Cursor.advanceWhen_eq_none_iff.1 hnone
      obtain ⟨passed, _ | ⟨t, ts⟩⟩ := c
      · rfl
      · have hkind : t.kind ≠ .separator := by simpa using hother t rfl
        have hnext : separator.next? t = none := if_neg hkind
        rw [scan_cons_of_none hnext]
        rfl
  | case2 c t afterComma hsome e hread =>
      rw [scan_separator_of_advanceIf hsome, scan_source_eq_readNext, hread]
      rfl
  | case3 c t afterComma hsome r afterRelation hread ih =>
      rw [scan_separator_of_advanceIf hsome, scan_source_eq_readNext, hread]
      show (separator.scan afterRelation.unread).map (r :: ·) = _
      rw [ih]
      rcases Frame.moreRelations afterRelation with e | ⟨relations, rest⟩
      · rfl
      simp only [bind, Except.bind, pure, Except.pure]
      cases rest.finish <;> rfl

/-- **Reading a frame is a scan** of its tokens, if there are any. -/
theorem Frame.ofTokens_eq (hne : tokens ≠ []) :
    ofTokens tokens = (source.scan tokens).map ofRelations := by
  have hfirst := scan_source_eq_readNext (.ofTokens tokens)
  rw [Cursor.unread_ofTokens] at hfirst
  have hempty : tokens.isEmpty = false := List.isEmpty_eq_false_iff.2 hne
  rw [hfirst, ofTokens, hempty]
  simp only [Bool.false_eq_true, if_false, bind, Except.bind, pure, Except.pure]
  rcases Relation.readNext (.ofTokens tokens) with e | ⟨r, rest⟩
  · rfl
  simp only [scan_separator_eq, bind, Except.bind, pure, Except.pure]
  rcases moreRelations rest with e | ⟨others, rest⟩
  · rfl
  dsimp only
  cases rest.finish <;> rfl

/-! ## The first misplaced token -/

/-- The tokens up to some place, and with the one there, go on to no list of relations. -/
def Misplaced (tokens : List (Token FrameKind)) (i : Nat) : Prop :=
  i < tokens.length ∧ ¬ Completable (tokens.take (i + 1))

open Classical in
/-- **What is wrong with a misplaced token**, by the tokens before it. -/
noncomputable def complaint (before : List (Token FrameKind)) (t : Token FrameKind) : ParseError :=
  if Specification before then .unreadInput t.offset
  else if WorldDue before ∧ t.kind = .letter ∧ ∀ w, ¬ t.Names w then
    .unknownWorld (t.text.headD default) t.offset
  else .unexpectedSymbol t.offset

/-- Tokens go on to a list of relations if they do with others behind them. -/
theorem Completable.of_append {us : List (Token FrameKind)} (h : Completable (ts ++ us)) :
    Completable ts := by
  obtain ⟨vs, hvs⟩ := h
  exact ⟨us ++ vs, by rwa [← List.append_assoc]⟩

/-- No token is misplaced among some that go on to a list of relations. -/
theorem Completable.not_misplaced {n i : Nat} (h : Completable (tokens.take n)) (hi : i < n) :
    ¬ Misplaced tokens i := by
  rintro ⟨-, hnot⟩
  have htake : tokens.take n = tokens.take (i + 1) ++ (tokens.take n).drop (i + 1) := by
    have hfirst : (tokens.take n).take (i + 1) = tokens.take (i + 1) := by
      rw [List.take_take, Nat.min_eq_left hi]
    rw [← hfirst, List.take_append_drop]
  rw [htake] at h
  exact hnot h.of_append

/-- Where a world is required, a token that names none is refused as at the first place. -/
theorem complaint_of_worldDue (hnot : ¬ Specification before) (hdue : WorldDue before)
    (hnone : t.world? = none) : complaint before t = source.refusal t := by
  have hnames : ∀ w, ¬ t.Names w := by
    intro w hw
    rw [Token.world?_eq_some_iff.2 hw] at hnone
    cases hnone
  rw [complaint, if_neg hnot, refusal]
  by_cases hkind : t.kind = .letter
  · rw [if_pos ⟨hdue, hkind, hnames⟩, if_pos hkind]
  · have hother : ¬ (WorldDue before ∧ t.kind = .letter ∧ ∀ w, ¬ t.Names w) := fun h => hkind h.2.1
    rw [if_neg hother, if_neg hkind]

/-- **A token that does not fit is refused for what is wrong with it.** -/
theorem refusal_eq_complaint (h : source.after? before = some p) (hnone : p.next? t = none) :
    p.refusal t = complaint before t := by
  have hspecification : Specification before ↔ p = separator := by
    rw [specification_iff, h, Option.some.injEq]
  cases p with
  | source =>
      have hworld : t.world? = none := Option.map_eq_none_iff.1 hnone
      have hdue : WorldDue before := (worldDue_iff h).2 (.inl rfl)
      have hnot : ¬ Specification before := fun hs => nomatch hspecification.1 hs
      exact (complaint_of_worldDue hnot hdue hworld).symm
  | target v =>
      have hworld : t.world? = none := Option.map_eq_none_iff.1 hnone
      have hdue : WorldDue before := (worldDue_iff h).2 (.inr ⟨v, rfl⟩)
      have hnot : ¬ Specification before := fun hs => nomatch hspecification.1 hs
      exact (complaint_of_worldDue hnot hdue hworld).symm
  | relator v =>
      -- A sign is required, so a letter is as unexpected as any other token.
      have hnot : ¬ Specification before := fun hs => nomatch hspecification.1 hs
      have hdue : ¬ WorldDue before := by
        rw [worldDue_iff h]
        rintro (hp | ⟨w, hp⟩) <;> cases hp
      rw [complaint, if_neg hnot, if_neg fun h => hdue h.1, refusal]
  | separator => exact (if_pos (hspecification.2 rfl)).symm

/-- A token that does not fit is the first misplaced one. -/
theorem isLeast_misplaced (h : source.after? before = some p) (hnone : p.next? t = none) :
    IsLeast {i | Misplaced (before ++ t :: ts) i} before.length := by
  have htake : (before ++ t :: ts).take (before.length + 1) = before ++ [t] := by
    rw [List.append_cons]
    exact List.take_left' (by simp)
  constructor
  · refine ⟨by simp, ?_⟩
    rw [htake, completable_append_singleton_iff h, hnone]
    simp
  · -- All places before it are among tokens that lead somewhere.
    intro i hi
    have hbefore : Completable ((before ++ t :: ts).take before.length) := by
      rw [List.take_left]
      exact completable_iff.2 ⟨p, h⟩
    exact not_lt.1 fun hlt => hbefore.not_misplaced hlt hi

/-! ## Whole sequences and texts -/

namespace Frame

/-- **The three outcomes of reading tokens**: the frame of the relations listed, the complaint about
the first misplaced token, or an unexpected end where no token is misplaced. -/
theorem ofTokens_cases (hne : tokens ≠ []) :
    (∃ relations, Specifies tokens relations ∧ ofTokens tokens = .ok (ofRelations relations))
      ∨ (∃ before t after, tokens = before ++ t :: after
        ∧ IsLeast {i | Misplaced tokens i} before.length
        ∧ ofTokens tokens = .error (complaint before t))
      ∨ ¬ Specification tokens ∧ (∀ i, ¬ Misplaced tokens i)
        ∧ ofTokens tokens = .error .unexpectedEnd := by
  rw [ofTokens_eq hne]
  rcases source.after?_cases tokens with ⟨p, hp⟩ | ⟨before, t, after, p, rfl, hp, hnone⟩
  · by_cases hsep : p = separator
    · obtain ⟨relations, hscan⟩ := exists_scan_eq_ok_iff.2 (hsep ▸ hp)
      refine .inl ⟨relations, scan_source_eq_ok_iff.1 hscan, ?_⟩
      rw [hscan]
      rfl
    · -- All tokens fit, but something is missing behind them.
      have hnot : ¬ Specification tokens := by
        rw [specification_iff, hp, Option.some.injEq]
        exact hsep
      have hwhole : Completable (tokens.take tokens.length) := by
        rw [List.take_length]
        exact completable_iff.2 ⟨p, hp⟩
      refine .inr (.inr ⟨hnot, fun i hi => hwhole.not_misplaced hi.1 hi, ?_⟩)
      rw [scan_of_ne_separator hp hsep]
      rfl
  · refine .inr (.inl ⟨before, t, after, rfl, isLeast_misplaced hp hnone, ?_⟩)
    rw [scan_of_next?_eq_none hp hnone, refusal_eq_complaint hp hnone]
    rfl

/-- No token is misplaced in a list of relations. -/
theorem not_misplaced_of_specifies {relations : List Relation} (h : Specifies tokens relations)
    (i : Nat) : ¬ Misplaced tokens i := by
  intro hi
  have hwhole : Completable (tokens.take tokens.length) := by
    rw [List.take_length]
    exact ⟨[], relations, by rwa [List.append_nil]⟩
  exact hwhole.not_misplaced hi.1 hi

/-- **Tokens are read as the frame of the relations they list**, and not if they list none. -/
theorem ofTokens_eq_ok_iff {F : Frame} : ofTokens tokens = .ok F
    ↔ ∃ relations, Specifies tokens relations ∧ ∀ r, F.contains r ↔ r ∈ relations := by
  constructor
  · intro h
    have hne : tokens ≠ [] := by
      rintro rfl
      cases h
    rw [ofTokens_eq hne] at h
    rcases hscan : source.scan tokens with e | relations
    · rw [hscan] at h
      cases h
    · rw [hscan] at h
      obtain rfl : ofRelations relations = F := Except.ok.inj h
      refine ⟨relations, scan_source_eq_ok_iff.1 hscan, fun r => ?_⟩
      rw [contains_ofRelations, decide_eq_true_iff]
  · rintro ⟨relations, h, hF⟩
    have hscan := h.scan_eq_ok
    have hne : tokens ≠ [] := by
      rintro rfl
      cases hscan
    have hrelations : ofRelations relations = F := by
      ext r
      rw [contains_ofRelations, Bool.eq_iff_iff, decide_eq_true_iff, hF r]
    rw [ofTokens_eq hne, hscan, ← hrelations]
    rfl

/-- A sequence of tokens is called blank exactly if it is empty. -/
theorem ofTokens_eq_blank_iff : ofTokens tokens = .error .blank ↔ tokens = [] := by
  constructor
  · intro h
    by_contra hne
    rcases ofTokens_cases hne with
      ⟨relations, -, hread⟩ | ⟨ts, t, rest, -, -, hread⟩ | ⟨-, -, hread⟩
    · rw [h] at hread
      cases hread
    · rw [h, complaint] at hread
      split_ifs at hread <;> cases hread
    · rw [h] at hread
      cases hread
  · rintro rfl
    rfl

/-- The first misplaced token is complained about. -/
theorem ofTokens_of_isLeast {i : Nat} (ht : tokens[i]? = some t)
    (hleast : IsLeast {i | Misplaced tokens i} i) :
    ofTokens tokens = .error (complaint (tokens.take i) t) := by
  have hne : tokens ≠ [] := by
    rintro rfl
    cases ht
  rcases ofTokens_cases hne with
    ⟨relations, h, -⟩ | ⟨ts, u, rest, rfl, hfirst, hread⟩ | ⟨-, hnone, -⟩
  · exact absurd hleast.1 (not_misplaced_of_specifies h i)
  · obtain rfl := hleast.unique hfirst
    obtain rfl : u = t := by simpa using ht
    rw [hread, List.take_left]
  · exact absurd hleast.1 (hnone i)

/-- The end of the tokens is unexpected exactly if none is misplaced and something is missing. -/
theorem ofTokens_eq_unexpectedEnd_iff (hne : tokens ≠ []) :
    ofTokens tokens = .error .unexpectedEnd
      ↔ (∀ i, ¬ Misplaced tokens i) ∧ ¬ Specification tokens := by
  rcases ofTokens_cases hne with
    ⟨relations, h, hread⟩ | ⟨ts, t, rest, -, hfirst, hread⟩ | ⟨hnot, hnone, hread⟩
  · refine iff_of_false ?_ fun hnot => hnot.2 ⟨relations, h⟩
    rw [hread]
    exact nofun
  · refine iff_of_false ?_ fun hnone => hnone.1 _ hfirst.1
    rw [hread, complaint]
    split_ifs <;> exact nofun
  · exact iff_of_true hread ⟨hnone, hnot⟩

end Frame

/-- **A text is read as the frame it lists, or refused for its first misplaced token.** It is read
exactly if its tokens list some relations, and then as the frame of these. Where no token is spelt
it is refused as it is spelt, whatever stands before, and it is called blank exactly if it is.
Otherwise the first misplaced token is complained about, and without one the end is unexpected
exactly if the tokens list no relations. The letter of a complaint is the whole text of its token. -/
theorem frame_read_reports_first_misplaced (text : String) :
    (∀ F, Frame.read text = .ok F ↔ ∃ tokens relations, Frame.lexer.tokens text = .ok tokens
        ∧ Specifies tokens relations ∧ ∀ r, F.contains r ↔ r ∈ relations)
      ∧ (∀ e, Frame.lexer.tokens text = .error e →
        (∃ offset, e = .unknownSymbol offset) ∧ Frame.read text = .error e)
      ∧ (Frame.read text = .error .blank ↔ ∀ c ∈ text.toList, isBlank c)
      ∧ ∀ tokens, Frame.lexer.tokens text = .ok tokens → tokens ≠ [] →
        (∀ i t, tokens[i]? = some t → IsLeast {i | Misplaced tokens i} i →
            Frame.read text = .error (complaint (tokens.take i) t))
          ∧ (Frame.read text = .error .unexpectedEnd
            ↔ (∀ i, ¬ Misplaced tokens i) ∧ ¬ Specification tokens)
          ∧ ∀ t ∈ tokens, t.kind = .letter → ∃ letter, t.text = [letter] := by
  refine ⟨fun F => ?_, fun e he => ⟨?_, ?_⟩, ?_, fun tokens htokens hne => ?_⟩
  · rw [Frame.read, bind_eq_ok_iff]
    simp only [Frame.ofTokens_eq_ok_iff, exists_and_left]
  · exact Lexer.exists_unknownSymbol_of_tokensFrom_eq_error he
  · rw [Frame.read, he]
    rfl
  · exact Lexer.bind_tokens_eq_blank_iff fun _ => Frame.ofTokens_eq_blank_iff
  · have hread : Frame.read text = Frame.ofTokens tokens := by
      rw [Frame.read, htokens]
      rfl
    have htiles := Lexer.tiles_of_tokensFrom_eq_ok htokens
    have hspellings : ∀ s ∈ Frame.lexer.spellings, s.kind ≠ .letter := by decide +kernel
    rw [hread]
    refine ⟨fun i t => Frame.ofTokens_of_isLeast, Frame.ofTokens_eq_unexpectedEnd_iff hne, ?_⟩
    intro t ht hkind
    exact htiles.exists_text_eq_singleton hspellings ht hkind

/-- The last letter of `aRba` is its first misplaced token, in `aRz` a world is unknown, `aR` has no
misplaced token and ends too early, `aRb` is read, and in `@` nothing is spelt. -/
theorem frame_read_reports_first_misplaced_unread :
    (IsLeast {i | Misplaced [⟨.letter, ['a'], 0⟩, ⟨.relator, ['R'], 1⟩, ⟨.letter, ['b'], 2⟩,
          ⟨.letter, ['a'], 3⟩] i} 3
        ∧ Frame.read "aRba" = .error (.unreadInput 3))
      ∧ Frame.read "aRz" = .error (.unknownWorld 'z' 2)
      ∧ Frame.read "aR" = .error .unexpectedEnd
      ∧ Frame.read "aRb" = .ok (.ofRelations [⟨.a, .b⟩])
      ∧ Frame.read "@" = .error (.unknownSymbol 0) := by
  let v : Token FrameKind := ⟨.letter, ['a'], 0⟩
  let sign : Token FrameKind := ⟨.relator, ['R'], 1⟩
  let w : Token FrameKind := ⟨.letter, ['b'], 2⟩
  let z : Token FrameKind := ⟨.letter, ['z'], 2⟩
  let more : Token FrameKind := ⟨.letter, ['a'], 3⟩
  -- The texts begin alike, and all but the last are tiled by their tokens.
  have hbegin : ∀ text tokens, Frame.lexer.Tiles 2 text tokens →
      Frame.lexer.Tiles 0 ('a' :: 'R' :: text) (v :: sign :: tokens) := by
    intro text tokens h
    have hsign : Frame.lexer.Tiles 1 ('R' :: text) (sign :: tokens) :=
      @Frame.tiles_spelling _ ⟨.relator, ['R']⟩ _ _ (by decide +kernel) h
    exact Frame.tiles_letter (by decide) hsign
  have hempty : ∀ offset, Frame.lexer.Tiles offset [] [] := fun _ => .blank (List.forall_mem_nil _)
  have hboth : Frame.lexer.Tiles 2 ['b', 'a'] [w, more] :=
    Frame.tiles_letter (by decide) (Frame.tiles_letter (by decide) (hempty 4))
  have hunknown : Frame.lexer.Tiles 2 ['z'] [z] := Frame.tiles_letter (by decide) (hempty 3)
  have hworld : Frame.lexer.Tiles 2 ['b'] [w] := Frame.tiles_letter (by decide) (hempty 3)
  have hspelt : Frame.lexer.tokens "@" = .error (.unknownSymbol 0) :=
    @Lexer.tokensFrom_of_reading?_eq_none _ Frame.lexer 0 [] ['@'] '@' (by decide)
      (by decide +kernel)
  -- Behind the world and the sign the second world is due, and behind it no letter fits.
  have hafter : source.after? [v, sign] = some (target .a) := rfl
  have hended : source.after? [v, sign, w] = some separator := rfl
  have hleast : IsLeast {i | Misplaced [v, sign, w, more] i} 3 := isLeast_misplaced hended rfl
  have hfirst : IsLeast {i | Misplaced [v, sign, z] i} 2 := isLeast_misplaced hafter rfl
  have hspecifies : Specifies [v, sign, w] [⟨.a, .b⟩] := scan_source_eq_ok_iff.1 rfl
  refine ⟨⟨hleast, ?_⟩, ?_, ?_, ?_, ((frame_read_reports_first_misplaced "@").2.1 _ hspelt).2⟩
  · have htable := (frame_read_reports_first_misplaced "aRba").2.2.2 [v, sign, w, more]
      (Lexer.tokensFrom_eq_ok_of_tiles (hbegin _ _ hboth)) (List.cons_ne_nil _ _)
    have hrefusal : separator.refusal more = complaint [v, sign, w] more :=
      refusal_eq_complaint hended rfl
    exact (htable.1 3 more rfl hleast).trans (congrArg Except.error hrefusal.symm)
  · have htable := (frame_read_reports_first_misplaced "aRz").2.2.2 [v, sign, z]
      (Lexer.tokensFrom_eq_ok_of_tiles (hbegin _ _ hunknown)) (List.cons_ne_nil _ _)
    have hrefusal : (target .a).refusal z = complaint [v, sign] z := refusal_eq_complaint hafter rfl
    exact (htable.1 2 z rfl hfirst).trans (congrArg Except.error hrefusal.symm)
  · have htable := (frame_read_reports_first_misplaced "aR").2.2.2 [v, sign]
      (Lexer.tokensFrom_eq_ok_of_tiles (hbegin _ _ (hempty 2))) (List.cons_ne_nil _ _)
    have hcompletable : Completable ([v, sign].take 2) := completable_iff.2 ⟨_, hafter⟩
    have hnot : ¬ Specification [v, sign] := by
      rw [specification_iff, hafter]
      simp
    exact htable.2.1.2 ⟨fun i hi => hcompletable.not_misplaced hi.1 hi, hnot⟩
  · refine ((frame_read_reports_first_misplaced "aRb").1 _).2 ⟨[v, sign, w], [⟨.a, .b⟩],
      Lexer.tokensFrom_eq_ok_of_tiles (hbegin _ _ hworld), hspecifies, fun r => ?_⟩
    rw [Frame.contains_ofRelations, decide_eq_true_iff]

end FourWorlds
