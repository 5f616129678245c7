import FourWorlds.Proofs.Juxtaposition

/-! # Texts separated by blanks

Where no spelling contains a blank, nothing that is read reaches over one. So a text in front of a
blank is read as it is by itself, up to its end or to the place where nothing is spelt, and behind
the blanks reading begins anew, with greater offsets.

* `Token.moved`, `ParseError.moved`: tokens and errors with offsets greater by a number of bytes.
* `Lexer.tokensFrom_add`: a text that begins at a greater offset.
* `Lexer.Solid`: no spelling contains a blank; `Lexer.solid_formula` and `Lexer.solid_frame`: so it
  is in the tables of formulas and of frames.
* `Lexer.reading?_append_blank`, `Lexer.GivesEach.append_blank`: what is read in front of a blank.
* `Lexer.tokens_append_blank`: blanks behind a text.
* `blanks_separate_texts`: the tokens, or the error, of two texts with blanks between them. -/

namespace FourWorlds

variable {κ : Type}

/-! ## Greater offsets -/

/-- A token that stands a number of bytes further on. -/
def Token.moved (n : Nat) (t : Token κ) : Token κ := { t with offset := t.offset + n }

/-- An error that tells an offset, if it tells one, a number of bytes further on. -/
def ParseError.moved (n : Nat) : ParseError → ParseError
  | .blank => .blank
  | .unknownSymbol offset => .unknownSymbol (offset + n)
  | .unknownAtom letter offset => .unknownAtom letter (offset + n)
  | .unknownWorld letter offset => .unknownWorld letter (offset + n)
  | .unexpectedSymbol offset => .unexpectedSymbol (offset + n)
  | .unexpectedEnd => .unexpectedEnd
  | .unreadInput offset => .unreadInput (offset + n)
  | .tooDeep offset => .tooDeep (offset + n)

namespace Lexer

variable {L : Lexer κ} {offset n : Nat} {b : Char} {text rest tail : List Char}
  {words : List (Word κ)}

/-- **A text that begins further on** has its tokens, or its error, as much further on. -/
theorem tokensFrom_add : L.tokensFrom (offset + n) text
    = ((L.tokensFrom offset text).map (List.map (Token.moved n))).mapError
      (ParseError.moved n) := by
  fun_induction L.tokensFrom offset text with
  | case1 offset text htrim =>
      rw [tokensFrom_of_trimStart_eq_nil htrim]
      rfl
  | case2 offset text c rest htrim start hread =>
      rw [tokensFrom_of_reading?_eq_none htrim hread, Nat.add_right_comm]
      rfl
  | case3 offset text c rest htrim start s hread ih =>
      rw [tokensFrom_of_reading?_eq_some htrim hread, Nat.add_right_comm offset,
        Nat.add_right_comm _ n, ih]
      cases L.tokensFrom (start + byteLength s.text) ((c :: rest).drop s.text.length) <;> rfl

/-- The tokens of a text that stands behind a number of bytes. -/
theorem tokensFrom_toList (n : Nat) (text : String) : L.tokensFrom n text.toList
    = ((L.tokens text).map (List.map (Token.moved n))).mapError (ParseError.moved n) := by
  rw [tokens, ← tokensFrom_add, Nat.zero_add]

/-! ## Tables without blanks -/

/-- No spelling of the lexer contains a blank. -/
def Solid (L : Lexer κ) : Prop := ∀ s ∈ L.spellings, ∀ c ∈ s.text, ¬ isBlank c

instance Solid.decidable (L : Lexer κ) : Decidable L.Solid :=
  decidable_of_iff (L.spellings.all fun s => s.text.all fun c => !isBlank c) (by simp [Solid])

/-- No spelling of the tokens of formulas contains a blank. -/
theorem solid_formula : Formula.lexer.Solid := by decide +kernel

/-- No spelling of the tokens of frames contains a blank. -/
theorem solid_frame : Frame.lexer.Solid := by decide +kernel

/-- What contains no blank stands in front of a blank only if it stands there without it. -/
theorem prefix_append_blank_iff {spelling : List Char} (hsolid : ∀ c ∈ spelling, ¬ isBlank c)
    (hb : isBlank b) : spelling <+: text ++ b :: rest ↔ spelling <+: text := by
  refine ⟨fun h => ?_, fun h => h.trans (List.prefix_append _ _)⟩
  have htext := List.prefix_append text (b :: rest)
  rcases List.prefix_or_prefix_of_prefix h htext with h' | ⟨more, rfl⟩
  · exact h'
  · -- Whatever it had behind the text would begin with the blank.
    rcases more with _ | ⟨c, more⟩
    · simp
    · obtain ⟨rfl, -⟩ := List.cons_prefix_cons.1 ((List.prefix_append_right_inj text).1 h)
      exact absurd hb (hsolid c (List.mem_append_right text List.mem_cons_self))

/-- **Nothing that is read reaches over a blank.** -/
theorem reading?_append_blank (hL : L.Solid) (hb : isBlank b) (hne : text ≠ []) :
    L.reading? (text ++ b :: rest) = L.reading? text := by
  have hfits : L.spellings.filter (·.text.isPrefixOf (text ++ b :: rest))
      = L.spellings.filter (·.text.isPrefixOf text) := by
    refine List.filter_congr fun s hs => ?_
    rw [Bool.eq_iff_iff, List.isPrefixOf_iff_prefix, List.isPrefixOf_iff_prefix,
      prefix_append_blank_iff (hL s hs) hb]
  have hhead : (text ++ b :: rest).head? = text.head? := by
    cases text with
    | nil => exact absurd rfl hne
    | cons => rfl
  rw [reading?, reading?, hfits, hhead]

/-- Words in front of a text are given alike if a blank and more follow the text. -/
theorem GivesEach.append_blank (h : L.GivesEach tail words) (hL : L.Solid) (hb : isBlank b) :
    L.GivesEach (tail ++ b :: rest) words := by
  induction words with
  | nil => trivial
  | cons x words ih =>
      obtain ⟨hhead, hgives, hwords⟩ := h
      have hread := reading?_eq_some_iff_gives.2 hgives
      have hne : x.item.text ++ (x.gap.1 ++ (Word.textOf words ++ tail)) ≠ [] :=
        List.append_ne_nil_of_left_ne_nil (text_ne_nil_of_reading? hread) _
      refine ⟨hhead, reading?_eq_some_iff_gives.1 ?_, ih hwords⟩
      rw [← reading?_append_blank hL hb hne] at hread
      simpa only [List.append_assoc] using hread

/-- Where nothing is spelt, nothing is spelt either if a blank and more follow. -/
theorem Stuck.append_blank (h : L.Stuck tail) (hL : L.Solid) (hb : isBlank b) :
    L.Stuck (tail ++ b :: rest) := by
  obtain ⟨hfits, c, hhead, hc, hletter⟩ := h
  refine ⟨fun t ht hprefix => hfits t ht ((prefix_append_blank_iff (hL t ht) hb).1 hprefix), c, ?_,
    hc, hletter⟩
  obtain ⟨more, rfl⟩ := List.head?_eq_some_iff.1 hhead
  rfl

/-! ## Texts with blanks between them -/

/-- **Two texts with blanks between them** are read one after the other, the second one only if the
first one is read to its end. -/
theorem tokens_append_blanks {u w v : String} (hL : L.Solid) (hne : w.toList ≠ [])
    (hblank : ∀ c ∈ w.toList, isBlank c) : L.tokens (u ++ w ++ v) = do
      let before ← L.tokens u
      let after ← L.tokensFrom (byteLength u.toList + byteLength w.toList) v.toList
      return before ++ after := by
  obtain ⟨b, blanks, hw⟩ := List.exists_cons_of_ne_nil hne
  have hb : isBlank b := hblank b (hw ▸ List.mem_cons_self)
  have htext : (u ++ w ++ v).toList = u.toList ++ b :: (blanks ++ v.toList) := by
    simp [hw]
  obtain ⟨row, tail, hu, hgives, rfl | hstuck⟩ := L.exists_row u.toList
  · -- The whole of the first text is read, and then the blanks are passed over.
    rw [List.append_nil] at hu
    have hmore : L.GivesEach ([] ++ b :: (blanks ++ v.toList)) row.words :=
      hgives.append_blank hL hb
    rw [tokens_of_row hu hgives, tokens, htext, ← hu, ← List.nil_append (b :: (blanks ++ v.toList)),
      tokensFrom_row_append hmore, List.nil_append, ← List.cons_append, ← hw,
      tokensFrom_append hblank]
    rfl
  · have hmore : L.GivesEach (tail ++ b :: (blanks ++ v.toList)) row.words :=
      hgives.append_blank hL hb
    rw [tokens_of_row_of_stuck hu hgives hstuck, tokens, htext, ← hu, List.append_assoc,
      tokensFrom_row_append hmore, tokensFrom_of_stuck (hstuck.append_blank hL hb)]
    rfl

/-- Blanks behind a text change nothing. -/
theorem tokens_append_blank {u w : String} (hL : L.Solid) (hblank : ∀ c ∈ w.toList, isBlank c) :
    L.tokens (u ++ w) = L.tokens u := by
  by_cases hne : w.toList = []
  · rw [String.toList_eq_nil_iff.1 hne, String.append_empty]
  · have hread := tokens_append_blanks (u := u) (v := "") hL hne hblank
    rw [String.append_empty, String.toList_empty, tokensFrom_of_trimStart_eq_nil rfl] at hread
    rw [hread]
    cases L.tokens u with
    | error e => rfl
    | ok tokens => exact congrArg Except.ok (List.append_nil tokens)

end Lexer

/-- **Blanks separate texts.** Where no spelling contains a blank, as in the tables of formulas and
of frames, a text, at least one blank and another text have the tokens of both, those of the second
one further on by the bytes of what stands before it. If the first text has none, the error is its
own, and otherwise that of the second one, as much further on. -/
theorem blanks_separate_texts :
    Formula.lexer.Solid ∧ Frame.lexer.Solid
      ∧ ∀ (κ : Type) (L : Lexer κ), L.Solid → ∀ u w v : String, w ≠ "" →
        (∀ c ∈ w.toList, isBlank c) →
        (∀ ts us, L.tokens u = .ok ts → L.tokens v = .ok us → L.tokens (u ++ w ++ v)
            = .ok (ts ++ us.map (Token.moved (byteLength u.toList + byteLength w.toList))))
          ∧ (∀ e, L.tokens u = .error e → L.tokens (u ++ w ++ v) = .error e)
          ∧ ∀ ts e, L.tokens u = .ok ts → L.tokens v = .error e → L.tokens (u ++ w ++ v)
            = .error (e.moved (byteLength u.toList + byteLength w.toList)) := by
  refine ⟨Lexer.solid_formula, Lexer.solid_frame, fun κ L hL u w v hne hblank => ?_⟩
  have hread := Lexer.tokens_append_blanks (u := u) (v := v) hL
    (fun h => hne (String.toList_eq_nil_iff.1 h)) hblank
  rw [Lexer.tokensFrom_toList] at hread
  refine ⟨fun ts us hu hv => ?_, fun e hu => ?_, fun ts e hu hv => ?_⟩
  · rw [hread, hu, hv]
    rfl
  · rw [hread, hu]
    rfl
  · rw [hread, hu, hv]
    rfl

/-- Behind a wide space of three bytes and a tab the token of `b` stands four bytes further on than
the end of `aR`, and in place of `b` nothing would be spelt as far on; but a text in front in which
nothing is spelt already is refused there. -/
theorem blanks_separate_texts_wide_space :
    (∀ c ∈ "\u3000\t".toList, isBlank c)
      ∧ (Frame.lexer.tokens "aR" = .ok [⟨.letter, ['a'], 0⟩, ⟨.relator, ['R'], 1⟩]
        ∧ Frame.lexer.tokens "b" = .ok [⟨.letter, ['b'], 0⟩]
        ∧ Frame.lexer.tokens ("aR" ++ "\u3000\t" ++ "b")
          = .ok [⟨.letter, ['a'], 0⟩, ⟨.relator, ['R'], 1⟩, ⟨.letter, ['b'], 6⟩])
      ∧ (Frame.lexer.tokens "a@" = .error (.unknownSymbol 1)
        ∧ Frame.lexer.tokens ("a@" ++ "\u3000\t" ++ "b") = .error (.unknownSymbol 1))
      ∧ Frame.lexer.tokens "@" = .error (.unknownSymbol 0)
        ∧ Frame.lexer.tokens ("aR" ++ "\u3000\t" ++ "@") = .error (.unknownSymbol 6) := by
  let a : Word FrameKind := ⟨⟨.letter, ['a']⟩, .none⟩
  have ha : Frame.IsItem a.item := .inr ⟨'a', by decide, rfl⟩
  have hblank : ∀ c ∈ "\u3000\t".toList, isBlank c := List.all_eq_true.1 (by decide)
  have hfirst : Frame.lexer.tokens "aR" = .ok [⟨.letter, ['a'], 0⟩, ⟨.relator, ['R'], 1⟩] :=
    @Frame.tokens_row ⟨.none, [a, ⟨⟨.relator, ['R']⟩, .none⟩]⟩ (List.forall_mem_cons.2
      ⟨ha, List.forall_mem_singleton.2 (.inl (by decide +kernel))⟩)
  have hsecond : Frame.lexer.tokens "b" = .ok [⟨.letter, ['b'], 0⟩] :=
    @Frame.tokens_row ⟨.none, [⟨⟨.letter, ['b']⟩, .none⟩]⟩
      (List.forall_mem_singleton.2 (.inr ⟨'b', by decide, rfl⟩))
  have hstuck : Frame.lexer.Stuck ['@'] := ⟨by decide +kernel, '@', rfl, by decide, by decide⟩
  have hat : Frame.lexer.tokens "@" = .error (.unknownSymbol 0) :=
    @Lexer.tokens_of_row_of_stuck _ _ ['@'] "@" ⟨.none, []⟩ rfl trivial hstuck
  have hat' : Frame.lexer.tokens "a@" = .error (.unknownSymbol 1) :=
    @Lexer.tokens_of_row_of_stuck _ _ ['@'] "a@" ⟨.none, [a]⟩ rfl
      (Frame.givesEach_of_isItem (List.forall_mem_singleton.2 ha)) hstuck
  obtain ⟨-, hframe, hseparate⟩ := blanks_separate_texts
  have hboth := hseparate _ Frame.lexer hframe "aR" "\u3000\t" "b" (by decide) hblank
  have herror := hseparate _ Frame.lexer hframe "a@" "\u3000\t" "b" (by decide) hblank
  have herror' := hseparate _ Frame.lexer hframe "aR" "\u3000\t" "@" (by decide) hblank
  exact ⟨hblank, ⟨hfirst, hsecond, hboth.1 _ _ hfirst hsecond⟩, ⟨hat', herror.2.1 _ hat'⟩, hat,
    herror'.2.2 _ _ hfirst hat⟩

end FourWorlds
