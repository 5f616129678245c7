import FourWorlds.Text.Lexer

/-! # What a lexer reads

The equations of a lexer: blanks before a token are passed over, a token is read off the front of
what follows, and nothing is read at the end. A spelling written out is read back unless a longer
one, beginning in the same way, fits what stands there.

* `Spelling.longest?_eq_some_iff`: the longest spelling, the first of equally long ones.
* `Lexer.reading?_append`, `Lexer.reading?_cons`: a spelling, or a letter, in front of a text.
* `Lexer.tokensFrom_append`, `Lexer.tokensFrom_eq_cons`: blanks in front of a text, and a token.
* `Lexer.front_cases`: what stands at the front of a text.
* `Lexer.Tiles`, `Lexer.tokensFrom_eq_ok_iff_tiles`: a text as blanks and tokens in turn; these are
  the tokens that are read from it.
* `Lexer.Tiles.exists_text_eq_singleton`, `Lexer.bind_tokens_eq_blank_iff`: the tokens that are not
  spelt, and the texts that are called blank. -/

namespace FourWorlds

variable {κ ε β γ : Type}

/-- A sequence of steps succeeds exactly if each step does. -/
theorem bind_eq_ok_iff {x : Except ε β} {f : β → Except ε γ} {c : γ} :
    (x >>= f) = .ok c ↔ ∃ b, x = .ok b ∧ f b = .ok c := by
  cases x with
  | error e => exact iff_of_false nofun nofun
  | ok b => exact ⟨fun h => ⟨b, rfl, h⟩, fun ⟨_, heq, h⟩ => Except.ok.inj heq ▸ h⟩

/-- A sequence of steps fails exactly if its first step fails or a later one does. -/
theorem bind_eq_error_iff {x : Except ε β} {f : β → Except ε γ} {e : ε} :
    (x >>= f) = .error e ↔ x = .error e ∨ ∃ b, x = .ok b ∧ f b = .error e := by
  cases x with
  | error e' => simp [bind, Except.bind]
  | ok b => simp [bind, Except.bind]

/-- A token without its offset: what was read, and how it was spelt. -/
def Token.spelling (t : Token κ) : Spelling κ := ⟨t.kind, t.text⟩

/-! ## Blanks around a text -/

/-- Blanks before a text are taken away with those of the text. -/
theorem trimStart_append {gap : List Char} (hgap : ∀ c ∈ gap, isBlank c) (text : List Char) :
    trimStart (gap ++ text) = trimStart text :=
  List.dropWhile_append_of_pos hgap

/-- A text is what is left of it behind some blanks. -/
theorem exists_append_trimStart (text : List Char) :
    ∃ gap, text = gap ++ trimStart text ∧ ∀ c ∈ gap, isBlank c :=
  ⟨text.takeWhile isBlank, List.takeWhile_append_dropWhile.symm, List.all_eq_true.1 List.all_takeWhile⟩

/-- What is left behind the blanks begins with none. -/
theorem not_isBlank_of_trimStart_eq_cons {text rest : List Char} {c : Char}
    (h : trimStart text = c :: rest) : ¬ isBlank c := by
  have hhead := List.head?_dropWhile_not isBlank text
  rw [trimStart] at h
  rw [h] at hhead
  simpa using hhead

/-- A text begins with no blank if its first character is none. -/
theorem forall_head?_not_isBlank {text : List Char} {c : Char} (h : ¬ isBlank c) :
    ∀ b ∈ (c :: text).head?, ¬ isBlank b :=
  fun _ hb => Option.some.inj hb ▸ h

/-- The lowercase letters are twenty-six characters in a row. -/
theorem isLower_iff {c : Char} : c.isLower ↔ 97 ≤ c.toNat ∧ c.toNat ≤ 122 := by
  show (decide ('a'.val ≤ c.val) && decide (c.val ≤ 'z'.val)) = true ↔ _
  rw [Bool.and_eq_true, decide_eq_true_iff, decide_eq_true_iff, UInt32.le_iff_toNat_le,
    UInt32.le_iff_toNat_le]
  rfl

/-- A lowercase letter is no blank. -/
theorem not_isBlank_of_isLower {c : Char} (h : c.isLower) : ¬ isBlank c := by
  have hrange := isLower_iff.1 h
  simp only [isBlank, blankRanges, List.any_cons, List.any_nil, Bool.or_eq_true, Bool.and_eq_true,
    decide_eq_true_eq, Bool.false_eq_true, or_false]
  omega

/-- A lowercase letter is a single byte. -/
theorem byteLength_of_isLower {c : Char} (h : c.isLower) : byteLength [c] = 1 := by
  have hrange := isLower_iff.1 h
  have hsize : c.utf8Size = 1 := by
    rw [Char.utf8Size_eq_one_iff, UInt32.le_iff_toNat_le]
    show c.toNat ≤ 127
    omega
  rw [byteLength_cons, byteLength_nil, hsize]

/-- What is trimmed off behind a text is blank. -/
theorem exists_trimStart_eq (text : List Char) :
    ∃ after, trimStart text = trim text ++ after ∧ ∀ c ∈ after, isBlank c := by
  obtain ⟨after, hafter, hblank⟩ := exists_append_trimStart (trimStart text).reverse
  refine ⟨after.reverse, ?_, fun c hc => hblank c (List.mem_reverse.1 hc)⟩
  rw [trim, trimEnd, ← List.reverse_append, ← hafter, List.reverse_reverse]

/-- What is trimmed off a text is blank. -/
theorem exists_append_trim (text : List Char) : ∃ before after, text = before ++ trim text ++ after
    ∧ (∀ c ∈ before, isBlank c) ∧ ∀ c ∈ after, isBlank c := by
  obtain ⟨before, hbefore, hblank⟩ := exists_append_trimStart text
  obtain ⟨after, hafter, hblank'⟩ := exists_trimStart_eq text
  exact ⟨before, after, by rw [List.append_assoc, ← hafter, ← hbefore], hblank, hblank'⟩

/-! ## The longest spelling -/

namespace Spelling

/-- A spelling is the first of the longest among some: none before it is as long, and none after it
is longer. -/
def FirstLongest (s : Spelling κ) (spellings : List (Spelling κ)) : Prop :=
  ∃ before after, spellings = before ++ s :: after
    ∧ (∀ t ∈ before, t.text.length < s.text.length) ∧ ∀ t ∈ after, t.text.length ≤ s.text.length

variable {first second s : Spelling κ} {rest : List (Spelling κ)}

/-- A single spelling is the longest. -/
theorem firstLongest_singleton_iff : s.FirstLongest [first] ↔ first = s := by
  constructor
  · rintro ⟨before, after, heq, -, -⟩
    rcases before with _ | ⟨t, before⟩
    · exact (List.cons.inj heq).1
    · exact absurd (congrArg List.length heq) (by simp)
  · rintro rfl
    exact ⟨[], [], rfl, nofun, nofun⟩

/-- A spelling in front of a longer one does not matter. -/
theorem firstLongest_cons_of_lt (hlt : first.text.length < second.text.length) :
    s.FirstLongest (first :: second :: rest) ↔ s.FirstLongest (second :: rest) := by
  constructor
  · rintro ⟨before, after, heq, hbefore, hafter⟩
    rcases before with _ | ⟨t, before⟩
    · obtain ⟨rfl, rfl⟩ := List.cons.inj heq
      have hle := hafter second List.mem_cons_self
      omega
    · exact ⟨before, after, (List.cons.inj heq).2, (List.forall_mem_cons.1 hbefore).2, hafter⟩
  · rintro ⟨before, after, heq, hbefore, hafter⟩
    have hle : second.text.length ≤ s.text.length := by
      rcases before with _ | ⟨t, before⟩
      · obtain ⟨rfl, -⟩ := List.cons.inj heq
        exact Nat.le_refl _
      · obtain ⟨rfl, -⟩ := List.cons.inj heq
        exact Nat.le_of_lt (hbefore second List.mem_cons_self)
    refine ⟨first :: before, after, by rw [heq, List.cons_append], ?_, hafter⟩
    exact List.forall_mem_cons.2 ⟨by omega, hbefore⟩

/-- A spelling behind one that is as long does not matter. -/
theorem firstLongest_cons_of_not_lt (hlt : ¬ first.text.length < second.text.length) :
    s.FirstLongest (first :: second :: rest) ↔ s.FirstLongest (first :: rest) := by
  constructor
  · rintro ⟨before, after, heq, hbefore, hafter⟩
    rcases before with _ | ⟨t, _ | ⟨t', before⟩⟩
    · obtain ⟨rfl, rfl⟩ := List.cons.inj heq
      exact ⟨[], rest, rfl, nofun, (List.forall_mem_cons.1 hafter).2⟩
    · obtain ⟨rfl, htail⟩ := List.cons.inj heq
      obtain ⟨rfl, -⟩ := List.cons.inj htail
      exact absurd (hbefore first List.mem_cons_self) hlt
    · obtain ⟨rfl, htail⟩ := List.cons.inj heq
      obtain ⟨rfl, rfl⟩ := List.cons.inj htail
      obtain ⟨hfirst, hbefore⟩ := List.forall_mem_cons.1 hbefore
      exact ⟨first :: before, after, rfl,
        List.forall_mem_cons.2 ⟨hfirst, (List.forall_mem_cons.1 hbefore).2⟩, hafter⟩
  · rintro ⟨before, after, heq, hbefore, hafter⟩
    rcases before with _ | ⟨t, before⟩
    · obtain ⟨rfl, rfl⟩ := List.cons.inj heq
      exact ⟨[], second :: rest, rfl, nofun, List.forall_mem_cons.2 ⟨by omega, hafter⟩⟩
    · obtain ⟨rfl, rfl⟩ := List.cons.inj heq
      obtain ⟨hfirst, hbefore⟩ := List.forall_mem_cons.1 hbefore
      exact ⟨first :: second :: before, after, rfl, List.forall_mem_cons.2
        ⟨hfirst, List.forall_mem_cons.2 ⟨by omega, hbefore⟩⟩, hafter⟩

/-- **The longest of some spellings is the first of the longest ones.** -/
theorem longest?_eq_some_iff {spellings : List (Spelling κ)} :
    longest? spellings = some s ↔ s.FirstLongest spellings := by
  rcases spellings with _ | ⟨first, rest⟩
  · refine iff_of_false nofun ?_
    rintro ⟨before, after, heq, -⟩
    exact absurd (congrArg List.length heq) (by simp)
  · rw [longest?, Option.some.injEq]
    induction rest generalizing first with
    | nil => exact firstLongest_singleton_iff.symm
    | cons second rest ih =>
        rw [List.foldl_cons, ih, longer]
        by_cases hlt : first.text.length < second.text.length
        · rw [if_pos hlt, firstLongest_cons_of_lt hlt]
        · rw [if_neg hlt, firstLongest_cons_of_not_lt hlt]

/-- There is a longest one of some spellings unless there are none. -/
theorem longest?_eq_none_iff {spellings : List (Spelling κ)} :
    longest? spellings = none ↔ spellings = [] := by
  cases spellings <;> simp [longest?]

end Spelling

namespace Lexer

variable {L : Lexer κ} {s : Spelling κ} {offset : Nat} {gap rest text : List Char}

/-! ## Reading the front of a text -/

/-- **A spelling written out is read back**, unless another one that begins with it fits what stands
there. -/
theorem reading?_append (hs : s ∈ L.spellings)
    (hfits : ∀ t ∈ L.spellings, s.text <+: t.text → t.text <+: s.text ++ rest → t = s) :
    L.reading? (s.text ++ rest) = some s := by
  -- Whatever else fits is shorter, since a longer one would begin with the spelling.
  have hshorter : ∀ t ∈ L.spellings, t.text <+: s.text ++ rest → t ≠ s →
      t.text.length < s.text.length := by
    intro t ht hprefix hne
    rcases List.prefix_or_prefix_of_prefix hprefix (List.prefix_append s.text rest) with h | h
    · refine Nat.lt_of_le_of_ne h.length_le fun hlength => hne (hfits t ht ?_ hprefix)
      exact h.eq_of_length hlength ▸ List.prefix_rfl
    · exact absurd (hfits t ht h hprefix) hne
  have hlongest : s.FirstLongest (L.spellings.filter (·.text.isPrefixOf (s.text ++ rest))) := by
    have hmem : s ∈ L.spellings.filter (·.text.isPrefixOf (s.text ++ rest)) :=
      List.mem_filter.2 ⟨hs, List.isPrefixOf_iff_prefix.2 (List.prefix_append s.text rest)⟩
    obtain ⟨before, after, heq, hnot⟩ := List.eq_append_cons_of_mem hmem
    have hcandidate : ∀ t ∈ before ++ s :: after, t ≠ s → t.text.length < s.text.length := by
      intro t ht hne
      obtain ⟨ht, hprefix⟩ := List.mem_filter.1 (heq ▸ ht)
      exact hshorter t ht (List.isPrefixOf_iff_prefix.1 hprefix) hne
    refine ⟨before, after, heq, fun t ht => ?_, fun t ht => ?_⟩
    · exact hcandidate t (List.mem_append_left _ ht) fun h => hnot (h ▸ ht)
    · by_cases hne : t = s
      · exact hne ▸ Nat.le_refl _
      · exact Nat.le_of_lt
          (hcandidate t (List.mem_append_right _ (List.mem_cons_of_mem _ ht)) hne)
  rw [reading?, Spelling.longest?_eq_some_iff.2 hlongest]

/-- No spelling fits where a character stands that begins none. -/
theorem not_fits_of_head?_ne {c : Char} (hnone : ∀ t ∈ L.spellings, t.text.head? ≠ some c) :
    ∀ t ∈ L.spellings, ¬ t.text <+: c :: rest := by
  intro t ht hfits
  obtain ⟨b, text, htext⟩ := List.exists_cons_of_ne_nil (L.text_ne_nil t ht)
  rw [htext, List.cons_prefix_cons] at hfits
  exact hnone t ht (by rw [htext, List.head?_cons, hfits.1])

/-- A character that begins no spelling is read as the letter that the lexer takes it for. -/
theorem reading?_cons {c : Char} {kind : κ} (hnone : ∀ t ∈ L.spellings, t.text.head? ≠ some c)
    (hkind : L.letter c = some kind) : L.reading? (c :: rest) = some ⟨kind, [c]⟩ := by
  have hfilter : L.spellings.filter (·.text.isPrefixOf (c :: rest)) = [] :=
    List.filter_eq_nil_iff.2 fun t ht hfits =>
      not_fits_of_head?_ne hnone t ht (List.isPrefixOf_iff_prefix.1 hfits)
  rw [reading?, Spelling.longest?_eq_none_iff.2 hfilter]
  simp [hkind]

/-- What is read stands at the front of the text. -/
theorem prefix_of_reading?_eq_some (h : L.reading? text = some s) : s.text <+: text := by
  rw [reading?] at h
  split at h
  · next t hlongest =>
      obtain rfl := Option.some.inj h
      have hmem := List.mem_filter.1 (Spelling.mem_of_longest? hlongest)
      exact List.isPrefixOf_iff_prefix.1 hmem.2
  · obtain ⟨c, hhead, hletter⟩ := Option.bind_eq_some_iff.1 h
    obtain ⟨kind, -, rfl⟩ := Option.map_eq_some_iff.1 hletter
    obtain ⟨rest, rfl⟩ := List.head?_eq_some_iff.1 hhead
    exact ⟨rest, rfl⟩

/-- What is read is a spelling of the lexer, or a single character that it takes as a letter. -/
theorem mem_spellings_or_of_reading?_eq_some (h : L.reading? text = some s) :
    s ∈ L.spellings ∨ ∃ c, s.text = [c] ∧ L.letter c = some s.kind := by
  rw [reading?] at h
  split at h
  · next t hlongest =>
      obtain rfl := Option.some.inj h
      exact .inl (List.mem_filter.1 (Spelling.mem_of_longest? hlongest)).1
  · obtain ⟨c, -, hletter⟩ := Option.bind_eq_some_iff.1 h
    obtain ⟨kind, hkind, rfl⟩ := Option.map_eq_some_iff.1 hletter
    exact .inr ⟨c, rfl, hkind⟩

/-! ## The tokens of a text -/

/-- A blank text has no tokens. -/
theorem tokensFrom_of_trimStart_eq_nil (h : trimStart text = []) :
    L.tokensFrom offset text = .ok [] := by
  rw [tokensFrom]
  split
  · rfl
  · next heq => rw [h] at heq; cases heq

/-- Where something is read behind the blanks, it is the first token. -/
theorem tokensFrom_of_reading?_eq_some {c : Char} (h : trimStart text = c :: rest)
    (hread : L.reading? (c :: rest) = some s) : L.tokensFrom offset text = do
      let tokens ← L.tokensFrom (offset + byteLength (text.takeWhile isBlank) + byteLength s.text)
        ((c :: rest).drop s.text.length)
      return ⟨s.kind, s.text, offset + byteLength (text.takeWhile isBlank)⟩ :: tokens := by
  rw [tokensFrom]
  split
  · next heq => rw [h] at heq; cases heq
  · next heq =>
      obtain ⟨rfl, rfl⟩ := List.cons.inj (h.symm.trans heq)
      split
      · next hnone => rw [hread] at hnone; cases hnone
      · next hsome =>
          obtain rfl := Option.some.inj (hread.symm.trans hsome)
          rfl

/-- Where nothing is read behind the blanks, the text has no tokens. -/
theorem tokensFrom_of_reading?_eq_none {c : Char} (h : trimStart text = c :: rest)
    (hread : L.reading? (c :: rest) = none) :
    L.tokensFrom offset text
      = .error (.unknownSymbol (offset + byteLength (text.takeWhile isBlank))) := by
  rw [tokensFrom]
  split
  · next heq => rw [h] at heq; cases heq
  · next heq =>
      obtain ⟨rfl, rfl⟩ := List.cons.inj (h.symm.trans heq)
      split
      · rfl
      · next hsome => rw [hread] at hsome; cases hsome

/-- **Blanks in front of a text are passed over.** -/
theorem tokensFrom_append (hgap : ∀ c ∈ gap, isBlank c) :
    L.tokensFrom offset (gap ++ text) = L.tokensFrom (offset + byteLength gap) text := by
  have htrim := trimStart_append hgap text
  have hstart : offset + byteLength ((gap ++ text).takeWhile isBlank)
      = offset + byteLength gap + byteLength (text.takeWhile isBlank) := by
    rw [List.takeWhile_append_of_pos hgap, byteLength_append, Nat.add_assoc]
  -- The same text is left behind the blanks, so both sides take the same branch.
  rcases htext : trimStart text with _ | ⟨c, rest⟩
  · rw [tokensFrom_of_trimStart_eq_nil htext, tokensFrom_of_trimStart_eq_nil (htrim.trans htext)]
  · rcases hread : L.reading? (c :: rest) with _ | s
    · rw [tokensFrom_of_reading?_eq_none htext hread,
        tokensFrom_of_reading?_eq_none (htrim.trans htext) hread, hstart]
    · rw [tokensFrom_of_reading?_eq_some htext hread,
        tokensFrom_of_reading?_eq_some (htrim.trans htext) hread, hstart]

/-- **What is read at the front of a text is its first token**, if it begins with no blank. -/
theorem tokensFrom_eq_cons (hblank : ∀ c ∈ s.text.head?, ¬ isBlank c)
    (hread : L.reading? (s.text ++ rest) = some s) :
    L.tokensFrom offset (s.text ++ rest) = do
      let tokens ← L.tokensFrom (offset + byteLength s.text) rest
      return ⟨s.kind, s.text, offset⟩ :: tokens := by
  rcases htext : s.text with _ | ⟨c, text⟩
  · exact absurd htext (text_ne_nil_of_reading? hread)
  · have hc : ¬ isBlank c := hblank c (by rw [htext, List.head?_cons]; rfl)
    rw [htext, List.cons_append] at hread
    have htrim : trimStart (c :: (text ++ rest)) = c :: (text ++ rest) :=
      List.dropWhile_cons_of_neg hc
    rw [List.cons_append, tokensFrom_of_reading?_eq_some htrim hread,
      List.takeWhile_cons_of_neg hc, byteLength_nil, Nat.add_zero, htext, ← List.cons_append,
      List.drop_left]

/-- Where the tokens of a text end early, nothing is spelt. -/
theorem exists_unknownSymbol_of_tokensFrom_eq_error {e : ParseError}
    (h : L.tokensFrom offset text = .error e) : ∃ start, e = .unknownSymbol start := by
  fun_induction L.tokensFrom offset text with
  | case1 => cases h
  | case2 offset _ _ _ _ start => exact ⟨start, (Except.error.inj h).symm⟩
  | case3 offset text c rest htrim start s hread ih =>
      rcases htail : L.tokensFrom (start + byteLength s.text) ((c :: rest).drop s.text.length)
        with e' | tokens
      · rw [htail] at h ih
        exact ih h
      · rw [htail] at h
        cases h

/-! ## Texts as gaps and tokens -/

/-- **A text is tiled by tokens**: blanks stand between them, and each is what the lexer reads where
it stands, at its offset. -/
inductive Tiles (L : Lexer κ) : Nat → List Char → List (Token κ) → Prop
  /-- Behind the last token there are blanks alone. -/
  | blank {offset : Nat} {gap : List Char} : (∀ c ∈ gap, isBlank c) → Tiles L offset gap []
  /-- Blanks, a token behind them, and the rest of the text. -/
  | token {offset : Nat} {gap s rest tokens} : (∀ c ∈ gap, isBlank c) →
      (∀ c ∈ s.text.head?, ¬ isBlank c) →
      L.reading? (s.text ++ rest) = some s →
      Tiles L (offset + byteLength gap + byteLength s.text) rest tokens →
      Tiles L offset (gap ++ (s.text ++ rest))
        (⟨s.kind, s.text, offset + byteLength gap⟩ :: tokens)

/-- A token may stand at the very front of a text. -/
theorem Tiles.cons {tokens : List (Token κ)} (hblank : ∀ c ∈ s.text.head?, ¬ isBlank c)
    (hread : L.reading? (s.text ++ rest) = some s)
    (h : L.Tiles (offset + byteLength s.text) rest tokens) :
    L.Tiles offset (s.text ++ rest) (⟨s.kind, s.text, offset⟩ :: tokens) := by
  have htoken : L.Tiles offset ([] ++ (s.text ++ rest))
      (⟨s.kind, s.text, offset + byteLength []⟩ :: tokens) := .token nofun hblank hread h
  exact htoken

/-- A text that is read as a whole is tiled by one token. -/
theorem Tiles.single (hblank : ∀ c ∈ s.text.head?, ¬ isBlank c) (hread : L.reading? s.text = some s) :
    L.Tiles offset s.text [⟨s.kind, s.text, offset⟩] := by
  rw [← List.append_nil s.text] at hread
  have htoken : L.Tiles offset (s.text ++ []) [⟨s.kind, s.text, offset⟩] :=
    .cons hblank hread (.blank nofun)
  simpa using htoken

/-- The tokens that tile a text are the tokens of the text. -/
theorem tokensFrom_eq_ok_of_tiles {tokens : List (Token κ)} (h : L.Tiles offset text tokens) :
    L.tokensFrom offset text = .ok tokens := by
  induction h with
  | blank hgap =>
      have htrim := trimStart_append hgap []
      rw [List.append_nil] at htrim
      exact tokensFrom_of_trimStart_eq_nil htrim
  | token hgap hblank hread _ ih =>
      rw [tokensFrom_append hgap, tokensFrom_eq_cons hblank hread, ih]
      rfl

/-- A text that is read as a whole has one token. -/
theorem tokens_eq_ok_singleton {text : String} (htext : text.toList = s.text)
    (hblank : ∀ c ∈ s.text.head?, ¬ isBlank c) (hread : L.reading? s.text = some s) :
    L.tokens text = .ok [⟨s.kind, s.text, 0⟩] := by
  rw [tokens, htext]
  exact tokensFrom_eq_ok_of_tiles (.single hblank hread)

/-- **What stands at the front of a text**: blanks alone, blanks before a place where nothing is read,
or blanks before something that is read in front of a shorter rest. -/
theorem front_cases (L : Lexer κ) (text : List Char) : (∀ c ∈ text, isBlank c)
    ∨ (∃ gap c rest, text = gap ++ c :: rest ∧ (∀ b ∈ gap, isBlank b) ∧ ¬ isBlank c
      ∧ L.reading? (c :: rest) = none)
    ∨ ∃ gap s rest, text = gap ++ (s.text ++ rest) ∧ (∀ b ∈ gap, isBlank b)
      ∧ (∀ c ∈ s.text.head?, ¬ isBlank c) ∧ L.reading? (s.text ++ rest) = some s
      ∧ rest.length < text.length := by
  obtain ⟨gap, hsplit, hgap⟩ := exists_append_trimStart text
  rcases htrim : trimStart text with _ | ⟨c, rest⟩
  · rw [htrim, List.append_nil] at hsplit
    exact .inl (hsplit ▸ hgap)
  have hc : ¬ isBlank c := not_isBlank_of_trimStart_eq_cons htrim
  rw [htrim] at hsplit
  rcases hread : L.reading? (c :: rest) with _ | s
  · exact .inr (.inl ⟨gap, c, rest, hsplit, hgap, hc, hread⟩)
  · obtain ⟨more, hmore⟩ := prefix_of_reading?_eq_some hread
    have hpos := List.length_pos_iff.2 (text_ne_nil_of_reading? hread)
    rw [← hmore] at hsplit hread
    refine .inr (.inr ⟨gap, s, more, hsplit, hgap, fun b hb => ?_, hread, ?_⟩)
    · obtain ⟨others, hothers⟩ := List.head?_eq_some_iff.1 hb
      rw [hothers] at hmore
      exact (List.cons.inj hmore).1 ▸ hc
    · rw [hsplit, List.length_append, List.length_append]
      omega

/-- The tokens of a text tile it. -/
theorem tiles_of_tokensFrom_eq_ok {tokens : List (Token κ)}
    (h : L.tokensFrom offset text = .ok tokens) : L.Tiles offset text tokens := by
  induction hlength : text.length using Nat.strongRecOn generalizing text offset tokens with
  | ind length ih =>
      rcases L.front_cases text with
        hblank | ⟨gap, c, rest, rfl, hgap, hc, hnone⟩ | ⟨gap, s, rest, rfl, hgap, hhead, hread, hlt⟩
      · rw [tokensFrom_eq_ok_of_tiles (.blank hblank)] at h
        obtain rfl := Except.ok.inj h
        exact .blank hblank
      · have htrim : trimStart (c :: rest) = c :: rest := List.dropWhile_cons_of_neg hc
        rw [tokensFrom_append hgap, tokensFrom_of_reading?_eq_none htrim hnone] at h
        cases h
      · rw [tokensFrom_append hgap, tokensFrom_eq_cons hhead hread] at h
        obtain ⟨tail, htail, heq⟩ := bind_eq_ok_iff.1 h
        obtain rfl := Except.ok.inj heq
        exact .token hgap hhead hread (ih _ (hlength ▸ hlt) htail rfl)

/-- **The tokens of a text are those that tile it.** -/
theorem tokensFrom_eq_ok_iff_tiles {tokens : List (Token κ)} :
    L.tokensFrom offset text = .ok tokens ↔ L.Tiles offset text tokens :=
  ⟨tiles_of_tokensFrom_eq_ok, tokensFrom_eq_ok_of_tiles⟩

/-- A text has no tokens exactly if it is blank. -/
theorem tokensFrom_eq_ok_nil_iff : L.tokensFrom offset text = .ok [] ↔ ∀ c ∈ text, isBlank c := by
  rw [tokensFrom_eq_ok_iff_tiles]
  constructor
  · intro h
    cases h with
    | blank hgap => exact hgap
  · exact .blank

/-- Each of the tokens that tile a text is what the lexer reads somewhere. -/
theorem Tiles.exists_reading?_of_mem {tokens : List (Token κ)} (h : L.Tiles offset text tokens)
    {t : Token κ} (ht : t ∈ tokens) :
    ∃ rest, L.reading? (t.text ++ rest) = some ⟨t.kind, t.text⟩ := by
  induction h with
  | blank => cases ht
  | @token offset gap s rest tokens _ _ hread _ ih =>
      rcases List.mem_cons.1 ht with rfl | ht
      · exact ⟨rest, hread⟩
      · exact ih ht

/-- A token of a kind that is never spelt is a single character. -/
theorem Tiles.exists_text_eq_singleton {tokens : List (Token κ)} (h : L.Tiles offset text tokens)
    {kind : κ} (hkind : ∀ s ∈ L.spellings, s.kind ≠ kind) {t : Token κ} (ht : t ∈ tokens)
    (heq : t.kind = kind) : ∃ c, t.text = [c] := by
  obtain ⟨rest, hread⟩ := h.exists_reading?_of_mem ht
  rcases mem_spellings_or_of_reading?_eq_some hread with hs | ⟨c, hc, -⟩
  · exact absurd heq (hkind _ hs)
  · exact ⟨c, hc⟩

/-- What is read from tokens is called blank exactly if the text is, if this is so of no token. -/
theorem bind_tokens_eq_blank_iff {text : String} {f : List (Token κ) → Except ParseError β}
    (hf : ∀ tokens, f tokens = .error .blank ↔ tokens = []) :
    (L.tokens text >>= f) = .error .blank ↔ ∀ c ∈ text.toList, isBlank c := by
  have hblank : L.tokens text = .ok [] ↔ ∀ c ∈ text.toList, isBlank c := tokensFrom_eq_ok_nil_iff
  rw [← hblank, bind_eq_error_iff]
  constructor
  · rintro (h | ⟨tokens, htokens, h⟩)
    · obtain ⟨start, hstart⟩ := exists_unknownSymbol_of_tokensFrom_eq_error h
      cases hstart
    · rwa [(hf tokens).1 h] at htokens
  · exact fun h => .inr ⟨[], h, (hf []).2 rfl⟩

/-- Each of the tokens that tile a text stands in it at its offset. -/
theorem Tiles.exists_append_of_mem {tokens : List (Token κ)} (h : L.Tiles offset text tokens)
    {t : Token κ} (ht : t ∈ tokens) :
    ∃ before after, text = before ++ t.text ++ after ∧ t.offset = offset + byteLength before := by
  induction h with
  | blank => cases ht
  | @token offset gap s rest tokens _ _ _ _ ih =>
      rcases List.mem_cons.1 ht with rfl | ht
      · exact ⟨gap, rest, (List.append_assoc _ _ _).symm, rfl⟩
      · obtain ⟨before, after, hrest, hoffset⟩ := ih ht
        refine ⟨gap ++ s.text ++ before, after, ?_, ?_⟩
        · rw [hrest]
          simp only [List.append_assoc]
        · rw [hoffset, byteLength_append, byteLength_append]
          omega

end Lexer

end FourWorlds
