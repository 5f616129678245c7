import FourWorlds.Proofs.ReaderErrors
import Mathlib.Order.Bounds.Basic

/-! # The first fault of a text

What is wrong with a text is settled by the grammar alone. The tokens up to some place may go on to a
sentence or not, and a term that has to begin there may stand too deep. The first token at which one
of the two fails is at fault, and the reader reports just that token, with an error that depends on the
tokens before it.

* `Sentence`, `Viable`, `TermDue`: what the grammar derives without a bound on the depth, what begins
  such a sequence, and where a term has to begin.
* `Fault`, `FaultAt`, `diagnosis`: which tokens are at fault, and what is wrong with one.
* `BreaksOff.not_sentence_append`, `Derives.not_sentence_append`: where a reader stops, no sentence
  goes on.
* `diagnosis_of_breaksOff`, `diagnosis_of_derives`: what a reader reports is the diagnosis.
* `read_reports_first_fault`: for every text the error is that of its first fault. -/

namespace FourWorlds

/-! ## Sentences and faults -/

/-- The grammar derives some formula from the tokens, without a bound on the depth. -/
def Sentence (ts : List (Token FormulaKind)) : Prop := ∃ φ, Derives ⊤ .expression 0 ts φ

/-- The tokens go on to a sentence, or are one. -/
def Viable (ts : List (Token FormulaKind)) : Prop := ∃ us, Sentence (ts ++ us)

/-- Behind the tokens a term has to begin, at a depth. -/
def TermDue (ts : List (Token FormulaKind)) (d : Nat) : Prop := BreaksOff ⊤ .expression 0 ts (.term d)

/-- **A token is at fault** behind others: with it they go on to no sentence, or it stands where a term
has to begin one deeper than the limit. -/
def Fault (limit : Nat) (before : List (Token FormulaKind)) (t : Token FormulaKind) : Prop :=
  ¬ Viable (before ++ [t]) ∨ TermDue before (limit + 1)

/-- The token at a place is at fault behind those before it. -/
def FaultAt (limit : Nat) (tokens : List (Token FormulaKind)) (i : Nat) : Prop :=
  ∃ before t after, tokens = before ++ t :: after ∧ before.length = i ∧ Fault limit before t

open Classical in
/-- **What is wrong with a token at fault**, by the tokens before it. -/
noncomputable def diagnosis (limit : Nat) (before : List (Token FormulaKind))
    (t : Token FormulaKind) : ParseError :=
  if TermDue before (limit + 1) then .tooDeep t.offset
  else if Sentence before then .unreadInput t.offset
  else if (∃ d, TermDue before d) ∧ t.kind = .letter then
    .unknownAtom (t.text.headD default) t.offset
  else .unexpectedSymbol t.offset

variable {limit : Nat} {ts rest tokens : List (Token FormulaKind)} {t : Token FormulaKind}
  {x : Wanted} {φ : Formula} {e : ParseError}

/-- A phrase within a limit is a sentence. -/
theorem Derives.sentence {limit : ℕ∞} (h : Derives limit .expression 0 ts φ) : Sentence ts :=
  ⟨φ, h.mono le_top⟩

/-- A sentence goes on to one. -/
theorem Sentence.viable (h : Sentence ts) : Viable ts := ⟨[], by rwa [List.append_nil]⟩

/-- Tokens with another one behind them go on to the sentences that begin so. -/
theorem viable_append_singleton_iff : Viable (ts ++ [t]) ↔ ∃ us, Sentence (ts ++ t :: us) := by
  simp only [Viable, List.append_assoc, List.cons_append, List.nil_append]

/-- Tokens that break off go on to a sentence. -/
theorem BreaksOff.viable {limit : ℕ∞} (h : BreaksOff limit .expression 0 ts x) : Viable ts := by
  obtain ⟨us, φ, hφ⟩ := (h.mono le_top).exists_derives (t := ⟨x.kind, [], 0⟩) rfl
  exact ⟨_ :: us, φ, hφ⟩

/-! ## Where no sentence goes on -/

/-- **What is refused for another reason than its depth goes on to no sentence.** -/
theorem BreaksOff.not_sentence_append (h : BreaksOff limit .expression 0 ts x)
    (hrefuses : Refuses limit x rest.head? e) (he : ∀ offset, e ≠ .tooDeep offset) :
    ¬ Sentence (ts ++ rest) := by
  rintro ⟨φ, hφ⟩
  -- Readers for enough depths would read the sentence, and fail at what is refused.
  let enough := max limit (0 + (ts ++ rest).length)
  have hread : (Level.within (enough + 1)).expression (.ofTokens (ts ++ rest))
      = .ok (φ, ⟨(ts ++ rest).reverse, []⟩) :=
    Level.expression_within_eq_ok_iff.2 (hφ.of_length.mono (Nat.cast_le.2 (le_max_right _ _)))
  have herror : (Level.within (enough + 1)).expression (.ofTokens (ts ++ rest)) = .error e :=
    Level.expression_within_eq_error_iff.2 ⟨ts, rest, x, rfl,
      h.mono (Nat.cast_le.2 (le_max_left _ _)), hrefuses.mono he (le_max_left _ _)⟩
  rw [hread] at herror
  cases herror

/-- Tokens that break off are no sentence. -/
theorem BreaksOff.not_sentence (h : BreaksOff limit .expression 0 ts x) : ¬ Sentence ts := by
  have hnot : ¬ Sentence (ts ++ []) := h.not_sentence_append .atEnd nofun
  rwa [List.append_nil] at hnot

/-- **A sentence that stops before further tokens does not go on with them.** -/
theorem Derives.not_sentence_append {limit : ℕ∞} (h : Derives limit .expression 0 ts φ)
    (hstops : Phrase.expression.Stops rest) (hne : rest ≠ []) : ¬ Sentence (ts ++ rest) := by
  rintro ⟨ψ, hψ⟩
  -- Readers for enough depths would read both up to their ends.
  have hexact := Level.exact_within (Nat.zero_add ((0 + (ts ++ rest).length) + 1)) .expression
  have hle : 0 + ts.length ≤ 0 + (ts ++ rest).length := by
    rw [List.length_append]
    omega
  have hφ := (hexact (.ofTokens (ts ++ rest)) φ ⟨ts.reverse, rest⟩).2
    ⟨ts, ⟨rfl, by simp [Cursor.ofTokens]⟩, h.of_length.mono (Nat.cast_le.2 hle), hstops⟩
  have hψ := (hexact (.ofTokens (ts ++ rest)) ψ ⟨(ts ++ rest).reverse, []⟩).2
    ⟨ts ++ rest, Cursor.passes_ofTokens _, hψ.of_length, Phrase.stops_nil _⟩
  have hcursor := (Prod.mk.inj (Except.ok.inj (hφ.symm.trans hψ))).2
  exact hne (congrArg Cursor.unread hcursor)

/-! ## Terms beyond the limit -/

/-- A sequence that exceeds the limit is refused as nested too deeply at one of its tokens. -/
theorem Exceeds.exists_tooDeep (h : Exceeds limit .expression 0 ts) :
    ∃ offset, (Level.within (limit + 1)).expression (.ofTokens ts) = .error (.tooDeep offset) := by
  obtain ⟨us, t, vs, rfl, hbreaks⟩ := h
  refine ⟨t.offset, Level.expression_within_eq_error_iff.2 ⟨us, t :: vs, _, rfl, hbreaks, ?_⟩⟩
  exact .tooDeep (Nat.lt_succ_self limit)

/-- A phrase within the limit does not exceed it. -/
theorem Derives.not_exceeds (h : Derives limit .expression 0 ts φ) :
    ¬ Exceeds limit .expression 0 ts := by
  intro hexceeds
  obtain ⟨offset, herror⟩ := hexceeds.exists_tooDeep
  rw [Level.expression_within_eq_ok_iff.2 h] at herror
  cases herror

/-- What breaks off within the limit does not exceed it. -/
theorem BreaksOff.not_exceeds (h : BreaksOff limit .expression 0 ts x) :
    ¬ Exceeds limit .expression 0 ts := by
  intro hexceeds
  obtain ⟨offset, herror⟩ := hexceeds.exists_tooDeep
  have hend := Level.expression_within_eq_error_iff.2
    ⟨ts, [], x, (List.append_nil ts).symm, h, .atEnd⟩
  rw [herror] at hend
  cases hend

/-- Where a term is due, it is due within the limit if no term before it exceeds the limit. -/
theorem TermDue.breaksOff {d : Nat} (h : TermDue ts d) (hexceeds : ¬ Exceeds limit .expression 0 ts) :
    BreaksOff limit .expression 0 ts (.term d) :=
  (h.within_or_exceeds (Nat.zero_le _)).resolve_right hexceeds

/-- Behind an expression in parentheses no term has to begin. -/
theorem BreaksOff.not_termDue_of_closing (h : BreaksOff limit .expression 0 ts .closing) (d : Nat) :
    ¬ TermDue ts d := by
  intro hdue
  -- A closing parenthesis goes on to a sentence, and would be refused if a term were due.
  let u : Token FormulaKind := ⟨.closing, [], 0⟩
  obtain ⟨us, hus⟩ := (h.mono le_top).exists_derives (t := u) rfl
  have hbreaks := h.mono (Nat.cast_le.2 (le_max_left limit d))
  have hterm := hdue.breaksOff hbreaks.not_exceeds
  have hrefuses : Refuses (max limit d) (.term d) (some u) (.unexpectedSymbol u.offset) :=
    .noTerm (le_max_right limit d) (.inl rfl)
  exact absurd hus (hterm.not_sentence_append hrefuses nofun)

/-- **Before what is within the limit and viable, no token is at fault.** -/
theorem not_faultAt_append (hviable : Viable ts) (hexceeds : ¬ Exceeds limit .expression 0 ts)
    {i : Nat} (hi : i < ts.length) : ¬ FaultAt limit (ts ++ rest) i := by
  rintro ⟨before, t, after, heq, rfl, hfault⟩
  obtain ⟨vs, rfl⟩ : ∃ vs, ts = before ++ t :: vs := by
    rcases List.append_eq_append_iff.1 heq with ⟨us, rfl, -⟩ | ⟨us, rfl, htail⟩
    · rw [List.length_append] at hi
      omega
    · rcases us with _ | ⟨u, vs⟩
      · rw [List.append_nil] at hi
        exact absurd hi (Nat.lt_irrefl _)
      · obtain ⟨rfl, -⟩ := List.cons.inj htail
        exact ⟨vs, rfl⟩
  rcases hfault with hnot | hdue
  · obtain ⟨us, hus⟩ := hviable
    exact hnot ⟨vs ++ us, by simpa using hus⟩
  · have hbefore : ¬ Exceeds limit .expression 0 before := fun h => hexceeds (h.append _)
    exact hexceeds ⟨before, t, vs, rfl, hdue.breaksOff hbefore⟩

/-- Nothing is at fault in what is within the limit and viable. -/
theorem not_faultAt (hviable : Viable ts) (hexceeds : ¬ Exceeds limit .expression 0 ts) (i : Nat) :
    ¬ FaultAt limit ts i := by
  rintro ⟨before, t, after, rfl, rfl, hfault⟩
  have hlt : before.length < (before ++ t :: after).length := by simp
  have hfirst : FaultAt limit (before ++ t :: after ++ []) before.length :=
    ⟨before, t, after, List.append_nil _, rfl, hfault⟩
  exact not_faultAt_append hviable hexceeds hlt hfirst

/-- A token at fault behind what is within the limit and viable is the first one. -/
theorem isLeast_faultAt (hviable : Viable ts) (hexceeds : ¬ Exceeds limit .expression 0 ts)
    (hfault : Fault limit ts t) :
    IsLeast {i | FaultAt limit (ts ++ t :: rest) i} ts.length := by
  refine ⟨⟨ts, t, rest, rfl, rfl, hfault⟩, fun i hi => ?_⟩
  by_contra hlt
  exact not_faultAt_append hviable hexceeds (Nat.lt_of_not_le hlt) hi

/-! ## What readers report -/

/-- What is refused for another reason than its depth stands where no term exceeds the limit. -/
theorem BreaksOff.not_termDue_succ (h : BreaksOff limit .expression 0 ts x)
    (hrefuses : Refuses limit x (some t) e) (he : ∀ offset, e ≠ .tooDeep offset) :
    ¬ TermDue ts (limit + 1) := by
  intro hdue
  -- The reader would report both errors.
  have htooDeep := Level.expression_within_eq_error_iff.2 ⟨ts, [t], _, rfl,
    hdue.breaksOff h.not_exceeds, .tooDeep (Nat.lt_succ_self limit)⟩
  have herror := Level.expression_within_eq_error_iff.2 ⟨ts, [t], x, rfl, h, hrefuses⟩
  exact he _ (Except.error.inj (herror.symm.trans htooDeep))

/-- What is refused for its depth stands where a term is due one deeper than the limit. -/
theorem BreaksOff.termDue_succ {offset : Nat} (h : BreaksOff limit .expression 0 ts x)
    (hrefuses : Refuses limit x (some t) (.tooDeep offset)) :
    TermDue ts (limit + 1) ∧ t.offset = offset := by
  cases hrefuses with
  | tooDeep hlt =>
      -- Terms begin one deeper at a time, so the first one beyond the limit is next to it.
      obtain rfl := Nat.le_antisymm (h.depth_le_succ (Nat.zero_le _)) hlt
      exact ⟨h.mono le_top, rfl⟩

/-- **What is refused is at fault, and the error is its diagnosis.** -/
theorem diagnosis_of_breaksOff (h : BreaksOff limit .expression 0 ts x)
    (hrefuses : Refuses limit x (some t) e) : Fault limit ts t ∧ diagnosis limit ts t = e := by
  by_cases he : ∃ offset, e = .tooDeep offset
  · obtain ⟨offset, rfl⟩ := he
    obtain ⟨hdue, rfl⟩ := h.termDue_succ hrefuses
    exact ⟨.inr hdue, if_pos hdue⟩
  · have he : ∀ offset, e ≠ .tooDeep offset := fun offset heq => he ⟨offset, heq⟩
    have hviable : ¬ Viable (ts ++ [t]) := by
      rw [viable_append_singleton_iff]
      rintro ⟨us, hus⟩
      exact absurd hus (h.not_sentence_append hrefuses he)
    refine ⟨.inl hviable, ?_⟩
    rw [diagnosis, if_neg (h.not_termDue_succ hrefuses he), if_neg h.not_sentence]
    cases hrefuses with
    | tooDeep => exact absurd rfl (he _)
    | @unknownAtom d _ _ hkind _ => exact if_pos ⟨⟨d, h.mono le_top⟩, hkind⟩
    | noTerm _ hkind =>
        refine if_neg fun hletter => ?_
        rw [hletter.2] at hkind
        rcases hkind with hkind | ⟨c, hkind⟩ <;> cases hkind
    | noClosing =>
        -- The token may be a letter, but stands behind an expression and not where a term is due.
        refine if_neg ?_
        rintro ⟨⟨d, hdue⟩, -⟩
        exact h.not_termDue_of_closing d hdue

/-- **What follows a sentence that stops is at fault, and is reported as unread.** -/
theorem diagnosis_of_derives (h : Derives limit .expression 0 ts φ)
    (hstops : Phrase.expression.Stops (t :: rest)) :
    Fault limit ts t ∧ diagnosis limit ts t = .unreadInput t.offset := by
  have hviable : ¬ Viable (ts ++ [t]) := by
    rw [viable_append_singleton_iff]
    rintro ⟨us, hus⟩
    exact absurd hus (h.not_sentence_append hstops (List.cons_ne_nil _ _))
  have hdeep : ¬ TermDue ts (limit + 1) := fun hdue =>
    (hdue.breaksOff h.not_exceeds).not_sentence h.sentence
  exact ⟨.inl hviable, by rw [diagnosis, if_neg hdeep, if_pos h.sentence]⟩

/-! ## Whole sequences and texts -/

namespace Formula

/-- **The three outcomes of reading tokens**: a formula, the diagnosis of the first token at fault, or
an unexpected end where no token is at fault. -/
theorem ofTokens_cases (hne : tokens ≠ []) :
    (∃ φ, Derives maxDepth .expression 0 tokens φ ∧ ofTokens tokens = .ok φ)
      ∨ (∃ ts t rest, tokens = ts ++ t :: rest ∧ IsLeast {i | FaultAt maxDepth tokens i} ts.length
        ∧ ofTokens tokens = .error (diagnosis maxDepth ts t))
      ∨ ¬ Sentence tokens ∧ (∀ i, ¬ FaultAt maxDepth tokens i)
        ∧ ofTokens tokens = .error .unexpectedEnd := by
  have hof := ofTokens_of_ne_nil hne
  rcases hread : (Level.within (maxDepth + 1)).expression (.ofTokens tokens) with e | ⟨φ, b⟩
  · -- An expression breaks off before the last token, or behind it.
    obtain ⟨ts, rest, x, rfl, hbreaks, hrefuses⟩ := Level.expression_within_eq_error_iff.1 hread
    rw [hread] at hof
    rcases rest with _ | ⟨t, rest⟩
    · cases hrefuses
      rw [List.append_nil] at hof ⊢
      exact .inr (.inr ⟨hbreaks.not_sentence, not_faultAt hbreaks.viable hbreaks.not_exceeds, hof⟩)
    · obtain ⟨hfault, rfl⟩ := diagnosis_of_breaksOff hbreaks hrefuses
      exact .inr (.inl ⟨ts, t, rest, rfl,
        isLeast_faultAt hbreaks.viable hbreaks.not_exceeds hfault, hof⟩)
  · -- An expression was read, and tokens may be left.
    obtain ⟨ts, ⟨hunread, -⟩, hφ, hstops⟩ :=
      (Level.exact_within (Nat.zero_add _) .expression _ _ _).1 hread
    obtain rfl : tokens = ts ++ b.unread := hunread
    rw [hread] at hof
    rcases b with ⟨passed, _ | ⟨t, rest⟩⟩
    · rw [List.append_nil] at hof ⊢
      exact .inl ⟨φ, hφ, hof⟩
    · obtain ⟨hfault, hdiagnosis⟩ := diagnosis_of_derives hφ hstops
      have herror : ofTokens (ts ++ t :: rest) = .error (.unreadInput t.offset) := hof
      rw [← hdiagnosis] at herror
      exact .inr (.inl ⟨ts, t, rest, rfl,
        isLeast_faultAt hφ.sentence.viable hφ.not_exceeds hfault, herror⟩)

/-- Tokens in which none is at fault are read unless they are no sentence. -/
theorem ofTokens_of_not_faultAt (hne : tokens ≠ []) (hfault : ∀ i, ¬ FaultAt maxDepth tokens i) :
    (¬ Sentence tokens → ofTokens tokens = .error .unexpectedEnd)
      ∧ ∀ φ, Derives ⊤ .expression 0 tokens φ → ofTokens tokens = .ok φ := by
  rcases ofTokens_cases hne with ⟨ψ, hψ, hread⟩ | ⟨ts, t, rest, -, hleast, -⟩ | ⟨hnot, -, hread⟩
  · refine ⟨fun hnot => absurd hψ.sentence hnot, fun φ hφ => ?_⟩
    rw [hread, subsingleton_derives ⊤ tokens (hψ.mono le_top) hφ]
  · exact absurd hleast.1 (hfault _)
  · exact ⟨fun _ => hread, fun φ hφ => absurd ⟨φ, hφ⟩ hnot⟩

/-- The first token at fault is reported with its diagnosis. -/
theorem ofTokens_of_isLeast {before after : List (Token FormulaKind)}
    (hleast : IsLeast {i | FaultAt maxDepth (before ++ t :: after) i} before.length) :
    ofTokens (before ++ t :: after) = .error (diagnosis maxDepth before t) := by
  rcases ofTokens_cases (List.append_ne_nil_of_right_ne_nil before (List.cons_ne_nil t after)) with
    ⟨φ, hφ, -⟩ | ⟨ts, u, rest, heq, hfirst, hread⟩ | ⟨-, hnone, -⟩
  · exact absurd hleast.1 (not_faultAt hφ.sentence.viable hφ.not_exceeds _)
  · obtain ⟨rfl, htail⟩ := List.append_inj heq (hleast.unique hfirst)
    obtain ⟨rfl, -⟩ := List.cons.inj htail
    exact hread
  · exact absurd hleast.1 (hnone _)

/-- Within parentheses what stands behind an expression is no unread input. -/
example : ofTokens [⟨.opening, ['('], 0⟩, ⟨.letter, ['p'], 1⟩, ⟨.letter, ['q'], 3⟩]
    = .error (.unexpectedSymbol 3) := by rfl

/-- A sequence of tokens is called blank exactly if it is empty. -/
theorem ofTokens_eq_blank_iff : ofTokens tokens = .error .blank ↔ tokens = [] := by
  constructor
  · intro h
    by_contra hne
    rcases ofTokens_cases hne with ⟨φ, -, hread⟩ | ⟨ts, t, rest, -, -, hread⟩ | ⟨-, -, hread⟩
    · rw [h] at hread
      cases hread
    · rw [h, diagnosis] at hread
      split_ifs at hread <;> cases hread
    · rw [h] at hread
      cases hread
  · rintro rfl
    rfl

/-- A text is called blank exactly if it is. -/
theorem read_eq_blank_iff (text : String) :
    read text = .error .blank ↔ ∀ c ∈ text.toList, isBlank c :=
  Lexer.bind_tokens_eq_blank_iff fun _ => ofTokens_eq_blank_iff

end Formula

/-- **A text is refused for its first fault.** Where no token is spelt the text is refused as it is
spelt, whatever stands before. A text is called blank exactly if it is. Otherwise the first token at
fault is reported with its diagnosis; without one the text is read, or has an unexpected end if it is
no sentence. The letter of a diagnosis is the whole text of its token. -/
theorem read_reports_first_fault (text : String) :
    (∀ e, Formula.lexer.tokens text = .error e →
        (∃ offset, e = .unknownSymbol offset) ∧ Formula.read text = .error e)
      ∧ (Formula.read text = .error .blank ↔ ∀ c ∈ text.toList, isBlank c)
      ∧ ∀ tokens, Formula.lexer.tokens text = .ok tokens → tokens ≠ [] →
        (∀ before t after, tokens = before ++ t :: after →
            IsLeast {i | FaultAt 1024 tokens i} before.length →
            Formula.read text = .error (diagnosis 1024 before t))
          ∧ ((∀ i, ¬ FaultAt 1024 tokens i) →
            (¬ Sentence tokens → Formula.read text = .error .unexpectedEnd)
              ∧ ∀ φ, Derives ⊤ .expression 0 tokens φ → Formula.read text = .ok φ)
          ∧ ∀ t ∈ tokens, t.kind = .letter → ∃ letter, t.text = [letter] := by
  refine ⟨fun e he => ⟨?_, by rw [Formula.read, he]; rfl⟩, Formula.read_eq_blank_iff text, ?_⟩
  · exact Lexer.exists_unknownSymbol_of_tokensFrom_eq_error he
  · intro tokens htokens hne
    have hread : Formula.read text = Formula.ofTokens tokens := by
      rw [Formula.read, htokens]
      rfl
    rw [hread]
    refine ⟨?_, Formula.ofTokens_of_not_faultAt hne,
      fun t ht hkind => Formula.exists_text_eq_singleton htokens ht hkind⟩
    rintro before t after rfl hleast
    exact Formula.ofTokens_of_isLeast hleast

/-- The parenthesis of `p)` is its first fault, `~` has none and ends too early, `p` is read, and in
`) @` nothing is spelt at the third character, which matters more than the parenthesis. -/
theorem read_reports_first_fault_unread :
    (IsLeast {i | FaultAt 1024 [⟨.letter, ['p'], 0⟩, ⟨.closing, [')'], 1⟩] i} 1
        ∧ Formula.read "p)" = .error (.unreadInput 1))
      ∧ Formula.read "~" = .error .unexpectedEnd
      ∧ Formula.read "p" = .ok (.atom .p)
      ∧ Formula.read ") @" = .error (.unknownSymbol 2) := by
  let p : Token FormulaKind := ⟨.letter, ['p'], 0⟩
  let u : Token FormulaKind := ⟨.closing, [')'], 1⟩
  let n : Token FormulaKind := ⟨.operator .not, ['~'], 0⟩
  have hp : Derives (1024 : ℕ) .expression 0 [p] (.atom .p) :=
    .of_term (.atom (Nat.cast_le.2 (Nat.zero_le _)) rfl rfl)
  have hn : BreaksOff (1024 : ℕ) .expression 0 [n] (.term 1) :=
    .of_term (.operand (Nat.cast_le.2 (Nat.zero_le _)) rfl .start)
  have hstops : Phrase.expression.Stops [u] := Phrase.stops_cons_of_ne (by simp)
  obtain ⟨hfault, hdiagnosis⟩ := diagnosis_of_derives hp hstops
  have hleast : IsLeast {i | FaultAt 1024 ([p] ++ [u]) i} [p].length :=
    isLeast_faultAt hp.sentence.viable hp.not_exceeds hfault
  -- The texts are tiled by their tokens, but nothing is read at `@`.
  have hclosing : Formula.lexer.Tiles 1 [')'] [u] :=
    @Lexer.Tiles.single FormulaKind _ ⟨.closing, [')']⟩ _ (forall_head?_not_isBlank (by decide))
      (by decide +kernel)
  have hboth : Formula.lexer.Tiles 0 ['p', ')'] [p, u] :=
    @Lexer.Tiles.token _ Formula.lexer 0 [] ⟨.letter, ['p']⟩ [')'] _ (List.forall_mem_nil _)
      (forall_head?_not_isBlank (by decide)) (by decide +kernel) hclosing
  have hletter : Formula.lexer.Tiles 0 ['p'] [p] :=
    @Lexer.Tiles.single FormulaKind _ ⟨.letter, ['p']⟩ _ (forall_head?_not_isBlank (by decide))
      (by decide +kernel)
  have hnot : Formula.lexer.Tiles 0 ['~'] [n] :=
    @Lexer.Tiles.single FormulaKind _ ⟨.operator .not, ['~']⟩ _
      (forall_head?_not_isBlank (by decide)) (by decide +kernel)
  have herror : Formula.lexer.tokensFrom 1 [' ', '@'] = .error (.unknownSymbol 2) :=
    @Lexer.tokensFrom_of_reading?_eq_none _ Formula.lexer 1 [] [' ', '@'] '@' (by decide)
      (by decide +kernel)
  have hspelt : Formula.lexer.tokens ") @" = .error (.unknownSymbol 2) := by
    refine (@Lexer.tokensFrom_eq_cons _ Formula.lexer ⟨.closing, [')']⟩ 0 [' ', '@']
      (forall_head?_not_isBlank (by decide)) (by decide +kernel)).trans ?_
    exact bind_eq_error_iff.2 (.inl herror)
  refine ⟨⟨hleast, ?_⟩, ?_, ?_, ((read_reports_first_fault ") @").1 _ hspelt).2⟩
  · have htable := (read_reports_first_fault "p)").2.2 [p, u]
      (Lexer.tokensFrom_eq_ok_of_tiles hboth) (List.cons_ne_nil _ _)
    exact (htable.1 [p] u [] rfl hleast).trans (congrArg Except.error hdiagnosis)
  · have htable := (read_reports_first_fault "~").2.2 [n]
      (Lexer.tokensFrom_eq_ok_of_tiles hnot) (List.cons_ne_nil _ _)
    exact (htable.2.1 (not_faultAt hn.viable hn.not_exceeds)).1 hn.not_sentence
  · have htable := (read_reports_first_fault "p").2.2 [p]
      (Lexer.tokensFrom_eq_ok_of_tiles hletter) (List.cons_ne_nil _ _)
    exact (htable.2.1 (not_faultAt hp.sentence.viable hp.not_exceeds)).2 _ (hp.mono le_top)

end FourWorlds
