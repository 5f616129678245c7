import FourWorlds.CommandLine.Command
import FourWorlds.Proofs.Diagnosis
import FourWorlds.Proofs.Lockstep
import FourWorlds.Proofs.Separation

/-! # Lines that ask about formulas

A player's line is taken without the blanks around it, and it is a command if it begins with the word
of one. Neither matters to a formula: blanks in front of it only move the places that errors tell,
blanks behind it are not even seen, and the mark that every command word begins with is spelt in no
formula.

* `Formula.ofTokens_map_moved`, `Formula.read_eq_mapError`: tokens that stand further on, and a text
  with blanks around it.
* `Command.ofTrimmed_cases`: a line asks for nothing, for the query of its text, or for something
  else, which begins with the mark.
* `lines_read_as_formulas`: a line is read as a formula exactly if it is the query of that formula. -/

namespace FourWorlds

variable {κ : Type}

/-! ## Blanks around a formula -/

/-- Errors that match at tokens a number of bytes apart are the same error as far apart. -/
theorem ParseError.Matches.eq_moved {n : Nat} {e e' : ParseError}
    (h : e.Matches (fun t u : Token κ => u = t.moved n) e') : e' = e.moved n := by
  cases h with
  | blank | unexpectedEnd => rfl
  | unknownAtom htu | unknownWorld htu | unexpectedSymbol htu | unreadInput htu | tooDeep htu =>
      rw [htu]
      rfl

/-- What is read within a text is read of it without the blanks around it, as far on as it stands. -/
theorem Lexer.tokens_eq_tokensFrom_trim {L : Lexer κ} (hL : L.Solid) (text : String) :
    L.tokens text
      = L.tokensFrom (byteLength (text.toList.takeWhile isBlank)) (trim text.toList) := by
  obtain ⟨after, hafter, hblank⟩ := exists_trimStart_eq text.toList
  have hsplit : text.toList.takeWhile isBlank ++ (trim text.toList ++ after) = text.toList := by
    rw [← hafter]
    exact List.takeWhile_append_dropWhile
  have htext : text
      = .ofList (text.toList.takeWhile isBlank ++ trim text.toList) ++ .ofList after := by
    rw [← String.ofList_append, List.append_assoc, hsplit, String.ofList_toList]
  have hfront : ∀ c ∈ text.toList.takeWhile isBlank, isBlank c :=
    List.all_eq_true.1 List.all_takeWhile
  calc L.tokens text
      = L.tokens (.ofList (text.toList.takeWhile isBlank ++ trim text.toList) ++ .ofList after) :=
        congrArg L.tokens htext
    _ = L.tokens (.ofList (text.toList.takeWhile isBlank ++ trim text.toList)) :=
        tokens_append_blank hL (by rwa [String.toList_ofList])
    _ = L.tokensFrom (byteLength (text.toList.takeWhile isBlank)) (trim text.toList) := by
        rw [tokens, String.toList_ofList, tokensFrom_append hfront, Nat.zero_add]

namespace Formula

/-- **Tokens that stand further on** are read as the same formula, or fail with the same error as much
further on. -/
theorem ofTokens_map_moved (n : Nat) (tokens : List (Token FormulaKind)) :
    ofTokens (tokens.map (Token.moved n)) = (ofTokens tokens).mapError (ParseError.moved n) := by
  have hmoved : List.Forall₂ (fun t u => u = t.moved n) tokens (tokens.map (Token.moved n)) :=
    List.forall₂_map_right_iff.2 (List.forall₂_same.2 fun _ _ => rfl)
  have halike : ∀ t u : Token FormulaKind, u = t.moved n → t.Alike .letter u := by
    rintro t _ rfl
    exact ⟨rfl, fun _ => rfl⟩
  have hagree := agree_ofTokens halike hmoved
  generalize ofTokens tokens = read at hagree ⊢
  generalize ofTokens (tokens.map (Token.moved n)) = readMoved at hagree ⊢
  cases hagree with
  | ok heq => rw [heq]; rfl
  | error he => rw [he.eq_moved]; rfl

/-- **A formula is read without the blanks around it**: an error tells a place as much further on as
there are bytes of blanks in front. -/
theorem read_eq_mapError (text : String) : read text
    = (read (.ofList (trim text.toList))).mapError
      (ParseError.moved (byteLength (text.toList.takeWhile isBlank))) := by
  have htrimmed := lexer.tokensFrom_toList (byteLength (text.toList.takeWhile isBlank))
    (.ofList (trim text.toList))
  rw [String.toList_ofList] at htrimmed
  rw [read, read, Lexer.tokens_eq_tokensFrom_trim Lexer.solid_formula, htrimmed]
  cases lexer.tokens (.ofList (trim text.toList)) with
  | error e => rfl
  | ok tokens => exact ofTokens_map_moved _ tokens

/-- No formula begins with the mark of commands. -/
theorem read_of_head?_eq_mark {text : List Char} (h : text.head? = some '!') :
    read (.ofList text) = .error (.unknownSymbol 0) := by
  obtain ⟨rest, rfl⟩ := List.head?_eq_some_iff.1 h
  have hspellings : ∀ s ∈ lexer.spellings, s.text.head? ≠ some '!' := by decide +kernel
  have hstuck : lexer.Stuck ('!' :: rest) :=
    ⟨Lexer.not_fits_of_head?_ne hspellings, '!', rfl, by decide, by decide⟩
  rw [read, Lexer.tokens, String.toList_ofList, Lexer.tokensFrom_of_stuck hstuck]
  rfl

end Formula

/-! ## What lines ask for -/

namespace Command

/-- Every command word begins with the mark, and asks for something other than a query. -/
theorem of_mem_words : ∀ entry ∈ words, entry.1.head? = some '!'
    ∧ ∀ text, entry.2 ≠ query text := by
  simp [words]

/-- What begins with a word begins as the word does. -/
theorem head?_of_begins {word text : List Char} (hhead : word.head? = some '!')
    (hword : word.isPrefixOf text) : text.head? = some '!' := by
  obtain ⟨more, rfl⟩ := List.isPrefixOf_iff_prefix.1 hword
  rw [List.head?_append, hhead, Option.some_or]

/-- **What a trimmed line asks for**: nothing if it is empty, the query of its text, or something else
if it begins with the mark. -/
theorem ofTrimmed_cases (text : List Char) :
    text = [] ∧ ofTrimmed text = nothing
      ∨ text ≠ [] ∧ ofTrimmed text = query (.ofList text)
      ∨ text.head? = some '!' ∧ ∀ t, ofTrimmed text ≠ query t := by
  rw [ofTrimmed]
  by_cases hempty : text = []
  · exact .inl ⟨hempty, if_pos hempty⟩
  rw [if_neg hempty]
  by_cases hguess : guessWord.isPrefixOf text
  · rw [if_pos hguess]
    exact .inr (.inr ⟨head?_of_begins rfl hguess, fun _ h => by cases h⟩)
  rw [if_neg hguess]
  split
  · next word command hfound =>
      obtain ⟨hmark, hquery⟩ := of_mem_words _ (List.mem_of_find?_eq_some hfound)
      have hword : word.isPrefixOf text := by simpa using List.find?_some hfound
      exact .inr (.inr ⟨head?_of_begins hmark hword, hquery⟩)
  · exact .inr (.inl ⟨hempty, rfl⟩)

/-- A query is about the line without the blanks around it. -/
theorem eq_of_read_eq_query {line text : String} (h : read line = query text) :
    text = .ofList (trim line.toList) := by
  rcases ofTrimmed_cases (trim line.toList) with ⟨-, hnothing⟩ | ⟨-, hquery⟩ | ⟨-, hother⟩
  · rw [read, hnothing] at h
    cases h
  · rw [read, hquery] at h
    exact (query.inj h).symm
  · exact absurd h (hother text)

/-- A line that is no query is blank, or the mark is its first character that is not. -/
theorem trim_of_read_ne_query {line : String} (h : ∀ text, read line ≠ query text) :
    trim line.toList = [] ∨ (trim line.toList).head? = some '!' := by
  rcases ofTrimmed_cases (trim line.toList) with ⟨hempty, -⟩ | ⟨-, hquery⟩ | ⟨hmark, -⟩
  · exact .inl hempty
  · exact absurd hquery (h _)
  · exact .inr hmark

end Command

/-- **A line that is no query is read as no formula.** -/
theorem Formula.read_of_read_ne_query {line : String}
    (h : ∀ text, Command.read line ≠ .query text) :
    (∀ c ∈ line.toList, isBlank c) ∧ Formula.read line = .error .blank
      ∨ (∃ c ∈ line.toList, ¬ isBlank c) ∧ Formula.read line
        = .error (.unknownSymbol (byteLength (line.toList.takeWhile isBlank))) := by
  obtain ⟨before, after, hline, hbefore, hafter⟩ := exists_append_trim line.toList
  rcases Command.trim_of_read_ne_query h with hempty | hmark
  · have hblank : ∀ c ∈ line.toList, isBlank c := by
      rw [hline, hempty, List.append_nil]
      exact List.forall_mem_append.2 ⟨hbefore, hafter⟩
    exact .inl ⟨hblank, (read_eq_blank_iff line).2 hblank⟩
  · have hmem : '!' ∈ line.toList := by
      rw [hline]
      exact List.mem_append_left _ (List.mem_append_right _ (List.mem_of_head? hmark))
    refine .inr ⟨⟨'!', hmem, by decide⟩, ?_⟩
    rw [read_eq_mapError, read_of_head?_eq_mark hmark]
    exact congrArg (Except.error ∘ ParseError.unknownSymbol) (Nat.zero_add _)

/-- **Lines are read as formulas exactly if they are queries of them.** No command word begins a
formula, and blanks around a formula do not change it. Where a line is a query, its error as a formula
is that of the queried text, with the place, if it tells one, as much further on as there are bytes of
blanks in front. Any other line is blank, or nothing is spelt at its first character that is not. -/
theorem lines_read_as_formulas (line : String) :
    (∀ φ, Formula.read line = .ok φ
        ↔ ∃ text, Command.read line = .query text ∧ Formula.read text = .ok φ)
      ∧ (∀ text, Command.read line = .query text →
        Formula.read line = (Formula.read text).mapError
          (ParseError.moved (byteLength (line.toList.takeWhile isBlank))))
      ∧ ((∀ text, Command.read line ≠ .query text) →
        (∀ c ∈ line.toList, isBlank c) ∧ Formula.read line = .error .blank
          ∨ (∃ c ∈ line.toList, ¬ isBlank c) ∧ Formula.read line
            = .error (.unknownSymbol (byteLength (line.toList.takeWhile isBlank)))) := by
  have hmoved : ∀ text, Command.read line = .query text →
      Formula.read line = (Formula.read text).mapError
        (ParseError.moved (byteLength (line.toList.takeWhile isBlank))) := by
    intro text hquery
    rw [Command.eq_of_read_eq_query hquery]
    exact Formula.read_eq_mapError line
  refine ⟨fun φ => ⟨fun h => ?_, ?_⟩, hmoved, Formula.read_of_read_ne_query⟩
  · by_cases hquery : ∃ text, Command.read line = .query text
    · obtain ⟨text, hquery⟩ := hquery
      refine ⟨text, hquery, ?_⟩
      rw [hmoved text hquery] at h
      cases hread : Formula.read text with
      | error e => rw [hread] at h; cases h
      | ok ψ => rw [hread] at h; exact congrArg Except.ok (Except.ok.inj h)
    · rcases Formula.read_of_read_ne_query (not_exists.1 hquery) with ⟨-, herror⟩ | ⟨-, herror⟩
      all_goals
        rw [herror] at h
        cases h
  · rintro ⟨text, hquery, hread⟩
    rw [hmoved text hquery, hread]
    rfl

/-- Behind a wide space of three bytes, `p` and a letter that is no conjunct are left unread four bytes
further on than in the query; and a guess is no formula from its mark on. -/
theorem lines_read_as_formulas_wide_space :
    (Command.read "\u3000 p q\t" = .query "p q" ∧ Formula.read "p q" = .error (.unreadInput 2)
        ∧ Formula.read "\u3000 p q\t" = .error (.unreadInput 6))
      ∧ ((∀ text, Command.read " !guess p" ≠ .query text)
        ∧ Formula.read " !guess p" = .error (.unknownSymbol 1)) := by
  have hquery : Command.read "\u3000 p q\t" = .query "p q" := by decide
  have hp : Formula.IsItem ⟨.letter, ['p']⟩ := .inr ⟨'p', by decide, by decide, rfl⟩
  have hq : Formula.IsItem ⟨.letter, ['q']⟩ := .inr ⟨'q', by decide, by decide, rfl⟩
  have htokens : Formula.lexer.tokens "p q" = .ok [⟨.letter, ['p'], 0⟩, ⟨.letter, ['q'], 2⟩] :=
    @Formula.tokens_row ⟨.none, [⟨⟨.letter, ['p']⟩, .space⟩, ⟨⟨.letter, ['q']⟩, .none⟩]⟩
      (List.forall_mem_cons.2 ⟨hp, List.forall_mem_singleton.2 hq⟩)
  have hread : Formula.read "p q" = .error (.unreadInput 2) := by
    rw [Formula.read, htokens]
    rfl
  have hline := (lines_read_as_formulas "\u3000 p q\t").2.1 "p q" hquery
  rw [hread] at hline
  have hother : ∀ text, Command.read " !guess p" ≠ .query text := by
    intro text h
    have hguess : Command.read " !guess p" = .guess "p" := by decide
    rw [hguess] at h
    cases h
  refine ⟨⟨hquery, hread, hline⟩, hother, ?_⟩
  rcases (lines_read_as_formulas " !guess p").2.2 hother with ⟨hblank, -⟩ | ⟨-, herror⟩
  · exact absurd (hblank '!' (by decide)) (by decide)
  · exact herror

end FourWorlds
