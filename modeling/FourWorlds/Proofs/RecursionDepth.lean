import FourWorlds.Proofs.CallStack
import FourWorlds.Proofs.NestingDepth

/-! # How deep the recursion goes

The readers of phrases call each other, and only that of terms looks at the depth. But every phrase
begins with a term, and what follows it is read one deeper only if the term was not refused; so no
call goes further than one below the last depth, whatever the text. Nor does the recursion on the
formula that is read: a connective of each tier stands at every depth at most, so that the formula
is about twice as high as its text is deep.

* `Call`, `Call.body`, `Call.outcome`: a call of a reader, what it does up to its own calls, and
  what comes of it.
* `reading`, `Call.cases_of_makes`, `Call.depth_le_of_stack`: reading as a recursion, how the depth
  goes on from a call to those that it makes, and how far.
* `Phrase.HeightWithin`, `Derives.heightWithin`: how high the formula of a phrase is, by the kind of
  phrase.
* `towerText`, `Formula.tower`: the texts of the highest formulas, and these.
* `recursion_is_bounded`: no text leads deeper, and one leads as deep. -/

namespace FourWorlds

/-! ## Calls of readers -/

/-- What comes of reading: a formula and the cursor behind it, or an error. -/
abbrev Reading := Except ParseError (Formula × Cursor FormulaKind)

/-- A call of the reader of a kind of phrase. -/
structure Call where
  /-- The kind of phrase. -/
  phrase : Phrase
  /-- The depth at which the phrase stands. -/
  depth : Nat
  /-- The cursor in front of the phrase. -/
  cursor : Cursor FormulaKind

namespace Body

variable {answer : Call → Reading} {q : Call}
  {next : Formula → Cursor FormulaKind → Body Call Reading}

/-- Calls a reader and goes on with the formula, or fails as it does. -/
def ask (q : Call) (next : Formula → Cursor FormulaKind → Body Call Reading) : Body Call Reading :=
  .call q fun
    | .error e => .done (.error e)
    | .ok (φ, c) => next φ c

/-- The result is that of what is done with the formula. -/
theorem run_ask (answer : Call → Reading) (q : Call)
    (next : Formula → Cursor FormulaKind → Body Call Reading) :
    (ask q next).run answer = answer q >>= fun (φ, c) => (next φ c).run answer := by
  rw [ask, run]
  rcases answer q with e | ⟨φ, c⟩ <;> rfl

/-- Further calls are made only if the first one gives a formula. -/
theorem mem_calls_ask_iff {q' : Call} : q' ∈ (ask q next).calls answer
    ↔ q' = q ∨ ∃ φ c, answer q = .ok (φ, c) ∧ q' ∈ (next φ c).calls answer := by
  rw [ask, calls_call, List.mem_cons]
  rcases answer q with e | ⟨φ, c⟩ <;> simp

end Body

/-- Below the last depth there is an error, whatever the tokens. -/
theorem FormulaReader.exists_tooDeep_eq_error (c : Cursor FormulaKind) :
    ∃ e, tooDeep c = .error e := by
  rw [tooDeep]
  rcases c.advance with _ | ⟨t, b⟩ <;> exact ⟨_, rfl⟩

namespace Call

/-- What is done to read a phrase of a tier: its operand, and if a connective of the tier follows,
the rest one deeper. -/
def chainBody (tier : Tier) (depth : Nat) (c : Cursor FormulaKind) : Body Call Reading :=
  .ask ⟨tier.operand, depth, c⟩ fun φ c =>
    match c.advanceWhen (·.kind.connective? tier) with
    | none => .done (.ok (φ, c))
    | some (k, c) => .ask ⟨tier.phrase, depth + 1, c⟩ fun ψ c => .done (.ok (.join k φ ψ, c))

/-- What is done to read a term: it is refused below the last depth, and its operand or the
expression in it is read one deeper. -/
def termBody (depth : Nat) (c : Cursor FormulaKind) : Body Call Reading :=
  match c.advance with
  | none => .done (.error .unexpectedEnd)
  | some (t, c) =>
    if maxDepth < depth then .done (.error (.tooDeep t.offset))
    else
      match t.kind with
      | .letter => .done (FormulaReader.letter t c)
      | .top => .done (.ok (.top, c))
      | .bottom => .done (.ok (.bottom, c))
      | .operator o => .ask ⟨.term, depth + 1, c⟩ fun φ c => .done (.ok (.apply o φ, c))
      | .opening => .ask ⟨.expression, depth + 1, c⟩ fun φ c =>
          let (found, c) := c.expect .closing
          .done (found.map fun _ => (φ, c))
      | .connective _ | .closing => .done (.error (.unexpectedSymbol t.offset))

/-- What is done in a call, up to its own calls. -/
def body : Call → Body Call Reading
  | ⟨.expression, depth, c⟩ => chainBody .loose depth c
  | ⟨.disjunct, depth, c⟩ => chainBody .tight depth c
  | ⟨.term, depth, c⟩ => termBody depth c

/-- What comes of a call: what the reader for the depths that are left gives. -/
def outcome (q : Call) : Reading := (Level.within (maxDepth + 1 - q.depth)).reader q.phrase q.cursor

/-- The call with which the reading of some tokens begins. -/
def first (tokens : List (Token FormulaKind)) : Call := ⟨.expression, 0, .ofTokens tokens⟩

variable {d : Nat} {c : Cursor FormulaKind} {q : Call}

/-- The body for a tier is that of its kind of phrase. -/
theorem body_phrase (tier : Tier) (d : Nat) (c : Cursor FormulaKind) :
    body ⟨tier.phrase, d, c⟩ = chainBody tier d c := by
  cases tier <;> rfl

/-! ### What the bodies do -/

/-- With its calls answered, the body for a tier is a chain. -/
theorem run_chainBody (answer : Call → Reading) (tier : Tier) (d : Nat) (c : Cursor FormulaKind) :
    (chainBody tier d c).run answer = FormulaReader.chain tier
      (fun c => answer ⟨tier.operand, d, c⟩) (fun c => answer ⟨tier.phrase, d + 1, c⟩) c := by
  rw [chainBody, Body.run_ask, FormulaReader.chain]
  refine bind_congr fun result => ?_
  obtain ⟨φ, b⟩ := result
  dsimp only
  generalize b.advanceWhen (fun t => t.kind.connective? tier) = found
  rcases found with _ | ⟨k, b'⟩
  · rfl
  · rw [Body.run_ask]
    rfl

/-- With its calls answered, the body for a term is a term reader down to the last depth. -/
theorem run_termBody (answer : Call → Reading) (hd : d ≤ maxDepth) (c : Cursor FormulaKind) :
    (termBody d c).run answer = FormulaReader.term
      (fun c => answer ⟨.term, d + 1, c⟩) (fun c => answer ⟨.expression, d + 1, c⟩) c := by
  rw [termBody, FormulaReader.term]
  rcases c.advance with _ | ⟨t, b⟩
  · rfl
  dsimp only
  rw [if_neg (Nat.not_lt.2 hd)]
  cases t.kind with
  | letter | top | bottom | connective | closing => rfl
  | operator o =>
      dsimp only
      rw [Body.run_ask]
      rfl
  | opening =>
      dsimp only
      rw [Body.run_ask]
      refine bind_congr fun result => ?_
      obtain ⟨φ, b'⟩ := result
      dsimp only
      rcases b'.expect .closing with ⟨_ | u, b''⟩ <;> rfl

/-- Below the last depth the body for a term refuses it. -/
theorem run_termBody_of_lt (answer : Call → Reading) (hd : maxDepth < d) (c : Cursor FormulaKind) :
    (termBody d c).run answer = FormulaReader.tooDeep c := by
  rw [termBody, FormulaReader.tooDeep]
  rcases c.advance with _ | ⟨t, b⟩
  · rfl
  · dsimp only
    rw [if_pos hd]
    rfl

/-! ### What comes of the calls -/

/-- Below the last depth every call is refused at its first term. -/
theorem outcome_of_lt (hd : maxDepth < q.depth) : q.outcome = FormulaReader.tooDeep q.cursor := by
  rw [outcome, Nat.sub_eq_zero_of_le hd, Level.within, Level.reader_refusing]

/-- A formula is read down to the last depth alone. -/
theorem depth_le_of_outcome {φ : Formula} (h : q.outcome = .ok (φ, c)) : q.depth ≤ maxDepth := by
  by_contra hd
  rw [outcome_of_lt (Nat.not_le.1 hd)] at h
  exact FormulaReader.tooDeep_ne_ok _ _ h

/-- One depth further down there is one depth less left. -/
theorem depths_eq (hd : d ≤ maxDepth) : maxDepth + 1 - d = maxDepth + 1 - (d + 1) + 1 := by
  omega

/-- What comes of reading a phrase of a tier. -/
theorem outcome_phrase (tier : Tier) (d : Nat) (c : Cursor FormulaKind) :
    outcome ⟨tier.phrase, d, c⟩ = FormulaReader.chain tier
      (fun c => outcome ⟨tier.operand, d, c⟩) (fun c => outcome ⟨tier.phrase, d + 1, c⟩) c := by
  by_cases hd : d ≤ maxDepth
  · simp only [outcome]
    rw [depths_eq hd, Level.reader_phrase]
  · -- The operand is refused in the same way.
    have hd := Nat.not_le.1 hd
    obtain ⟨e, he⟩ := FormulaReader.exists_tooDeep_eq_error c
    rw [outcome_of_lt hd, he]
    exact (FormulaReader.chain_eq_error_of_head ((outcome_of_lt hd).trans he)).symm

/-- What comes of reading a term. -/
theorem outcome_term (hd : d ≤ maxDepth) (c : Cursor FormulaKind) :
    outcome ⟨.term, d, c⟩ = FormulaReader.term
      (fun c => outcome ⟨.term, d + 1, c⟩) (fun c => outcome ⟨.expression, d + 1, c⟩) c := by
  simp only [outcome]
  rw [depths_eq hd]
  rfl

/-- **What comes of a call is what its body gives.** -/
theorem outcome_eq_run_body (q : Call) : q.outcome = q.body.run outcome := by
  have hphrase : ∀ (tier : Tier) d c,
      outcome ⟨tier.phrase, d, c⟩ = (body ⟨tier.phrase, d, c⟩).run outcome := by
    intro tier d c
    rw [body_phrase, run_chainBody, outcome_phrase]
  obtain ⟨p, d, c⟩ := q
  cases p with
  | expression => exact hphrase .loose d c
  | disjunct => exact hphrase .tight d c
  | term =>
      by_cases hd : d ≤ maxDepth
      · rw [body, run_termBody _ hd, outcome_term hd]
      · rw [body, run_termBody_of_lt _ (Nat.not_le.1 hd), outcome_of_lt (Nat.not_le.1 hd)]

end Call

/-- Reading as a recursion. -/
def reading : Recursion Call Reading := ⟨Call.body, Call.outcome, Call.outcome_eq_run_body⟩

/-! ### How far the depth goes on -/

/-- How many more of the calls at one depth may be open. -/
def Phrase.rank : Phrase → Nat
  | .expression => 2
  | .disjunct => 1
  | .term => 0

/-- An operand leaves fewer calls to be opened at its depth than the phrase. -/
theorem Tier.rank_operand_lt (tier : Tier) : tier.operand.rank < tier.phrase.rank := by
  cases tier <;> decide

namespace Call

variable {d : Nat} {c : Cursor FormulaKind} {q q' : Call}

/-- A phrase of a tier calls for its operand, and behind that for the rest one deeper, as the
operand was not refused. -/
theorem cases_of_mem_chainBody (tier : Tier) (h : q' ∈ (chainBody tier d c).calls outcome) :
    q'.depth = d ∧ q'.phrase.rank < tier.phrase.rank ∨ d ≤ maxDepth ∧ q'.depth = d + 1 := by
  rcases Body.mem_calls_ask_iff.1 h with rfl | ⟨φ, b, hφ, h⟩
  · exact .inl ⟨rfl, tier.rank_operand_lt⟩
  · generalize b.advanceWhen (fun t => t.kind.connective? tier) = found at h
    rcases found with _ | ⟨k, b'⟩
    · cases h
    · rcases Body.mem_calls_ask_iff.1 h with rfl | ⟨ψ, b'', -, h⟩
      · exact .inr ⟨depth_le_of_outcome hφ, rfl⟩
      · cases h

/-- A term calls for what is in it one deeper, if it is not refused. -/
theorem depth_of_mem_termBody (h : q' ∈ (termBody d c).calls outcome) :
    d ≤ maxDepth ∧ q'.depth = d + 1 := by
  rw [termBody] at h
  rcases hadvance : c.advance with _ | ⟨t, b⟩
  · rw [hadvance] at h
    cases h
  rw [hadvance] at h
  dsimp only at h
  by_cases hd : maxDepth < d
  · rw [if_pos hd] at h
    cases h
  refine ⟨Nat.not_lt.1 hd, ?_⟩
  rw [if_neg hd] at h
  cases hkind : t.kind with
  | letter | top | bottom | connective | closing =>
      rw [hkind] at h
      cases h
  | operator | opening =>
      rw [hkind] at h
      rcases Body.mem_calls_ask_iff.1 h with rfl | ⟨φ, b', -, h⟩
      · rfl
      · cases h

/-- **A call makes others at its own depth for tighter phrases, or at the next depth**, and the
latter only down to the last depth. -/
theorem cases_of_makes (h : reading.Makes q q') :
    q'.depth = q.depth ∧ q'.phrase.rank < q.phrase.rank
      ∨ q.depth ≤ maxDepth ∧ q'.depth = q.depth + 1 := by
  obtain ⟨p, d, c⟩ := q
  cases p with
  | expression => exact cases_of_mem_chainBody .loose h
  | disjunct => exact cases_of_mem_chainBody .tight h
  | term => exact .inr (depth_of_mem_termBody h)

/-- How many more calls may be open below a call: three at every depth that is left. -/
def room (q : Call) : Nat := 3 * (maxDepth + 1 - q.depth) + q.phrase.rank

/-- A call leaves less room to those that it makes. -/
theorem room_lt (h : reading.Makes q q') : q'.room < q.room := by
  have hrank : q'.phrase.rank ≤ 2 := by cases q'.phrase <;> decide
  rw [room, room]
  rcases cases_of_makes h with ⟨hdepth, hphrase⟩ | ⟨hle, hdepth⟩ <;> omega

/-- **No call goes further than one below the last depth**, unless the first one does. -/
theorem depth_le_of_stack {stack : List Call} (h : reading.Stack q stack)
    (hq : q.depth ≤ maxDepth + 1) : ∀ q' ∈ stack, q'.depth ≤ maxDepth + 1 := by
  refine h.cons_induction (fun q => q.depth ≤ maxDepth + 1) _ (fun q q' hmakes hle => ?_) hq
  rcases cases_of_makes hmakes with ⟨hdepth, -⟩ | ⟨hmax, hdepth⟩ <;> omega

end Call

/-! ## The height of what is read -/

variable {limit d : ℕ} {p : Phrase} {ts tokens : List (Token FormulaKind)} {φ : Formula}

/-- How high a formula may be if it was read as a phrase of a kind at some depth with no term deeper
than a limit. A term that is higher than an atom leaves a depth to spare, a disjunct may use it up
for a tight connective, and an expression may have a loose one besides. -/
def Phrase.HeightWithin (limit d : Nat) (φ : Formula) : Phrase → Prop
  | .expression => φ.height + 2 * d ≤ 2 * limit + 1
  | .disjunct => φ.height + 2 * d ≤ 2 * limit
  | .term => φ.height = 0 ∨ φ.height + 2 * d < 2 * limit

/-- **The formula of a phrase is at most twice as high as there are depths left**, but for a loose
connective. -/
theorem Derives.heightWithin (h : Derives limit p d ts φ) : p.HeightWithin limit d φ := by
  induction h with
  | ofDisjunct _ ih => exact Nat.le_succ_of_le ih
  | loose _ _ _ _ ihφ ihψ =>
      simp only [Phrase.HeightWithin, Formula.height] at ihφ ihψ ⊢
      omega
  | ofTerm hφ ih =>
      have hd := Nat.cast_le.1 hφ.depth_le
      simp only [Phrase.HeightWithin] at ih ⊢
      omega
  | tight _ _ _ hψ ihφ ihψ =>
      -- What follows the connective stands one deeper, so there is a depth left for an atom.
      have hd := Nat.cast_le.1 hψ.depth_le
      simp only [Phrase.HeightWithin, Formula.height] at ihφ ihψ ⊢
      omega
  | atom | top | bottom => exact .inl rfl
  | operator _ _ hφ ih =>
      have hd := Nat.cast_le.1 hφ.depth_le
      simp only [Phrase.HeightWithin, Formula.height] at ih ⊢
      omega
  | parenthesised _ _ _ _ ih =>
      simp only [Phrase.HeightWithin] at ih ⊢
      omega

/-- **A formula is at most one higher than twice the depth of its text.** -/
theorem Formula.height_le_of_derives (h : Derives limit .expression 0 ts φ) :
    φ.height ≤ 2 * limit + 1 :=
  h.heightWithin

/-- A formula that is read is at most one higher than twice the last depth. -/
theorem Formula.height_le_of_read {text : String} (h : read text = .ok φ) :
    φ.height ≤ 2 * maxDepth + 1 := by
  obtain ⟨tokens, -, hderives⟩ := (read_eq_ok_iff_derives.1 text φ).1 h
  exact height_le_of_derives hderives

/-! ## The highest formulas -/

/-- The text `(… (~p & p -> p) & p -> p …) & p -> p` with a number of parentheses. -/
def towerText : Nat → String
  | 0 => "~p & p -> p"
  | n + 1 => "(" ++ towerText n ++ ") & p -> p"

namespace Formula

/-- The formula `φ ∧ p → p`. -/
def storey (φ : Formula) : Formula := implies (and φ (atom .p)) (atom .p)

/-- The formula that is spelt by `(… (~p & p -> p) & p -> p …) & p -> p` with a number of
parentheses. -/
def tower : Nat → Formula
  | 0 => storey (not (atom .p))
  | n + 1 => storey (tower n)

/-- The symbols behind the first part of a storey. -/
def storeySymbols : List Symbol := [.connective .and, .atom .p, .connective .implies, .atom .p]

/-- The symbols of the text of a tower. -/
def towerSymbols : Nat → List Symbol
  | 0 => .operator .not :: .atom .p :: storeySymbols
  | n + 1 => .opening :: (towerSymbols n ++ .closing :: storeySymbols)

/-- A storey is two higher than its first part. -/
theorem height_storey (φ : Formula) : φ.storey.height = φ.height + 2 := by
  simp [storey, height]

/-- A tower is two higher with each parenthesis. -/
theorem height_tower (n : Nat) : (tower n).height = 2 * n + 3 := by
  induction n with
  | zero => rfl
  | succ n ih => rw [tower, height_storey, ih]; omega

/-- The text consists of its symbols. -/
theorem toList_towerText (n : Nat) : (towerText n).toList
    = (towerSymbols n).flatMap fun x => (Notation.ascii.spelling x).toList := by
  induction n with
  | zero => rfl
  | succ n ih =>
      rw [towerText, String.toList_append, String.toList_append, ih, towerSymbols,
        List.flatMap_cons, List.flatMap_append, ← List.append_assoc]
      rfl

/-- A storey is read from its first part and what stands behind it. -/
theorem derives_storey (hφ : Derives limit .term d ts φ) (hd : d + 1 ≤ limit)
    (hview : tokens.map Token.view = storeySymbols.map Symbol.view) :
    Derives limit .expression d (ts ++ tokens) φ.storey := by
  obtain ⟨t, us, rfl, ht, hview⟩ := List.map_eq_cons_iff.1 hview
  obtain ⟨u, us, rfl, hu, hview⟩ := List.map_eq_cons_iff.1 hview
  obtain ⟨v, us, rfl, hv, hview⟩ := List.map_eq_cons_iff.1 hview
  obtain ⟨w, us, rfl, hw, hview⟩ := List.map_eq_cons_iff.1 hview
  obtain rfl := List.map_eq_nil_iff.1 hview
  -- Both atoms stand behind a connective, one deeper than the first part.
  have hand : Derives limit .disjunct d (ts ++ t :: [u]) (and φ (atom .p)) :=
    .tight hφ (Token.kind_eq_of_view_eq ht) (.inl rfl) (.ofTerm (.atom_of_view_eq hd hu))
  have himplies := hand.loose (Token.kind_eq_of_view_eq hv) (.inl rfl)
    (.of_term (.atom_of_view_eq hd hw))
  rwa [List.append_assoc] at himplies

/-- **A tower is read from its text**, one deeper with each parenthesis. -/
theorem derives_tower {n : Nat}
    (h : tokens.map Token.view = (towerSymbols n).map Symbol.view) (hd : d + n < limit) :
    Derives limit .expression d tokens (tower n) := by
  induction n generalizing tokens d with
  | zero =>
      obtain ⟨t, ts, rfl, ht, hts⟩ := List.map_eq_cons_iff.1 h
      obtain ⟨u, us, rfl, hu, hus⟩ := List.map_eq_cons_iff.1 hts
      have hnot : Derives limit .term d [t, u] (not (atom .p)) :=
        .operator (Nat.cast_le.2 (by omega)) (Token.kind_eq_of_view_eq ht)
          (.atom_of_view_eq hd hu)
      exact derives_storey hnot hd hus
  | succ n ih =>
      obtain ⟨t, ts, rfl, ht, hts⟩ := List.map_eq_cons_iff.1 h
      rw [List.map_append] at hts
      obtain ⟨us, vs, rfl, hus, hvs⟩ := List.map_eq_append_iff.1 hts
      obtain ⟨v, ws, rfl, hv, hws⟩ := List.map_eq_cons_iff.1 hvs
      have hinner : Derives limit .term d (t :: (us ++ [v])) (tower n) :=
        .parenthesised (Nat.cast_le.2 (by omega)) (Token.kind_eq_of_view_eq ht)
          (ih hus (by omega)) (Token.kind_eq_of_view_eq hv)
      have hstorey := derives_storey hinner (by omega) hws
      rwa [List.cons_append, List.append_assoc] at hstorey

/-- The tokens of the text of a tower are those from which the grammar derives it. -/
theorem exists_tokens_towerText (n : Nat) :
    ∃ tokens, lexer.tokens (towerText n) = .ok tokens
      ∧ Derives (n + 1 : ℕ) .expression 0 tokens (tower n) := by
  obtain ⟨tokens, htokens, hview⟩ := exists_tokens_of_toList_eq .ascii (toList_towerText n)
  exact ⟨tokens, htokens, derives_tower hview (by omega)⟩

/-- A tower is read from its text, unless it has too many parentheses. -/
theorem read_towerText {n : Nat} (hn : n < maxDepth) : read (towerText n) = .ok (tower n) := by
  obtain ⟨tokens, htokens, hderives⟩ := exists_tokens_towerText n
  exact (read_eq_ok_iff_of_tokens htokens).2 (hderives.mono (Nat.cast_le.2 hn))

end Formula

/-- **Recursion is bounded, whatever is read.** What comes of the calls of readers is the one thing
that agrees with their bodies, and the tokens of a text are read by a first call at depth zero. No
call that is made below it stands deeper than 1025, and no more than 3077 are open there at a time.
A formula that is read has at most the height 2049, which is the length of its longest paths; so no
more than 2049 calls are open at a time below the first when its truth is found, when its atoms are
collected or when it is written. Some text is read as a formula of that height. -/
theorem recursion_is_bounded :
    (∀ f : Call → Reading, (∀ q : Call, f q = q.body.run f) ↔ f = Call.outcome)
      ∧ (∀ (text : String) (tokens : List (Token FormulaKind)),
        Formula.lexer.tokens text = .ok tokens → tokens ≠ [] →
        (Formula.read text = do
          let (φ, rest) ← (Call.first tokens).outcome
          rest.finish
          return φ)
        ∧ ∀ stack, reading.Stack (.first tokens) stack →
          stack.length ≤ 3077 ∧ ∀ q ∈ Call.first tokens :: stack, q.depth ≤ 1025)
      ∧ (∀ (text : String) (φ : Formula), Formula.read text = .ok φ → φ.height ≤ 2 * 1024 + 1
        ∧ (∀ M w stack, (Model.satisfaction M).Stack (w, φ) stack → stack.length ≤ 2049)
        ∧ (∀ S stack, Formula.collection.Stack (φ, S) stack → stack.length ≤ 2049)
        ∧ ∀ nested row stack, Formula.writing.Stack (φ, nested, row) stack → stack.length ≤ 2049)
      ∧ (∃ text φ, Formula.read text = .ok φ ∧ φ.height = 2 * 1024 + 1)
      ∧ ∀ φ : Formula, IsGreatest {n | ∃ path, φ.IsPath path ∧ path.length = n} φ.height := by
  refine ⟨fun f => ⟨?_, ?_⟩, fun text tokens htokens hne => ⟨?_, fun stack hstack => ⟨?_, ?_⟩⟩,
    fun text φ hread => ?_, ?_, Formula.isGreatest_height⟩
  · exact fun hf => reading.eq_value Call.room (fun _ _ => Call.room_lt) hf
  · rintro rfl
    exact Call.outcome_eq_run_body
  · rw [Formula.read, htokens]
    exact Formula.ofTokens_of_ne_nil hne
  · exact reading.length_le_of_stack Call.room (fun _ _ => Call.room_lt) hstack
  · have hfirst : (Call.first tokens).depth ≤ maxDepth + 1 := Nat.zero_le _
    exact List.forall_mem_cons.2 ⟨hfirst, Call.depth_le_of_stack hstack hfirst⟩
  · have hheight := Formula.height_le_of_read hread
    refine ⟨hheight, fun M w stack hstack => ?_, fun S stack hstack => ?_,
      fun nested row stack hstack => ?_⟩
    · exact (M.satisfaction_onParts.length_le_height hstack).trans hheight
    · exact (Formula.collection_onParts.length_le_height hstack).trans hheight
    · exact (Formula.writing_onParts.length_le_height hstack).trans hheight
  · exact ⟨towerText 1023, .tower 1023, Formula.read_towerText (by decide),
      Formula.height_tower 1023⟩

/-- The text of the tower with 1023 parentheses is read within the bounds as that formula, whose
first part is looked at in all three recursions on it. -/
theorem recursion_is_bounded_tower :
    (∃ tokens, Formula.lexer.tokens (towerText 1023) = .ok tokens ∧ tokens ≠ []
        ∧ let stack : List Call := [⟨.disjunct, 0, .ofTokens tokens⟩, ⟨.term, 0, .ofTokens tokens⟩]
          reading.Stack (.first tokens) stack
            ∧ stack.length ≤ 3077 ∧ ∀ q ∈ Call.first tokens :: stack, q.depth ≤ 1025)
      ∧ Formula.read (towerText 1023) = .ok (.tower 1023)
      ∧ (Formula.tower 1023).height ≤ 2 * 1024 + 1
      ∧ let part := Formula.and (.tower 1022) (.atom .p)
        ((Model.satisfaction ⟨.empty, .empty⟩).Stack (.a, .tower 1023) [(.a, part)]
          ∧ [(World.a, part)].length ≤ 2049)
        ∧ (Formula.collection.Stack (.tower 1023, ∅) [(part, ∅)]
          ∧ [(part, (∅ : Finset Atom))].length ≤ 2049)
        ∧ Formula.writing.Stack (.tower 1023, false, []) [(part, true, [])]
          ∧ [(part, true, ([] : List Symbol))].length ≤ 2049 := by
  obtain ⟨-, hreading, hformula, -⟩ := recursion_is_bounded
  obtain ⟨tokens, htokens, hderives⟩ := Formula.exists_tokens_towerText 1023
  have hread := Formula.read_towerText (n := 1023) (by decide)
  obtain ⟨-, hcalls⟩ := hreading _ tokens htokens hderives.ne_nil
  obtain ⟨hheight, hsatisfaction, hcollection, hwriting⟩ := hformula _ _ hread
  have hstack : reading.Stack (.first tokens)
      [⟨.disjunct, 0, .ofTokens tokens⟩, ⟨.term, 0, .ofTokens tokens⟩] :=
    List.isChain_cons_cons.2 ⟨List.mem_cons_self, List.isChain_pair.2 List.mem_cons_self⟩
  refine ⟨⟨tokens, htokens, hderives.ne_nil, hstack, hcalls _ hstack⟩, hread, hheight, ?_⟩
  intro part
  have htruth : (Model.satisfaction ⟨.empty, .empty⟩).Stack (.a, .tower 1023) [(.a, part)] :=
    List.isChain_pair.2 List.mem_cons_self
  have hatoms : Formula.collection.Stack (.tower 1023, ∅) [(part, ∅)] :=
    List.isChain_pair.2 List.mem_cons_self
  have hsymbols : Formula.writing.Stack (.tower 1023, false, []) [(part, true, [])] :=
    List.isChain_pair.2 List.mem_cons_self
  exact ⟨⟨htruth, hsatisfaction _ _ _ htruth⟩, ⟨hatoms, hcollection _ _ hatoms⟩,
    hsymbols, hwriting _ _ _ hsymbols⟩

end FourWorlds
