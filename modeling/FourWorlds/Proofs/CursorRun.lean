import FourWorlds.Proofs.Cursor
import Mathlib.Data.List.Forall2

/-! # Runs of a cursor

A cursor as a machine: what can be asked of it, what is answered, and runs of any length. Whatever is
asked, and in whatever order, the tokens are consumed from the front of the sequence, one at a time,
none of them twice and none passed over. What is answered depends on the whole sequence and on the
position alone.

* `Cursor.behind`: the cursor behind a number of tokens of a sequence.
* `Cursor.Step`, `Cursor.Answer`, `Cursor.move`: one thing asked of a cursor, what is answered, and the
  cursor after it.
* `Cursor.Step.answer`, `Cursor.Step.consumes`: what is to be answered, and whether the next token is
  to be consumed; `Cursor.move_fst`, `Cursor.passes_move`: so it is at every step.
* `Cursor.Answer.Shows`: the token consumed in a step, as its answer shows.
* `Cursor.run`, `Cursor.exists_shows_run`: a run of steps, and the tokens consumed in it.
* `cursor_consumes_in_order`: where a cursor is after a run, what was consumed, and what comes of one
  more step. -/

namespace FourWorlds

namespace Cursor

variable {κ : Type}

/-! ## Positions -/

/-- The cursor behind a number of tokens of a sequence. -/
def behind (tokens : List (Token κ)) (position : Nat) : Cursor κ :=
  ⟨(tokens.take position).reverse, tokens.drop position⟩

variable {c d : Cursor κ} {ts : List (Token κ)}

/-- A cursor is behind as many tokens of its sequence as its position tells. -/
theorem behind_position (c : Cursor κ) : behind c.tokens c.position = c := by
  obtain ⟨passed, unread⟩ := c
  simp [behind, tokens, position]

/-- Passing over tokens does not change the sequence. -/
theorem Passes.tokens_eq (h : c.Passes ts d) : d.tokens = c.tokens := by
  rw [tokens, tokens, h.1, h.2]
  simp

/-- The position counts the tokens passed over. -/
theorem Passes.position_eq (h : c.Passes ts d) : d.position = c.position + ts.length := by
  rw [position, position, h.2]
  simp [Nat.add_comm]

/-- The next token is the one at the position. -/
theorem peek?_eq (c : Cursor κ) : c.peek? = c.tokens[c.position]? := by
  rw [tokens, position, List.getElem?_append_right (by simp), peek?]
  simp [List.head?_eq_getElem?]

/-- It is the whole sequence of which a cursor tells whether it is empty. -/
theorem isEmpty_eq (c : Cursor κ) : c.isEmpty = c.tokens.isEmpty := by
  rw [isEmpty, tokens, Bool.eq_iff_iff]
  simp

/-! ## Single steps -/

/-- What can be asked of a cursor. -/
inductive Step (κ : Type) where
  /-- To tell whether the whole sequence is empty. -/
  | isEmpty
  /-- To show the next token. -/
  | peek
  /-- To read the next token. -/
  | advance
  /-- To read the next token if it is of one of some kinds. -/
  | advanceIf (kinds : List κ)
  /-- To read the next token, which is required to be of a kind. -/
  | expect (kind : κ)
  /-- To require that every token has been read. -/
  | finish

/-- What comes of a step. -/
inductive Answer (κ : Type) where
  /-- Whether the sequence is empty is told. -/
  | told (isEmpty : Bool)
  /-- The next token is shown, if there is one. -/
  | shown (next : Option (Token κ))
  /-- A token is read, or none. -/
  | read (found : Option (Token κ))
  /-- The required token is read, or the requirement is not met. -/
  | required (result : Except ParseError (Token κ))
  /-- Every token has been read, or not. -/
  | finished (result : Except ParseError Unit)

/-- A reading as an answer. The cursor stays where it is if nothing was read. -/
def settle (c : Cursor κ) : Option (Token κ × Cursor κ) → Answer κ × Cursor κ
  | none => (.read none, c)
  | some (t, d) => (.read (some t), d)

variable [DecidableEq κ]

/-- What comes of a step, and the cursor after it. -/
def move (c : Cursor κ) : Step κ → Answer κ × Cursor κ
  | .isEmpty => (.told c.isEmpty, c)
  | .peek => (.shown c.peek?, c)
  | .advance => c.settle c.advance
  | .advanceIf kinds => c.settle (c.advanceIf kinds)
  | .expect kind => (.required (c.expect kind).1, (c.expect kind).2)
  | .finish => (.finished c.finish, c)

namespace Step

/-- What is to be answered to a step, for a sequence that is empty or not and the next token of it. -/
def answer (isEmpty : Bool) (next : Option (Token κ)) : Step κ → Answer κ
  | .isEmpty => .told isEmpty
  | peek => .shown next
  | advance => .read next
  | advanceIf kinds => .read (next.filter (·.kind ∈ kinds))
  | expect kind => .required <|
    match next with
    | none => .error .unexpectedEnd
    | some t => if t.kind = kind then .ok t else .error (.unexpectedSymbol t.offset)
  | finish => .finished <|
    match next with
    | none => .ok ()
    | some t => .error (.unreadInput t.offset)

/-- Whether a step is to consume the next token. -/
def consumes : Step κ → Token κ → Bool
  | isEmpty, _ | peek, _ | finish, _ => false
  | advance, _ | expect _, _ => true
  | advanceIf kinds, next => next.kind ∈ kinds

end Step

/-- A conditional step in front of a token reads it if it is of one of the kinds. -/
theorem move_advanceIf (passed rest : List (Token κ)) (t : Token κ) (kinds : List κ) :
    move ⟨passed, t :: rest⟩ (.advanceIf kinds) = if t.kind ∈ kinds
      then (.read (some t), ⟨t :: passed, rest⟩) else (.read none, ⟨passed, t :: rest⟩) := by
  by_cases hkind : t.kind ∈ kinds <;> simp [move, advanceIf, advanceWhen, advance, settle, hkind]

/-- **Every step is answered** by the next token, or by the whole sequence. -/
theorem move_fst (c : Cursor κ) (step : Step κ) :
    (c.move step).1 = step.answer c.isEmpty c.peek? := by
  obtain ⟨passed, _ | ⟨t, rest⟩⟩ := c
  · cases step <;> rfl
  · cases step with
    | isEmpty | peek | advance | finish | expect => rfl
    | advanceIf kinds =>
        rw [move_advanceIf, peek?, List.head?_cons, Step.answer, Option.filter_some]
        by_cases hkind : t.kind ∈ kinds <;> simp [hkind]

/-- **Every step passes over the token that it is to consume**, and over no other. -/
theorem passes_move (c : Cursor κ) (step : Step κ) :
    c.Passes (c.peek?.filter step.consumes).toList (c.move step).2 := by
  obtain ⟨passed, _ | ⟨t, rest⟩⟩ := c
  · cases step <;> exact passes_nil_iff.2 rfl
  · cases step with
    | isEmpty | peek | finish => exact passes_nil_iff.2 rfl
    | advance | expect => exact ⟨rfl, rfl⟩
    | advanceIf kinds =>
        rw [move_advanceIf, peek?, List.head?_cons, Option.filter_some, Step.consumes]
        by_cases hkind : t.kind ∈ kinds <;> simp [hkind, Passes]

/-- A step moves the cursor by one token, or not at all. -/
theorem position_move (c : Cursor κ) (step : Step κ) : (c.move step).2.position
    = c.position + if c.peek?.any step.consumes then 1 else 0 := by
  rw [(passes_move c step).position_eq]
  cases c.peek? with
  | none => rfl
  | some t =>
      rw [Option.filter_some, Option.any_some]
      cases step.consumes t <;> rfl

/-! ## What is consumed -/

/-- **The token consumed in a step, as its answer shows**: one that is read, or one that is not of the
required kind and whose offset is told, and otherwise none. -/
inductive Answer.Shows : Answer κ → Option (Token κ) → Prop
  /-- The whole sequence is looked at. -/
  | told (isEmpty : Bool) : Shows (.told isEmpty) none
  /-- The next token is looked at. -/
  | shown (next : Option (Token κ)) : Shows (.shown next) none
  /-- What is read is consumed. -/
  | read (found : Option (Token κ)) : Shows (.read found) found
  /-- The required token is consumed. -/
  | required (t : Token κ) : Shows (.required (.ok t)) (some t)
  /-- So is a token of another kind. -/
  | refused (t : Token κ) : Shows (.required (.error (.unexpectedSymbol t.offset))) (some t)
  /-- Behind the last token there is none to consume. -/
  | ended : Shows (.required (.error .unexpectedEnd)) none
  /-- The end is looked for. -/
  | finished (result : Except ParseError Unit) : Shows (.finished result) none

/-- **The answer to a step shows the token that is to be consumed**, if one is. -/
theorem Step.shows_answer (isEmpty : Bool) (next : Option (Token κ)) (step : Step κ) :
    (step.answer isEmpty next).Shows (next.filter step.consumes) := by
  cases step with
  | isEmpty => cases next <;> exact .told _
  | peek => cases next <;> exact .shown _
  | finish => cases next <;> exact .finished _
  | advance => cases next <;> exact .read _
  | advanceIf kinds => exact .read _
  | expect kind =>
      cases next with
      | none => exact .ended
      | some t =>
          by_cases hkind : t.kind = kind
          · rw [answer, if_pos hkind]
            exact .required t
          · rw [answer, if_neg hkind]
            exact .refused t

/-! ## Runs -/

/-- What comes of some steps, one after another, and the cursor after the last. -/
def run (c : Cursor κ) : List (Step κ) → List (Answer κ) × Cursor κ
  | [] => ([], c)
  | step :: steps =>
    ((c.move step).1 :: ((c.move step).2.run steps).1, ((c.move step).2.run steps).2)

/-- **A run passes over the tokens that its answers show**, and over no others. -/
theorem exists_shows_run (c : Cursor κ) (steps : List (Step κ)) :
    ∃ consumed, List.Forall₂ Answer.Shows (c.run steps).1 consumed
      ∧ c.Passes (consumed.filterMap id) (c.run steps).2 := by
  induction steps generalizing c with
  | nil => exact ⟨[], .nil, passes_nil_iff.2 rfl⟩
  | cons step steps ih =>
      obtain ⟨consumed, hshows, hpasses⟩ := ih (c.move step).2
      refine ⟨c.peek?.filter step.consumes :: consumed, .cons ?_ hshows, ?_⟩
      · rw [move_fst]
        exact step.shows_answer _ _
      · have hsplit : (c.peek?.filter step.consumes :: consumed).filterMap id
            = (c.peek?.filter step.consumes).toList ++ consumed.filterMap id := by
          cases c.peek?.filter step.consumes <;> rfl
        rw [hsplit]
        exact passes_append_iff.2 ⟨(c.move step).2, passes_move c step, hpasses⟩

end Cursor

/-- **A cursor consumes its tokens in order.** After a run of any steps it is behind as many tokens of
its sequence as its position tells, and there are as many. These are the tokens that were consumed, as
the answers show: each that was read, and each that was not of a required kind. One more step is
answered by the next token, or by the whole sequence, and moves the cursor over this token if it is to
consume it, and else not at all. The cursor is finished exactly if every token has been consumed. -/
theorem cursor_consumes_in_order {κ : Type} [DecidableEq κ] (tokens : List (Token κ))
    (steps : List (Cursor.Step κ)) :
    let answers := ((Cursor.ofTokens tokens).run steps).1
    let c := ((Cursor.ofTokens tokens).run steps).2
    c = Cursor.behind tokens c.position ∧ c.position ≤ tokens.length
      ∧ (∃ consumed, List.Forall₂ Cursor.Answer.Shows answers consumed
        ∧ consumed.filterMap id = tokens.take c.position)
      ∧ (∀ step : Cursor.Step κ, c.move step = (step.answer tokens.isEmpty tokens[c.position]?,
        Cursor.behind tokens
          (c.position + if tokens[c.position]?.any step.consumes then 1 else 0)))
      ∧ (c.finish = .ok () ↔ c.position = tokens.length) := by
  intro answers c
  obtain ⟨consumed, hshows, hpasses⟩ := (Cursor.ofTokens tokens).exists_shows_run steps
  have htokens : c.tokens = tokens := hpasses.tokens_eq
  have hposition : c.position = (consumed.filterMap id).length :=
    hpasses.position_eq.trans (Nat.zero_add _)
  have hsplit : tokens = consumed.filterMap id ++ c.unread := hpasses.1
  have hlength := congrArg List.length hsplit
  rw [List.length_append, ← hposition] at hlength
  refine ⟨?_, by omega, ⟨consumed, hshows, ?_⟩, fun step => Prod.ext ?_ ?_, ?_⟩
  · rw [← htokens, Cursor.behind_position]
  · rw [hposition]
    exact List.prefix_iff_eq_take.1 ⟨c.unread, hsplit.symm⟩
  · rw [c.move_fst, c.isEmpty_eq, c.peek?_eq, htokens]
  · rw [← Cursor.behind_position (c.move step).2, (c.passes_move step).tokens_eq, c.position_move,
      c.peek?_eq, htokens]
  · rw [Cursor.finish_eq_ok_iff, ← List.length_eq_zero_iff]
    omega

/-- A token of another kind than required is consumed all the same, and behind the last token nothing
is left to read. -/
example : ((Cursor.ofTokens [⟨'x', ['x'], 0⟩, ⟨'y', ['y'], 1⟩]).run
      [.expect 'y', .advanceIf ['x'], .finish, .advance, .advance, .finish]).1
    = [.required (.error (.unexpectedSymbol 0)), .read none, .finished (.error (.unreadInput 1)),
      .read (some ⟨'y', ['y'], 1⟩), .read none, .finished (.ok ())] := rfl

end FourWorlds
