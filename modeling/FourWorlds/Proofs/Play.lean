import FourWorlds.Game
import FourWorlds.Proofs.Lexer
import Mathlib.Data.List.DropRight

/-! # Moves of a game

A game as a machine: what can be asked of it, what comes of it, and runs of any length. A query is
answered and a guess is judged; a text that cannot be read is refused and leaves the game as it was.

* `Move`, `Reply`, `Game.move`: one thing asked of a game, what is told, and the game after it.
* `Move.Asks`, `Move.Guesses`: the moves about a formula or a frame, by itself or in a text.
* `Game.play`: a run of moves, with all replies and the game after the last move.
* `Game.Effect`, `Game.effect_move`: all that a move can do to a game.
* `turnsUsed`: the turns used since the hidden frame was last replaced. -/

namespace FourWorlds

/-! ## Single moves -/

/-- What can be asked of a game. -/
inductive Move where
  /-- To answer the query of a formula. -/
  | query (φ : Formula)
  /-- To answer the query of the formula in a text. -/
  | queryText (text : String)
  /-- To judge the guess of a frame. -/
  | guess (F : Frame)
  /-- To judge the guess of the frame in a text. -/
  | guessText (text : String)
  /-- To hide another frame. -/
  | reset
  deriving DecidableEq

namespace Move

/-- The move asks about a formula, by itself or in a text that can be read. -/
def Asks (φ : Formula) : Move → Prop
  | query ψ => ψ = φ
  | queryText text => Formula.read text = .ok φ
  | guess _ | guessText _ | reset => False

/-- The move guesses a frame, by itself or in a text that can be read. -/
def Guesses (F : Frame) : Move → Prop
  | guess G => G = F
  | guessText text => Frame.read text = .ok F
  | query _ | queryText _ | reset => False

/-- The text `T` asks about the constant that is true everywhere. -/
theorem asks_top : Asks .top (.queryText "T") := by
  have htokens : Formula.lexer.tokens "T" = .ok [⟨.top, ['T'], 0⟩] :=
    @Lexer.tokens_eq_ok_singleton FormulaKind _ ⟨.top, ['T']⟩ "T" rfl
      (forall_head?_not_isBlank (by decide)) (by decide +kernel)
  show Formula.read "T" = .ok .top
  rw [Formula.read, htokens]
  rfl

end Move

/-- What comes of a move. -/
inductive Reply where
  /-- The query is answered. -/
  | answered (report : QueryReport)
  /-- The guess is judged. -/
  | judged (report : GuessReport)
  /-- The text cannot be read. -/
  | refused (e : ParseError)
  /-- Another frame is hidden, the one shown. -/
  | replaced (hidden : Frame)
  deriving DecidableEq

namespace Reply

/-- Whether a turn is used: by every query answered, and by every incorrect guess. -/
def usesTurn : Reply → Bool
  | answered _ | judged .incorrect => true
  | judged (.correct _) | refused _ | replaced _ => false

/-- Whether a guess was correct. -/
def isCorrect : Reply → Bool
  | judged (.correct _) => true
  | answered _ | judged .incorrect | refused _ | replaced _ => false

/-- Whether all turns are given back: by a reset, and by a correct guess. -/
def renews : Reply → Bool
  | judged (.correct _) | replaced _ => true
  | answered _ | judged .incorrect | refused _ => false

end Reply

namespace Attempt

variable {ρ : Type} (told : ρ → Reply)

/-- What comes of an attempt, with what is told of a report, and the game after it. -/
def reply (attempt : Attempt ρ) : Reply × Game :=
  match attempt.outcome with
  | .ok report => (told report, attempt.after)
  | .error e => (.refused e, attempt.after)

/-- What comes of a text that can be read is what comes of its turn. -/
@[simp] theorem reply_ofTurn (turn : ρ × Game) : (ofTurn turn).reply told = (told turn.1, turn.2) :=
  rfl

/-- A text that cannot be read is refused. -/
@[simp] theorem reply_error (e : ParseError) (game : Game) :
    (⟨.error e, game⟩ : Attempt ρ).reply told = (.refused e, game) := rfl

end Attempt

namespace Game

/-- What comes of a move, and the game after it. -/
def move (game : Game) : Move → Reply × Game
  | .query φ => (.answered (game.query φ).1, (game.query φ).2)
  | .queryText text => (game.queryText text).reply .answered
  | .guess F => (.judged (game.guess F).1, (game.guess F).2)
  | .guessText text => (game.guessText text).reply .judged
  | .reset => (.replaced game.reset.hidden, game.reset)

/-- The query of a text is that of its formula, if it is that of one. -/
theorem move_queryText (game : Game) (text : String) : game.move (.queryText text)
    = match Formula.read text with
      | .ok φ => game.move (.query φ)
      | .error e => (.refused e, game) := by
  rw [move, queryText]
  cases Formula.read text with
  | error e => exact Attempt.reply_error _ e game
  | ok φ =>
      show _ = game.move (.query φ)
      rw [move]
      exact Attempt.reply_ofTurn _ (game.query φ)

/-- The guess of a text is that of its frame, if it is that of one. -/
theorem move_guessText (game : Game) (text : String) : game.move (.guessText text)
    = match Frame.read text with
      | .ok F => game.move (.guess F)
      | .error e => (.refused e, game) := by
  rw [move, guessText]
  cases Frame.read text with
  | error e => exact Attempt.reply_error _ e game
  | ok F =>
      show _ = game.move (.guess F)
      rw [move]
      exact Attempt.reply_ofTurn _ (game.guess F)

/-- A text is a query of the formula it is read as. -/
theorem move_of_asks {game : Game} {m : Move} {φ : Formula} (h : m.Asks φ) :
    game.move m = game.move (.query φ) := by
  cases m with
  | query ψ => exact congrArg (fun φ => game.move (.query φ)) h
  | queryText text =>
      have hread : Formula.read text = .ok φ := h
      rw [move_queryText, hread]
  | guess | guessText | reset => exact h.elim

/-- A text is a guess of the frame it is read as. -/
theorem move_of_guesses {game : Game} {m : Move} {F : Frame} (h : m.Guesses F) :
    game.move m = game.move (.guess F) := by
  cases m with
  | guess G => exact congrArg (fun F => game.move (.guess F)) h
  | guessText text =>
      have hread : Frame.read text = .ok F := h
      rw [move_guessText, hread]
  | query | queryText | reset => exact h.elim

/-- **All that a move can do to a game.** -/
inductive Effect (game : Game) : Move → Reply → Game → Prop
  /-- A query uses a turn. -/
  | answered {m} (report : QueryReport) : m ≠ .reset → Effect game m (.answered report) game.useTurn
  /-- An incorrect guess uses a turn. -/
  | missed {m} : m ≠ .reset → Effect game m (.judged .incorrect) game.useTurn
  /-- A correct guess shows the hidden frame and hides another one. -/
  | found {m} : m ≠ .reset → Effect game m (.judged (.correct game.hidden)) game.reset
  /-- A text that cannot be read changes nothing. -/
  | refused {m} (e : ParseError) : m ≠ .reset → Effect game m (.refused e) game
  /-- A reset hides another frame. -/
  | replaced : Effect game .reset (.replaced game.reset.hidden) game.reset

/-- A guess is correct exactly if the two frames have equivalent ids. -/
theorem guess_eq (game : Game) (F : Frame) : game.guess F
    = if equivalent F.id game.hidden.id then (.correct game.hidden, game.reset)
      else (.incorrect, game.useTurn) := by
  rw [guess]

/-- The guess of a frame is judged. -/
theorem effect_guess (game : Game) (F : Frame) {m : Move} (hm : m ≠ .reset) :
    game.Effect m (game.move (.guess F)).1 (game.move (.guess F)).2 := by
  rw [move, guess_eq]
  by_cases h : equivalent F.id game.hidden.id
  · rw [if_pos h]
    exact .found hm
  · rw [if_neg h]
    exact .missed hm

/-- **Every move has one of these effects.** -/
theorem effect_move (game : Game) (m : Move) : game.Effect m (game.move m).1 (game.move m).2 := by
  cases m with
  | query φ => exact .answered _ nofun
  | queryText text =>
      rw [move_queryText]
      cases Formula.read text with
      | ok φ => exact .answered _ nofun
      | error e => exact .refused e nofun
  | guess F => exact game.effect_guess F nofun
  | guessText text =>
      rw [move_guessText]
      cases Frame.read text with
      | ok F => exact game.effect_guess F nofun
      | error e => exact .refused e nofun
  | reset => exact .replaced

/-! ## Runs -/

/-- What comes of some moves, one after another, and the game after the last. -/
def play (game : Game) : List Move → List Reply × Game
  | [] => ([], game)
  | m :: moves =>
    ((game.move m).1 :: ((game.move m).2.play moves).1, ((game.move m).2.play moves).2)

/-- The last move of a run is made in the game after the others. -/
theorem play_append_singleton (game : Game) (moves : List Move) (m : Move) :
    game.play (moves ++ [m]) = ((game.play moves).1 ++ [((game.play moves).2.move m).1],
      ((game.play moves).2.move m).2) := by
  induction moves generalizing game with
  | nil => rfl
  | cons m' moves ih => simp only [List.cons_append, play, ih]

/-- **What every move keeps is so after every run**, of the moves made, the replies and the game. -/
theorem play_induction {P : List Move → List Reply → Game → Prop} (game : Game) (hnil : P [] [] game)
    (hmove : ∀ moves replies before m reply after, P moves replies before →
      before.Effect m reply after → P (moves ++ [m]) (replies ++ [reply]) after)
    (moves : List Move) : P moves (game.play moves).1 (game.play moves).2 := by
  induction moves using List.reverseRecOn with
  | nil => exact hnil
  | append_singleton moves m ih =>
      rw [play_append_singleton]
      exact hmove _ _ _ _ _ _ ih (effect_move _ m)

end Game

/-! ## Turns used -/

/-- The number of turns used since all turns were last given back. -/
def turnsUsed (replies : List Reply) : Nat :=
  (replies.rtakeWhile fun reply => !reply.renews).countP (·.usesTurn)

/-- No turn is used before the first reply. -/
@[simp] theorem turnsUsed_nil : turnsUsed [] = 0 := rfl

/-- A reply that gives all turns back begins the count anew; any other one counts if it uses a
turn. -/
@[simp] theorem turnsUsed_append_singleton (replies : List Reply) (reply : Reply) :
    turnsUsed (replies ++ [reply])
      = if reply.renews then 0 else turnsUsed replies + if reply.usesTurn then 1 else 0 := by
  rw [turnsUsed, List.rtakeWhile_concat]
  by_cases hrenews : reply.renews
  · simp [hrenews]
  · simp [hrenews, turnsUsed, List.countP_append, List.countP_singleton]

end FourWorlds
