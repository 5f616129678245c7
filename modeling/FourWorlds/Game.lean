import FourWorlds.Config
import FourWorlds.Formula.Reader
import FourWorlds.Frame.Reader
import FourWorlds.Orbit
import FourWorlds.Random.WordStream
import FourWorlds.Report
import FourWorlds.Validity

/-! # The game

A game hides a frame, one for each orbit being equally likely, and allows a number of turns to find
it. A query tells at how many worlds of the hidden frame a formula is valid. A guess tells whether a
frame is the hidden one up to relabelling. Queries and incorrect guesses use a turn; a correct guess
hides another frame and gives all turns back.

* `Game.start`, `Game.reset`: a new game, and a game with another frame hidden.
* `Game.query`, `Game.guess`: the two kinds of turn; `Game.queryText`, `Game.guessText` read the
  formula or the frame first.
* `Attempt`: what comes of a text, which may not be one, and the game after it in either case.
* `Game.exhausted`: whether no turn is left. -/

namespace FourWorlds

/-- A game. -/
structure Game where
  /-- The settings, which never change. -/
  config : Config
  /-- The words from which frames are picked. -/
  words : WordStream
  /-- The hidden frame. -/
  hidden : Frame
  /-- The number of turns left. -/
  remaining : Nat

/-- What comes of a text: a report, or what is wrong with the text, and the game after it. -/
structure Attempt (ρ : Type) where
  /-- The report, or what is wrong with the text. -/
  outcome : Except ParseError ρ
  /-- The game after the text. -/
  after : Game

namespace Attempt

variable {ρ : Type}

/-- The attempt with a text that can be read, with the turn that it stands for. -/
def ofTurn (turn : ρ × Game) : Attempt ρ := ⟨.ok turn.1, turn.2⟩

/-- An attempt as a turn, for those who keep their own game when a text cannot be read. -/
instance : Coe (Attempt ρ) (Except ParseError (ρ × Game)) where
  coe attempt := attempt.outcome.map (·, attempt.after)

end Attempt

namespace Game

/-- The frame picked from the canonical ones, and the words left. -/
def pickFrame (words : WordStream) : Frame × WordStream :=
  let (id, rest) := words.pick canonicalIds
  ((id.map Frame.ofId).getD .empty, rest)

/-- A game in which the next frame is hidden and all turns are left. -/
def start (config : Config) (words : WordStream) : Game :=
  let (hidden, rest) := pickFrame words
  ⟨config, rest, hidden, config.turns.value⟩

/-- The game with the next frame hidden and all turns left. -/
def reset (game : Game) : Game := start game.config game.words

/-- Whether no turn is left. -/
def exhausted (game : Game) : Bool := game.remaining = 0

/-- The game with one turn less, if there is one. -/
def useTurn (game : Game) : Game := { game with remaining := game.remaining - 1 }

/-- Asks at how many worlds of the hidden frame a formula is valid. -/
def query (game : Game) (φ : Formula) : QueryReport × Game :=
  (.ofCount (game.hidden.validWorlds φ).length, game.useTurn)

/-- Asks about the formula of a text. -/
def queryText (game : Game) (text : String) : Attempt QueryReport :=
  match Formula.read text with
  | .error e => ⟨.error e, game⟩
  | .ok φ => .ofTurn (game.query φ)

/-- Guesses that a frame is the hidden one. -/
def guess (game : Game) (F : Frame) : GuessReport × Game :=
  if equivalent F.id game.hidden.id then (.correct game.hidden, game.reset)
  else (.incorrect, game.useTurn)

/-- Guesses the frame of a text. -/
def guessText (game : Game) (text : String) : Attempt GuessReport :=
  match Frame.read text with
  | .error e => ⟨.error e, game⟩
  | .ok F => .ofTurn (game.guess F)

end Game

end FourWorlds
