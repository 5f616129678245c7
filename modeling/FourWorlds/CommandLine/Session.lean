import FourWorlds.CommandLine.Command
import FourWorlds.Frame.Graph
import FourWorlds.Game

/-! # Sessions

A session is a game played line by line. Each line is obeyed; if that leaves no turn, the game is
over and the next one begins; then the number of turns left is shown and the next line is awaited.

* `Message`: what a player is told; `Message.text` words it.
* `Game.obey`, `Game.settle`, `Game.answer`: the messages for a command, for a game without turns
  left, and for a whole line, each with the game after it.
* `transcript`: all messages of a session. -/

namespace FourWorlds

/-- What a player is told. -/
inductive Message where
  /-- How to ask for help. -/
  | hint
  /-- That a frame with a number of relations is hidden. -/
  | created (relations : Nat)
  /-- How many turns are left. -/
  | prompt (remaining : Nat)
  /-- The list of commands. -/
  | commands
  /-- A frame: its id and its relations. -/
  | frame (F : Frame)
  /-- A frame as a graph. -/
  | graph (F : Frame)
  /-- A formula, written in a notation. -/
  | formula (style : Notation) (φ : Formula)
  /-- The answer to a query. -/
  | queried (report : QueryReport)
  /-- The answer to a guess. -/
  | guessed (report : GuessReport)
  /-- That the text of a query is not a formula. -/
  | noFormula (e : ParseError)
  /-- That the text of a guess is not a frame. -/
  | noFrame (e : ParseError)
  /-- That no turn is left. -/
  | gameOver
  deriving DecidableEq

/-! ### Wording -/

/-- A colour of the terminal. -/
inductive Colour where
  /-- The colour of a bad answer. -/
  | red
  /-- The colour of a good answer. -/
  | green
  /-- The colour of an answer in between. -/
  | yellow
  deriving DecidableEq, Repr

/-- The number of a colour. -/
def Colour.number : Colour → Nat
  | red => 9
  | green => 10
  | yellow => 11

/-- A text between the codes that turn a colour on and off again. -/
def Colour.paint (colour : Colour) (text : String) : String :=
  s!"\x1b[38;5;{colour.number}m" ++ text ++ "\x1b[39m"

/-- The colour of the answer to a query. -/
def QueryReport.colour : QueryReport → Colour
  | valid => .green
  | validIn _ => .yellow
  | invalid => .red

/-- The colour of the answer to a guess. -/
def GuessReport.colour : GuessReport → Colour
  | correct _ => .green
  | incorrect => .red

namespace Message

/-- The lines of a frame: its id, and then each relation. -/
def frameLines (F : Frame) : List String :=
  s!"id: {F.id.val}" :: F.relations.map fun r => s!"{r.source.letter} ==> {r.target.letter}"

/-- The lines that explain the commands. -/
def commandLines : List String :=
  ["<formula> ... check if the formula is valid in the frame",
    "!guess <frame> ... guess the frame",
    "!reset ... abandon this frame and start over",
    "!show ... see the frame (CHEAT)",
    "!dot ... see the frame as a graphviz graph (CHEAT)",
    "!help ... show this",
    "!exit ... bye bye"]

/-- The lines of a message, the prompt apart, which is not a whole line. -/
def lines : Message → List String
  | hint => ["Run !help for available commands."]
  | created relations =>
    [s!"A new Kripke frame is created! It has 4 worlds and {relations} relations."]
  | prompt _ => []
  | commands => commandLines
  | frame F => frameLines F
  | graph F => [F.graph.dot]
  | formula style φ => [φ.text style]
  | queried report => [report.colour.paint report.message]
  | guessed report => [report.colour.paint report.message]
  | noFormula e => [s!"invalid formula: {e.message}", "example: Mp -> LMp"]
  | noFrame e => [s!"invalid frame expression: {e.message}", "example: aRa, aRb, bRb"]
  | gameOver => ["game over!"]

/-- The text of a message. The prompt is left open for the player to type after it. -/
def text : Message → String
  | prompt remaining => s!"[{remaining}] "
  | message => String.join (message.lines.map (· ++ "\n"))

end Message

/-! ### Play -/

namespace Game

/-- The message that a frame is hidden. -/
def announcement (game : Game) : Message := .created game.hidden.size

/-- The messages with which a session begins. -/
def opening (game : Game) : List Message :=
  [.hint, game.announcement, .prompt game.remaining]

/-- Asks about the formula of a text. -/
def obeyQuery (game : Game) (text : String) : List Message × Game :=
  match Formula.read text with
  | .error e => ([.noFormula e], game)
  | .ok φ =>
    let (report, next) := game.query φ
    (if game.config.echo.value then [.formula game.config.style φ, .queried report]
      else [.queried report], next)

/-- Guesses the frame of a text. -/
def obeyGuess (game : Game) (text : String) : List Message × Game :=
  match game.guessText text with
  | ⟨.error e, next⟩ => ([.noFrame e], next)
  | ⟨.ok (.correct solved), next⟩ =>
    ([.guessed (.correct solved), .frame solved, next.announcement], next)
  | ⟨.ok .incorrect, next⟩ => ([.guessed .incorrect], next)

/-- Obeys a command other than the one to leave, for which there is nothing to do. -/
def obey (game : Game) : Command → List Message × Game
  | .guess text => game.obeyGuess text
  | .reset => ([game.reset.announcement], game.reset)
  | .reveal => ([.frame game.hidden], game)
  | .graph => ([.graph game.hidden], game)
  | .help => ([.commands], game)
  | .query text => game.obeyQuery text
  | .leave | .nothing => ([], game)

/-- Ends a game without turns left, and begins the next one. -/
def settle (game : Game) : List Message × Game :=
  if game.exhausted then
    ([.gameOver, .frame game.hidden, game.reset.announcement], game.reset)
  else ([], game)

/-- The messages for a line and the game at the prompt after it, unless the player leaves. -/
def answer (game : Game) (line : String) : Option (List Message × Game) :=
  match Command.read line with
  | .leave => none
  | command =>
    let (told, next) := game.obey command
    let (settled, next) := next.settle
    some (told ++ settled ++ [.prompt next.remaining], next)

/-- The messages for some lines. -/
def answers (game : Game) : List String → List Message
  | [] => []
  | line :: rest =>
    match game.answer line with
    | none => []
    | some (messages, next) => messages ++ next.answers rest

/-- All messages of a session with some lines. -/
def transcript (game : Game) (lines : List String) : List Message :=
  game.opening ++ game.answers lines

end Game

end FourWorlds
