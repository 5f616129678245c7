import FourWorlds.Text.Blank

/-! # Commands

A line that a player types is a command word after an exclamation mark, or else a formula to ask
about. Blanks around the line do not matter.

* `Command`: what a line may ask for; `Command.read` reads a line. -/

namespace FourWorlds

/-- What a line asks for. -/
inductive Command where
  /-- A guess of the frame written in the text. -/
  | guess (text : String)
  /-- Another frame. -/
  | reset
  /-- The hidden frame. -/
  | reveal
  /-- The hidden frame as a graph. -/
  | graph
  /-- The list of commands. -/
  | help
  /-- The end of the game. -/
  | leave
  /-- A query about the formula written in the text. -/
  | query (text : String)
  /-- Nothing. -/
  | nothing
  deriving DecidableEq, Repr

namespace Command

/-- The words of the commands that need no text. What follows such a word is ignored. -/
def words : List (List Char × Command) :=
  [("!reset".toList, reset), ("!show".toList, reveal), ("!dot".toList, graph),
    ("!help".toList, help), ("!exit".toList, leave)]

/-- The word of a guess, which is followed by the text of a frame. -/
def guessWord : List Char := "!guess".toList

/-- What a line without blanks around it asks for. -/
def ofTrimmed (text : List Char) : Command :=
  if text = [] then nothing
  else if guessWord.isPrefixOf text then guess (.ofList (trim (text.drop guessWord.length)))
  else match words.find? fun (word, _) => word.isPrefixOf text with
    | some (_, command) => command
    | none => query (.ofList text)

/-- What a line asks for. -/
def read (line : String) : Command := ofTrimmed (trim line.toList)

end Command

end FourWorlds
