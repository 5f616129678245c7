import FourWorlds.CommandLine.Run

/-! # The program

The outer layer of the program: it reads lines from standard input as they come, prints what is said
to each, and leaves with the exit status that the arguments call for. -/

namespace FourWorlds

/-- The bytes of the next line of standard input, with its line feed, if there is one. -/
partial def nextLine (input : IO.FS.Stream) (seen : List UInt8) : IO (List UInt8) := do
  let byte ← input.read 1
  match byte.toList with
  | [] => return seen.reverse
  | b :: _ => if b = 10 then return (b :: seen).reverse else nextLine input (b :: seen)

/-- Prints messages and sees to it that they appear. -/
def tell (messages : List Message) : IO Unit := do
  let output ← IO.getStdout
  output.putStr (textOfMessages messages)
  output.flush

/-- Plays a game line by line, up to the end of the input or the line that ends the session. -/
partial def playLines (input : IO.FS.Stream) (game : Game) : IO Unit := do
  let bytes ← nextLine input []
  match (readableLines bytes).head? with
  | none => return
  | some line =>
    match game.answer line with
    | none => return
    | some (messages, next) =>
      tell messages
      playLines input next

end FourWorlds

/-- The program. -/
def main (arguments : List String) : IO UInt32 := do
  match FourWorlds.Plan.ofArguments arguments with
  | .stop status output =>
    (← IO.getStdout).putStr output
    return status.toUInt32
  | .play config =>
    let entropy ← IO.getRandomBytes 8
    let fallback := entropy.toList.foldl (fun seed byte => seed * 256 + byte.toUInt64) 0
    let game := FourWorlds.Game.start config (config.words fallback)
    FourWorlds.tell game.opening
    FourWorlds.playLines (← IO.getStdin) game
    return 0
