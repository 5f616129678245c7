import FourWorlds.CommandLine.Help
import FourWorlds.CommandLine.Lines
import FourWorlds.CommandLine.Request
import FourWorlds.CommandLine.Session

/-! # Runs of the program

* `Plan`: what the arguments lead to, a text and an exit status or a game; `Plan.ofArguments`.
* `Config.session`: the output of a session.
* `run`: the output and the exit status for some arguments and a whole input. -/

namespace FourWorlds

/-- What the arguments lead to. -/
inductive Plan where
  /-- Nothing is played. -/
  | stop (status : Nat) (output : String)
  /-- A session with a configuration. -/
  | play (config : Config)

/-- What a request leads to. -/
def Request.plan : Request → Plan
  | refused => .stop 2 ""
  | shortHelp => .stop 0 (textOfLines shortHelpLines)
  | longHelp => .stop 0 (textOfLines longHelpLines)
  | version => .stop 0 (textOfLines versionLines)
  | run options =>
    if options.markdownHelp then .stop 0 (textOfLines markdownHelpLines)
    else match options.config with
      | .ok config => .play config
      | .error _ => .stop 1 (turnsOutOfBounds (default : Config).turns)

/-- What the arguments lead to. -/
def Plan.ofArguments (arguments : List String) : Plan := (Request.ofArguments arguments).plan

/-- The words from which the frames of a session are picked: those of the seed of the configuration,
or of one from outside if it has none. -/
def Config.words (config : Config) (fallback : UInt64) : WordStream :=
  .ofSeed (config.seed.getD fallback)

/-- The text of some messages. -/
def textOfMessages (messages : List Message) : String := String.join (messages.map Message.text)

/-- The output of a session with some words and a whole input. -/
def Config.session (config : Config) (words : WordStream) (input : List UInt8) : String :=
  textOfMessages ((Game.start config words).transcript (readableLines input))

/-- The exit status and the output for some arguments and an input, with a seed for a session whose
arguments give none. -/
def run (arguments : List String) (input : List UInt8) (fallback : UInt64) : Nat × String :=
  match Plan.ofArguments arguments with
  | .stop status output => (status, output)
  | .play config => (0, config.session (config.words fallback) input)

end FourWorlds
