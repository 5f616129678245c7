import FourWorlds.CommandLine.Number
import FourWorlds.Config

/-! # Options of the command line

* `Options`: what the arguments may set; `Options.config` is the configuration they ask for.
* `Parameter`, `Switch`: the options that take a value, and those that take none.
* `Options.assign`, `Options.turnOn`: setting one of them. -/

namespace FourWorlds

/-- What the arguments may set. -/
structure Options where
  /-- The number of turns on a frame. -/
  turns : Nat := (default : Config).turns.value
  /-- The seed from which frames are picked. -/
  seed : Option UInt64 := none
  /-- Whether formulas are written out. -/
  echo : Bool := false
  /-- How formulas are written out. -/
  style : Notation := .unicode
  /-- Whether a reference of the arguments is asked for instead of a game. -/
  markdownHelp : Bool := false
  deriving DecidableEq, Repr, Inhabited

/-- The configuration that the options ask for. -/
def Options.config (options : Options) : Except SettingError Config := do
  let config ← Config.setTurns {} options.turns
  let echo := { config.echo with value := options.echo }
  return { config with echo := echo, style := options.style, seed := options.seed }

/-- An option that takes a value. -/
inductive Parameter where
  /-- The number of turns. -/
  | turns
  /-- The seed. -/
  | seed
  /-- The notation. -/
  | style
  deriving DecidableEq, Repr

/-- An option that takes no value. -/
inductive Switch where
  /-- Formulas are written out. -/
  | echo
  /-- A reference of the arguments is asked for. -/
  | markdownHelp
  deriving DecidableEq, Repr

/-- The options with a parameter set to the value written in a text, if it is a value of that
parameter. -/
def Options.assign (options : Options) (text : List Char) : Parameter → Option Options
  | .turns => do
    let n ← signedOf? text
    if n < UInt32.size then some { options with turns := n } else none
  | .seed => do
    let n ← unsignedOf? text
    if n < UInt64.size then some { options with seed := some (.ofNat n) } else none
  | .style => do
    let style ← Notation.ofName? (.ofList text)
    some { options with style := style }

/-- The options with a switch turned on. -/
def Options.turnOn (options : Options) : Switch → Options
  | .echo => { options with echo := true }
  | .markdownHelp => { options with markdownHelp := true }

end FourWorlds
