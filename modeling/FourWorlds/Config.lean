import FourWorlds.Formula.Printer

/-! # Configuration

* `Setting`: a named value with a least and a greatest one; `Setting.set` changes the value within
  them.
* `Config`: the settings of a game, with their defaults. -/

namespace FourWorlds

variable {α : Type}

/-- A named value between two bounds. -/
structure Setting (α : Type) where
  /-- The name of the setting. -/
  name : String
  /-- The least value it may be set to. -/
  min : α
  /-- The greatest value it may be set to. -/
  max : α
  /-- The value it has. -/
  value : α
  deriving DecidableEq, Repr

/-- Why a setting could not be changed. -/
inductive SettingError where
  /-- The value is not between the bounds of the setting of this name. -/
  | outOfBounds (name : String)
  deriving DecidableEq, Repr

/-- The wording of an error. -/
def SettingError.message : SettingError → String
  | .outOfBounds name => s!"{name} is out of bounds"

/-- A setting with another value, if that is between its bounds. -/
def Setting.set [LE α] [DecidableLE α] (setting : Setting α) (value : α) :
    Except SettingError (Setting α) :=
  if setting.min ≤ value ∧ value ≤ setting.max then .ok { setting with value := value }
  else .error (.outOfBounds setting.name)

/-- The settings of a game. -/
structure Config where
  /-- How many queries and incorrect guesses are allowed on a frame. -/
  turns : Setting Nat := ⟨"turns", 1, 99, 10⟩
  /-- Whether a formula is written out before the answer to its query. -/
  echo : Setting Bool := ⟨"echo", false, true, false⟩
  /-- How formulas are written out. -/
  style : Notation := .unicode
  /-- The seed from which frames are picked; without one it comes from outside. -/
  seed : Option UInt64 := none
  deriving DecidableEq, Repr

namespace Config

instance : Inhabited Config := ⟨{}⟩

/-- The configuration with another number of turns, if that is allowed. -/
def setTurns (config : Config) (turns : Nat) : Except SettingError Config := do
  let setting ← config.turns.set turns
  return { config with turns := setting }

/-- The configuration with echo turned on or off. -/
def setEcho (config : Config) (echo : Bool) : Except SettingError Config := do
  let setting ← config.echo.set echo
  return { config with echo := setting }

end Config

end FourWorlds
