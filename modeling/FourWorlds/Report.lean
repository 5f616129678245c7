import FourWorlds.Frame

/-! # Reports

What a player is told after a turn.

* `QueryReport`: how many worlds a formula is valid at, in three cases.
* `GuessReport`: whether a guess was right, and then which frame was hidden. -/

namespace FourWorlds

/-- The answer to a query. -/
inductive QueryReport where
  /-- The formula is valid at every world. -/
  | valid
  /-- The formula is valid at some worlds, and not at all of them. -/
  | validIn (worlds : Nat)
  /-- The formula is valid at no world. -/
  | invalid
  deriving DecidableEq, Repr

namespace QueryReport

/-- The answer for a formula that is valid at a number of worlds. -/
def ofCount (worlds : Nat) : QueryReport :=
  if worlds = 0 then invalid
  else if worlds < World.all.length then validIn worlds
  else valid

/-- The wording of an answer. -/
def message : QueryReport → String
  | valid => "valid!"
  | validIn worlds =>
    if worlds = 1 then "valid in 1 world, invalid in the rest."
    else s!"valid in {worlds} worlds, invalid in the rest."
  | invalid => "invalid."

end QueryReport

/-- The answer to a guess. -/
inductive GuessReport where
  /-- The guess is the hidden frame up to relabelling, and that frame is shown. -/
  | correct (solved : Frame)
  /-- The guess is another frame. -/
  | incorrect
  deriving DecidableEq

/-- The wording of an answer. -/
def GuessReport.message : GuessReport → String
  | .correct _ => "correct! congratulations!!"
  | .incorrect => "incorrect."

end FourWorlds
