import FourWorlds.Frame
import FourWorlds.Text.Lexer

/-! # The tokens of frames

* `FrameKind`: the kinds of token in the text of a frame.
* `Frame.lexer`: their spellings. Any lowercase ASCII letter is read as a letter, whether or not it
  is a world. -/

namespace FourWorlds

/-- A kind of token in a frame. -/
inductive FrameKind where
  /-- A letter, which may be a world. -/
  | letter
  /-- The sign between two related worlds. -/
  | relator
  /-- The sign between two relations. -/
  | separator
  deriving DecidableEq, Repr

namespace Frame

/-- The spellings of the tokens of a frame. -/
def spellings : List (FrameKind × List String) :=
  [(.relator, ["R", "<", "≺", "\\prec"]), (.separator, [","])]

/-- The lexer of frames. -/
def lexer : Lexer FrameKind :=
  .ofTable spellings fun c => if c.isLower then some .letter else none

end Frame

end FourWorlds
