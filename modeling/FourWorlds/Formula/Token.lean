import FourWorlds.Formula
import FourWorlds.Text.Lexer

/-! # The tokens of formulas

* `FormulaKind`: the kinds of token in a formula.
* `Formula.lexer`: their spellings. Any lowercase ASCII letter without a spelling of its own is read
  as a letter, whether or not it is an atom. -/

namespace FourWorlds

/-- A kind of token in a formula. -/
inductive FormulaKind where
  /-- A letter, which may be an atom. -/
  | letter
  /-- The constant that is true everywhere. -/
  | top
  /-- The constant that is true nowhere. -/
  | bottom
  /-- A prefix operator. -/
  | operator (o : Operator)
  /-- A binary connective. -/
  | connective (c : Connective)
  /-- An opening parenthesis. -/
  | opening
  /-- A closing parenthesis. -/
  | closing
  deriving DecidableEq, Repr

namespace Formula

/-- The spellings of the tokens of a formula. -/
def spellings : List (FormulaKind × List String) :=
  [(.top, ["T", "⊤", "1", "\\top"]),
    (.bottom, ["F", "⊥", "0", "\\bot"]),
    (.operator .not, ["~", "¬", "\\neg", "\\lnot"]),
    (.operator .box, ["[]", "□", "L", "\\Box"]),
    (.operator .diamond, ["<>", "⋄", "◇", "M", "\\Diamond"]),
    (.connective .and, ["&", "^", "∧", "\\wedge", "\\land"]),
    (.connective .or, ["|", "v", "∨", "\\vee", "\\lor"]),
    (.connective .implies, ["->", "→", "\\rightarrow", "\\to", "\\implies"]),
    (.connective .iff, ["<->", "↔", "\\leftrightarrow", "\\iff"]),
    (.opening, ["(", "\\left("]),
    (.closing, [")", "\\right)"])]

/-- The lexer of formulas. -/
def lexer : Lexer FormulaKind :=
  .ofTable spellings fun c => if c.isLower then some .letter else none

end Formula

end FourWorlds
