import FourWorlds.Formula

/-! # Writing formulas

A formula is written as a row of symbols, with every joined formula inside another one between
parentheses. Each of three notations spells the symbols in its own way.

* `Symbol`: the symbols; `Formula.symbols`: the row of a formula.
* `Notation.spelling`: a symbol spelt in a notation.
* `Formula.text`: a formula written in a notation. -/

namespace FourWorlds

/-- A symbol of a written formula. -/
inductive Symbol where
  /-- An atom. -/
  | atom (x : Atom)
  /-- The constant that is true everywhere. -/
  | top
  /-- The constant that is true nowhere. -/
  | bottom
  /-- A prefix operator. -/
  | operator (o : Operator)
  /-- A binary connective. -/
  | connective (c : Connective)
  /-- An opening parenthesis. -/
  | opening
  /-- A closing parenthesis. -/
  | closing
  deriving DecidableEq, Repr

namespace Formula

/-- The symbols of a formula that stands inside another one, in front of further symbols. -/
def nestedSymbols : Formula → List Symbol → List Symbol
  | top, rest => .top :: rest
  | bottom, rest => .bottom :: rest
  | atom x, rest => .atom x :: rest
  | apply o φ, rest => .operator o :: φ.nestedSymbols rest
  | join c φ ψ, rest =>
    .opening :: φ.nestedSymbols (.connective c :: ψ.nestedSymbols (.closing :: rest))

/-- The symbols of a formula, without parentheses around the whole. -/
def symbols : Formula → List Symbol
  | join c φ ψ => φ.nestedSymbols (.connective c :: ψ.nestedSymbols [])
  | φ => φ.nestedSymbols []

end Formula

/-- A way of writing formulas. -/
inductive Notation where
  /-- ASCII symbols, such as `[]p -> <>p`. -/
  | ascii
  /-- Unicode symbols, such as `□p → ⋄p`. -/
  | unicode
  /-- LaTeX commands, such as `\Box p \to \Diamond p`. -/
  | latex
  deriving DecidableEq, Repr, Inhabited

namespace Notation

/-- The name of a notation. -/
def name : Notation → String
  | ascii => "ascii"
  | unicode => "unicode"
  | latex => "latex"

/-- The notation with a name, if there is one. -/
def ofName? (name : String) : Option Notation := [ascii, unicode, latex].find? (·.name = name)

/-- A symbol spelt in ASCII, with the blanks that belong around it. -/
def asciiSpelling : Symbol → String
  | .atom x => x.letter.toString
  | .top => "T"
  | .bottom => "F"
  | .operator .not => "~"
  | .operator .box => "[]"
  | .operator .diamond => "<>"
  | .connective .and => " & "
  | .connective .or => " | "
  | .connective .implies => " -> "
  | .connective .iff => " <-> "
  | .opening => "("
  | .closing => ")"

/-- A symbol spelt in Unicode, with the blanks that belong around it. -/
def unicodeSpelling : Symbol → String
  | .atom x => x.letter.toString
  | .top => "⊤"
  | .bottom => "⊥"
  | .operator .not => "¬"
  | .operator .box => "□"
  | .operator .diamond => "⋄"
  | .connective .and => " ∧ "
  | .connective .or => " ∨ "
  | .connective .implies => " → "
  | .connective .iff => " ↔ "
  | .opening => "("
  | .closing => ")"

/-- A symbol spelt in LaTeX, with the blanks that belong around it. -/
def latexSpelling : Symbol → String
  | .atom x => x.letter.toString
  | .top => "\\top"
  | .bottom => "\\bot"
  | .operator .not => "\\neg "
  | .operator .box => "\\Box "
  | .operator .diamond => "\\Diamond "
  | .connective .and => " \\wedge "
  | .connective .or => " \\vee "
  | .connective .implies => " \\to "
  | .connective .iff => " \\leftrightarrow "
  | .opening => "\\left("
  | .closing => "\\right)"

/-- A symbol spelt in a notation. -/
def spelling : Notation → Symbol → String
  | ascii => asciiSpelling
  | unicode => unicodeSpelling
  | latex => latexSpelling

end Notation

/-- A formula written in a notation. -/
def Formula.text (style : Notation) (φ : Formula) : String :=
  String.join (φ.symbols.map style.spelling)

end FourWorlds
