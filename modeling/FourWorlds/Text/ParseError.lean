/-! # Errors in a text

What can be wrong with the text of a formula or of a frame. Where something is wrong is given as a
byte offset into the text. -/

namespace FourWorlds

/-- Why a text could not be read. -/
inductive ParseError where
  /-- The text is blank. -/
  | blank
  /-- No token is spelt at the offset. -/
  | unknownSymbol (offset : Nat)
  /-- A letter stands in place of an atom, and is none. -/
  | unknownAtom (letter : Char) (offset : Nat)
  /-- A letter stands in place of a world, and is none. -/
  | unknownWorld (letter : Char) (offset : Nat)
  /-- A token stands where another is required. -/
  | unexpectedSymbol (offset : Nat)
  /-- The text ends where a token is required. -/
  | unexpectedEnd
  /-- Something follows a complete formula or frame. -/
  | unreadInput (offset : Nat)
  /-- Formulas are nested too deeply at the offset. -/
  | tooDeep (offset : Nat)
  deriving DecidableEq, Repr

/-- A letter between single quotation marks. -/
def ParseError.quoted (letter : Char) : String := .ofList ['\'', letter, '\'']

/-- The wording of an error. -/
def ParseError.message : ParseError → String
  | .blank => "nothing to read"
  | .unknownSymbol offset => s!"unknown symbol at {offset}"
  | .unknownAtom letter offset => s!"{quoted letter} at {offset} is not an atom"
  | .unknownWorld letter offset => s!"{quoted letter} at {offset} is not a world"
  | .unexpectedSymbol offset => s!"unexpected symbol at {offset}"
  | .unexpectedEnd => "unexpected end of input"
  | .unreadInput offset => s!"unread input from {offset}"
  | .tooDeep offset => s!"nested too deeply at {offset}"

end FourWorlds
