/-! # Numbers on the command line

* `naturalOf?`: a number in decimal digits.
* `unsignedOf?`, `signedOf?`: a number with a sign before it, as far as that is allowed. -/

namespace FourWorlds

/-- The value of a digit. -/
def digitValue (c : Char) : Nat := c.toNat - '0'.toNat

/-- A natural number written in decimal digits, of which there is at least one. -/
def naturalOf? (text : List Char) : Option Nat :=
  if text ≠ [] ∧ text.all Char.isDigit then
    some (text.foldl (fun n c => 10 * n + digitValue c) 0)
  else none

/-- A natural number that a plus sign may stand before. -/
def unsignedOf? : List Char → Option Nat
  | '+' :: text => naturalOf? text
  | text => naturalOf? text

/-- A natural number written as an integer: a sign may stand before it, and a minus sign only before
zero. -/
def signedOf? : List Char → Option Nat
  | '-' :: text => (naturalOf? text).filter (· = 0)
  | text => unsignedOf? text

end FourWorlds
