import FourWorlds.Formula.Token
import FourWorlds.Text.Cursor

/-! # Reading formulas

The grammar of formulas, from loosest to tightest binding:

    expression := disjunct (('→' | '↔') expression)?
    disjunct   := term (('∧' | '∨') disjunct)?
    term       := atom | '⊤' | '⊥' | ('¬' | '□' | '⋄') term | '(' expression ')'

Connectives group to the right, those of one tier are of equal rank, and parentheses leave no trace
in the formula. The whole expression has depth zero; what follows a connective, an operator or an
opening parenthesis is one deeper. No term may begin deeper than `maxDepth`.

* `Level`: the three readers for formulas at one depth; `Level.within` gives them for a number of
  depths, by recursion on that number.
* `Formula.read`: the formula of a text. -/

namespace FourWorlds

/-- A reader of a formula at the beginning of the unread tokens. -/
abbrev FormulaReader := Cursor FormulaKind → Except ParseError (Formula × Cursor FormulaKind)

/-- The binding strength of a connective. -/
inductive Tier where
  /-- Conjunction and disjunction. -/
  | tight
  /-- Implication and the biconditional. -/
  | loose
  deriving DecidableEq, Repr

/-- The binding strength of a connective. -/
def Connective.tier : Connective → Tier
  | .and | .or => .tight
  | .implies | .iff => .loose

/-- The connective of some tier that a kind of token stands for. -/
def FormulaKind.connective? (tier : Tier) : FormulaKind → Option Connective
  | .connective c => if c.tier = tier then some c else none
  | _ => none

/-- The deepest place at which a term may begin. -/
def maxDepth : Nat := 1024

namespace FormulaReader

/-- Reads a formula and, if a connective of the tier follows it, joins it to what comes after. -/
def chain (tier : Tier) (head rest : FormulaReader) : FormulaReader := fun tokens => do
  let (φ, tokens) ← head tokens
  match tokens.advanceWhen (·.kind.connective? tier) with
  | none => return (φ, tokens)
  | some (c, tokens) =>
    let (ψ, tokens) ← rest tokens
    return (.join c φ ψ, tokens)

/-- Reads a formula and a closing parenthesis after it. -/
def closed (inner : FormulaReader) : FormulaReader := fun tokens => do
  let (φ, tokens) ← inner tokens
  let (found, tokens) := tokens.expect .closing
  let _ ← found
  return (φ, tokens)

/-- Reads the atom of a letter. -/
def letter (t : Token FormulaKind) : FormulaReader := fun tokens =>
  let letter := t.text.headD default
  match Atom.ofLetter? letter with
  | some x => .ok (.atom x, tokens)
  | none => .error (.unknownAtom letter t.offset)

/-- Reads a term whose operands and parenthesised expressions are read by the given readers. -/
def term (operand expression : FormulaReader) : FormulaReader := fun tokens =>
  match tokens.advance with
  | none => .error .unexpectedEnd
  | some (t, tokens) =>
    match t.kind with
    | .letter => letter t tokens
    | .top => .ok (.top, tokens)
    | .bottom => .ok (.bottom, tokens)
    | .operator o => do
      let (φ, tokens) ← operand tokens
      return (.apply o φ, tokens)
    | .opening => closed expression tokens
    | .connective _ | .closing => .error (.unexpectedSymbol t.offset)

/-- Refuses any term, as one that begins too deep. -/
def tooDeep : FormulaReader := fun tokens =>
  match tokens.advance with
  | none => .error .unexpectedEnd
  | some (t, _) => .error (.tooDeep t.offset)

end FormulaReader

/-- The readers for formulas at one depth. -/
structure Level where
  /-- Reads a term. -/
  term : FormulaReader
  /-- Reads terms joined by tight connectives. -/
  disjunct : FormulaReader
  /-- Reads disjuncts joined by loose connectives. -/
  expression : FormulaReader

namespace Level

/-- The readers below the last depth, where every formula is refused at its first term. -/
def refusing : Level := ⟨.tooDeep, .tooDeep, .tooDeep⟩

/-- The readers at the depth above that of the given ones. -/
def above (deeper : Level) : Level :=
  let term := FormulaReader.term deeper.term deeper.expression
  let disjunct := FormulaReader.chain .tight term deeper.disjunct
  ⟨term, disjunct, FormulaReader.chain .loose disjunct deeper.expression⟩

/-- The readers for formulas in which terms begin at a number of depths, counted from theirs. -/
def within : Nat → Level
  | 0 => refusing
  | depths + 1 => above (within depths)

end Level

/-- The formula that a sequence of tokens spells. -/
def Formula.ofTokens (tokens : List (Token FormulaKind)) : Except ParseError Formula := do
  if tokens.isEmpty then throw .blank
  let (φ, rest) ← (Level.within (maxDepth + 1)).expression (.ofTokens tokens)
  rest.finish
  return φ

/-- The formula written in a text. -/
def Formula.read (text : String) : Except ParseError Formula := do
  let tokens ← lexer.tokens text
  ofTokens tokens

end FourWorlds
