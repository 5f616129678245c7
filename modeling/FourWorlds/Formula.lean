import FourWorlds.Atom

/-! # Modal formulas

Formulas of propositional modal logic: the two constants, the atoms, three prefix operators and four
binary connectives.

* `Formula`: the formulas; `Formula.not`, `Formula.box`, `Formula.and` and so on build the compound
  ones by name.
* `Formula.mentions`, `Formula.atoms`: whether an atom occurs in a formula, and those that do. -/

namespace FourWorlds

/-- A prefix operator. -/
inductive Operator where
  /-- Negation. -/
  | not
  /-- Necessity: at every world that is seen. -/
  | box
  /-- Possibility: at some world that is seen. -/
  | diamond
  deriving DecidableEq, Repr

/-- A binary connective. -/
inductive Connective where
  /-- Conjunction. -/
  | and
  /-- Disjunction. -/
  | or
  /-- Implication. -/
  | implies
  /-- The biconditional. -/
  | iff
  deriving DecidableEq, Repr

/-- A formula. -/
inductive Formula where
  /-- The constant that is true everywhere. -/
  | top
  /-- The constant that is true nowhere. -/
  | bottom
  /-- An atom. -/
  | atom (x : Atom)
  /-- A prefix operator applied to a formula. -/
  | apply (o : Operator) (φ : Formula)
  /-- Two formulas joined by a connective. -/
  | join (c : Connective) (φ ψ : Formula)
  deriving DecidableEq, Repr, Inhabited

namespace Formula

/-- The negation of a formula. -/
@[match_pattern] abbrev not (φ : Formula) : Formula := apply .not φ

/-- The necessity of a formula. -/
@[match_pattern] abbrev box (φ : Formula) : Formula := apply .box φ

/-- The possibility of a formula. -/
@[match_pattern] abbrev diamond (φ : Formula) : Formula := apply .diamond φ

/-- The conjunction of two formulas. -/
@[match_pattern] abbrev and (φ ψ : Formula) : Formula := join .and φ ψ

/-- The disjunction of two formulas. -/
@[match_pattern] abbrev or (φ ψ : Formula) : Formula := join .or φ ψ

/-- The implication from one formula to another. -/
@[match_pattern] abbrev implies (φ ψ : Formula) : Formula := join .implies φ ψ

/-- The biconditional of two formulas. -/
@[match_pattern] abbrev iff (φ ψ : Formula) : Formula := join .iff φ ψ

/-- Whether an atom occurs in a formula. -/
def mentions (x : Atom) : Formula → Bool
  | top | bottom => false
  | atom y => x = y
  | apply _ φ => φ.mentions x
  | join _ φ ψ => φ.mentions x || ψ.mentions x

/-- The atoms that occur in a formula, in order and each once. -/
def atoms (φ : Formula) : List Atom := Atom.all.filter fun x => φ.mentions x

/-- The atoms listed are those that occur. -/
@[simp] theorem mem_atoms {φ : Formula} {x : Atom} : x ∈ φ.atoms ↔ φ.mentions x := by simp [atoms]

end Formula

end FourWorlds
