/-! # Atoms

The four propositional variables. Their order `p`, `q`, `r`, `s` is fixed: it numbers the atoms from
zero and places the value of an atom at a world within a valuation.

* `Atom.all`: the atoms in order.
* `Atom.index`: the place of an atom in that order; `Atom.ofIndex?` goes back.
* `Atom.letter`, `Atom.ofLetter?`: the letter of an atom, and back. -/

namespace FourWorlds

/-- A propositional variable. -/
inductive Atom where
  /-- The first variable. -/
  | p
  /-- The second variable. -/
  | q
  /-- The third variable. -/
  | r
  /-- The fourth variable. -/
  | s
  deriving DecidableEq, Repr, Inhabited

namespace Atom

/-- The atoms in order. -/
def all : List Atom := [p, q, r, s]

/-- The place of an atom in the order, from zero. -/
def index (x : Atom) : Fin 4 := ⟨x.ctorIdx, by cases x <;> decide⟩

/-- The atom at a place of the order, if there is one. -/
def ofIndex? (n : Nat) : Option Atom := all[n]?

/-- The letter an atom is written with. -/
def letter : Atom → Char
  | p => 'p'
  | q => 'q'
  | r => 'r'
  | s => 's'

/-- The atom written with a letter, if there is one. -/
def ofLetter? (letter : Char) : Option Atom := all.find? (·.letter = letter)

/-! ### Elementary facts -/

/-- Every atom is listed. -/
@[simp] theorem mem_all (x : Atom) : x ∈ all := by cases x <;> decide

/-- No atom is listed twice. -/
theorem nodup_all : all.Nodup := by decide

/-- Distinct atoms have distinct places. -/
theorem index_inj {x y : Atom} : x.index = y.index ↔ x = y := by cases x <;> cases y <;> decide

/-- An atom is found by its letter. -/
@[simp] theorem ofLetter?_letter (x : Atom) : ofLetter? x.letter = some x := by cases x <;> rfl

end Atom

end FourWorlds
