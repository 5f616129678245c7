import FourWorlds.Valuation.Range
import Mathlib.Data.List.Defs

/-! # Walks through the valuations over some atoms

The valuations over some atoms one after another, counted in words of fixed width: a count of 32 bits
is dealt out to a valuation of 16 bits. Whatever a word has no room for is an error.

* `WordError`, `bitAt`, `successor`: one bit of a word and the next number, where there is room.
* `ValuationWalk.ofAtoms`: the walk over a list of atoms at its start.
* `ValuationWalk.step`: the valuation that comes next and the walk after it.
* `ValuationWalk.total`: the number of valuations of the whole walk. -/

namespace FourWorlds

/-! ### Words -/

/-- What a word has no room for. -/
inductive WordError where
  /-- A bit at a place that is not below the width. -/
  | bitTooHigh (place : Nat)
  /-- The number after the greatest one. -/
  | numberTooGreat
  deriving DecidableEq, Repr

/-- The word of which one bit is set, by its place. -/
def bitAt (width place : Nat) : Except WordError (BitVec width) :=
  if place < width then .ok (.twoPow width place) else .error (.bitTooHigh place)

/-- The word of the next number. -/
def successor {width : Nat} (w : BitVec width) : Except WordError (BitVec width) :=
  if w = .allOnes width then .error .numberTooGreat else .ok (w + 1)

/-! ### Walks -/

/-- Where a walk through the valuations over some atoms stands. -/
structure ValuationWalk where
  /-- The place of each pair of a world and one of the atoms. -/
  places : List Nat
  /-- The count of the next valuation, unless none is left. -/
  next : Option (BitVec 32)
  deriving DecidableEq, Repr

namespace ValuationWalk

/-- The atoms of a list in order, each once. -/
def sorted (atoms : List Atom) : List Atom :=
  (atoms.mergeSort fun x y => x.index ≤ y.index).destutter (· ≠ ·)

/-- The walk over a list of atoms at its start, whatever their order and however often each is
listed. -/
def ofAtoms (atoms : List Atom) : ValuationWalk :=
  ⟨World.all.flatMap fun w => (sorted atoms).map fun x => 4 * w.index + x.index, some 0⟩

/-- The number of valuations of the whole walk. -/
def total (walk : ValuationWalk) : Except WordError (BitVec 32) := bitAt 32 walk.places.length

/-- Some bits with those added at the listed places whose bit of the count is set, the first place
belonging to the bit at a given position. -/
def deal (count : BitVec 32) : Nat → List Nat → BitVec 16 → Except WordError (BitVec 16)
  | _, [], bits => .ok bits
  | position, place :: places, bits => do
    let chosen ← bitAt 32 position
    if count &&& chosen = 0 then deal count (position + 1) places bits
    else
      let bit ← bitAt 16 place
      deal count (position + 1) places (bits ||| bit)

/-- The next valuation and the walk after it, unless no valuation is left. -/
def step (walk : ValuationWalk) : Except WordError (Option (Valuation × ValuationWalk)) :=
  match walk.next with
  | none => .ok none
  | some count => do
    let bits ← deal count 0 walk.places 0
    let following ← successor count
    let total ← walk.total
    let next := if following < total then some following else none
    return some (⟨⟨bits⟩⟩, { walk with next := next })

end ValuationWalk

end FourWorlds
