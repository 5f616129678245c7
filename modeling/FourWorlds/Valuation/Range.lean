import FourWorlds.Valuation

/-! # Ranges of valuations

The valuations over some atoms are those in which no other atom is true anywhere. They are counted
off from zero: the bits of the count, from the lowest on, say which pairs of a world and an atom are
true. As the pairs are taken by their places, a larger count gives a larger sixteen-bit number.

* `ValuationRange.ofAtoms`: the range of the valuations over a list of atoms.
* `ValuationRange.total`, `ValuationRange.get`, `ValuationRange.toList`: the number of valuations in
  a range, the one at a count, and all of them in order. -/

namespace FourWorlds

/-- The valuations in which only what stands at some places may be true. -/
structure ValuationRange where
  /-- The places, ascending. -/
  places : List (Fin 16)
  deriving DecidableEq, Repr

namespace ValuationRange

/-- The range of the valuations over a list of atoms, whatever their order and however often each
is listed. -/
def ofAtoms (atoms : List Atom) : ValuationRange :=
  ⟨World.all.flatMap fun w => (Atom.all.filter (· ∈ atoms)).map (Valuation.place w)⟩

/-- The number of valuations in a range. -/
def total (R : ValuationRange) : Nat := 1 <<< R.places.length

/-- The valuation at a count below the total. -/
def get (R : ValuationRange) (count : Nat) : Valuation := ⟨PlaceSet.empty.deal R.places count⟩

/-- The valuations in a range, in ascending order of their numbers. -/
def toList (R : ValuationRange) : List Valuation := (List.range R.total).map R.get

end ValuationRange

end FourWorlds
