import FourWorlds.Atom
import FourWorlds.PlaceSet
import FourWorlds.World

/-! # Valuations

A valuation says which atoms are true at which worlds. It is held as the set of the places of the
true pairs of a world and an atom, which are numbered by world and then by atom.

* `Valuation.holds`: the view of a valuation; valuations that agree everywhere are equal.
* `Valuation.set`, `Valuation.ofPairs`: making an atom true at a world, and doing so for a list.
* `Valuation.pairs`: the true pairs, by world and then by atom. -/

namespace FourWorlds

/-- Which atoms are true at which worlds. -/
structure Valuation where
  /-- The places of the true pairs. -/
  places : PlaceSet
  deriving DecidableEq

namespace Valuation

/-- The place of a world and an atom, from zero. -/
def place (w : World) (x : Atom) : Fin 16 := ⟨4 * w.index + x.index, by omega⟩

/-- Whether an atom is true at a world. -/
def holds (V : Valuation) (w : World) (x : Atom) : Bool := V.places.contains (place w x)

/-- The valuation in which nothing is true. -/
def empty : Valuation := ⟨.empty⟩

instance : Inhabited Valuation := ⟨empty⟩

/-- The valuation with an atom made true at a world. -/
def set (V : Valuation) (w : World) (x : Atom) : Valuation :=
  ⟨V.places.insert (place w x)⟩

/-- The valuation in which exactly the listed pairs are true. -/
def ofPairs (pairs : List (World × Atom)) : Valuation :=
  pairs.foldl (fun V (w, x) => V.set w x) empty

/-- The true pairs, by world and then by atom. -/
def pairs (V : Valuation) : List (World × Atom) :=
  World.all.flatMap fun w => (Atom.all.filter (V.holds w)).map fun x => (w, x)

/-! ### Elementary facts -/

/-- Distinct pairs have distinct places. -/
theorem place_inj {v w : World} {x y : Atom} : place v x = place w y ↔ v = w ∧ x = y := by
  cases v <;> cases w <;> cases x <;> cases y <;> decide

/-- Every place is that of a pair. -/
theorem exists_place (i : Fin 16) : ∃ w x, place w x = i := by
  have h : i ∈ World.all.flatMap fun w => Atom.all.map (place w) := by
    have : (World.all.flatMap fun w => Atom.all.map (place w)) = List.finRange 16 := by decide
    simp [this]
  obtain ⟨w, _, hw⟩ := List.mem_flatMap.1 h
  obtain ⟨x, _, hx⟩ := List.mem_map.1 hw
  exact ⟨w, x, hx⟩

/-- Valuations that agree on every pair are equal. -/
@[ext] theorem ext {U V : Valuation} (h : ∀ w x, U.holds w x = V.holds w x) : U = V := by
  rcases U with ⟨S⟩; rcases V with ⟨T⟩
  congr 1
  ext i
  obtain ⟨w, x, rfl⟩ := exists_place i
  exact h w x

/-- Nothing is true in the empty valuation. -/
@[simp] theorem holds_empty (w : World) (x : Atom) : empty.holds w x = false := by
  simp [holds, empty]

/-- Making an atom true at a world changes nothing else. -/
@[simp] theorem holds_set (V : Valuation) (v w : World) (x y : Atom) :
    (V.set v x).holds w y = (V.holds w y || decide (w = v ∧ y = x)) := by
  simp [holds, set, place_inj]

/-- A list of pairs gives the valuation in which its members are true. -/
@[simp] theorem holds_ofPairs (pairs : List (World × Atom)) (w : World) (x : Atom) :
    (ofPairs pairs).holds w x = decide ((w, x) ∈ pairs) := by
  suffices h : ∀ V : Valuation, (pairs.foldl (fun V (w, x) => V.set w x) V).holds w x
      = (V.holds w x || decide ((w, x) ∈ pairs)) by
    simpa [ofPairs] using h empty
  induction pairs with
  | nil => simp
  | cons pair rest ih => intro V; simp [ih, Bool.or_assoc, Prod.ext_iff]

/-- The pairs listed are those that are true. -/
@[simp] theorem mem_pairs {V : Valuation} {w : World} {x : Atom} :
    (w, x) ∈ V.pairs ↔ V.holds w x := by
  simp [pairs]

end Valuation

end FourWorlds
