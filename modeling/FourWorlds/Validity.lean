import FourWorlds.Model
import FourWorlds.Valuation.Range

/-! # Validity in a frame

A formula is valid at a world of a frame if it is true there whatever the atoms mean. Only the atoms
that occur in the formula matter, so only the valuations over them are tried: `2 ^ (4 * k)` of them
for `k` atoms, and a single one for a formula without atoms.

* `Formula.valuations`: the valuations that matter to a formula.
* `Frame.validWorlds`: the worlds of a frame at which a formula is valid.
* `Frame.validates`: validity at every world of a frame. -/

namespace FourWorlds

/-- The valuations over the atoms of a formula. -/
def Formula.valuations (φ : Formula) : List Valuation := (ValuationRange.ofAtoms φ.atoms).toList

/-- The worlds, among those still standing, at which a formula is true under every listed valuation.
The rest of the list is not looked at once no world is left standing. -/
def Formula.survivors (seen : PerWorld (List World)) (φ : Formula) :
    PerWorld Bool → List Valuation → PerWorld Bool
  | standing, [] => standing
  | standing, V :: rest =>
    if World.all.any standing.get then
      let T := φ.truth seen V
      φ.survivors seen (.ofFn fun w => standing.get w && T.get w) rest
    else standing

namespace Frame

/-- The worlds of a frame at which a formula is true under every valuation, in order. -/
def validWorlds (F : Frame) (φ : Formula) : List World :=
  World.all.filter (φ.survivors (.ofFn F.successors) (.ofFn fun _ => true) φ.valuations).get

/-- Whether a formula is true at every world of a frame under every valuation. -/
def validates (F : Frame) (φ : Formula) : Bool :=
  let seen := .ofFn F.successors
  φ.valuations.all fun V => World.all.all (φ.truth seen V).get

end Frame

/-- The survivors are the worlds that stood before and at which the formula is true throughout. -/
@[simp] theorem Formula.get_survivors (F : Frame) (φ : Formula) (standing : PerWorld Bool)
    (valuations : List Valuation) (w : World) :
    (φ.survivors (.ofFn F.successors) standing valuations).get w
      = (standing.get w && valuations.all fun V => (Model.mk F V).satisfies w φ) := by
  induction valuations generalizing standing with
  | nil => simp [survivors]
  | cons V rest ih =>
    unfold survivors
    split
    · simp [ih, Bool.and_assoc]
    · next hnone =>
      have hw : standing.get w = false := by
        simpa using fun h => hnone (List.any_eq_true.2 ⟨w, World.mem_all w, h⟩)
      simp [hw]

namespace Frame

/-- The worlds listed are those at which the formula is true under every valuation of its atoms. -/
theorem mem_validWorlds {F : Frame} {φ : Formula} {w : World} :
    w ∈ F.validWorlds φ ↔ ∀ V ∈ φ.valuations, (Model.mk F V).satisfies w φ := by
  simp [validWorlds]

/-- A formula is validated if it is true in every model over a valuation of its atoms. -/
theorem validates_iff {F : Frame} {φ : Formula} :
    F.validates φ ↔ ∀ V ∈ φ.valuations, (Model.mk F V).valid φ := by
  simp [validates, Model.valid]

end Frame

end FourWorlds
