import FourWorlds.Validity
import Mathlib.Logic.Basic

/-! # Truth in a frame

The textbook reading of a formula at a world of a frame, as a proposition: the atoms are true where a
predicate on worlds and atoms says so, necessity speaks of all worlds that a relation of the frame
leads to, and possibility of some of them.

* `Formula.Holds`: truth at a world under a reading of the atoms.
* `Formula.ValidAt`: truth at a world under every reading of the atoms.
* `satisfies_iff_holds`: what is evaluated in a model is truth under the reading of its valuation.
* `Formula.holds_congr`: only the atoms that occur in a formula matter to its truth. -/

namespace FourWorlds

/-- Truth of a formula at a world of a frame, the atoms being true where a predicate says so. -/
def Formula.Holds (F : Frame) (V : World → Atom → Prop) (w : World) : Formula → Prop
  | .top => True
  | .bottom => False
  | .atom x => V w x
  | .not φ => ¬ φ.Holds F V w
  | .box φ => ∀ v, F.contains ⟨w, v⟩ → φ.Holds F V v
  | .diamond φ => ∃ v, F.contains ⟨w, v⟩ ∧ φ.Holds F V v
  | .and φ ψ => φ.Holds F V w ∧ ψ.Holds F V w
  | .or φ ψ => φ.Holds F V w ∨ ψ.Holds F V w
  | .implies φ ψ => φ.Holds F V w → ψ.Holds F V w
  | .iff φ ψ => φ.Holds F V w ↔ ψ.Holds F V w

/-- Truth of a formula at a world of a frame, whatever the atoms mean. -/
def Formula.ValidAt (F : Frame) (w : World) (φ : Formula) : Prop := ∀ V, φ.Holds F V w

/-- The reading of the atoms by a valuation. -/
def Valuation.reading (V : Valuation) (w : World) (x : Atom) : Prop := V.holds w x

/-- **Evaluation in a model finds the truth under its valuation.** -/
theorem satisfies_iff_holds (F : Frame) (V : Valuation) (φ : Formula) (w : World) :
    (Model.mk F V).satisfies w φ ↔ φ.Holds F V.reading w := by
  induction φ generalizing w with
  | top => simp [Model.satisfies, Formula.Holds]
  | bottom => simp [Model.satisfies, Formula.Holds]
  | atom x => rfl
  | apply o φ ih =>
      cases o with
      | not => rw [Model.satisfies, Formula.Holds, ← ih, Bool.not_eq_true', Bool.not_eq_true]
      | box => simp only [Model.satisfies, Formula.Holds, List.all_eq_true, Frame.mem_successors, ih]
      | diamond =>
          simp only [Model.satisfies, Formula.Holds, List.any_eq_true, Frame.mem_successors, ih]
  | join c φ ψ ihφ ihψ =>
      cases c with
      | and => rw [Model.satisfies, Formula.Holds, Bool.and_eq_true, ihφ, ihψ]
      | or => rw [Model.satisfies, Formula.Holds, Bool.or_eq_true, ihφ, ihψ]
      | implies =>
          rw [Model.satisfies, Formula.Holds, Bool.or_eq_true, Bool.not_eq_true',
            ← Bool.not_eq_true, ihφ, ihψ, imp_iff_not_or]
      | iff => rw [Model.satisfies, Formula.Holds, beq_iff_eq, Bool.eq_iff_iff, ihφ, ihψ]

/-- **Coincidence.** Readings that agree on the atoms of a formula make it true at the same
worlds. -/
theorem Formula.holds_congr {F : Frame} {U V : World → Atom → Prop} {φ : Formula}
    (h : ∀ w x, φ.mentions x → (U w x ↔ V w x)) (w : World) :
    φ.Holds F U w ↔ φ.Holds F V w := by
  induction φ generalizing w with
  | top | bottom => rfl
  | atom x => exact h w x (by simp [mentions])
  | apply o φ ih =>
      -- The operand mentions the same atoms, so it agrees at every world, seen from here or not.
      have hφ : ∀ v, φ.Holds F U v ↔ φ.Holds F V v := ih h
      cases o with
      | not => exact not_congr (hφ w)
      | box => exact forall_congr' fun v => imp_congr_right fun _ => hφ v
      | diamond => exact exists_congr fun v => and_congr_right fun _ => hφ v
  | join c φ ψ ihφ ihψ =>
      -- Each part mentions some of the atoms.
      have hφ := ihφ (fun v x hx => h v x (by simp [mentions, hx])) w
      have hψ := ihψ (fun v x hx => h v x (by simp [mentions, hx])) w
      cases c with
      | and => exact and_congr hφ hψ
      | or => exact or_congr hφ hψ
      | implies => exact imp_congr hφ hψ
      | iff => exact iff_congr hφ hψ

end FourWorlds
