import FourWorlds.Proofs.Validity
import Mathlib.Logic.Function.Iterate

/-! # Validity of the confluence formulas

Nested necessity speaks of all worlds reached in exactly as many steps, and nested possibility of
some of them. So the formula `⋄ⁱ□ʲx → □ᵏ⋄ˡx` is valid at a world exactly if its worlds `i` and `k`
steps away always meet again, `j` steps from the one and `l` from the other: if they do not, the
reading by which the atom is true only at the worlds `j` steps from the first refutes the formula.

* `Frame.Reaches`: a world is reached from another one in exactly a number of steps.
* `Formula.holds_iterate_box_iff`, `Formula.holds_iterate_diamond_iff`: truth of a formula behind a
  number of modal operators of one kind.
* `Formula.validAt_confluence_iff`: the condition on the frame under every reading.
* `confluence_formulas_characterise_frames`: the worlds found valid are those with the condition;
  reflexivity, transitivity, symmetry and the Euclidean condition are cases of it. -/

namespace FourWorlds

variable {F : Frame} {V : World → Atom → Prop} {φ : Formula} {u v w : World} {n : Nat}

/-! ## Steps along the relations of a frame -/

/-- A world is reached from another one in exactly a number of steps. -/
inductive Frame.Reaches (F : Frame) : Nat → World → World → Prop
  /-- Without a step a world reaches itself alone. -/
  | here {w : World} : Reaches F 0 w w
  /-- A step to a world that is seen, and the steps from there. -/
  | step {n : Nat} {u v w : World} : F.contains ⟨u, v⟩ → Reaches F n v w → Reaches F (n + 1) u w

namespace Frame

/-- Without a step a world reaches itself alone. -/
@[simp] theorem reaches_zero_iff : F.Reaches 0 u w ↔ u = w := by
  constructor
  · rintro ⟨⟩
    rfl
  · rintro rfl
    exact .here

/-- With one step more a world reaches what those that it sees do. -/
@[simp] theorem reaches_succ_iff :
    F.Reaches (n + 1) u w ↔ ∃ v, F.contains ⟨u, v⟩ ∧ F.Reaches n v w := by
  constructor
  · rintro ⟨⟩
    exact ⟨_, ‹_›, ‹_›⟩
  · rintro ⟨v, huv, hvw⟩
    exact .step huv hvw

/-- With one step a world reaches those that it sees. -/
theorem reaches_one_iff : F.Reaches 1 u w ↔ F.contains ⟨u, w⟩ := by
  simp

/-- The last step may be taken to a world that is seen from the one before. -/
theorem Reaches.tail (huv : F.Reaches n u v) (hvw : F.contains ⟨v, w⟩) : F.Reaches (n + 1) u w := by
  induction huv with
  | here => exact .step hvw .here
  | step hstep _ ih => exact .step hstep (ih hvw)

instance Reaches.decidable (F : Frame) : ∀ n u w, Decidable (F.Reaches n u w)
  | 0, _, _ => decidable_of_iff _ reaches_zero_iff.symm
  | n + 1, u, w =>
    have := Reaches.decidable F n
    decidable_of_iff (∃ v ∈ World.all, F.contains ⟨u, v⟩ ∧ F.Reaches n v w) (by simp)

end Frame

/-! ## Nested modal operators -/

namespace Formula

/-- **Nested necessity** speaks of all worlds reached in as many steps. -/
theorem holds_iterate_box_iff (n : Nat) :
    (box^[n] φ).Holds F V w ↔ ∀ v, F.Reaches n w v → φ.Holds F V v := by
  induction n generalizing w with
  | zero => simp
  | succ n ih =>
      rw [Function.iterate_succ_apply']
      simp only [Holds, ih, Frame.reaches_succ_iff]
      constructor
      · rintro h v ⟨u, hwu, huv⟩
        exact h u hwu v huv
      · exact fun h u hwu v huv => h v ⟨u, hwu, huv⟩

/-- **Nested possibility** speaks of some world reached in as many steps. -/
theorem holds_iterate_diamond_iff (n : Nat) :
    (diamond^[n] φ).Holds F V w ↔ ∃ v, F.Reaches n w v ∧ φ.Holds F V v := by
  induction n generalizing w with
  | zero => simp
  | succ n ih =>
      rw [Function.iterate_succ_apply']
      simp only [Holds, ih, Frame.reaches_succ_iff]
      constructor
      · rintro ⟨u, hwu, v, huv, hv⟩
        exact ⟨v, ⟨u, hwu, huv⟩, hv⟩
      · rintro ⟨v, ⟨u, hwu, huv⟩, hv⟩
        exact ⟨u, hwu, v, huv, hv⟩

/-- The formula `⋄ⁱ□ʲx → □ᵏ⋄ˡx`: if somewhere `i` steps away the atom is true at all worlds `j` steps
on, then everywhere `k` steps away it is true at some world `l` steps on. -/
def confluence (i j k l : Nat) (x : Atom) : Formula :=
  implies (diamond^[i] (box^[j] (atom x))) (box^[k] (diamond^[l] (atom x)))

/-- **The confluence formulas are valid where the worlds some steps away meet again.** -/
theorem validAt_confluence_iff (i j k l : Nat) (x : Atom) :
    (confluence i j k l x).ValidAt F w ↔ ∀ u v, F.Reaches i w u → F.Reaches k w v →
      ∃ y, F.Reaches j u y ∧ F.Reaches l v y := by
  simp only [confluence, ValidAt, Holds, holds_iterate_box_iff, holds_iterate_diamond_iff]
  constructor
  · -- The atom is read as true just where the premise requires it for `u`.
    intro h u v hu hv
    obtain ⟨y, hvy, huy⟩ := h (fun y _ => F.Reaches j u y) ⟨u, hu, fun _ huy => huy⟩ v hv
    exact ⟨y, huy, hvy⟩
  · rintro h V ⟨u, hu, hbox⟩ v hv
    obtain ⟨y, huy, hvy⟩ := h u v hu hv
    exact ⟨y, hvy, hbox y huy⟩

end Formula

/-- The frames that validate a confluence formula are those with its condition at every world. -/
theorem validates_confluence_iff (i j k l : Nat) (x : Atom) :
    F.validates (.confluence i j k l x) ↔ ∀ w u v, F.Reaches i w u → F.Reaches k w v →
      ∃ y, F.Reaches j u y ∧ F.Reaches l v y := by
  rw [validates_iff_forall_validAt]
  exact forall_congr' fun w => Formula.validAt_confluence_iff i j k l x

/-- **The confluence formulas characterise frames.** A world is found among those at which
`⋄ⁱ□ʲx → □ᵏ⋄ˡx` is valid exactly if any two worlds reached from it in `i` and in `k` steps reach one
world in `j` and in `l` steps. So a frame validates `□x → x` exactly if it is reflexive, `□x → □□x`
if it is transitive, `x → □⋄x` if it is symmetric, and `⋄x → □⋄x` if it is Euclidean. -/
theorem confluence_formulas_characterise_frames (F : Frame) (x : Atom) :
    (∀ (i j k l : Nat) (w : World),
        w ∈ F.validWorlds (.implies (Formula.diamond^[i] (Formula.box^[j] (.atom x)))
            (Formula.box^[k] (Formula.diamond^[l] (.atom x))))
          ↔ ∀ u v, F.Reaches i w u → F.Reaches k w v → ∃ y, F.Reaches j u y ∧ F.Reaches l v y)
      ∧ (F.validates (.implies (.box (.atom x)) (.atom x)) ↔ ∀ w, F.contains ⟨w, w⟩)
      ∧ (F.validates (.implies (.box (.atom x)) (.box (.box (.atom x))))
        ↔ ∀ u v w, F.contains ⟨u, v⟩ → F.contains ⟨v, w⟩ → F.contains ⟨u, w⟩)
      ∧ (F.validates (.implies (.atom x) (.box (.diamond (.atom x))))
        ↔ ∀ v w, F.contains ⟨v, w⟩ → F.contains ⟨w, v⟩)
      ∧ (F.validates (.implies (.diamond (.atom x)) (.box (.diamond (.atom x))))
        ↔ ∀ u v w, F.contains ⟨u, v⟩ → F.contains ⟨u, w⟩ → F.contains ⟨w, v⟩) := by
  refine ⟨fun i j k l w => mem_validWorlds_iff.trans (Formula.validAt_confluence_iff i j k l x),
    ?_, ?_, ?_, ?_⟩
  · refine (validates_confluence_iff 0 1 0 0 x).trans ?_
    simp
  · refine (validates_confluence_iff 0 1 2 0 x).trans ?_
    constructor
    · intro h u v w huv hvw
      obtain ⟨y, huy, ⟨⟩⟩ := h u u w .here (.step huv (.step hvw .here))
      exact Frame.reaches_one_iff.1 huy
    · rintro h u _ w ⟨⟩ huw
      obtain ⟨v, huv, hvw⟩ := Frame.reaches_succ_iff.1 huw
      exact ⟨w, Frame.reaches_one_iff.2 (h u v w huv (Frame.reaches_one_iff.1 hvw)), .here⟩
  · refine (validates_confluence_iff 0 0 1 1 x).trans ?_
    simp only [Frame.reaches_one_iff, Frame.reaches_zero_iff, exists_eq_left']
    constructor
    · exact fun h v w hvw => h v v w rfl hvw
    · rintro h v _ w rfl hvw
      exact h v w hvw
  · refine (validates_confluence_iff 1 0 1 1 x).trans ?_
    simp only [Frame.reaches_one_iff, Frame.reaches_zero_iff, exists_eq_left']

/-- On a chain of two reflexive worlds `⋄p → □⋄p` is refuted at the first one alone. -/
example : (Frame.ofRelations [⟨.a, .a⟩, ⟨.a, .b⟩, ⟨.b, .b⟩]).validWorlds
    (.implies (.diamond (.atom .p)) (.box (.diamond (.atom .p)))) = [.b, .c, .d] := by
  decide

end FourWorlds
