import FourWorlds.Proofs.Validity

/-! # Validity under substitution

Putting formulas in place of the atoms, all at once, gives a formula whose atoms may be quite
others. Its truth under a reading of these is the truth of the original formula where each atom is
read as its substitute, and that is one reading among all. So what is valid stays valid.

* `Formula.substitute`, `Formula.substitutedReading`: a formula with its atoms replaced, and the
  atoms read as their substitutes.
* `Formula.holds_substitute`: truth after replacing is truth under that reading.
* `Formula.ValidAt.substitute`: validity at a world is kept.
* `substitution_keeps_validity`: so the worlds found valid stay among those found valid. -/

namespace FourWorlds

variable {F : Frame} {φ : Formula} {w : World}

namespace Formula

/-- A formula with every atom replaced by the formula given for it, all atoms at once. -/
def substitute (s : Atom → Formula) : Formula → Formula
  | top => top
  | bottom => bottom
  | atom x => s x
  | apply o φ => apply o (φ.substitute s)
  | join c φ ψ => join c (φ.substitute s) (ψ.substitute s)

/-- The reading of the atoms in which each is true where its substitute is. -/
def substitutedReading (s : Atom → Formula) (F : Frame) (V : World → Atom → Prop) (w : World)
    (x : Atom) : Prop :=
  (s x).Holds F V w

/-- **Truth under substitution.** A formula with its atoms replaced is true exactly if the formula is
so where the atoms are read as their substitutes. -/
theorem holds_substitute (s : Atom → Formula) (V : World → Atom → Prop) (w : World) :
    (φ.substitute s).Holds F V w ↔ φ.Holds F (substitutedReading s F V) w := by
  induction φ generalizing w with
  | top | bottom => rfl
  | atom x => rfl
  | apply o φ ih =>
      cases o with
      | not =>
          simp only [substitute, Holds]
          exact not_congr (ih w)
      -- Both operators speak of other worlds, at which the atoms are read in the same way.
      | box =>
          simp only [substitute, Holds]
          exact forall_congr' fun v => imp_congr_right fun _ => ih v
      | diamond =>
          simp only [substitute, Holds]
          exact exists_congr fun v => and_congr_right fun _ => ih v
  | join c φ ψ ihφ ihψ =>
      cases c with
      | and => exact and_congr (ihφ w) (ihψ w)
      | or => exact or_congr (ihφ w) (ihψ w)
      | implies => exact imp_congr (ihφ w) (ihψ w)
      | iff => exact iff_congr (ihφ w) (ihψ w)

/-- **A formula valid at a world is valid there with its atoms replaced.** -/
theorem ValidAt.substitute (h : φ.ValidAt F w) (s : Atom → Formula) :
    (φ.substitute s).ValidAt F w := by
  intro V
  have hread : φ.Holds F (substitutedReading s F V) w := h (substitutedReading s F V)
  exact (holds_substitute s V w).2 hread

end Formula

/-- **What is found valid stays so under substitution.** Whatever formulas are put in place of the
atoms of a formula, all at once, the worlds of a frame at which the formula is found valid are among
those at which the result is; so a frame that validates the formula validates the result. -/
theorem substitution_keeps_validity (F : Frame) (φ : Formula) (s : Atom → Formula) :
    (∀ w ∈ F.validWorlds φ, w ∈ F.validWorlds (φ.substitute s))
      ∧ (F.validates φ → F.validates (φ.substitute s)) := by
  constructor
  · intro w hw
    have hvalid : φ.ValidAt F w := mem_validWorlds_iff.1 hw
    exact mem_validWorlds_iff.2 (hvalid.substitute s)
  · intro h
    have hvalid : ∀ w, φ.ValidAt F w := validates_iff_forall_validAt.1 h
    exact validates_iff_forall_validAt.2 fun w => (hvalid w).substitute s

/-- The relation from `a` to itself makes `□p → p` valid at `a`, and all such relations make it
valid everywhere; so it is with `□(q ∧ ⋄r) → q ∧ ⋄r`, which is what becomes of it as `p` is
replaced. -/
theorem substitution_keeps_validity_reflexive :
    let s : Atom → Formula := fun _ => .and (.atom .q) (.diamond (.atom .r))
    let φ : Formula := .implies (.box (.atom .p)) (.atom .p)
    let loop : Frame := .ofRelations [⟨.a, .a⟩]
    let loops : Frame := .ofRelations (World.all.map fun w => ⟨w, w⟩)
    φ.substitute s = .implies (.box (.and (.atom .q) (.diamond (.atom .r))))
        (.and (.atom .q) (.diamond (.atom .r)))
      ∧ (.a ∈ loop.validWorlds φ ∧ .a ∈ loop.validWorlds (φ.substitute s))
      ∧ loops.validates φ ∧ loops.validates (φ.substitute s) := by
  intro s φ loop loops
  have hvalid : ∀ (F : Frame) (w : World), F.contains ⟨w, w⟩ → φ.ValidAt F w :=
    fun F w hw V hbox => hbox w hw
  have hloop : .a ∈ loop.validWorlds φ := mem_validWorlds_iff.2 (hvalid loop .a (by decide))
  have hloops : loops.validates φ :=
    validates_iff_forall_validAt.2 fun w => hvalid loops w (by cases w <;> decide)
  exact ⟨rfl, ⟨hloop, (substitution_keeps_validity loop φ s).1 .a hloop⟩,
    hloops, (substitution_keeps_validity loops φ s).2 hloops⟩

end FourWorlds
