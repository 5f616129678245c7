import FourWorlds.Proofs.Validity

/-! # Validity and the rules of inference

Validity at a world speaks of all readings of the atoms at once, so it goes through conjunction and
necessity: a conjunction is valid where both its parts are, and a necessity where its operand is
valid at every world that is seen. That the formulas have atoms of their own, and valuations of
their own to be tried, does not matter.

* `Formula.validAt_and_iff`, `Formula.validAt_box_iff`: validity of a conjunction, and of a
  necessity.
* `Formula.ValidAt.mp`, `Formula.validAt_distribution`: modus ponens, and the distribution of
  necessity over an implication.
* `validates_and_iff`, `validates_mp`, `validates_box`: what a frame validates is closed under the
  rules.
* `rules_of_inference_keep_validity`: all of it for the worlds found valid. -/

namespace FourWorlds

variable {F : Frame} {φ ψ : Formula} {w : World}

namespace Formula

/-! ## At a world -/

/-- **A conjunction is valid** where both its parts are. -/
theorem validAt_and_iff : (and φ ψ).ValidAt F w ↔ φ.ValidAt F w ∧ ψ.ValidAt F w := by
  constructor
  · exact fun h => ⟨fun V => (h V).1, fun V => (h V).2⟩
  · exact fun ⟨hφ, hψ⟩ V => ⟨hφ V, hψ V⟩

/-- **A necessity is valid** where its operand is valid at every world that is seen. -/
theorem validAt_box_iff : (box φ).ValidAt F w ↔ ∀ v, F.contains ⟨w, v⟩ → φ.ValidAt F v := by
  constructor
  · exact fun h v hv V => h V v hv
  · exact fun h V v hv => h v hv V

/-- **Modus ponens**, at a world. -/
theorem ValidAt.mp (himplies : (implies φ ψ).ValidAt F w) (hφ : φ.ValidAt F w) : ψ.ValidAt F w := by
  intro V
  have hpremise : φ.Holds F V w := hφ V
  exact himplies V hpremise

/-- **Necessity distributes over an implication**, at every world. -/
theorem validAt_distribution (F : Frame) (φ ψ : Formula) (w : World) :
    (implies (box (implies φ ψ)) (implies (box φ) (box ψ))).ValidAt F w := by
  intro V himplies hφ v hv
  exact himplies v hv (hφ v hv)

end Formula

/-! ## In a frame -/

/-- A frame validates a conjunction exactly if it validates both its parts. -/
theorem validates_and_iff : F.validates (.and φ ψ) ↔ F.validates φ ∧ F.validates ψ := by
  simp only [validates_iff_forall_validAt, Formula.validAt_and_iff, forall_and]

/-- What a frame validates is closed under modus ponens. -/
theorem validates_mp (himplies : F.validates (.implies φ ψ)) (hφ : F.validates φ) :
    F.validates ψ := by
  rw [validates_iff_forall_validAt] at *
  exact fun w => (himplies w).mp (hφ w)

/-- What a frame validates is closed under necessitation. -/
theorem validates_box (h : F.validates φ) : F.validates (.box φ) := by
  rw [validates_iff_forall_validAt] at *
  exact fun w => Formula.validAt_box_iff.2 fun v _ => h v

/-- **The rules of inference keep validity.** A conjunction is found valid exactly at the worlds at
which both its parts are, and a necessity at those that see only worlds at which its operand is;
where an implication and its premise are found valid the conclusion is; and necessity distributes
over an implication at all worlds. So what a frame validates is closed under conjunction, modus
ponens and necessitation. -/
theorem rules_of_inference_keep_validity (F : Frame) (φ ψ : Formula) :
    (∀ w, w ∈ F.validWorlds (.and φ ψ) ↔ w ∈ F.validWorlds φ ∧ w ∈ F.validWorlds ψ)
      ∧ (∀ w, w ∈ F.validWorlds (.box φ) ↔ ∀ v ∈ F.successors w, v ∈ F.validWorlds φ)
      ∧ (∀ w, w ∈ F.validWorlds (.implies φ ψ) → w ∈ F.validWorlds φ → w ∈ F.validWorlds ψ)
      ∧ F.validWorlds (.implies (.box (.implies φ ψ)) (.implies (.box φ) (.box ψ)))
        = [.a, .b, .c, .d]
      ∧ (F.validates φ → F.validates ψ → F.validates (.and φ ψ))
      ∧ (F.validates (.implies φ ψ) → F.validates φ → F.validates ψ)
      ∧ (F.validates φ → F.validates (.box φ)) := by
  refine ⟨fun w => ?_, fun w => ?_, fun w => ?_, ?_, ?_, validates_mp, validates_box⟩
  · simp only [mem_validWorlds_iff, Formula.validAt_and_iff]
  · simp only [mem_validWorlds_iff, Formula.validAt_box_iff, Frame.mem_successors]
  · simp only [mem_validWorlds_iff]
    exact Formula.ValidAt.mp
  -- A formula that is valid everywhere is found at all worlds, whatever its parts are.
  · have hvalidates := validates_iff_forall_validAt.2 (Formula.validAt_distribution F φ ψ)
    exact validates_iff_validWorlds_eq.1 hvalidates
  · exact fun hφ hψ => validates_and_iff.2 ⟨hφ, hψ⟩

/-- Where only `a` sees itself `□p → p` is valid at `a`, so there `□p → p ∨ q` is, and the necessity
of `□p → p` is also at `b`, which sees `a` alone; where all worlds see themselves these formulas are
valid everywhere. -/
theorem rules_of_inference_keep_validity_reflexive :
    let φ : Formula := .implies (.box (.atom .p)) (.atom .p)
    let ψ : Formula := .implies (.box (.atom .p)) (.or (.atom .p) (.atom .q))
    let loop : Frame := .ofRelations [⟨.a, .a⟩, ⟨.b, .a⟩]
    let loops : Frame := .ofRelations (World.all.map fun w => ⟨w, w⟩)
    (.a ∈ loop.validWorlds (.implies φ ψ) ∧ .a ∈ loop.validWorlds φ ∧ .a ∈ loop.validWorlds ψ
        ∧ .b ∉ loop.validWorlds φ ∧ .b ∈ loop.validWorlds (.box φ))
      ∧ loops.validates (.implies φ ψ) ∧ loops.validates φ ∧ loops.validates ψ
      ∧ loops.validates (.and φ ψ) ∧ loops.validates (.box φ) := by
  intro φ ψ loop loops
  have himplies : ∀ (F : Frame) (w : World), (Formula.implies φ ψ).ValidAt F w :=
    fun F w V hφ hbox => .inl (hφ hbox)
  have hvalid : ∀ (F : Frame) (w : World), F.contains ⟨w, w⟩ → φ.ValidAt F w :=
    fun F w hw V hbox => hbox w hw
  have hloop : .a ∈ loop.validWorlds φ := mem_validWorlds_iff.2 (hvalid loop .a (by decide))
  have hloop' : .a ∈ loop.validWorlds (.implies φ ψ) := mem_validWorlds_iff.2 (himplies loop .a)
  have hloops : loops.validates φ :=
    validates_iff_forall_validAt.2 fun w => hvalid loops w (by cases w <;> decide)
  have hloops' : loops.validates (.implies φ ψ) :=
    validates_iff_forall_validAt.2 (himplies loops)
  obtain ⟨-, hbox, hmp, -⟩ := rules_of_inference_keep_validity loop φ ψ
  obtain ⟨-, -, -, -, hand, hmp', hbox'⟩ := rules_of_inference_keep_validity loops φ ψ
  have hψ : loops.validates ψ := hmp' hloops' hloops
  have hseen : ∀ v ∈ loop.successors .b, v ∈ loop.validWorlds φ := by
    have hseen : loop.successors .b = [.a] := by decide
    rw [hseen]
    exact List.forall_mem_singleton.2 hloop
  exact ⟨⟨hloop', hloop, hmp .a hloop' hloop, by decide, (hbox .b).2 hseen⟩,
    hloops', hloops, hψ, hand hloops hψ, hbox' hloops⟩

end FourWorlds
