import FourWorlds.Proofs.Confluence
import FourWorlds.Proofs.Morphism
import Mathlib.Logic.Function.Basic

/-! # Validity along maps of some worlds

A map of frames need not be defined at worlds that those of interest never see, and it may take
several worlds to one. Every reading of the atoms in the frame it leads to is one in the frame it
comes from, read at the images, so what is valid at a world stays so at its image. Leaving the
worlds reached from a given one as they are is such a map between frames that agree on these worlds,
so validity there depends on no other relations.

* `Frame.isBoundedMorphism_extend`: a map of some worlds that respects what is seen.
* `Frame.isBoundedMorphism_self`: frames that agree on what some worlds see.
* `Formula.validAt_iff_of_agree`: validity at these worlds is the same in both.
* `partial_morphism_carries_validity`: the worlds found valid are carried along a map of some
  worlds, and depend on the relations of the reached worlds only. -/

namespace FourWorlds

variable {F G : Frame} {S : Set World} {φ : Formula} {n : Nat} {u v w : World}

namespace Frame

/-! ## Maps of some worlds -/

/-- A map of some worlds, which see no others, respects what is seen if an image sees exactly the
images of what is seen. -/
theorem isBoundedMorphism_extend {f : S → World} (hclosed : ∀ u ∈ S, ∀ v ∈ F.successors u, v ∈ S)
    (himage : ∀ (u : S) (y : World),
      y ∈ G.successors (f u) ↔ ∃ v : S, ↑v ∈ F.successors u ∧ f v = y) :
    F.IsBoundedMorphism G S (Function.extend Subtype.val f fun w => w) where
  mem_of_contains u hu v hv := hclosed u hu v (mem_successors.2 hv)
  contains_iff u hu y := by
    -- Only values at worlds of the set come up, since these see no others.
    have hextend : ∀ v : S, Function.extend Subtype.val f (fun w => w) v = f v :=
      Subtype.val_injective.extend_apply f fun w => w
    rw [hextend ⟨u, hu⟩, ← mem_successors, himage ⟨u, hu⟩]
    constructor
    · rintro ⟨v, hv, rfl⟩
      exact ⟨v, mem_successors.1 hv, hextend v⟩
    · rintro ⟨v, hv, rfl⟩
      have hseen : v ∈ F.successors u := mem_successors.2 hv
      exact ⟨⟨v, hclosed u hu v hseen⟩, hseen, (hextend ⟨v, _⟩).symm⟩

/-! ## Frames that agree on some worlds -/

/-- Leaving some worlds as they are respects what is seen, if they see the same worlds in both
frames and no others. -/
theorem isBoundedMorphism_self (hclosed : ∀ u ∈ S, ∀ v, F.contains ⟨u, v⟩ → v ∈ S)
    (hagree : ∀ u ∈ S, ∀ v, F.contains ⟨u, v⟩ = G.contains ⟨u, v⟩) :
    F.IsBoundedMorphism G S fun w => w where
  mem_of_contains := hclosed
  contains_iff u hu y := by
    rw [← hagree u hu y]
    simp only [exists_eq_right]

end Frame

/-- **Validity at some worlds is the same in two frames** in which these see the same worlds and no
others. -/
theorem Formula.validAt_iff_of_agree (hclosed : ∀ u ∈ S, ∀ v, F.contains ⟨u, v⟩ → v ∈ S)
    (hagree : ∀ u ∈ S, ∀ v, F.contains ⟨u, v⟩ = G.contains ⟨u, v⟩) (hw : w ∈ S) :
    φ.ValidAt F w ↔ φ.ValidAt G w := by
  constructor
  · intro h
    exact h.of_isBoundedMorphism (Frame.isBoundedMorphism_self hclosed hagree) hw
  · intro h
    -- The worlds see no others in the second frame either, so the way back is the same.
    have hclosed' : ∀ u ∈ S, ∀ v, G.contains ⟨u, v⟩ → v ∈ S :=
      fun u hu v hv => hclosed u hu v (hagree u hu v ▸ hv)
    have hagree' : ∀ u ∈ S, ∀ v, G.contains ⟨u, v⟩ = F.contains ⟨u, v⟩ :=
      fun u hu v => (hagree u hu v).symm
    exact h.of_isBoundedMorphism (Frame.isBoundedMorphism_self hclosed' hagree') hw

/-- **Validity goes along maps of some worlds.** If some worlds of a frame see no others, and a map
of them, which may take several to one, is such that an image sees exactly the images of what is
seen, then a formula found valid at one of the worlds is found valid at its image. In particular,
two frames in which the worlds reached from a given one see the same worlds agree on the validity of
every formula there. -/
theorem partial_morphism_carries_validity (F G : Frame) :
    (∀ S : Set World, (∀ u ∈ S, ∀ v ∈ F.successors u, v ∈ S) → ∀ f : S → World,
        (∀ (u : S) (y : World),
          y ∈ G.successors (f u) ↔ ∃ v : S, ↑v ∈ F.successors u ∧ f v = y) →
        ∀ (φ : Formula) (w : S), ↑w ∈ F.validWorlds φ → f w ∈ G.validWorlds φ)
      ∧ ∀ w, (∀ n v, F.Reaches n w v → ∀ u, F.contains ⟨v, u⟩ = G.contains ⟨v, u⟩) →
        ∀ φ, w ∈ F.validWorlds φ ↔ w ∈ G.validWorlds φ := by
  constructor
  · intro S hclosed f himage φ w hw
    have hvalid : φ.ValidAt F w := mem_validWorlds_iff.1 hw
    have hcarried := hvalid.of_isBoundedMorphism (Frame.isBoundedMorphism_extend hclosed himage) w.2
    rw [Subtype.val_injective.extend_apply] at hcarried
    exact mem_validWorlds_iff.2 hcarried
  · intro w hagree φ
    rw [mem_validWorlds_iff, mem_validWorlds_iff]
    -- The worlds that are reached see no others.
    refine Formula.validAt_iff_of_agree (S := {v | ∃ n, F.Reaches n w v}) ?_ ?_ ⟨0, .here⟩
    · rintro u ⟨n, hu⟩ v huv
      exact ⟨n + 1, hu.tail huv⟩
    · rintro u ⟨n, hu⟩
      exact hagree n u hu

/-- Two worlds that see each other are taken to one that sees itself, and `□p → ⋄p` is valid there
as it is at the two; nor does a relation between worlds that are not reached matter to it. -/
theorem partial_morphism_carries_validity_collapse :
    let cycle : Frame := .ofRelations [⟨.a, .b⟩, ⟨.b, .a⟩]
    let loop : Frame := .ofRelations [⟨.c, .c⟩]
    let more : Frame := .ofRelations [⟨.a, .b⟩, ⟨.b, .a⟩, ⟨.c, .d⟩]
    let φ : Formula := .implies (.box (.atom .p)) (.diamond (.atom .p))
    let S : Set World := fun w => w = .a ∨ w = .b
    let f : S → World := fun _ => .c
    ((∀ u ∈ S, ∀ v ∈ cycle.successors u, v ∈ S)
        ∧ (∀ (u : S) (y : World),
          y ∈ loop.successors (f u) ↔ ∃ v : S, ↑v ∈ cycle.successors u ∧ f v = y)
        ∧ .a ∈ cycle.validWorlds φ ∧ .c ∈ loop.validWorlds φ)
      ∧ (∀ n v, cycle.Reaches n .a v → ∀ u, cycle.contains ⟨v, u⟩ = more.contains ⟨v, u⟩)
      ∧ (.a ∈ cycle.validWorlds φ ↔ .a ∈ more.validWorlds φ) := by
  intro cycle loop more φ S f
  have hclosed : ∀ u, (u = .a ∨ u = .b) → ∀ v ∈ cycle.successors u, v = .a ∨ v = .b := by decide
  have himage : ∀ (u : S) (y : World),
      y ∈ loop.successors (f u) ↔ ∃ v : S, ↑v ∈ cycle.successors u ∧ f v = y := by
    have hboth : ∀ u, (u = .a ∨ u = .b) → ∀ y, y ∈ loop.successors .c
        ↔ ∃ v, ∃ _ : v = .a ∨ v = .b, v ∈ cycle.successors u ∧ .c = y := by decide
    intro u y
    rw [hboth u u.2, Subtype.exists]
    rfl
  have hvalid : .a ∈ cycle.validWorlds φ := by decide
  have hagree : ∀ n v, cycle.Reaches n .a v →
      ∀ u, cycle.contains ⟨v, u⟩ = more.contains ⟨v, u⟩ := by
    -- The two frames differ at `c` alone, to which no relation leads.
    have hentered : ∀ u v, cycle.contains ⟨u, v⟩ → v ≠ .c := by decide
    have hsame : ∀ v, v ≠ .c → ∀ u, cycle.contains ⟨v, u⟩ = more.contains ⟨v, u⟩ := by decide
    have hreached : ∀ {n u v}, cycle.Reaches n u v → u ≠ .c → v ≠ .c := by
      intro n u v h
      induction h with
      | here => exact fun h => h
      | step huv _ ih => exact fun _ => ih (hentered _ _ huv)
    exact fun n v hv => hsame v (hreached hv (by decide))
  exact ⟨⟨hclosed, himage, hvalid,
    (partial_morphism_carries_validity cycle loop).1 S hclosed f himage φ ⟨.a, .inl rfl⟩ hvalid⟩,
    hagree, (partial_morphism_carries_validity cycle more).2 .a hagree φ⟩

end FourWorlds
