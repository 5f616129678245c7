import FourWorlds.Proofs.Arrangement
import FourWorlds.Proofs.OrbitPartition
import FourWorlds.Proofs.UnchangedFrames
import Mathlib.Data.Fintype.Perm
import Mathlib.GroupTheory.GroupAction.Quotient
import Mathlib.GroupTheory.Index
import Mathlib.SetTheory.Cardinal.Finite

/-! # How many orbits there are

The bijections of the worlds act on the frames by renaming, and the orbits listed are those of this
action. So the size of an orbit and the number of relabellings that leave its frame unchanged multiply
to the number of all relabellings, and the orbits can be counted by the frames that each relabelling
leaves unchanged.

* `perm_relabellings`: the relabellings listed are the bijections of the worlds.
* `length_orbit_mul_countP`: the size of an orbit.
* `card_orbits`: each orbit has one canonical id.
* `sum_countP_unchanged`: the orbits counted by unchanged frames.
* `size_canonicalIds`: the number of canonical ids.
* `orbits_counted_by_unchanged_frames`: all of it in one statement. -/

namespace FourWorlds

variable {f : Relabelling} {F G : Frame} {i : FrameId}

/-! ## Counting in lists -/

/-- Counting in a list without repetitions counts the members of a set. -/
theorem countP_eq_ncard {α : Type} {l : List α} (h : l.Nodup) (p : α → Prop) [DecidablePred p] :
    l.countP (fun x => p x) = {x | x ∈ l ∧ p x}.ncard := by
  classical
  have hset : {x | x ∈ l ∧ p x} = ((l.filter fun x => p x).toFinset : Set α) := by
    ext x
    simp
  rw [hset, Set.ncard_coe_finset, List.toFinset_card_of_nodup (h.filter _),
    List.countP_eq_length_filter]

/-- The relabellings are listed each once. -/
theorem nodup_relabellings : Relabelling.all.Nodup := by
  refine (nodup_arrangements World.nodup_all).filterMap fun row row' f hrow hrow' => ?_
  rw [Relabelling.ofList?_eq_some_iff.1 hrow, Relabelling.ofList?_eq_some_iff.1 hrow']

/-- **The relabellings listed are the bijections of the worlds**, in some order. -/
theorem perm_relabellings : Relabelling.all.Perm
    ((Finset.univ : Finset (Equiv.Perm World)).toList.map DFunLike.coe) := by
  have hnodup : (Finset.univ : Finset (Equiv.Perm World)).toList.Nodup := Finset.nodup_toList _
  refine (List.perm_ext_iff_of_nodup nodup_relabellings
    (hnodup.map DFunLike.coe_injective)).2 fun f => ?_
  rw [Relabelling.mem_all_iff, List.mem_map]
  constructor
  · exact fun hf => ⟨Equiv.ofBijective f hf, Finset.mem_toList.2 (Finset.mem_univ _), rfl⟩
  · rintro ⟨σ, -, rfl⟩
    exact σ.bijective

/-- Counting among the relabellings listed counts bijections. -/
theorem countP_relabellings (p : Relabelling → Prop) [DecidablePred p] :
    Relabelling.all.countP (fun f => p f) = {σ : Equiv.Perm World | p σ}.ncard := by
  have hcount := countP_eq_ncard (Finset.nodup_toList (Finset.univ : Finset (Equiv.Perm World)))
    fun σ => p σ
  simp only [Finset.mem_toList, Finset.mem_univ, true_and] at hcount
  rw [perm_relabellings.countP_eq, List.countP_map, ← hcount]
  rfl

/-- Frames with the same id are equal. -/
theorem Frame.ofId_injective : Function.Injective Frame.ofId :=
  Function.LeftInverse.injective id_ofId

/-- Counting among all ids counts frames. -/
theorem countP_ids (p : Frame → Prop) [DecidablePred p] :
    (List.finRange UInt16.size).countP (fun i => p (Frame.ofId i)) = {F | p F}.ncard := by
  have himage : {F | p F} = Frame.ofId '' {i | i ∈ List.finRange UInt16.size ∧ p (Frame.ofId i)} := by
    ext F
    constructor
    · intro hp
      refine ⟨F.id, ⟨List.mem_finRange _, ?_⟩, F.ofId_id⟩
      rwa [F.ofId_id]
    · rintro ⟨i, ⟨-, hp⟩, rfl⟩
      exact hp
  rw [himage, Set.ncard_image_of_injective _ Frame.ofId_injective,
    countP_eq_ncard (List.nodup_finRange _) fun i => p (Frame.ofId i)]

/-! ## The action on frames -/

/-- There are finitely many frames. -/
instance : Finite Frame :=
  Finite.of_injective Frame.id (Function.LeftInverse.injective Frame.ofId_id)

/-- The bijections of the worlds act on the frames by renaming. -/
instance : MulAction (Equiv.Perm World) Frame where
  smul σ F := F.relabelled σ
  one_smul F := F.relabelled_eq_self fun _ => rfl
  mul_smul τ σ F := (F.relabelled_relabelled σ τ).symm

/-- The orbit of a frame has the frames that are like it. -/
theorem mem_orbit_iff_alike : G ∈ MulAction.orbit (Equiv.Perm World) F ↔ F.Alike G := by
  constructor
  · rintro ⟨σ, rfl⟩
    exact ⟨σ, σ.bijective, rfl⟩
  · rintro ⟨f, hf, rfl⟩
    exact ⟨Equiv.ofBijective f hf, rfl⟩

/-- **An orbit is listed with as many ids as it has frames.** -/
theorem length_orbit (i : FrameId) :
    (orbit i).length = (MulAction.orbit (Equiv.Perm World) (Frame.ofId i)).ncard := by
  have himage : MulAction.orbit (Equiv.Perm World) (Frame.ofId i)
      = Frame.ofId '' ((orbit i).toFinset : Set FrameId) := by
    ext F
    rw [mem_orbit_iff_alike]
    constructor
    · intro h
      refine ⟨F.id, List.mem_toFinset.2 (mem_orbit.2 ?_), F.ofId_id⟩
      rwa [mem_orbitSet_iff, F.ofId_id]
    · rintro ⟨j, hj, rfl⟩
      exact mem_orbit.1 (List.mem_toFinset.1 hj)
  have hnodup : (orbit i).Nodup := (pairwise_orbit i).imp ne_of_lt
  rw [himage, Set.ncard_image_of_injective _ Frame.ofId_injective, Set.ncard_coe_finset,
    List.toFinset_card_of_nodup hnodup]

/-- There are twenty-four bijections of the worlds. -/
theorem card_perm_world : Nat.card (Equiv.Perm World) = 24 := by
  rw [Nat.card_eq_fintype_card, Fintype.card_perm]
  rfl

/-- **The size of an orbit times the number of relabellings that leave its frame unchanged** is the
number of all relabellings. -/
theorem length_orbit_mul_countP (i : FrameId) : (orbit i).length
    * Relabelling.all.countP (fun f => (Frame.ofId i).relabelled f = Frame.ofId i) = 24 := by
  have hstabilizer : {σ : Equiv.Perm World | (Frame.ofId i).relabelled σ = Frame.ofId i}.ncard
      = Nat.card (MulAction.stabilizer (Equiv.Perm World) (Frame.ofId i)) := rfl
  rw [length_orbit, ← MulAction.index_stabilizer, countP_relabellings, hstabilizer,
    Subgroup.index_mul_card, card_perm_world]

/-- The orbit of a frame, as one of the orbits of the action. -/
def Frame.toOrbit (F : Frame) : MulAction.orbitRel.Quotient (Equiv.Perm World) Frame :=
  Quotient.mk _ F

/-- Frames have the same orbit exactly if they are alike. -/
theorem Frame.toOrbit_eq_iff : F.toOrbit = G.toOrbit ↔ G.Alike F := by
  rw [toOrbit, toOrbit, Quotient.eq, MulAction.orbitRel_apply, mem_orbit_iff_alike]

/-- **Each orbit has one canonical id.** -/
theorem card_orbits :
    Nat.card (MulAction.orbitRel.Quotient (Equiv.Perm World) Frame) = canonicalIds.size := by
  have hnodup : canonicalIds.toList.Nodup := pairwise_canonicalIds.imp ne_of_lt
  have hmem : ∀ c, c ∈ (canonicalIds.toList.toFinset : Set FrameId) ↔ canonicalId c = c := by
    intro c
    rw [Finset.mem_coe, List.mem_toFinset, Array.mem_toList_iff, mem_canonicalIds_iff]
  have himage : (fun c => (Frame.ofId c).toOrbit) '' (canonicalIds.toList.toFinset : Set FrameId)
      = Set.univ := by
    refine Set.eq_univ_of_forall fun q => ?_
    induction q using Quotient.ind with
    | _ F =>
        have halike := mem_orbitSet_iff.1 (isLeast_canonicalId F.id).1
        rw [F.ofId_id] at halike
        exact ⟨canonicalId F.id, (hmem _).2 (canonicalId_canonicalId F.id),
          Frame.toOrbit_eq_iff.2 halike⟩
  have hinjective : Set.InjOn (fun c => (Frame.ofId c).toOrbit)
      (canonicalIds.toList.toFinset : Set FrameId) := by
    intro c hc d hd h
    have heq : canonicalId c = canonicalId d :=
      mem_orbit_iff.1 (mem_orbit.2 (Frame.toOrbit_eq_iff.1 h))
    rwa [(hmem c).1 hc, (hmem d).1 hd] at heq
  rw [← Set.ncard_univ, ← himage, hinjective.ncard_image, Set.ncard_coe_finset,
    List.toFinset_card_of_nodup hnodup, Array.length_toList]

/-- **The orbits counted by unchanged frames.** -/
theorem sum_countP_unchanged : (Relabelling.all.map fun f => (List.finRange UInt16.size).countP
    fun i => (Frame.ofId i).relabelled f = Frame.ofId i).sum = 24 * canonicalIds.size := by
  classical
  have := Fintype.ofFinite Frame
  have := Fintype.ofFinite (MulAction.orbitRel.Quotient (Equiv.Perm World) Frame)
  have hunchanged : ∀ σ : Equiv.Perm World, (List.finRange UInt16.size).countP
      (fun i => (Frame.ofId i).relabelled σ = Frame.ofId i)
      = Fintype.card (MulAction.fixedBy Frame σ) := by
    intro σ
    rw [countP_ids fun F => F.relabelled σ = F, ← Nat.card_eq_fintype_card]
    rfl
  have hburnside := MulAction.sum_card_fixedBy_eq_card_orbits_mul_card_group (Equiv.Perm World) Frame
  rw [← Nat.card_eq_fintype_card, ← Nat.card_eq_fintype_card, card_perm_world, card_orbits,
    Nat.mul_comm] at hburnside
  rw [← hburnside, (perm_relabellings.map _).sum_eq, List.map_map, Finset.sum_map_toList]
  refine Finset.sum_congr rfl fun σ _ => ?_
  rw [Function.comp_apply, hunchanged σ]

/-- **There are 3044 canonical ids.** -/
theorem size_canonicalIds : canonicalIds.size = 3044 := by
  have hsum : (Relabelling.all.map fun f => (List.finRange UInt16.size).countP
      fun i => (Frame.ofId i).relabelled f = Frame.ofId i)
      = Relabelling.all.map fun f => 2 ^ (Relation.leaders f).length := by
    refine List.map_congr_left fun f hf => ?_
    rw [countP_ids fun F => F.relabelled f = F]
    exact Frame.ncard_unchanged hf
  have hcycles : (Relabelling.all.map fun f => 2 ^ (Relation.leaders f).length).sum = 24 * 3044 := by
    decide +kernel
  have hcount := sum_countP_unchanged
  rw [hsum, hcycles] at hcount
  omega

/-- **Orbits are counted by unchanged frames.** The size of an orbit times the number of relabellings
that leave its frame unchanged is the number of all relabellings, which is twenty-four. So that number
times the number of orbits is the sum, over the relabellings, of how many frames each leaves unchanged;
and there are 3044 orbits. -/
theorem orbits_counted_by_unchanged_frames :
    (∀ i : FrameId, (orbit i).length
        * Relabelling.all.countP (fun f => (Frame.ofId i).relabelled f = Frame.ofId i) = 24)
      ∧ Relabelling.all.length = 24
      ∧ 24 * canonicalIds.size = (Relabelling.all.map fun f => (List.finRange UInt16.size).countP
        fun i => (Frame.ofId i).relabelled f = Frame.ofId i).sum
      ∧ canonicalIds.size = 3044 :=
  ⟨length_orbit_mul_countP, rfl, sum_countP_unchanged.symm, size_canonicalIds⟩

end FourWorlds
