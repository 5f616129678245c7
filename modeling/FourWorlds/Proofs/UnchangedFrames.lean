import FourWorlds.Proofs.Relabelling
import Mathlib.Data.Finset.Powerset
import Mathlib.Data.List.MinMax
import Mathlib.Data.Set.Card
import Mathlib.Logic.Function.Iterate

/-! # Frames that a relabelling leaves unchanged

Applying a one-to-one relabelling again and again takes a relation round a cycle of at most four. A
frame is left unchanged exactly if it has all or none of the relations of each cycle, so it is given
by the relations it has among those that lead a cycle, and any choice of these is possible.

* `Relation.cycle`, `Relation.leader`: the relations of a cycle, and the first of them.
* `Frame.relabelled_eq_self_iff`: when a frame is left unchanged.
* `Frame.ncard_unchanged`: how many frames a relabelling leaves unchanged. -/

namespace FourWorlds

variable {f : Relabelling} {F : Frame} {r s : Relation}

/-! ## Cycles -/

/-- A one-to-one relabelling that is applied some four times or fewer gives every world back. -/
theorem Relabelling.exists_iterate_eq (hf : f ∈ all) : ∃ n, n < 4 ∧ ∀ w, f^[n + 1] w = w := by
  have hall : (all.all fun f => (List.range 4).any fun n =>
      World.all.map f^[n + 1] = World.all.map id) = true := by decide +kernel
  obtain ⟨n, hn, hmap⟩ := List.any_eq_true.1 (List.all_eq_true.1 hall f hf)
  refine ⟨n, List.mem_range.1 hn, fun w => ?_⟩
  exact List.map_inj_left.1 (of_decide_eq_true hmap) w (World.mem_all w)

namespace Relation

/-- The relations that one becomes when a relabelling is applied less than four times. -/
def cycle (f : Relabelling) (r : Relation) : List Relation :=
  (List.range 4).map fun n => r.relabelled f^[n]

/-- The first of the relations of a cycle, in the order of all relations. -/
def leader (f : Relabelling) (r : Relation) : Relation := ((cycle f r).argmin index).getD r

/-- The relations of a cycle are those that one becomes when a relabelling is applied. -/
theorem mem_cycle : s ∈ cycle f r ↔ ∃ n < 4, r.relabelled f^[n] = s := by
  simp [cycle]

/-- What relabelling once keeps is the same on the whole cycle. -/
theorem eq_of_mem_cycle {β : Type} {g : Relation → β} (h : ∀ r, g (r.relabelled f) = g r)
    (hs : s ∈ cycle f r) : g s = g r := by
  obtain ⟨n, -, rfl⟩ := mem_cycle.1 hs
  clear hs
  induction n with
  | zero => rfl
  | succ n ih =>
      rw [Function.iterate_succ', ← ih]
      exact h (r.relabelled f^[n])

/-- The leader belongs to the cycle, and no other relation of the cycle comes before it. -/
theorem leader_mem_cycle (f : Relabelling) (r : Relation) :
    leader f r ∈ cycle f r ∧ ∀ s ∈ cycle f r, (leader f r).index ≤ s.index := by
  cases hleast : (cycle f r).argmin index with
  | none =>
      have hself : r ∈ cycle f r := mem_cycle.2 ⟨0, by omega, rfl⟩
      rw [List.argmin_eq_none.1 hleast] at hself
      cases hself
  | some s =>
      rw [leader, hleast, Option.getD_some]
      exact ⟨List.argmin_mem hleast, fun t ht => List.le_of_mem_argmin ht hleast⟩

/-- Relations with the same cycle have the same leader. -/
theorem leader_congr (h : ∀ t, t ∈ cycle f r ↔ t ∈ cycle f s) : leader f r = leader f s := by
  obtain ⟨hr, hler⟩ := leader_mem_cycle f r
  obtain ⟨hs, hles⟩ := leader_mem_cycle f s
  exact index_inj.1 (le_antisymm (hler _ ((h _).2 hs)) (hles _ ((h _).1 hr)))

/-- **A one-to-one relabelling keeps the leader**, since the relabelled relation is in the same
cycle. -/
theorem leader_relabelled (hf : f ∈ Relabelling.all) (r : Relation) :
    leader f (r.relabelled f) = leader f r := by
  obtain ⟨k, hk, hback⟩ := Relabelling.exists_iterate_eq hf
  have hround : ∀ n, r.relabelled f^[n + (k + 1)] = r.relabelled f^[n] := by
    intro n
    simp only [relabelled, Function.iterate_add_apply f n (k + 1), hback]
  refine leader_congr fun t => ?_
  rw [mem_cycle, mem_cycle]
  constructor
  · rintro ⟨n, hn, rfl⟩
    by_cases hlast : n + 1 < 4
    · exact ⟨n + 1, hlast, rfl⟩
    · -- The fourth step leads back to where some earlier one led.
      refine ⟨n - k, by omega, ?_⟩
      rw [← hround, show n - k + (k + 1) = n + 1 by omega]
      rfl
  · rintro ⟨n, hn, rfl⟩
    cases n with
    | zero => exact ⟨k, hk, hround 0 ▸ by rw [Nat.zero_add]; rfl⟩
    | succ n => exact ⟨n, by omega, rfl⟩

/-- The leader of a cycle leads it itself. -/
theorem leader_leader (hf : f ∈ Relabelling.all) (r : Relation) :
    leader f (leader f r) = leader f r :=
  eq_of_mem_cycle (leader_relabelled hf) (leader_mem_cycle f r).1

/-- The relations that lead a cycle. -/
def leaders (f : Relabelling) : List Relation := all.filter fun r => leader f r = r

/-- The leaders are listed each once. -/
theorem nodup_leaders (f : Relabelling) : (leaders f).Nodup := nodup_all.filter _

/-- A relation is among the leaders exactly if it leads its own cycle. -/
theorem mem_leaders : r ∈ leaders f ↔ leader f r = r := by
  simp [leaders]

end Relation

/-! ## Unchanged frames -/

namespace Frame

/-- A frame is left unchanged exactly if it has the image of each relation that it has, and of no
other. -/
theorem relabelled_eq_self_iff (hf : f ∈ Relabelling.all) :
    F.relabelled f = F ↔ ∀ r, F.contains (r.relabelled f) = F.contains r := by
  have hbijective := Relabelling.mem_all_iff.1 hf
  constructor
  · intro h r
    have himage := contains_relabelled_image (F := F) hbijective.injective r.source r.target
    rw [h] at himage
    exact Bool.eq_iff_iff.2 himage
  · intro h
    ext ⟨x, y⟩
    -- Both ends are images, and on images the two frames agree.
    obtain ⟨v, rfl⟩ := hbijective.surjective x
    obtain ⟨w, rfl⟩ := hbijective.surjective y
    rw [Bool.eq_iff_iff, contains_relabelled_image hbijective.injective]
    exact Bool.eq_iff_iff.1 (h ⟨v, w⟩).symm

/-- **A frame is left unchanged exactly if it has all or none of the relations of each cycle.** -/
theorem relabelled_eq_self_iff_leader (hf : f ∈ Relabelling.all) :
    F.relabelled f = F ↔ ∀ r, F.contains (Relation.leader f r) = F.contains r := by
  rw [relabelled_eq_self_iff hf]
  constructor
  · exact fun h r => Relation.eq_of_mem_cycle h (Relation.leader_mem_cycle f r).1
  · intro h r
    rw [← h (r.relabelled f), Relation.leader_relabelled hf, h]

/-- The frame that has just the cycles of some leaders. -/
def ofLeaders (f : Relabelling) (chosen : Finset Relation) : Frame :=
  ofRelations (Relation.all.filter (Relation.leader f · ∈ chosen))

/-- A relation belongs to the frame of some leaders exactly if one of these leads its cycle. -/
theorem contains_ofLeaders {chosen : Finset Relation} :
    (ofLeaders f chosen).contains r ↔ Relation.leader f r ∈ chosen := by
  simp [ofLeaders]

/-- The leaders that the frame of some leaders has are these. -/
theorem leaders_ofLeaders {chosen : Finset Relation}
    (h : chosen ⊆ (Relation.leaders f).toFinset) :
    (Relation.leaders f).toFinset.filter ((ofLeaders f chosen).contains ·) = chosen := by
  ext r
  rw [Finset.mem_filter, List.mem_toFinset, Relation.mem_leaders, contains_ofLeaders]
  constructor
  · rintro ⟨hr, hmem⟩
    rwa [hr] at hmem
  · intro hmem
    have hr : Relation.leader f r = r := Relation.mem_leaders.1 (List.mem_toFinset.1 (h hmem))
    exact ⟨hr, hr.symm ▸ hmem⟩

/-- **A relabelling leaves as many frames unchanged as there are choices among its cycles.** -/
theorem ncard_unchanged (hf : f ∈ Relabelling.all) :
    {F : Frame | F.relabelled f = F}.ncard = 2 ^ (Relation.leaders f).length := by
  have himage : {F : Frame | F.relabelled f = F}
      = ofLeaders f '' ((Relation.leaders f).toFinset.powerset : Set (Finset Relation)) := by
    ext F
    rw [Set.mem_ofPred_eq, relabelled_eq_self_iff_leader hf]
    constructor
    · intro h
      refine ⟨(Relation.leaders f).toFinset.filter (F.contains ·), ?_, ?_⟩
      · exact Finset.mem_powerset.2 (Finset.filter_subset _ _)
      · ext r
        rw [Bool.eq_iff_iff, contains_ofLeaders, Finset.mem_filter, List.mem_toFinset,
          Relation.mem_leaders, Relation.leader_leader hf, h]
        exact and_iff_right rfl
    · rintro ⟨chosen, -, rfl⟩ r
      rw [Bool.eq_iff_iff, contains_ofLeaders, contains_ofLeaders, Relation.leader_leader hf]
  have hinjective : Set.InjOn (ofLeaders f)
      ((Relation.leaders f).toFinset.powerset : Set (Finset Relation)) := by
    intro chosen hchosen other hother heq
    rw [← leaders_ofLeaders (Finset.mem_powerset.1 hchosen), heq,
      leaders_ofLeaders (Finset.mem_powerset.1 hother)]
  rw [himage, hinjective.ncard_image, Set.ncard_coe_finset, Finset.card_powerset,
    List.toFinset_card_of_nodup (Relation.nodup_leaders f)]

end Frame

end FourWorlds
