import FourWorlds.Proofs.CanonicalIds
import Mathlib.Algebra.BigOperators.Group.Finset.Basic
import Mathlib.Algebra.GroupWithZero.Nat

/-! # Orbits partition the ids

An orbit is the ascending list of the ids of all relabelled frames, so it names each id once. The
canonical ids are found in ascending order too: when an id gives rise to a new orbit all smaller ids
have been examined, so none of them is in the orbit, and the id is its least one. Both lists describe
one partition of the ids.

* `pairwise_orbit`, `mem_orbit_iff`, `head?_orbit`: an orbit as a list.
* `OrbitTable.Lists.pairwise_enter`, `OrbitTable.pairwise_foldl_enter`: the canonical ids ascend,
  kept by entering one id, and after a run over the ids in ascending order.
* `sum_length_orbit`: the orbits of the canonical ids have all ids between them.
* `orbits_partition_ids`: all of it in one statement. -/

namespace FourWorlds

variable {i j k : FrameId} {ids : List FrameId}

/-! ## Orbits as lists -/

/-- An ascending list begins with the least of its ids. -/
theorem head?_eq_some_of_le (h : ids.Pairwise (· < ·)) (hk : k ∈ ids) (hle : ∀ j ∈ ids, k ≤ j) :
    ids.head? = some k := by
  cases ids with
  | nil => exact absurd hk List.not_mem_nil
  | cons i ids =>
      rcases List.mem_cons.1 hk with rfl | hmem
      · rfl
      · have hlt : i < k := (List.pairwise_cons.1 h).1 k hmem
        have hki : k ≤ i := hle i List.mem_cons_self
        exact absurd hki (not_le_of_gt hlt)

/-- An orbit is listed in ascending order. -/
theorem pairwise_orbit (i : FrameId) : (orbit i).Pairwise (· < ·) := by
  rw [orbit]
  exact pairwise_ascending _

/-- The ids listed are those of the orbit. -/
theorem mem_orbit : j ∈ orbit i ↔ j ∈ orbitSet i := by
  rw [orbit, mem_ascending, mem_imageIds_ofId]

/-- **The ids in an orbit are those with its canonical id.** -/
theorem mem_orbit_iff : j ∈ orbit i ↔ canonicalId j = canonicalId i := by
  rw [mem_orbit, ← equivalent_iff_mem_orbitSet, equivalent, decide_eq_true_iff, eq_comm]

/-- **An orbit begins with its canonical id.** -/
theorem head?_orbit (i : FrameId) : (orbit i).head? = some (canonicalId i) := by
  have hleast : IsLeast (orbitSet i) (canonicalId i) := isLeast_canonicalId i
  refine head?_eq_some_of_le (pairwise_orbit i) (mem_orbit.2 hleast.1) fun j hj => ?_
  exact hleast.2 (mem_orbit.1 hj)

/-! ## The canonical ids in order -/

namespace OrbitTable

/-- **Entering the next id keeps the list of canonical ids ascending**, if the ids examined before
are all those below it. -/
theorem Lists.pairwise_enter {table : OrbitTable} {examined : List FrameId}
    (hlists : table.Lists examined) (hcharts : table.Charts examined)
    (h : table.listed.toList.Pairwise (· < ·)) (hexamined : ∀ k, k ∈ examined ↔ k < i) :
    (table.enter i).listed.toList.Pairwise (· < ·) := by
  by_cases hi : (table.entry i).isSome
  · rw [enter_of_isSome hi]
    exact h
  · -- No id below `i` is in its orbit, since their orbits are known and that of `i` is not.
    have hleast := isLeast_written i
    have hnew : (least? (Frame.ofId i).imageIds).getD i = i := by
      refine le_antisymm (hleast.2 (mem_orbitSet_self i)) (not_lt.1 fun hlt => hi ?_)
      refine (hcharts.isSome_iff i).2 ⟨_, (hexamined _).2 hlt, ?_⟩
      rw [orbitSet_eq_of_mem hleast.1]
      exact mem_orbitSet_self i
    rw [listed_enter_of_none hi, hnew, Array.toList_push]
    refine List.pairwise_append.2 ⟨h, List.pairwise_singleton _ _, fun c hc j hj => ?_⟩
    -- What is listed is the least of the orbit of an examined id, so it is below `i` as well.
    obtain ⟨k, hk, hck⟩ := (hlists.mem_iff c).1 (Array.mem_toList_iff.1 hc)
    have hle : c ≤ k := hck.2 (mem_orbitSet_self k)
    rw [List.mem_singleton.1 hj]
    exact lt_of_le_of_lt hle ((hexamined k).1 hk)

/-- **A run over the ids below some number lists canonical ids in ascending order.** -/
theorem pairwise_foldl_enter (ids : List FrameId) (hsorted : ids.Pairwise (· < ·))
    (hlower : ∀ i ∈ ids, ∀ k < i, k ∈ ids) :
    (ids.foldl OrbitTable.enter empty).listed.toList.Pairwise (· < ·) := by
  induction ids using List.reverseRecOn with
  | nil => exact .nil
  | append_singleton ids i ih =>
      obtain ⟨hids, -, hlast⟩ := List.pairwise_append.1 hsorted
      have hlt : ∀ k ∈ ids, k < i := fun k hk => hlast k hk i List.mem_cons_self
      -- Whatever is below one of the ids is not the last, so the others are downward closed too.
      have hmem : ∀ k, k ∈ ids ↔ k < i := by
        intro k
        refine ⟨hlt k, fun hk => ?_⟩
        have hk' := hlower i (by simp) k hk
        simpa [hk.ne] using hk'
      have hbefore : ∀ k ∈ ids, ∀ j < k, j ∈ ids :=
        fun k hk j hj => (hmem j).2 (hj.trans (hlt k hk))
      rw [List.foldl_append]
      exact (lists_foldl_enter ids).pairwise_enter (charts_foldl_enter ids) (ih hids hbefore) hmem

end OrbitTable

/-- **The canonical ids are listed in ascending order.** -/
theorem pairwise_canonicalIds : canonicalIds.toList.Pairwise (· < ·) := by
  rw [canonicalIds, orbitTable, OrbitTable.build]
  exact OrbitTable.pairwise_foldl_enter _ (List.pairwise_lt_finRange _)
    fun _ _ k _ => List.mem_finRange k

/-! ## The partition -/

/-- The canonical id of an id is its own canonical id. -/
theorem canonicalId_canonicalId (i : FrameId) : canonicalId (canonicalId i) = canonicalId i :=
  mem_orbit_iff.1 (mem_orbit.2 (isLeast_canonicalId i).1)

/-- The canonical id of every id is listed. -/
theorem canonicalId_mem_canonicalIds (i : FrameId) : canonicalId i ∈ canonicalIds :=
  mem_canonicalIds_iff.2 (canonicalId_canonicalId i)

/-- **Every id is in the orbit of one canonical id.** -/
theorem existsUnique_mem_orbit (i : FrameId) : ∃! c, c ∈ canonicalIds ∧ i ∈ orbit c := by
  refine ⟨canonicalId i, ⟨canonicalId_mem_canonicalIds i, ?_⟩, ?_⟩
  · exact mem_orbit_iff.2 (canonicalId_canonicalId i).symm
  · rintro c ⟨hc, hi⟩
    rw [mem_orbit_iff.1 hi]
    exact (mem_canonicalIds_iff.1 hc).symm

/-- The orbit of a canonical id has as many ids as there are with that canonical id. -/
theorem length_orbit_of_mem (h : k ∈ canonicalIds) :
    (orbit k).length = (Finset.univ.filter fun i => canonicalId i = k).card := by
  have hfilter : (Finset.univ.filter fun i => canonicalId i = k) = (orbit k).toFinset := by
    ext i
    rw [Finset.mem_filter, List.mem_toFinset, mem_orbit_iff, mem_canonicalIds_iff.1 h]
    exact and_iff_right (Finset.mem_univ i)
  have hnodup : (orbit k).Nodup := (pairwise_orbit k).imp ne_of_lt
  rw [hfilter, List.toFinset_card_of_nodup hnodup]

/-- **The orbits of the canonical ids have all ids between them.** -/
theorem sum_length_orbit :
    (canonicalIds.toList.map fun c => (orbit c).length).sum = UInt16.size := by
  have hnodup : canonicalIds.toList.Nodup := pairwise_canonicalIds.imp ne_of_lt
  have hmaps : ∀ i ∈ (Finset.univ : Finset FrameId), canonicalId i ∈ canonicalIds.toList.toFinset :=
    fun i _ => List.mem_toFinset.2 (Array.mem_toList_iff.2 (canonicalId_mem_canonicalIds i))
  calc (canonicalIds.toList.map fun c => (orbit c).length).sum
      = ∑ c ∈ canonicalIds.toList.toFinset, (orbit c).length := (List.sum_toFinset _ hnodup).symm
    _ = ∑ c ∈ canonicalIds.toList.toFinset,
          (Finset.univ.filter fun i => canonicalId i = c).card := by
        refine Finset.sum_congr rfl fun c hc => length_orbit_of_mem ?_
        exact Array.mem_toList_iff.1 (List.mem_toFinset.1 hc)
    _ = (Finset.univ : Finset FrameId).card := (Finset.card_eq_sum_card_fiberwise hmaps).symm
    _ = UInt16.size := Finset.card_fin _

/-- **The orbits partition the ids.** Each orbit is listed in ascending order, has exactly the ids
with the canonical id of any of them, and begins with that. The canonical ids are listed in ascending
order and are the ids that are their own canonical ids; so every id is in the orbit of exactly one of
them, and the sizes of their orbits add up to the number of ids. -/
theorem orbits_partition_ids :
    (∀ i : FrameId, (orbit i).Pairwise (· < ·)
        ∧ (∀ j, j ∈ orbit i ↔ canonicalId j = canonicalId i)
        ∧ (orbit i).head? = some (canonicalId i))
      ∧ canonicalIds.toList.Pairwise (· < ·)
      ∧ (∀ c, c ∈ canonicalIds ↔ canonicalId c = c)
      ∧ (∀ i, ∃! c, c ∈ canonicalIds ∧ i ∈ orbit c)
      ∧ (canonicalIds.toList.map fun c => (orbit c).length).sum = 65536 := by
  refine ⟨fun i => ⟨pairwise_orbit i, fun j => mem_orbit_iff, head?_orbit i⟩,
    pairwise_canonicalIds, fun c => mem_canonicalIds_iff, existsUnique_mem_orbit, ?_⟩
  exact sum_length_orbit

end FourWorlds
