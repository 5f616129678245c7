import FourWorlds.Proofs.Orbit

/-! # The canonical ids listed

Each orbit is entered once, with its least id, so the ids listed are the least ones of the orbits of
the ids examined. After all ids have been examined these are the ids that are their own canonical ids.

* `OrbitTable.Lists`: the canonical ids listed are those of the orbits of the ids examined.
* `OrbitTable.Lists.enter`, `OrbitTable.lists_foldl_enter`: what entering one id keeps, and a run over
  a list of ids.
* `mem_canonicalIds_iff`: the ids listed are those that are their own canonical ids. -/

namespace FourWorlds

namespace OrbitTable

/-- A table that lists the least ids of the orbits of the ids examined so far. -/
structure Lists (table : OrbitTable) (examined : List FrameId) : Prop where
  /-- The ids listed are the least ones of the orbits examined. -/
  mem_iff : ∀ c : FrameId, c ∈ table.listed ↔ ∃ i ∈ examined, IsLeast (orbitSet i) c

/-- The table in which no orbit is known lists nothing. -/
theorem lists_empty : empty.Lists [] where
  mem_iff c := by simp [empty, listed]

/-- An id without an entry adds the least id of its orbit to the list. -/
theorem listed_enter_of_none {table : OrbitTable} {i : FrameId} (h : ¬ (table.entry i).isSome) :
    (table.enter i).listed = table.listed.push ((least? (Frame.ofId i).imageIds).getD i) := by
  rw [enter, if_neg h, listed, listed]

/-- **Entering an id keeps the list** that of the orbits examined. -/
theorem Lists.enter {table : OrbitTable} {examined : List FrameId} (h : table.Lists examined)
    (hcharts : table.Charts examined) (i : FrameId) : (table.enter i).Lists (examined ++ [i]) := by
  refine ⟨fun c => ?_⟩
  have hmem : (∃ k ∈ examined ++ [i], IsLeast (orbitSet k) c)
      ↔ (∃ k ∈ examined, IsLeast (orbitSet k) c) ∨ IsLeast (orbitSet i) c := by
    simp only [List.mem_append, List.mem_singleton, or_and_right, exists_or, exists_eq_left]
  by_cases hi : (table.entry i).isSome
  · -- The orbit of `i` was examined before under another id, so its least id is listed already.
    obtain ⟨k, hk, hik⟩ := (hcharts.isSome_iff i).1 hi
    rw [enter_of_isSome hi, h.mem_iff, hmem, orbitSet_eq_of_mem hik]
    exact (or_iff_left_of_imp fun hc => ⟨k, hk, hc⟩).symm
  · rw [listed_enter_of_none hi, Array.mem_push, h.mem_iff, hmem]
    refine or_congr_right ⟨fun hc => hc ▸ isLeast_written i, fun hc => ?_⟩
    exact hc.unique (isLeast_written i)

/-- A table made from nothing lists the orbits of the ids entered. -/
theorem lists_foldl_enter (ids : List FrameId) : (ids.foldl OrbitTable.enter empty).Lists ids := by
  induction ids using List.reverseRecOn with
  | nil => exact lists_empty
  | append_singleton ids i ih =>
      rw [List.foldl_append]
      exact ih.enter (charts_foldl_enter ids) i

/-- The table of all orbits lists those of all ids. -/
theorem lists_orbitTable : orbitTable.Lists (List.finRange UInt16.size) := lists_foldl_enter _

end OrbitTable

/-- **The ids listed are those that are their own canonical ids.** -/
theorem mem_canonicalIds_iff {c : FrameId} : c ∈ canonicalIds ↔ canonicalId c = c := by
  rw [canonicalIds, OrbitTable.lists_orbitTable.mem_iff]
  refine ⟨?_, fun h => ?_⟩
  · -- The least id of an orbit belongs to that orbit.
    rintro ⟨i, -, hc⟩
    rw [← orbitSet_eq_of_mem hc.1] at hc
    exact (isLeast_canonicalId c).unique hc
  · have hc := isLeast_canonicalId c
    rw [h] at hc
    exact ⟨c, List.mem_finRange c, hc⟩

/-- No id is less than that of the frame without relations, so that id is listed. -/
theorem id_empty_mem_canonicalIds : Frame.empty.id ∈ canonicalIds := by
  have hleast : ∀ i : FrameId, Frame.empty.id ≤ i := fun i => Nat.zero_le i.val
  refine mem_canonicalIds_iff.2 (le_antisymm ?_ (hleast _))
  exact (isLeast_canonicalId Frame.empty.id).2 (mem_orbitSet_self Frame.empty.id)

end FourWorlds
