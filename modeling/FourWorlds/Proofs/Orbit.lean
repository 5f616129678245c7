import FourWorlds.Orbit
import FourWorlds.Proofs.Relabelling
import Mathlib.Order.Bounds.Basic

/-! # The table of orbits

Entering ids one by one keeps an invariant, `OrbitTable.Charts`: the ids that have an entry are those
of whole orbits, namely the orbits of the ids examined so far, and an entry is the least id of the
orbit. After all ids have been examined there is an entry for each of them.

* `OrbitTable.Charts.enter`, `OrbitTable.Charts.foldl_enter`: what entering one id keeps, and a run
  over a list of ids.
* `canonicalMapping_eq_ofFn`: in the table of all orbits no entry is missing, so the mapping has
  them at the places of their ids.
* `canonicalId_least_of_orbit`: the canonical id is the least id of the orbit, and two ids have the
  same one exactly if a bijection of the worlds respects the relations of their frames. -/

namespace FourWorlds

/-- The ids of the frames that are like the frame of an id. -/
def orbitSet (i : FrameId) : Set FrameId := {j | (Frame.ofId i).Alike (Frame.ofId j)}

/-- The ids of an orbit are those of frames that are alike. -/
theorem mem_orbitSet_iff {i j : FrameId} : j ∈ orbitSet i ↔ (Frame.ofId i).Alike (Frame.ofId j) :=
  Iff.rfl

/-- An id belongs to its own orbit. -/
theorem mem_orbitSet_self (i : FrameId) : i ∈ orbitSet i := Frame.Alike.refl _

/-- An id in the orbit of another has the same orbit. -/
theorem orbitSet_eq_of_mem {i j : FrameId} (h : j ∈ orbitSet i) : orbitSet j = orbitSet i :=
  Set.ext fun _ => ⟨fun hk => Frame.Alike.trans h hk, fun hk => (Frame.Alike.symm h).trans hk⟩

/-- **The ids that a frame gets under the relabellings listed are those of its orbit.** -/
theorem mem_imageIds_ofId {i j : FrameId} : j ∈ (Frame.ofId i).imageIds ↔ j ∈ orbitSet i := by
  rw [Frame.imageIds, List.mem_map]
  constructor
  · rintro ⟨f, hf, rfl⟩
    exact ⟨f, Relabelling.mem_all_iff.1 hf, (Frame.ofId_id _).symm⟩
  · rintro ⟨f, hf, hfj⟩
    exact ⟨f, Relabelling.mem_all_iff.2 hf, by rw [hfj, Frame.id_ofId]⟩

/-! ## What a fold leaves behind -/

/-- The smaller of two ids is their minimum. -/
theorem lesser_eq_min (i j : FrameId) : lesser i j = min i j := by
  rw [min_comm, min_def_lt, lesser]

/-- Folding to the smaller id finds the least of all. -/
theorem isLeast_foldl_lesser (ids : List FrameId) (i : FrameId) :
    IsLeast {j | j ∈ i :: ids} (ids.foldl lesser i) := by
  induction ids generalizing i with
  | nil => simp [IsLeast, lowerBounds]
  | cons k ids ih =>
      -- The smaller of the first two takes the place of both: it is one of them, and below each.
      rw [List.foldl_cons, lesser_eq_min]
      obtain ⟨hmem, hle⟩ := ih (min i k)
      constructor
      · rcases List.mem_cons.1 hmem with heq | hmem
        · rcases min_choice i k with hmin | hmin <;> rw [heq, hmin] <;> simp
        · exact List.mem_cons_of_mem _ (List.mem_cons_of_mem _ hmem)
      · intro j hj
        have hmin : ids.foldl lesser (min i k) ≤ min i k := hle List.mem_cons_self
        rcases List.mem_cons.1 hj with rfl | hj
        · exact hmin.trans (min_le_left _ _)
        rcases List.mem_cons.1 hj with rfl | hj
        · exact hmin.trans (min_le_right _ _)
        · exact hle (List.mem_cons_of_mem _ hj)

/-- Writing one value at a list of places changes exactly those places. -/
theorem getElem_foldl_set {α : Type} {n : Nat} (members : List (Fin n)) (entries : Vector α n)
    (value : α) (j : Fin n) :
    (members.foldl (fun entries i => entries.set i.val value) entries)[j]
      = if j ∈ members then value else entries[j] := by
  induction members generalizing entries with
  | nil => simp
  | cons i members ih =>
      rw [List.foldl_cons, ih]
      by_cases hj : j ∈ members
      · rw [if_pos hj, if_pos (List.mem_cons_of_mem _ hj)]
      · rw [if_neg hj, Fin.getElem_fin, Vector.getElem_set]
        by_cases hij : i = j
        · rw [if_pos (congrArg Fin.val hij), if_pos (by simp [hij])]
        · rw [if_neg (Fin.val_ne_of_ne hij), if_neg (by simp [hj, Ne.symm hij]), Fin.getElem_fin]

namespace OrbitTable

/-! ## The invariant of the table -/

/-- A table that holds the orbits of the ids examined so far, and nothing else. -/
structure Charts (table : OrbitTable) (examined : List FrameId) : Prop where
  /-- Entries are there for whole orbits, those of the examined ids. -/
  isSome_iff : ∀ j : FrameId, (table.entry j).isSome ↔ ∃ i ∈ examined, j ∈ orbitSet i
  /-- An entry is the least id of the orbit. -/
  isLeast : ∀ j k : FrameId, table.entry j = some k → IsLeast (orbitSet j) k

/-- The table in which no orbit is known has no entry. -/
theorem entry_empty (i : FrameId) : empty.entry i = none := Vector.getElem_replicate _

/-- The table in which no orbit is known has examined nothing. -/
theorem charts_empty : empty.Charts [] where
  isSome_iff j := by simp [entry_empty]
  isLeast j k h := by simp [entry_empty] at h

/-- An id that has an entry is passed over. -/
theorem enter_of_isSome {table : OrbitTable} {i : FrameId} (h : (table.entry i).isSome) :
    table.enter i = table := by
  rw [enter, if_pos h]

/-- The entries after an id without one is entered: its whole orbit gets its least id. -/
theorem entry_enter_of_none {table : OrbitTable} {i : FrameId}
    (h : ¬ (table.entry i).isSome) (j : FrameId) :
    (table.enter i).entry j = if j ∈ (Frame.ofId i).imageIds
      then some ((least? (Frame.ofId i).imageIds).getD i) else table.entry j := by
  rw [enter, if_neg h]
  exact getElem_foldl_set _ _ _ j

/-- The id written for an orbit is its least one. -/
theorem isLeast_written (i : FrameId) :
    IsLeast (orbitSet i) ((least? (Frame.ofId i).imageIds).getD i) := by
  have hself : i ∈ (Frame.ofId i).imageIds := mem_imageIds_ofId.2 (mem_orbitSet_self i)
  have heq : {j | j ∈ (Frame.ofId i).imageIds} = orbitSet i := Set.ext fun _ => mem_imageIds_ofId
  cases himages : (Frame.ofId i).imageIds with
  | nil =>
      rw [himages] at hself
      cases hself
  | cons k ids =>
      rw [himages] at heq
      rw [least?, Option.getD_some, ← heq]
      exact isLeast_foldl_lesser ids k

/-- **Entering an id keeps the invariant.** -/
theorem Charts.enter {table : OrbitTable} {examined : List FrameId} (h : table.Charts examined)
    (i : FrameId) : (table.enter i).Charts (examined ++ [i]) := by
  have hmem : ∀ j, (∃ k ∈ examined ++ [i], j ∈ orbitSet k)
      ↔ (∃ k ∈ examined, j ∈ orbitSet k) ∨ j ∈ orbitSet i := by
    intro j
    simp only [List.mem_append, List.mem_singleton, or_and_right, exists_or, exists_eq_left]
  by_cases hi : (table.entry i).isSome
  · -- The orbit of `i` is one of those examined before, so nothing is to be added.
    rw [enter_of_isSome hi]
    refine ⟨fun j => ?_, h.isLeast⟩
    rw [h.isSome_iff, hmem, or_iff_left_of_imp]
    intro hj
    obtain ⟨k, hk, hik⟩ := (h.isSome_iff i).1 hi
    exact ⟨k, hk, orbitSet_eq_of_mem hik ▸ hj⟩
  · -- The entries change on the orbit of `i` alone, and there they are new.
    refine ⟨fun j => ?_, fun j k hjk => ?_⟩
    · rw [entry_enter_of_none hi, hmem, ← mem_imageIds_ofId]
      by_cases hj : j ∈ (Frame.ofId i).imageIds
      · rw [if_pos hj]
        exact iff_of_true rfl (.inr hj)
      · rw [if_neg hj, or_iff_left hj]
        exact h.isSome_iff j
    · rw [entry_enter_of_none hi] at hjk
      by_cases hj : j ∈ (Frame.ofId i).imageIds
      · rw [if_pos hj] at hjk
        rw [orbitSet_eq_of_mem (mem_imageIds_ofId.1 hj), ← Option.some.inj hjk]
        exact isLeast_written i
      · rw [if_neg hj] at hjk
        exact h.isLeast j k hjk

/-- **Entering a list of ids, one after another, keeps the invariant.** -/
theorem Charts.foldl_enter {table : OrbitTable} {examined : List FrameId}
    (h : table.Charts examined) (ids : List FrameId) :
    (ids.foldl OrbitTable.enter table).Charts (examined ++ ids) := by
  induction ids generalizing table examined with
  | nil => simpa using h
  | cons i ids ih =>
      rw [List.foldl_cons, List.append_cons]
      exact ih (h.enter i)

/-- A table made from nothing holds the orbits of the ids entered. -/
theorem charts_foldl_enter (ids : List FrameId) : (ids.foldl OrbitTable.enter empty).Charts ids := by
  simpa using charts_empty.foldl_enter ids

/-- The table of all orbits has examined every id. -/
theorem charts_orbitTable : orbitTable.Charts (List.finRange UInt16.size) := charts_foldl_enter _

/-- Every id has an entry in the table of all orbits. -/
theorem exists_entry_orbitTable (i : FrameId) : ∃ k, orbitTable.entry i = some k :=
  Option.isSome_iff_exists.1
    ((charts_orbitTable.isSome_iff i).2 ⟨i, List.mem_finRange i, mem_orbitSet_self i⟩)

end OrbitTable

/-! ## The mapping -/

/-- Where no entry is missing, leaving out the missing ones moves none. -/
theorem filterMap_toArray_eq_ofFn {α : Type} {n : Nat} {entries : Vector (Option α) n}
    {values : Fin n → α} (h : ∀ i : Fin n, entries[i] = some (values i)) :
    entries.toArray.filterMap id = Array.ofFn values := by
  have hentries : entries.toArray = (Array.ofFn values).map some := by
    refine Array.ext (by simp) fun i hi _ => ?_
    have hi' : i < n := by simpa using hi
    simpa using h ⟨i, hi'⟩
  rw [hentries, Array.filterMap_map]
  exact Array.filterMap_some

/-- What stands in an array of values at a place is the value there, whatever the default. -/
theorem getD_ofFn {α : Type} {n : Nat} (values : Fin n → α) (i : Fin n) (other : α) :
    (Array.ofFn values).getD i.val other = values i := by
  simp [Array.getD]

/-- The mapping lists the entries of the table of all orbits. -/
theorem canonicalMapping_eq_of_forall {ids : FrameId → FrameId}
    (h : ∀ i, orbitTable.entry i = some (ids i)) : canonicalMapping = Array.ofFn ids := by
  rw [canonicalMapping, OrbitTable.mapping]
  exact filterMap_toArray_eq_ofFn h

/-- The canonical id of an id is its entry in the table of all orbits. -/
theorem entry_orbitTable (i : FrameId) : orbitTable.entry i = some (canonicalId i) := by
  -- The mapping is read at the place of the id, so it must be known that no entry is missing.
  choose ids hids using OrbitTable.exists_entry_orbitTable
  have hvalue : canonicalMapping.getD i.val i = ids i := by
    rw [canonicalMapping_eq_of_forall hids]
    exact getD_ofFn ids i i
  rw [hids, canonicalId, hvalue]

/-- The mapping lists the canonical ids of all ids in the order of these. -/
theorem canonicalMapping_eq_ofFn : canonicalMapping = Array.ofFn canonicalId :=
  canonicalMapping_eq_of_forall entry_orbitTable

/-- **The canonical id is the least id of the orbit.** -/
theorem isLeast_canonicalId (i : FrameId) : IsLeast (orbitSet i) (canonicalId i) :=
  OrbitTable.charts_orbitTable.isLeast i _ (entry_orbitTable i)

/-- Two ids have the same canonical id exactly if one is in the orbit of the other. -/
theorem equivalent_iff_mem_orbitSet {i j : FrameId} : equivalent i j ↔ j ∈ orbitSet i := by
  rw [equivalent, decide_eq_true_iff]
  constructor
  · intro h
    have hi : canonicalId i ∈ orbitSet i := (isLeast_canonicalId i).1
    have hj : canonicalId j ∈ orbitSet j := (isLeast_canonicalId j).1
    exact Frame.Alike.trans (h ▸ hi) (Frame.Alike.symm hj)
  · intro h
    have hj := isLeast_canonicalId j
    rw [orbitSet_eq_of_mem h] at hj
    exact (isLeast_canonicalId i).unique hj

/-- Two frames have equivalent ids exactly if they are alike. -/
theorem Frame.equivalent_id_iff {F G : Frame} : equivalent F.id G.id ↔ F.Alike G := by
  rw [equivalent_iff_mem_orbitSet, orbitSet, Set.mem_ofPred_eq, ofId_id, ofId_id]

/-- **Canonical ids tell orbits apart.** The mapping has an entry for each id, at the place of that
id; the entry is the least id of a frame that a bijection of the worlds makes out of the frame of the
id; and two ids have the same entry exactly if a bijection of the worlds respects the relations of
their frames both ways. -/
theorem canonicalId_least_of_orbit :
    canonicalMapping.size = UInt16.size
      ∧ (∀ i : FrameId, canonicalMapping[i.val]? = some (canonicalId i)
        ∧ IsLeast {j | ∃ f : Relabelling, Function.Bijective f ∧ ((Frame.ofId i).relabelled f).id = j}
          (canonicalId i))
      ∧ ∀ i j : FrameId, equivalent i j ↔ ∃ f : Relabelling, Function.Bijective f ∧
          ∀ x y, (Frame.ofId i).contains ⟨x, y⟩ ↔ (Frame.ofId j).contains ⟨f x, f y⟩ := by
  refine ⟨?_, fun i => ⟨?_, ?_⟩, fun i j => ?_⟩
  · rw [canonicalMapping_eq_ofFn, Array.size_ofFn]
  · rw [canonicalMapping_eq_ofFn, Array.getElem?_ofFn, dif_pos i.isLt]
  · have horbit : {j | ∃ f : Relabelling, Function.Bijective f
        ∧ ((Frame.ofId i).relabelled f).id = j} = orbitSet i := by
      ext j
      refine exists_congr fun f => and_congr_right fun _ => ?_
      exact ⟨fun h => h ▸ (Frame.ofId_id _).symm, fun h => by rw [h, Frame.id_ofId]⟩
    rw [horbit]
    exact isLeast_canonicalId i
  · rw [equivalent_iff_mem_orbitSet]
    exact Frame.alike_iff

end FourWorlds
