import FourWorlds.Frame.Graph
import Mathlib.Data.List.Dedup
import Mathlib.Data.Nat.Bitwise

/-! # The views of a frame

The frame of a list of relations shows the same relations in every view: as a list in order, as a
number of relations, by the bits of its id, as the worlds that each world sees, and as a graph. What
ties the views together is that the order of relations, by source and then by target, is that of their
places. The graph may be made in any way that keeps a few laws.

* `GraphMap.Lawful`: what is required of graphs, and `Graph.lawful_map`: graphs as lists are such.
* `Frame.testBit_id`, `Frame.val_id_eq`, `Frame.pairwise_successors`, `Frame.graphIn_perm`,
  `Frame.filter_edges`: one view at a time.
* `Frame.Shows`: a frame shows the relations of a list in every view.
* `frame_views_agree`: the frame of a list shows its relations, and ids are decoded to their frames. -/

namespace FourWorlds

/-! ## Graphs -/

/-- The edge that stands for a relation. -/
def Relation.edge (r : Relation) : Edge := ⟨r.source, r.target, r⟩

/-- Whether an edge leads from one world to another. -/
def Edge.Between (v w : World) (e : Edge) : Prop := e.source = v ∧ e.target = w

instance (v w : World) : DecidablePred (Edge.Between v w) :=
  fun e => inferInstanceAs (Decidable (e.source = v ∧ e.target = w))

namespace GraphMap

variable {γ : Type} {M : GraphMap γ}

/-- **A graph holds what is added to it**, in any order, and nothing else. -/
structure Lawful (M : GraphMap γ) : Prop where
  /-- To begin with there are no nodes. -/
  nodes_empty : M.nodes M.empty = []
  /-- To begin with there are no edges. -/
  edges_empty : M.edges M.empty = []
  /-- A node that is added comes to the others. -/
  nodes_addNode : ∀ G w, w ∉ M.nodes G → (M.nodes (M.addNode G w)).Perm (w :: M.nodes G)
  /-- A node that is added leaves the edges as they are. -/
  edges_addNode : ∀ G w, (M.edges (M.addNode G w)).Perm (M.edges G)
  /-- An edge that is added between nodes leaves the nodes as they are. -/
  nodes_addEdge : ∀ G v w r, v ∈ M.nodes G → w ∈ M.nodes G →
    (M.nodes (M.addEdge G v w r)).Perm (M.nodes G)
  /-- An edge that is added comes to the others, if none leads from the one world to the other. -/
  edges_addEdge : ∀ G v w r, (∀ e ∈ M.edges G, ¬ e.Between v w) →
    (M.edges (M.addEdge G v w r)).Perm (⟨v, w, r⟩ :: M.edges G)

namespace Lawful

/-- Adding different nodes adds all of them, and no edge. -/
theorem foldl_addNode (hM : M.Lawful) (G : γ) {ws : List World} (hws : ws.Nodup)
    (hnew : ∀ w ∈ ws, w ∉ M.nodes G) : (M.nodes (ws.foldl M.addNode G)).Perm (ws ++ M.nodes G)
      ∧ (M.edges (ws.foldl M.addNode G)).Perm (M.edges G) := by
  induction ws generalizing G with
  | nil => exact ⟨.refl _, .refl _⟩
  | cons w ws ih =>
      obtain ⟨hw, hws⟩ := List.nodup_cons.1 hws
      obtain ⟨hwG, hwsG⟩ := List.forall_mem_cons.1 hnew
      have hadded := hM.nodes_addNode G w hwG
      have hnext : ∀ v ∈ ws, v ∉ M.nodes (M.addNode G w) := by
        intro v hv hmem
        rcases List.mem_cons.1 (hadded.mem_iff.1 hmem) with rfl | hmem
        · exact hw hv
        · exact hwsG v hv hmem
      obtain ⟨hnodes, hedges⟩ := ih (M.addNode G w) hws hnext
      refine ⟨hnodes.trans ?_, hedges.trans (hM.edges_addNode G w)⟩
      exact (hadded.append_left ws).trans List.perm_middle

/-- Adding different relations between nodes adds their edges, and no node. -/
theorem foldl_addEdge (hM : M.Lawful) (G : γ) {rs : List Relation} (hrs : rs.Nodup)
    (hall : ∀ w, w ∈ M.nodes G)
    (hnew : ∀ r ∈ rs, ∀ e ∈ M.edges G, ¬ e.Between r.source r.target) :
    (M.nodes (rs.foldl (fun G r => M.addEdge G r.source r.target r) G)).Perm (M.nodes G)
      ∧ (M.edges (rs.foldl (fun G r => M.addEdge G r.source r.target r) G)).Perm
        (rs.map Relation.edge ++ M.edges G) := by
  induction rs generalizing G with
  | nil => exact ⟨.refl _, .refl _⟩
  | cons r rs ih =>
      obtain ⟨hr, hrs⟩ := List.nodup_cons.1 hrs
      obtain ⟨hrG, hrsG⟩ := List.forall_mem_cons.1 hnew
      have hnodes := hM.nodes_addEdge G r.source r.target r (hall _) (hall _)
      have hadded := hM.edges_addEdge G r.source r.target r hrG
      have hnext : ∀ s ∈ rs, ∀ e ∈ M.edges (M.addEdge G r.source r.target r),
          ¬ e.Between s.source s.target := by
        intro s hs e he hends
        rcases List.mem_cons.1 (hadded.mem_iff.1 he) with rfl | he
        · -- The edge just added leads between the ends of `r`, which is not among the others.
          obtain ⟨hsource, htarget⟩ : r.source = s.source ∧ r.target = s.target := hends
          have hrs : r = s := by
            cases r
            cases s
            congr
          exact hr (hrs ▸ hs)
        · exact hrsG s hs e he hends
      obtain ⟨hnodes', hedges⟩ := ih _ hrs (fun w => hnodes.mem_iff.2 (hall w)) hnext
      refine ⟨hnodes'.trans hnodes, hedges.trans ?_⟩
      exact (hadded.append_left _).trans List.perm_middle

end Lawful

end GraphMap

/-- **Graphs as lists hold what is added to them.** -/
theorem Graph.lawful_map : Graph.map.Lawful where
  nodes_empty := rfl
  edges_empty := rfl
  nodes_addNode G w hw := by
    have hw : w ∉ G.nodes := hw
    show (G.addNode w).nodes.Perm (w :: G.nodes)
    rw [addNode, if_neg hw]
    exact List.perm_append_singleton w G.nodes
  edges_addNode G w := by
    show (G.addNode w).edges.Perm G.edges
    rw [addNode]
    split <;> exact .refl _
  nodes_addEdge G v w r hv hw := by
    have hv : G.addNode v = G := if_pos hv
    have hw : G.addNode w = G := if_pos hw
    show ((G.addNode v).addNode w).nodes.Perm G.nodes
    rw [hv, hw]
  edges_addEdge G v w r hnew := by
    have hnone : ¬ G.edges.any fun e => e.source = v ∧ e.target = w := by
      rw [List.any_eq_true]
      rintro ⟨e, he, hends⟩
      exact hnew e he (of_decide_eq_true hends)
    show (G.addEdge v w r).edges.Perm (⟨v, w, r⟩ :: G.edges)
    rw [addEdge]
    dsimp only
    rw [if_neg hnone]
    exact List.perm_append_singleton _ G.edges

namespace Frame

variable {F : Frame} {r : Relation}

/-! ## The list of relations -/

/-- The relations of a frame are listed by their places. -/
theorem pairwise_relations (F : Frame) : F.relations.Pairwise fun r s => r.index < s.index :=
  F.pairwise_lt.imp Relation.lt_iff_index_lt.1

/-- No relation of a frame is listed twice. -/
theorem nodup_relations (F : Frame) : F.relations.Nodup := by
  refine F.pairwise_relations.imp ?_
  rintro r _ hlt rfl
  exact Nat.lt_irrefl _ hlt

/-- The relations of the frame of a list are those that are listed, each once. -/
theorem perm_relations_ofRelations (listed : List Relation) :
    (ofRelations listed).relations.Perm listed.dedup :=
  (List.perm_ext_iff_of_nodup (nodup_relations _) (List.nodup_dedup _)).2 fun r => by simp

/-- Taken out of the relations of a frame, a single one is found once or not at all. -/
theorem filter_eq_relations (F : Frame) (r : Relation) :
    F.relations.filter (fun s => decide (s = r)) = if F.contains r then [r] else [] := by
  rw [List.filter_eq, (nodup_relations F).count]
  simp only [mem_relations]
  split <;> rfl

/-! ## The bits of the id -/

/-- A bit of the id is set exactly if the relation at its place belongs to the frame. -/
theorem testBit_id : F.id.val.testBit r.index.val = F.contains r := contains_ofNumber_id F r

/-- A bit of a union of bits is set exactly if it is that of one of the relations. -/
theorem testBit_foldl (relations : List Relation) (n i : Nat) :
    (relations.foldl (fun n r => n ||| 1 <<< r.index.val) n).testBit i
      = (n.testBit i || relations.any (·.index.val = i)) := by
  induction relations generalizing n with
  | nil => simp
  | cons r relations ih =>
      rw [List.foldl_cons, ih, Nat.testBit_or, List.any_cons, Bool.or_assoc]
      simp [Nat.one_shiftLeft, Nat.testBit_two_pow]

/-- **The id is the union of the bits of the relations.** -/
theorem val_id_eq (F : Frame) :
    F.id.val = F.relations.foldl (fun n r => n ||| 1 <<< r.index.val) 0 := by
  refine Nat.eq_of_testBit_eq fun i => ?_
  rw [testBit_foldl, Nat.zero_testBit, Bool.false_or, Bool.eq_iff_iff, List.any_eq_true]
  by_cases hi : i < 16
  · obtain ⟨r, hr⟩ := Relation.exists_index_eq ⟨i, hi⟩
    obtain rfl : r.index.val = i := congrArg Fin.val hr
    rw [testBit_id, ← mem_relations]
    constructor
    · exact fun h => ⟨r, h, by simp⟩
    · rintro ⟨s, hs, heq⟩
      rwa [← Relation.index_inj.1 (Fin.ext (of_decide_eq_true heq))]
  · -- The id has sixteen bits, and there are as many places.
    refine iff_of_false (fun h => ?_) ?_
    · have hlt : F.id.val < 2 ^ i :=
        Nat.lt_of_lt_of_le F.id.isLt (Nat.pow_le_pow_right Nat.two_pos (Nat.le_of_not_lt hi))
      rw [Nat.testBit_lt_two_pow hlt] at h
      cases h
    · rintro ⟨r, -, heq⟩
      have hr := r.index.isLt
      have heq := of_decide_eq_true heq
      omega

/-! ## Successors -/

/-- The worlds that a world sees are given in order. -/
theorem pairwise_successors (F : Frame) (w : World) :
    (F.successors w).Pairwise fun u v => u.index < v.index := by
  simp only [successors, Relation.between_iff]
  refine List.pairwise_map.2 ((F.pairwise_lt.filter _).imp_of_mem fun {r s} hr hs hlt => ?_)
  have hr : r.source = w := of_decide_eq_true (List.mem_filter.1 hr).2
  have hs : s.source = w := of_decide_eq_true (List.mem_filter.1 hs).2
  rcases hlt with hlt | ⟨-, hlt⟩
  · -- Relations of one source do not differ by their sources.
    rw [hr, hs] at hlt
    exact absurd hlt (Nat.lt_irrefl _)
  · exact World.lt_iff_index_lt.1 hlt

/-! ## Graphs of frames -/

variable {γ : Type} {M : GraphMap γ}

/-- **The graph of a frame has the worlds as its nodes**, and an edge for each relation. -/
theorem graphIn_perm (hM : M.Lawful) (F : Frame) : (M.nodes (F.graphIn M)).Perm World.all
    ∧ (M.edges (F.graphIn M)).Perm (F.relations.map Relation.edge) := by
  have hnone : ∀ w ∈ World.all, w ∉ M.nodes M.empty := by simp [hM.nodes_empty]
  obtain ⟨hnodes, hedges⟩ := hM.foldl_addNode M.empty World.nodup_all hnone
  rw [hM.nodes_empty, List.append_nil] at hnodes
  rw [hM.edges_empty, List.perm_nil] at hedges
  obtain ⟨hnodes', hedges'⟩ := hM.foldl_addEdge (World.all.foldl M.addNode M.empty)
    F.nodup_relations (fun w => hnodes.mem_iff.2 (World.mem_all w)) (by simp [hedges])
  rw [hedges, List.append_nil] at hedges'
  exact ⟨hnodes'.trans hnodes, hedges'⟩

/-- **From one world to another there is one edge**, weighted by their relation, or none. -/
theorem filter_edges (hM : M.Lawful) (F : Frame) (v w : World) :
    (M.edges (F.graphIn M)).filter (Edge.Between v w)
      = if F.contains ⟨v, w⟩ then [⟨v, w, ⟨v, w⟩⟩] else [] := by
  have hends : ∀ r : Relation, r.edge.Between v w ↔ r = ⟨v, w⟩ :=
    fun r => (Relation.mk.injEq r.source r.target v w).symm ▸ Iff.rfl
  have hperm := (F.graphIn_perm hM).2.filter (Edge.Between v w)
  rw [List.filter_map] at hperm
  simp only [Function.comp_def, hends, filter_eq_relations] at hperm
  by_cases hr : F.contains ⟨v, w⟩
  · rw [if_pos hr] at hperm ⊢
    exact List.perm_singleton.1 hperm
  · rw [if_neg hr] at hperm ⊢
    exact List.perm_nil.1 hperm

/-! ## All views -/

/-- **The views of a frame show the relations of a list.** -/
structure Shows (M : GraphMap γ) (F : Frame) (listed : List Relation) : Prop where
  /-- The relations of the frame are in order, none of them twice. -/
  pairwise_relations : F.relations.Pairwise fun r s => r.index < s.index
  /-- They are those that are listed. -/
  mem_relations : ∀ r, r ∈ F.relations ↔ r ∈ listed
  /-- Their number is that of the different ones listed. -/
  size_eq : F.size = listed.dedup.length
  /-- The relations that belong to the frame are those that are listed. -/
  contains_iff : ∀ r, F.contains r ↔ r ∈ listed
  /-- The bits that are set in the id are at their places. -/
  testBit_id_iff : ∀ r : Relation, F.id.val.testBit r.index.val ↔ r ∈ listed
  /-- The id is the union of their bits. -/
  val_id_eq : F.id.val = F.relations.foldl (fun n r => n ||| 1 <<< r.index.val) 0
  /-- The worlds that a world sees are in order. -/
  pairwise_successors : ∀ w, (F.successors w).Pairwise fun u v => u.index < v.index
  /-- They are those to which a listed relation leads. -/
  mem_successors : ∀ w v, v ∈ F.successors w ↔ ⟨w, v⟩ ∈ listed
  /-- The nodes of the graph are the four worlds, each once. -/
  nodes_perm : (M.nodes (F.graphIn M)).Perm [.a, .b, .c, .d]
  /-- From a world to another there is one edge, weighted by their relation, if this is listed, and
  none otherwise. -/
  filter_edges : ∀ v w, (M.edges (F.graphIn M)).filter (fun e => e.source = v ∧ e.target = w)
    = if ⟨v, w⟩ ∈ listed then [⟨v, w, ⟨v, w⟩⟩] else []
  /-- The frame is the one with its id. -/
  ofNat_id : ofNat F.id.val = .ok F

/-- **The frame of a list shows its relations.** -/
theorem shows_ofRelations (hM : M.Lawful) (listed : List Relation) :
    (ofRelations listed).Shows M listed where
  pairwise_relations := pairwise_relations _
  mem_relations r := by simp
  size_eq := (perm_relations_ofRelations listed).length_eq
  contains_iff r := by simp
  testBit_id_iff r := by simp [testBit_id]
  val_id_eq := val_id_eq _
  pairwise_successors := pairwise_successors _
  mem_successors w v := by simp
  nodes_perm := (graphIn_perm hM _).1
  filter_edges v w := (filter_edges hM _ v w).trans (by simp)
  ofNat_id := (dif_pos (ofRelations listed).id.isLt).trans (congrArg Except.ok (ofId_id _))

end Frame

/-- **The views of a frame agree.** The frame of a list of relations, in any order and with any
repetitions, shows these relations in every view, the graph being made in any way that holds what is
added, and is the one with its id. A number that is no id is refused, and any other one is the id of
the frame of the relations whose bits are set in it. -/
theorem frame_views_agree {γ : Type} (M : GraphMap γ) (hM : M.Lawful) :
    (∀ listed : List Relation, (Frame.ofRelations listed).Shows M listed)
      ∧ ∀ n : Nat, if 65536 ≤ n then Frame.ofNat n = .error (.idOutOfRange n)
        else ∃ F, Frame.ofNat n = .ok F ∧ F.id.val = n
          ∧ F = .ofRelations (Relation.all.filter fun r => n.testBit r.index.val) := by
  refine ⟨Frame.shows_ofRelations hM, fun n => ?_⟩
  split
  · next hlarge => exact dif_neg (Nat.not_lt.2 hlarge)
  · next hsmall =>
      have hlt : n < UInt16.size := Nat.not_le.1 hsmall
      exact ⟨.ofId ⟨n, hlt⟩, dif_pos hlt, congrArg Fin.val (Frame.id_ofId ⟨n, hlt⟩), rfl⟩

/-- Listed in disorder and one of them twice, the relations `aRb`, `bRa` and `bRd` are those of a frame
with the id 146, and the graph of it as a list has the edges of these relations. -/
theorem frame_views_agree_three_relations :
    Graph.map.Lawful ∧ ∃ F : Frame, F = .ofRelations [⟨.b, .d⟩, ⟨.a, .b⟩, ⟨.b, .a⟩, ⟨.b, .d⟩]
      ∧ F.Shows Graph.map [⟨.b, .d⟩, ⟨.a, .b⟩, ⟨.b, .a⟩, ⟨.b, .d⟩]
      ∧ F.relations = [⟨.a, .b⟩, ⟨.b, .a⟩, ⟨.b, .d⟩] ∧ F.id.val = 146
      ∧ F.graph = ⟨[.a, .b, .c, .d], [⟨.a, .b, ⟨.a, .b⟩⟩, ⟨.b, .a, ⟨.b, .a⟩⟩, ⟨.b, .d, ⟨.b, .d⟩⟩]⟩
      ∧ Frame.ofNat 146 = .ok F ∧ Frame.ofNat 65536 = .error (.idOutOfRange 65536) := by
  obtain ⟨hshows, hids⟩ := frame_views_agree Graph.map Graph.lawful_map
  have hid : (Frame.ofRelations [⟨.b, .d⟩, ⟨.a, .b⟩, ⟨.b, .a⟩, ⟨.b, .d⟩]).id.val = 146 := by
    decide +kernel
  have hdecoded := (hshows [⟨.b, .d⟩, ⟨.a, .b⟩, ⟨.b, .a⟩, ⟨.b, .d⟩]).ofNat_id
  rw [hid] at hdecoded
  exact ⟨Graph.lawful_map, _, rfl, hshows _, by decide, hid, by decide, hdecoded, hids 65536⟩

end FourWorlds
