import FourWorlds.Ascending
import FourWorlds.PlaceSet
import FourWorlds.Relation

/-! # Frames

A frame is a set of relations on the four worlds, held as the ascending list of its members. Its id is
the number whose bits at their places are set, and every number below `2 ^ 16` is the id of exactly one
frame.

* `Frame.contains`: the view of a frame as a set; two frames with the same members are equal.
* `Frame.ofRelations`: the frame of a list of relations.
* `Frame.size`, `Frame.successors`: the number of members, and the worlds that one world sees.
* `Frame.relabelled`: the frame with its worlds renamed.
* `Frame.id`, `Frame.ofId`, `Frame.ofNat`: the id of a frame, and the frame of an id. -/

namespace FourWorlds

/-- The id of a frame. -/
abbrev FrameId := Fin UInt16.size

/-- A set of relations. -/
structure Frame where
  /-- The relations of the frame, in order. -/
  relations : List Relation
  /-- Each relation comes before those listed after it. -/
  pairwise_lt : relations.Pairwise (· < ·)
  deriving DecidableEq

/-- Why a frame could not be found. -/
inductive FrameError where
  /-- The number is not below `2 ^ 16`, so it is the id of no frame. -/
  | idOutOfRange (id : Nat)
  deriving DecidableEq, Repr

/-- The wording of an error. -/
def FrameError.message : FrameError → String
  | .idOutOfRange id => s!"{id} is not the id of a frame"

namespace Frame

/-! ### Membership -/

/-- Whether a relation belongs to a frame. -/
def contains (F : Frame) (r : Relation) : Bool := F.relations.contains r

/-- The frame without relations. -/
def empty : Frame := ⟨[], .nil⟩

instance : Inhabited Frame := ⟨empty⟩

/-- The frame of the relations in a list, whatever their order and however often each is listed. -/
def ofRelations (listed : List Relation) : Frame := ⟨ascending listed, pairwise_ascending listed⟩

/-- The number of relations of a frame. -/
def size (F : Frame) : Nat := F.relations.length

/-- The worlds that a world sees, in order: the targets of the relations from the first to the last
one of that world. -/
def successors (F : Frame) (w : World) : List World :=
  (F.relations.filter fun r => ⟨w, .a⟩ ≤ r ∧ r ≤ ⟨w, .d⟩).map (·.target)

/-- The frame of the relations between the images of related worlds. -/
def relabelled (F : Frame) (f : Relabelling) : Frame :=
  ofRelations (F.relations.map (·.relabelled f))

/-! ### Ids -/

/-- The id of a frame: the bits at the places of its relations, taken together. -/
def id (F : Frame) : FrameId := (F.relations.foldl (fun S r => S.insert r.index) PlaceSet.empty).number

/-- The frame with an id: the relations at whose places a bit of it is set. -/
def ofId (i : FrameId) : Frame :=
  ofRelations (Relation.all.filter fun r => (PlaceSet.ofNumber i).contains r.index)

/-- The frame whose id is a given number. -/
def ofNat (n : Nat) : Except FrameError Frame :=
  if h : n < UInt16.size then .ok (ofId ⟨n, h⟩) else .error (.idOutOfRange n)

/-! ### Elementary facts -/

/-- The relations listed are those that belong to the frame. -/
@[simp] theorem mem_relations {F : Frame} {r : Relation} : r ∈ F.relations ↔ F.contains r := by
  rw [contains, List.contains_iff_mem]

/-- Frames with the same members are equal. -/
@[ext] theorem ext {F G : Frame} (h : ∀ r, F.contains r = G.contains r) : F = G := by
  have hmem : ∀ r, r ∈ F.relations ↔ r ∈ G.relations := fun r => by
    rw [mem_relations, mem_relations, h]
  have heq : F.relations = G.relations := eq_of_pairwise_of_mem_iff F.pairwise_lt G.pairwise_lt hmem
  cases F
  cases G
  congr

/-- Nothing belongs to the empty frame. -/
@[simp] theorem contains_empty (r : Relation) : empty.contains r = false := rfl

/-- A list of relations gives the frame of its members. -/
@[simp] theorem contains_ofRelations (listed : List Relation) (r : Relation) :
    (ofRelations listed).contains r = decide (r ∈ listed) := by
  rw [Bool.eq_iff_iff, decide_eq_true_iff, ← mem_relations]
  exact mem_ascending

/-- A world sees those that a relation leads to. -/
@[simp] theorem mem_successors {F : Frame} {v w : World} :
    v ∈ F.successors w ↔ F.contains ⟨w, v⟩ := by
  simp only [successors, Relation.between_iff, List.mem_map, List.mem_filter, mem_relations,
    decide_eq_true_iff]
  constructor
  · rintro ⟨r, ⟨hr, rfl⟩, rfl⟩
    exact hr
  · exact fun h => ⟨⟨w, v⟩, ⟨h, rfl⟩, rfl⟩

/-- A relation of the relabelled frame is the image of one of the frame. -/
@[simp] theorem contains_relabelled {F : Frame} {f : Relabelling} {r : Relation} :
    (F.relabelled f).contains r ↔ ∃ s, F.contains s ∧ s.relabelled f = r := by
  simp [relabelled]

/-- The bit of an id is set at the places of the relations that belong to the frame. -/
theorem contains_ofNumber_id (F : Frame) (r : Relation) :
    (PlaceSet.ofNumber F.id).contains r.index = F.contains r := by
  have hlist : F.relations.foldl (fun S r => S.insert r.index) PlaceSet.empty
      = .ofList (F.relations.map (·.index)) := by
    rw [PlaceSet.ofList, List.foldl_map]
  rw [id, PlaceSet.ofNumber_number, hlist, Bool.eq_iff_iff, PlaceSet.contains_ofList]
  simp [Relation.index_inj]

/-- A relation belongs to the frame of an id exactly if the bit at its place is set. -/
theorem contains_ofId (i : FrameId) (r : Relation) :
    (ofId i).contains r = (PlaceSet.ofNumber i).contains r.index := by
  simp [ofId]

/-- **Every frame is the frame with its id.** -/
@[simp] theorem ofId_id (F : Frame) : ofId F.id = F := by
  ext r
  rw [contains_ofId, contains_ofNumber_id]

/-- **The frame with an id has that id.** -/
@[simp] theorem id_ofId (i : FrameId) : (ofId i).id = i := by
  have hset : PlaceSet.ofNumber (ofId i).id = PlaceSet.ofNumber i := by
    ext place
    obtain ⟨r, rfl⟩ := Relation.exists_index_eq place
    rw [contains_ofNumber_id, contains_ofId]
  calc (ofId i).id
      = (PlaceSet.ofNumber (ofId i).id).number := (PlaceSet.number_ofNumber _).symm
    _ = (PlaceSet.ofNumber i).number := by rw [hset]
    _ = i := PlaceSet.number_ofNumber i

end Frame

end FourWorlds
