import FourWorlds.Frame

/-! # Frames up to relabelling

Two frames are alike if a one-to-one relabelling of the worlds takes one to the other. The frames
that a frame can be relabelled to are its orbit, and the least id among them is the canonical id of
each of them. The ids are gone through in ascending order, and every one that is not yet in a known
orbit gives rise to the next: so each orbit is found at its least id.

* `orbit`: the ids of the orbit of a frame.
* `OrbitTable`: the canonical ids found so far; `OrbitTable.build` finds them all.
* `canonicalMapping`, `canonicalIds`: the canonical id of each id in turn, and those of the orbits.
* `canonicalId`, `equivalent`: what is read from the mapping. -/

namespace FourWorlds

/-- The ids that a frame gets under the one-to-one relabellings, in the order of these. -/
def Frame.imageIds (F : Frame) : List FrameId := Relabelling.all.map fun f => (F.relabelled f).id

/-- The ids of the frames that the frame of an id can be relabelled to, ascending and each once. -/
def orbit (i : FrameId) : List FrameId := ascending (Frame.ofId i).imageIds

/-- The smaller of two ids. -/
def lesser (i j : FrameId) : FrameId := if j < i then j else i

/-- The least of some ids, if there is one. -/
def least? : List FrameId → Option FrameId
  | [] => none
  | i :: rest => some (rest.foldl lesser i)

/-- What is known while orbits are being found. -/
structure OrbitTable where
  /-- The canonical id of each id in a known orbit. -/
  assigned : Vector (Option FrameId) UInt16.size
  /-- The canonical ids of the known orbits, in the order in which they were found. -/
  canonicals : Array FrameId

namespace OrbitTable

/-- The table in which no orbit is known. -/
def empty : OrbitTable := ⟨.replicate _ none, #[]⟩

/-- The canonical id of an id, if its orbit is known. -/
def entry (table : OrbitTable) (i : FrameId) : Option FrameId := table.assigned[i]

/-- The table with the orbit of an id entered under the least of its ids, unless it is known. -/
def enter (table : OrbitTable) (i : FrameId) : OrbitTable :=
  if (table.entry i).isSome then table
  else
    let ⟨assigned, canonicals⟩ := table
    let members := (Frame.ofId i).imageIds
    let least := (least? members).getD i
    let assigned := members.foldl (fun entries j => entries.set j.val (some least)) assigned
    ⟨assigned, canonicals.push least⟩

/-- The table of all orbits. -/
def build : OrbitTable := (List.finRange UInt16.size).foldl enter empty

/-- The canonical ids entered, in the order of the ids they are entered for. An id without one leaves
no gap, so that places are ids only if none is missing. -/
def mapping (table : OrbitTable) : Array FrameId := table.assigned.toArray.filterMap id

/-- The canonical ids of the known orbits, in the order in which they were found. -/
def listed (table : OrbitTable) : Array FrameId := table.canonicals

end OrbitTable

/-- The table of all orbits, made once. -/
def orbitTable : OrbitTable := .build

/-- The canonical id of each id, in the order of the ids, made once. -/
def canonicalMapping : Array FrameId := orbitTable.mapping

/-- The least id of the orbit of an id. -/
def canonicalId (i : FrameId) : FrameId := canonicalMapping.getD i.val i

/-- The canonical ids of all orbits, ascending. -/
def canonicalIds : Array FrameId := orbitTable.listed

/-- Whether the frames of two ids are alike up to relabelling. -/
def equivalent (i j : FrameId) : Bool := canonicalId i = canonicalId j

end FourWorlds
