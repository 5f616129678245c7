import FourWorlds.Frame

/-! # Writing frames

* `Frame.text`: a frame written as the list of its relations. -/

namespace FourWorlds

/-- The text of a frame: its relations in order, or the empty set sign if there are none. -/
def Frame.text (F : Frame) : String :=
  match F.relations with
  | [] => "∅"
  | relations => ", ".intercalate (relations.map (·.text))

end FourWorlds
