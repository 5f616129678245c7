/-! # Sets of places

A set of numbers below sixteen, held in sixteen bits. Frames and valuations are such sets: the
places of a frame are its relations, and those of a valuation are pairs of a world and an atom.

* `PlaceSet.contains`: the view of a set; sets with the same members are equal.
* `PlaceSet.empty`, `PlaceSet.insert`, `PlaceSet.ofList`: the set without places, a set with one
  more place, and the set of the places in a list.
* `PlaceSet.number`, `PlaceSet.ofNumber`: the bits of a set read as a number, and back.
* `PlaceSet.deal`: a set chosen from a list of places by the bits of a count. -/

namespace FourWorlds

/-- A set of numbers below sixteen. -/
structure PlaceSet where
  /-- The bits at the members are set. -/
  bits : BitVec 16
  deriving DecidableEq

namespace PlaceSet

/-- Whether a place belongs to a set. -/
def contains (S : PlaceSet) (i : Fin 16) : Bool := S.bits.getLsb i

/-- The set without places. -/
def empty : PlaceSet := ⟨0⟩

instance : Inhabited PlaceSet := ⟨empty⟩

/-- The sixteen bits of which one is set, by its place. -/
def singleBits : Vector (BitVec 16) 16 := .ofFn fun i => BitVec.twoPow 16 i

/-- The set with one more place, which may belong to it already. -/
def insert (S : PlaceSet) (i : Fin 16) : PlaceSet := ⟨S.bits ||| singleBits.get i⟩

/-- The set of the places in a list. -/
def ofList (places : List (Fin 16)) : PlaceSet := places.foldl insert empty

/-- The number whose binary digits are the bits of a set. -/
def number (S : PlaceSet) : Fin UInt16.size := S.bits.toFin

/-- The set of the binary digits of a number. -/
def ofNumber (n : Fin UInt16.size) : PlaceSet := ⟨BitVec.ofFin n⟩

/-- The set with those of the listed places whose bit of the count is set, the first place belonging
to the lowest bit. -/
def deal (S : PlaceSet) : List (Fin 16) → Nat → PlaceSet
  | [], _ => S
  | i :: rest, count => (if count % 2 = 1 then S.insert i else S).deal rest (count / 2)

/-! ### Elementary facts -/

/-- Sets with the same members are equal. -/
@[ext] theorem ext {S T : PlaceSet} (h : ∀ i, S.contains i = T.contains i) : S = T := by
  rcases S with ⟨s⟩; rcases T with ⟨t⟩
  congr 1
  exact BitVec.eq_of_getElem_eq fun i hi => h ⟨i, hi⟩

/-- Nothing belongs to the empty set. -/
@[simp] theorem contains_empty (i : Fin 16) : empty.contains i = false := by
  simp [contains, empty]

/-- The bit at a place is the power of two of that place. -/
theorem singleBits_get (i : Fin 16) : singleBits.get i = BitVec.twoPow 16 i := by
  show singleBits[i] = _
  simp [singleBits]

/-- Inserting a place adds that place and no other. -/
@[simp] theorem contains_insert (S : PlaceSet) (i j : Fin 16) :
    (S.insert i).contains j = (S.contains j || decide (j = i)) := by
  simp [contains, insert, singleBits_get, BitVec.getElem_twoPow, Fin.val_inj, eq_comm]

/-- The set of a list has the members of the list. -/
@[simp] theorem contains_ofList (places : List (Fin 16)) (i : Fin 16) :
    (ofList places).contains i ↔ i ∈ places := by
  suffices h : ∀ S : PlaceSet, (places.foldl insert S).contains i ↔ S.contains i ∨ i ∈ places by
    simpa [ofList] using h empty
  induction places with
  | nil => simp
  | cons j rest ih => intro S; simp [ih, or_assoc]

/-- Every set is the set of its number. -/
@[simp] theorem ofNumber_number (S : PlaceSet) : ofNumber S.number = S := rfl

/-- The set of a number has that number. -/
@[simp] theorem number_ofNumber (n : Fin UInt16.size) : (ofNumber n).number = n := rfl

end PlaceSet

end FourWorlds
