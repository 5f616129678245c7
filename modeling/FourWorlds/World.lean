/-! # Worlds

The four points of every frame. Their order `a`, `b`, `c`, `d` is fixed: it numbers the worlds from
zero, orders the pairs of a frame, and is the order in which lists of worlds are given.

* `World.all`: the worlds in order.
* `World.index`, `World.ofIndex?`: the place of a world in that order, and back.
* `World.letter`, `World.ofLetter?`: the letter of a world, and back. -/

namespace FourWorlds

/-- A world of a frame. -/
inductive World where
  /-- The first world. -/
  | a
  /-- The second world. -/
  | b
  /-- The third world. -/
  | c
  /-- The fourth world. -/
  | d
  deriving DecidableEq, Repr, Inhabited

namespace World

/-- The worlds in order. -/
def all : List World := [a, b, c, d]

/-- Worlds are ordered as they are declared. -/
instance : LT World := ⟨fun v w => v.ctorIdx < w.ctorIdx⟩

instance (v w : World) : Decidable (v < w) := inferInstanceAs (Decidable (v.ctorIdx < w.ctorIdx))

/-- The place of a world in the order, from zero. -/
def index : World → Fin 4
  | a => 0
  | b => 1
  | c => 2
  | d => 3

/-- The world at a place of the order, if there is one. -/
def ofIndex? (n : Nat) : Option World := all[n]?

/-- The letter a world is written with. -/
def letter : World → Char
  | a => 'a'
  | b => 'b'
  | c => 'c'
  | d => 'd'

/-- The world written with a letter, if there is one. -/
def ofLetter? (letter : Char) : Option World := all.find? (·.letter = letter)

/-! ### Elementary facts -/

/-- Every world is listed. -/
@[simp] theorem mem_all (w : World) : w ∈ all := by cases w <;> decide

/-- No world is listed twice. -/
theorem nodup_all : all.Nodup := by decide

/-- Distinct worlds have distinct places. -/
theorem index_inj {v w : World} : v.index = w.index ↔ v = w := by cases v <;> cases w <;> decide

/-- The places of the worlds go by their order. -/
theorem lt_iff_index_lt {v w : World} : v < w ↔ v.index < w.index := by
  cases v <;> cases w <;> decide

/-- A world is found at its place. -/
@[simp] theorem ofIndex?_index (w : World) : ofIndex? w.index = some w := by cases w <;> rfl

/-- A world is found by its letter. -/
@[simp] theorem ofLetter?_letter (w : World) : ofLetter? w.letter = some w := by cases w <;> rfl

end World

end FourWorlds
