import FourWorlds.World

/-! # One value for each world

A table with an entry for each world. Unlike a function on worlds it is worked out once, when it is
made, and then only looked up.

* `PerWorld.ofFn`: the table of a function.
* `PerWorld.get`: the entry of a world; it is the value of the function the table was made from. -/

namespace FourWorlds

/-- A table with an entry for each world. -/
structure PerWorld (α : Type) where
  /-- The entry of the first world. -/
  onA : α
  /-- The entry of the second world. -/
  onB : α
  /-- The entry of the third world. -/
  onC : α
  /-- The entry of the fourth world. -/
  onD : α
  deriving DecidableEq, Repr

namespace PerWorld

variable {α : Type}

/-- The table of a function. -/
@[inline] def ofFn (f : World → α) : PerWorld α := ⟨f .a, f .b, f .c, f .d⟩

/-- The entry of a world. -/
@[inline] def get (T : PerWorld α) : World → α
  | .a => T.onA
  | .b => T.onB
  | .c => T.onC
  | .d => T.onD

/-- The entries of the table of a function are its values. -/
@[simp] theorem get_ofFn (f : World → α) (w : World) : (ofFn f).get w = f w := by cases w <;> rfl

/-- Tables with the same entries are equal. -/
@[ext] theorem ext {S T : PerWorld α} (h : ∀ w, S.get w = T.get w) : S = T := by
  rcases S with ⟨_, _, _, _⟩; rcases T with ⟨_, _, _, _⟩
  have ha := h .a
  have hb := h .b
  have hc := h .c
  have hd := h .d
  simp_all [get]

end PerWorld

end FourWorlds
