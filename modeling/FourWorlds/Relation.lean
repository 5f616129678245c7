import FourWorlds.World
import FourWorlds.Arrangement

/-! # Relations and relabellings

A relation is an ordered pair of worlds, written `aRb` for the pair from `a` to `b`. The sixteen
relations are ordered by source and then by target, and numbered from zero in that order.

* `Relation.all`: the relations in order.
* `Relation.index`, `Relation.ofIndex?`: the place of a relation in the order, and back.
* `Relation.lt_iff_index_lt`, `Relation.between_iff`: the order goes by the places, and the relations
  of one source stand in a row.
* `Relabelling`: a map of worlds to worlds; `Relabelling.all` lists those that are one to one. -/

namespace FourWorlds

/-- An ordered pair of worlds. -/
structure Relation where
  /-- The world the relation leaves. -/
  source : World
  /-- The world the relation enters. -/
  target : World
  deriving DecidableEq, Repr, Inhabited

namespace Relation

/-- The relations in order, by source and then by target. -/
def all : List Relation :=
  World.all.flatMap fun source => World.all.map fun target => ⟨source, target⟩

/-- The place of a relation in the order, from zero. -/
def index (r : Relation) : Fin 16 :=
  ⟨4 * r.source.index + r.target.index, by omega⟩

/-- The relation at a place of the order, if there is one. -/
def ofIndex? (n : Nat) : Option Relation := all[n]?

/-- Relations are ordered by source, and those of one source by target. -/
instance : LT Relation :=
  ⟨fun r s => r.source < s.source ∨ r.source = s.source ∧ r.target < s.target⟩

instance : DecidableLT Relation := fun r s =>
  inferInstanceAs (Decidable (r.source < s.source ∨ r.source = s.source ∧ r.target < s.target))

instance : LE Relation := ⟨fun r s => r < s ∨ r = s⟩

instance : DecidableLE Relation := fun r s => inferInstanceAs (Decidable (r < s ∨ r = s))

/-- The text of a relation, such as `aRb`. -/
def text (r : Relation) : String := String.ofList [r.source.letter, 'R', r.target.letter]

/-! ### Elementary facts -/

/-- Every relation is listed. -/
@[simp] theorem mem_all (r : Relation) : r ∈ all := by
  rcases r with ⟨v, w⟩; cases v <;> cases w <;> decide

/-- No relation is listed twice. -/
theorem nodup_all : all.Nodup := by decide

/-- The relations are listed by their places. -/
theorem map_index_all : all.map index = List.finRange 16 := by decide

/-- Distinct relations have distinct places. -/
theorem index_inj {r s : Relation} : r.index = s.index ↔ r = s := by
  rcases r with ⟨v, w⟩; rcases s with ⟨x, y⟩
  cases v <;> cases w <;> cases x <;> cases y <;> decide

/-- There is a relation at every place. -/
theorem exists_index_eq (i : Fin 16) : ∃ r : Relation, r.index = i := by
  have hplace : i ∈ all.map index := by
    rw [map_index_all]
    exact List.mem_finRange i
  obtain ⟨r, -, hr⟩ := List.mem_map.1 hplace
  exact ⟨r, hr⟩

/-- The place of a relation counts four for each source before its own. -/
theorem val_index (r : Relation) : r.index.val = 4 * r.source.index.val + r.target.index.val := rfl

/-- **The places of the relations go by their order.** -/
theorem lt_iff_index_lt {r s : Relation} : r < s ↔ r.index < s.index := by
  show r.source < s.source ∨ r.source = s.source ∧ r.target < s.target ↔ _
  rw [World.lt_iff_index_lt, World.lt_iff_index_lt, ← World.index_inj, Fin.lt_def, Fin.lt_def,
    Fin.lt_def, Fin.ext_iff, val_index, val_index]
  omega

/-- The same holds where the two may be one relation. -/
theorem le_iff_index_le {r s : Relation} : r ≤ s ↔ r.index ≤ s.index := by
  show r < s ∨ r = s ↔ _
  rw [lt_iff_index_lt, ← index_inj, Fin.lt_def, Fin.le_def, Fin.ext_iff]
  omega

/-- The relations from the first to the last one of a source are those with this source. -/
theorem between_iff {r : Relation} {w : World} :
    (⟨w, .a⟩ : Relation) ≤ r ∧ r ≤ ⟨w, .d⟩ ↔ r.source = w := by
  have hfirst : World.a.index.val = 0 := rfl
  have hlast : World.d.index.val = 3 := rfl
  rw [le_iff_index_le, le_iff_index_le, ← World.index_inj, Fin.le_def, Fin.le_def, Fin.ext_iff,
    val_index, val_index, val_index]
  dsimp only
  omega

instance : Std.Asymm (α := Relation) (· < ·) where
  asymm _ _ h h' := Nat.lt_asymm (lt_iff_index_lt.1 h) (lt_iff_index_lt.1 h')

instance : Trans (α := Relation) (· < ·) (· < ·) (· < ·) where
  trans h h' := lt_iff_index_lt.2 (Nat.lt_trans (lt_iff_index_lt.1 h) (lt_iff_index_lt.1 h'))

instance : Std.Trichotomous (α := Relation) (· < ·) where
  trichotomous r s h h' := by
    rw [lt_iff_index_lt, Fin.lt_def] at h h'
    rw [← index_inj, Fin.ext_iff]
    omega

/-- A relation is found at its place. -/
@[simp] theorem ofIndex?_index (r : Relation) : ofIndex? r.index = some r := by
  rcases r with ⟨v, w⟩; cases v <;> cases w <;> rfl

end Relation

/-- A map of worlds to worlds, by which the worlds of a frame are renamed. -/
abbrev Relabelling := World → World

namespace Relabelling

/-- The relabelling that takes the worlds in order to the given images. -/
def ofImages (onA onB onC onD : World) : Relabelling
  | .a => onA
  | .b => onB
  | .c => onC
  | .d => onD

/-- The images of the worlds, in order. -/
def images (f : Relabelling) : List World := World.all.map f

/-- The relabelling with the given images, if there is one image for each world. -/
def ofList? : List World → Option Relabelling
  | [onA, onB, onC, onD] => some (ofImages onA onB onC onD)
  | _ => none

/-- The twenty-four one-to-one relabellings, in lexicographic order of their images. -/
def all : List Relabelling := (arrangements World.all).filterMap ofList?

end Relabelling

/-- The relation between the images of the two worlds. -/
def Relation.relabelled (r : Relation) (f : Relabelling) : Relation := ⟨f r.source, f r.target⟩

/-- The source of the image is the image of the source. -/
@[simp] theorem Relation.source_relabelled (r : Relation) (f : Relabelling) :
    (r.relabelled f).source = f r.source := rfl

/-- The target of the image is the image of the target. -/
@[simp] theorem Relation.target_relabelled (r : Relation) (f : Relabelling) :
    (r.relabelled f).target = f r.target := rfl

end FourWorlds
