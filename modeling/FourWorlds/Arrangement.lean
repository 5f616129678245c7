/-! # Arrangements of a list

An arrangement of a list is a way of putting its elements in a row. Arrangements are told apart by
the places of the elements and not by their values, so a list of `n` elements has `n!` of them. They
are listed in lexicographic order of places: those that begin with an earlier element come first.

* `picks`: every way of taking one element out of a list.
* `selections`: every row of a given number of elements taken out one after another.
* `arrangements`: every row of all the elements. -/

namespace FourWorlds

universe u

variable {α : Type u}

/-- Each element of a list, in order, with the list that is left once it is taken out. -/
def picks : List α → List (α × List α)
  | [] => []
  | x :: xs => (x, xs) :: (picks xs).map fun (y, rest) => (y, x :: rest)

/-- The rows of `n` elements taken out of a list one after another, in lexicographic order. -/
def selections : Nat → List α → List (List α)
  | 0, _ => [[]]
  | n + 1, items => (picks items).flatMap fun (x, rest) => (selections n rest).map (x :: ·)

/-- The arrangements of a list, in lexicographic order of places. -/
def arrangements (items : List α) : List (List α) := selections items.length items

/-! ### Elementary facts -/

/-- There are as many picks as elements. -/
@[simp] theorem length_picks (items : List α) : (picks items).length = items.length := by
  induction items with
  | nil => rfl
  | cons x xs ih => simp [picks, ih]

/-- A pick and what it leaves make up the list again. -/
theorem perm_of_mem_picks {items : List α} {pick : α × List α} (h : pick ∈ picks items) :
    (pick.1 :: pick.2).Perm items := by
  induction items generalizing pick with
  | nil => simp [picks] at h
  | cons x xs ih =>
    rcases List.mem_cons.1 h with rfl | h
    · exact .refl _
    · obtain ⟨⟨y, rest⟩, hmem, rfl⟩ := List.mem_map.1 h
      exact (List.Perm.swap x y rest).trans ((ih hmem).cons x)

/-- A pick leaves one element less. -/
theorem length_of_mem_picks {items : List α} {pick : α × List α} (h : pick ∈ picks items) :
    pick.2.length + 1 = items.length :=
  (perm_of_mem_picks h).length_eq

end FourWorlds
