import FourWorlds.Proofs.Relabelling
import Mathlib.Data.List.FinRange
import Mathlib.Data.List.Lex
import Mathlib.Data.Nat.Factorial.Basic

/-! # The order of arrangements

Arrangements are made of places: those of any list are the arrangements of its places, with each
place replaced by the element that stands there. The arrangements of the places come in lexicographic
order, and as there are all of them and each once, that order determines the list.

* `arrangements_map`: arranging the images of elements.
* `pairwise_lt_selections`: rows of ascending elements come in lexicographic order.
* `length_arrangements`, `head?_arrangements`: how many arrangements there are, and the first one.
* `PlaceRows`: the arrangements of the places below a number, as a list with an order and members.
* `arrangements_by_places`: all of it in one statement. -/

namespace FourWorlds

universe u v

variable {α : Type u} {β : Type v} {items : List α} {n : Nat}

/-! ## Picks -/

/-- Picking from the images of elements gives the images of what is picked and of what is left. -/
theorem picks_map (f : α → β) (items : List α) :
    picks (items.map f) = (picks items).map (Prod.map f (List.map f)) := by
  induction items with
  | nil => rfl
  | cons x items ih =>
      simp only [List.map_cons, picks, ih, List.map_map]
      rfl

/-- The elements are picked in the order in which they stand. -/
theorem map_fst_picks (items : List α) : (picks items).map Prod.fst = items := by
  induction items with
  | nil => rfl
  | cons x items ih =>
      rw [picks, List.map_cons, List.map_map]
      exact congrArg (x :: ·) ih

/-- What a pick leaves is in the order in which it stands. -/
theorem sublist_of_mem_picks {pick : α × List α} (h : pick ∈ picks items) :
    pick.2.Sublist items := by
  induction items generalizing pick with
  | nil => cases h
  | cons x items ih =>
      rcases List.mem_cons.1 h with rfl | h
      · exact List.sublist_cons_self x items
      · obtain ⟨other, hother, rfl⟩ := List.mem_map.1 h
        exact (ih hother).cons_cons x

/-! ## Rows -/

/-- The rows made of the images of elements are the images of the rows. -/
theorem selections_map (f : α → β) (n : Nat) (items : List α) :
    selections n (items.map f) = (selections n items).map (List.map f) := by
  induction n generalizing items with
  | zero => rfl
  | succ n ih =>
      rw [selections, selections, picks_map, List.flatMap_map, List.map_flatMap]
      refine congrArg (List.flatMap · (picks items)) (funext fun pick => ?_)
      show (selections n (pick.2.map f)).map (f pick.1 :: ·)
        = ((selections n pick.2).map (pick.1 :: ·)).map (List.map f)
      rw [ih, List.map_map, List.map_map]
      rfl

/-- **Rows of ascending elements come in lexicographic order.** -/
theorem pairwise_lt_selections [LT α] (h : items.Pairwise (· < ·)) (n : Nat) :
    (selections n items).Pairwise (· < ·) := by
  induction n generalizing items with
  | zero => exact List.pairwise_singleton _ _
  | succ n ih =>
      rw [selections, List.pairwise_flatMap]
      constructor
      · -- Rows with the same first element are compared by what follows it.
        intro pick hpick
        refine List.pairwise_map.2 ((ih (h.sublist (sublist_of_mem_picks hpick))).imp ?_)
        exact fun hlt => List.cons_lt_cons_iff.2 (.inr ⟨rfl, hlt⟩)
      · -- The first elements are picked in ascending order.
        rw [← map_fst_picks items] at h
        refine (List.pairwise_map.1 h).imp ?_
        intro pick other hlt row hrow row' hrow'
        obtain ⟨rest, -, rfl⟩ := List.mem_map.1 hrow
        obtain ⟨rest', -, rfl⟩ := List.mem_map.1 hrow'
        exact List.cons_lt_cons_iff.2 (.inl hlt)

/-- There are as many rows of all elements as the factorial of their number. -/
theorem length_selections (h : items.length = n) : (selections n items).length = n.factorial := by
  induction n generalizing items with
  | zero => rfl
  | succ n ih =>
      have hpick : ∀ pick ∈ picks items,
          ((selections n pick.2).map (pick.1 :: ·)).length = n.factorial := by
        intro pick hpick
        have hleft := length_of_mem_picks hpick
        rw [List.length_map]
        exact ih (by omega)
      rw [selections, List.length_flatMap, List.map_congr_left hpick, List.map_const',
        List.sum_replicate_nat, length_picks, h, Nat.factorial_succ]

/-- The row in which the elements stand already comes first. -/
theorem head?_selections (items : List α) :
    (selections items.length items).head? = some items := by
  induction items with
  | nil => rfl
  | cons x items ih =>
      rw [List.length_cons, selections, picks, List.flatMap_cons, List.head?_append, List.head?_map,
        ih]
      rfl

/-! ## Arrangements -/

/-- Arranging the images of elements gives the images of the arrangements. -/
theorem arrangements_map (f : α → β) (items : List α) :
    arrangements (items.map f) = (arrangements items).map (List.map f) := by
  rw [arrangements, List.length_map, selections_map, arrangements]

/-- **There are as many arrangements as the factorial of the number of elements.** -/
theorem length_arrangements (items : List α) :
    (arrangements items).length = items.length.factorial := length_selections rfl

/-- The first arrangement is the list itself. -/
theorem head?_arrangements (items : List α) : (arrangements items).head? = some items :=
  head?_selections items

/-- The rows of all places below a number, in lexicographic order and each once. -/
structure PlaceRows (n : Nat) (rows : List (List (Fin n))) : Prop where
  /-- Each row comes before those that are greater. -/
  ascending : rows.Pairwise (· < ·)
  /-- The rows are those in which every place stands once. -/
  mem_iff : ∀ row, row ∈ rows ↔ row.Perm (List.finRange n)

/-- The arrangements of the places are the rows of all places in order. -/
theorem placeRows_arrangements (n : Nat) : PlaceRows n (arrangements (List.finRange n)) where
  ascending := pairwise_lt_selections (List.pairwise_lt_finRange n) _
  mem_iff _ := mem_arrangements

/-- **Order and members determine the rows of all places.** -/
theorem PlaceRows.unique {rows others : List (List (Fin n))} (h : PlaceRows n rows)
    (hothers : PlaceRows n others) : rows = others :=
  h.ascending.eq_of_mem_iff hothers.ascending fun row =>
    (h.mem_iff row).trans (hothers.mem_iff row).symm

/-- **The arrangements of a list are the rows of its places, read off in the list.** -/
theorem PlaceRows.arrangements_eq {rows : List (List (Fin items.length))}
    (h : PlaceRows items.length rows) :
    arrangements items = rows.map fun row => row.map items.get := by
  have hitems := arrangements_map items.get (List.finRange items.length)
  rw [List.map_get_finRange] at hitems
  rw [hitems, h.unique (placeRows_arrangements _)]

/-- The arrangements of distinct elements are distinct. -/
theorem nodup_arrangements (h : items.Nodup) : (arrangements items).Nodup := by
  have hrows := placeRows_arrangements items.length
  rw [hrows.arrangements_eq]
  refine List.Nodup.map ?_ (hrows.ascending.imp ne_of_lt)
  exact List.map_injective_iff.2 (List.nodup_iff_injective_get.1 h)

/-- **Arrangements go by places, in lexicographic order.** A list of `n` elements has `n!` of them.
Just one list has the rows of all places below `n` in lexicographic order and each once, and reading
its rows off in the list gives the arrangements, in the same order; the list itself comes first. The
arrangements are the lists with the same elements, and if no element is repeated all are distinct. -/
theorem arrangements_by_places (items : List α) :
    (arrangements items).length = items.length.factorial
      ∧ (∃! rows, PlaceRows items.length rows)
      ∧ (∀ rows, PlaceRows items.length rows →
        ∀ m : Nat, (arrangements items)[m]? = rows[m]?.map fun row => row.map items.get)
      ∧ (arrangements items).head? = some items
      ∧ (∀ row, row ∈ arrangements items ↔ row.Perm items)
      ∧ (items.Nodup → (arrangements items).Nodup) := by
  refine ⟨length_arrangements items, ?_, fun rows hrows m => ?_, head?_arrangements items,
    fun row => mem_arrangements, nodup_arrangements⟩
  · exact ⟨_, placeRows_arrangements items.length,
      fun rows hrows => hrows.unique (placeRows_arrangements items.length)⟩
  · rw [hrows.arrangements_eq, List.getElem?_map]

/-- The fourth arrangement of three distinct letters takes them by the fourth row of their places. -/
theorem arrangements_by_places_three :
    PlaceRows 3 [[0, 1, 2], [0, 2, 1], [1, 0, 2], [1, 2, 0], [2, 0, 1], [2, 1, 0]]
      ∧ (arrangements ['x', 'y', 'z'])[3]? = some ['y', 'z', 'x']
      ∧ ['x', 'y', 'z'].Nodup ∧ (arrangements ['x', 'y', 'z']).Nodup := by
  have hrows : PlaceRows 3 [[0, 1, 2], [0, 2, 1], [1, 0, 2], [1, 2, 0], [2, 0, 1], [2, 1, 0]] :=
    placeRows_arrangements 3
  have hnodup : ['x', 'y', 'z'].Nodup := by decide
  obtain ⟨-, -, hplaces, -, -, hdistinct⟩ := arrangements_by_places ['x', 'y', 'z']
  exact ⟨hrows, hplaces _ hrows 3, hnodup, hdistinct hnodup⟩

end FourWorlds
