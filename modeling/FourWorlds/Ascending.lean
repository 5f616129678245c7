/-! # Ascending lists

A list in which each item comes before all later ones is a set: no item is listed twice, and the items
determine their order.

* `insertAscending`, `ascending`: one more item in its place, and all items of a list in order.
* `mem_ascending`, `pairwise_ascending`: the items of such a list, and their order.
* `eq_of_pairwise_of_mem_iff`: ascending lists with the same items are equal. -/

namespace FourWorlds

universe u

variable {α : Type u} [LT α] [DecidableLT α] [DecidableEq α] {x y : α} {items others : List α}

/-- An ascending list with one more item in its place, unless it is there already. -/
def insertAscending (x : α) : List α → List α
  | [] => [x]
  | y :: rest =>
    if x < y then x :: y :: rest
    else if x = y then y :: rest
    else y :: insertAscending x rest

/-- The items of a list in ascending order, each of them once. -/
def ascending (items : List α) : List α := items.foldr insertAscending []

/-! ### Elementary facts -/

/-- Putting an item in its place adds just that item. -/
theorem mem_insertAscending : y ∈ insertAscending x items ↔ y = x ∨ y ∈ items := by
  induction items with
  | nil => simp [insertAscending]
  | cons z items ih =>
    rw [insertAscending]
    by_cases hlt : x < z
    · rw [if_pos hlt, List.mem_cons]
    rw [if_neg hlt]
    by_cases heq : x = z
    · rw [if_pos heq, heq, List.mem_cons, or_self_left]
    · rw [if_neg heq, List.mem_cons, ih, List.mem_cons, or_left_comm]

/-- Putting an item in its place keeps the list ascending. -/
theorem pairwise_insertAscending [Trans (α := α) (· < ·) (· < ·) (· < ·)]
    [Std.Trichotomous (α := α) (· < ·)] (h : items.Pairwise (· < ·)) :
    (insertAscending x items).Pairwise (· < ·) := by
  induction items with
  | nil => simp [insertAscending]
  | cons z items ih =>
    obtain ⟨hz, hitems⟩ := List.pairwise_cons.1 h
    rw [insertAscending]
    by_cases hlt : x < z
    · rw [if_pos hlt]
      refine List.pairwise_cons.2 ⟨fun y hy => ?_, h⟩
      rcases List.mem_cons.1 hy with rfl | hy
      · exact hlt
      · exact Std.lt_trans hlt (hz y hy)
    rw [if_neg hlt]
    by_cases heq : x = z
    · rwa [if_pos heq]
    · rw [if_neg heq]
      refine List.pairwise_cons.2 ⟨fun y hy => ?_, ih hitems⟩
      rcases mem_insertAscending.1 hy with rfl | hy
      · exact ((Std.lt_trichotomy y z).resolve_left hlt).resolve_left heq
      · exact hz y hy

/-- The items put in order are those of the list. -/
@[simp] theorem mem_ascending : x ∈ ascending items ↔ x ∈ items := by
  rw [ascending]
  induction items with
  | nil => simp
  | cons y items ih => rw [List.foldr_cons, mem_insertAscending, ih, List.mem_cons]

/-- The items put in order ascend. -/
theorem pairwise_ascending [Trans (α := α) (· < ·) (· < ·) (· < ·)]
    [Std.Trichotomous (α := α) (· < ·)] (items : List α) : (ascending items).Pairwise (· < ·) := by
  rw [ascending]
  induction items with
  | nil => exact .nil
  | cons y items ih =>
    rw [List.foldr_cons]
    exact pairwise_insertAscending ih

omit [DecidableLT α] [DecidableEq α] in
/-- **An ascending list is determined by its items.** -/
theorem eq_of_pairwise_of_mem_iff [Std.Asymm (α := α) (· < ·)] (h : items.Pairwise (· < ·))
    (h' : others.Pairwise (· < ·)) (hmem : ∀ x, x ∈ items ↔ x ∈ others) : items = others := by
  have hne : ∀ {x y : α}, x < y → x ≠ y := by
    rintro x _ hlt rfl
    exact Std.Asymm.asymm _ _ hlt hlt
  have hperm : items.Perm others := (List.perm_ext_iff_of_nodup (h.imp hne) (h'.imp hne)).2 hmem
  exact hperm.eq_of_pairwise (fun _ _ _ _ hlt hgt => absurd hgt (Std.Asymm.asymm _ _ hlt)) h h'

end FourWorlds
