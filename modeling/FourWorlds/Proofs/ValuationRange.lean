import FourWorlds.Valuation.Range
import Mathlib.Logic.Basic

/-! # Ranges of valuations are complete

Counting off deals out every subset of the places of a range, so every way for some atoms to be true
at the worlds is found in the range of the valuations over those atoms.

* `PlaceSet.exists_contains_deal`: every subset of a list of places is dealt out at some count.
* `ValuationRange.exists_holds_iff`: every reading of the atoms of a range is found in it. -/

namespace FourWorlds

/-- **Every subset of a list of places is dealt out**, at a count with a bit for each of them. -/
theorem PlaceSet.exists_contains_deal (places : List (Fin 16)) (S : PlaceSet)
    (chosen : Fin 16 → Prop) :
    ∃ count < 1 <<< places.length,
      ∀ i, (S.deal places count).contains i ↔ S.contains i ∨ i ∈ places ∧ chosen i := by
  induction places generalizing S with
  | nil => exact ⟨0, Nat.one_pos, fun i => by simp [deal]⟩
  | cons j places ih =>
      by_cases hj : chosen j
      · -- The lowest bit is set, and the others deal the rest onto the set with `j`.
        obtain ⟨count, hlt, hcount⟩ := ih (S.insert j)
        refine ⟨2 * count + 1, by rw [List.length_cons, Nat.shiftLeft_succ]; omega, fun i => ?_⟩
        rw [deal, if_pos (by omega), show (2 * count + 1) / 2 = count by omega, hcount,
          contains_insert, Bool.or_eq_true, decide_eq_true_iff, List.mem_cons]
        constructor
        · rintro ((hi | rfl) | ⟨hi, hchosen⟩)
          · exact .inl hi
          · exact .inr ⟨.inl rfl, hj⟩
          · exact .inr ⟨.inr hi, hchosen⟩
        · rintro (hi | ⟨rfl | hi, hchosen⟩)
          · exact .inl (.inl hi)
          · exact .inl (.inr rfl)
          · exact .inr ⟨hi, hchosen⟩
      · -- The lowest bit is not set, so `j` is added only if it was there before.
        obtain ⟨count, hlt, hcount⟩ := ih S
        refine ⟨2 * count, by rw [List.length_cons, Nat.shiftLeft_succ]; omega, fun i => ?_⟩
        rw [deal, if_neg (by omega), show 2 * count / 2 = count by omega, hcount, List.mem_cons]
        refine or_congr_right (and_congr_left fun hchosen => ?_)
        exact (or_iff_right fun hij : i = j => hj (hij ▸ hchosen)).symm

namespace ValuationRange

/-- The places of the range over some atoms are those of their pairs with the worlds. -/
theorem place_mem_ofAtoms {atoms : List Atom} {w : World} {x : Atom} :
    Valuation.place w x ∈ (ofAtoms atoms).places ↔ x ∈ atoms := by
  rw [ofAtoms, List.mem_flatMap]
  constructor
  · rintro ⟨v, -, hv⟩
    obtain ⟨y, hy, heq⟩ := List.mem_map.1 hv
    obtain ⟨-, rfl⟩ := Valuation.place_inj.1 heq
    exact of_decide_eq_true (List.mem_filter.1 hy).2
  · intro hx
    refine ⟨w, World.mem_all w, List.mem_map_of_mem (List.mem_filter.2 ⟨Atom.mem_all x, ?_⟩)⟩
    exact decide_eq_true hx

/-- **Every reading of some atoms is found among the valuations over them.** -/
theorem exists_holds_iff (atoms : List Atom) (V : World → Atom → Prop) :
    ∃ U ∈ (ofAtoms atoms).toList, ∀ w x, U.holds w x ↔ x ∈ atoms ∧ V w x := by
  obtain ⟨count, hlt, hcount⟩ := PlaceSet.exists_contains_deal (ofAtoms atoms).places .empty
    fun i => ∃ w x, Valuation.place w x = i ∧ V w x
  refine ⟨(ofAtoms atoms).get count, List.mem_map_of_mem (List.mem_range.2 hlt), fun w x => ?_⟩
  have hplace : (∃ v y, Valuation.place v y = Valuation.place w x ∧ V v y) ↔ V w x := by
    constructor
    · rintro ⟨v, y, heq, hV⟩
      obtain ⟨rfl, rfl⟩ := Valuation.place_inj.1 heq
      exact hV
    · exact fun hV => ⟨w, x, rfl, hV⟩
  rw [Valuation.holds, get, hcount, place_mem_ofAtoms, hplace, PlaceSet.contains_empty]
  exact or_iff_right Bool.false_ne_true

end ValuationRange

end FourWorlds
