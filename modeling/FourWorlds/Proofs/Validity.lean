import FourWorlds.Proofs.Kripke
import FourWorlds.Proofs.ValuationRange
import FourWorlds.Report
import Mathlib.Data.Set.Card

/-! # Validity found by trying the valuations that matter

Trying the valuations over the atoms of a formula is enough: by `Formula.holds_congr` no other atom
matters, and by `ValuationRange.exists_holds_iff` no reading of these atoms is left out.

* `mem_validWorlds_iff`: the worlds listed are those at which the formula is true under every reading.
* `validates_iff_validWorlds_eq`, `validates_iff_forall_validAt`: a frame validates a formula if all
  worlds are listed, so if the formula is true at all of them under every reading.
* `QueryReport.ofCount_eq_valid_iff` and its companions: which answer is given for a number of worlds.
* `validWorlds_textbook`: all of it in one statement. -/

namespace FourWorlds

variable {F : Frame} {φ : Formula} {w : World}

/-- **The worlds listed are those at which the formula is true under every reading of all atoms.** -/
theorem mem_validWorlds_iff : w ∈ F.validWorlds φ ↔ φ.ValidAt F w := by
  rw [Frame.mem_validWorlds]
  constructor
  · intro h V
    -- Some valuation that is tried reads the atoms of the formula as `V` does.
    obtain ⟨U, hU, hUV⟩ := ValuationRange.exists_holds_iff φ.atoms V
    have hagree : ∀ v x, φ.mentions x → (U.reading v x ↔ V v x) := by
      intro v x hx
      rw [Valuation.reading, hUV, and_iff_right (Formula.mem_atoms.2 hx)]
    rw [← Formula.holds_congr hagree, ← satisfies_iff_holds]
    exact h U hU
  · -- The valuations that are tried are readings among others.
    intro h V _
    exact (satisfies_iff_holds F V φ w).2 (h V.reading)

/-- The worlds are listed in their order and each once. -/
theorem validWorlds_sublist (F : Frame) (φ : Formula) : (F.validWorlds φ).Sublist World.all :=
  List.filter_sublist

/-- There are as many worlds listed as the formula is valid at. -/
theorem length_validWorlds (F : Frame) (φ : Formula) :
    (F.validWorlds φ).length = {w | φ.ValidAt F w}.ncard := by
  have hset : {w | φ.ValidAt F w} = ((F.validWorlds φ).toFinset : Set World) := by
    ext w
    rw [List.coe_toFinset]
    exact mem_validWorlds_iff.symm
  rw [hset, Set.ncard_coe_finset,
    List.toFinset_card_of_nodup ((validWorlds_sublist F φ).nodup World.nodup_all)]

/-- All worlds are listed exactly if there are four. -/
theorem validWorlds_eq_all_iff : F.validWorlds φ = World.all ↔ 4 ≤ (F.validWorlds φ).length := by
  constructor
  · intro h
    rw [h]
    rfl
  · exact fun h => (validWorlds_sublist F φ).eq_of_length_le h

/-- A frame validates a formula exactly if all worlds are listed. -/
theorem validates_iff_validWorlds_eq : F.validates φ ↔ F.validWorlds φ = World.all := by
  rw [Frame.validates_iff]
  constructor
  · intro h
    refine List.filter_eq_self.2 fun w _ => ?_
    have hw : w ∈ F.validWorlds φ :=
      Frame.mem_validWorlds.2 fun V hV => List.all_eq_true.1 (h V hV) w (World.mem_all w)
    exact (List.mem_filter.1 hw).2
  · intro h V hV
    refine List.all_eq_true.2 fun w _ => ?_
    exact Frame.mem_validWorlds.1 (h ▸ World.mem_all w) V hV

/-- A frame validates a formula exactly if it is true at every world under every reading. -/
theorem validates_iff_forall_validAt : F.validates φ ↔ ∀ w, φ.ValidAt F w := by
  rw [validates_iff_validWorlds_eq]
  constructor
  · intro h w
    exact mem_validWorlds_iff.1 (h ▸ World.mem_all w)
  · intro h
    refine List.filter_eq_self.2 fun w _ => ?_
    have hw : w ∈ F.validWorlds φ := mem_validWorlds_iff.2 (h w)
    exact (List.mem_filter.1 hw).2

/-! ## The answer for a number of worlds -/

namespace QueryReport

variable {count n : Nat}

/-- The answer for a number of the four worlds. -/
theorem ofCount_eq (count : Nat) : ofCount count
    = if count = 0 then invalid else if count < 4 then validIn count else valid := rfl

/-- A formula is called valid exactly if it is valid at four worlds or more. -/
theorem ofCount_eq_valid_iff : ofCount count = valid ↔ 4 ≤ count := by
  rw [ofCount_eq]
  split_ifs with h0 h4
  · exact iff_of_false nofun (by omega)
  · exact iff_of_false nofun (by omega)
  · exact iff_of_true rfl (by omega)

/-- A formula is called invalid exactly if it is valid at no world. -/
theorem ofCount_eq_invalid_iff : ofCount count = invalid ↔ count = 0 := by
  rw [ofCount_eq]
  split_ifs with h0 h4
  · exact iff_of_true rfl h0
  · exact iff_of_false nofun h0
  · exact iff_of_false nofun h0

/-- A number of worlds is told exactly if it is the number, some and not all. -/
theorem ofCount_eq_validIn_iff : ofCount count = validIn n ↔ 0 < n ∧ n < 4 ∧ count = n := by
  rw [ofCount_eq]
  split_ifs with h0 h4
  · exact iff_of_false nofun (by omega)
  · rw [validIn.injEq]
    omega
  · exact iff_of_false nofun (by omega)

end QueryReport

/-- **Validity is found as the textbook has it.** The worlds listed come in the order of the worlds
and each once, and are those at which the formula is true under every reading of the four atoms; a
frame validates the formula exactly if these are all worlds; and the answer for their number says
whether they are all, none, or how many between. -/
theorem validWorlds_textbook (F : Frame) (φ : Formula) :
    (F.validWorlds φ).Sublist [.a, .b, .c, .d]
      ∧ (∀ w, w ∈ F.validWorlds φ ↔ ∀ V : World → Atom → Prop, φ.Holds F V w)
      ∧ (F.validates φ ↔ F.validWorlds φ = [.a, .b, .c, .d])
      ∧ (QueryReport.ofCount (F.validWorlds φ).length = .valid ↔ F.validates φ)
      ∧ (QueryReport.ofCount (F.validWorlds φ).length = .invalid ↔ ∀ w, ¬ φ.ValidAt F w)
      ∧ ∀ n, QueryReport.ofCount (F.validWorlds φ).length = .validIn n
          ↔ 0 < n ∧ n < 4 ∧ {w | φ.ValidAt F w}.ncard = n := by
  refine ⟨validWorlds_sublist F φ, fun w => mem_validWorlds_iff, validates_iff_validWorlds_eq,
    ?_, ?_, fun n => ?_⟩
  · rw [QueryReport.ofCount_eq_valid_iff, validates_iff_validWorlds_eq, validWorlds_eq_all_iff]
  · rw [QueryReport.ofCount_eq_invalid_iff, List.length_eq_zero_iff, List.eq_nil_iff_forall_not_mem]
    exact forall_congr' fun w => not_congr mem_validWorlds_iff
  · rw [QueryReport.ofCount_eq_validIn_iff, length_validWorlds]

end FourWorlds
