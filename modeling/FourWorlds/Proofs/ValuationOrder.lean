import FourWorlds.Proofs.ValuationRange
import Mathlib.Algebra.Group.Nat.Defs
import Mathlib.Data.List.FinRange
import Mathlib.Data.Fintype.Card

/-! # The order of a range of valuations

Dealing out ascending places by the bits of a count adds powers of two to the number of a set, greater
ones for higher bits of the count. So a greater count gives a set with a greater number, and the
valuations of a range come in ascending order and each once.

* `PlaceSet.number_deal`, `PlaceSet.weight_lt_weight`: the number of a set that is dealt out, and how
  it grows with the count.
* `ValuationRange.pairwise_toList`: the valuations of a range come in ascending order.
* `ValuationRange.mem_toList_ofAtoms`: they are those in which no other atom is true anywhere.
* `ValuationRange.total_ofAtoms`: how many there are. -/

namespace FourWorlds

/-! ## Numbers of sets -/

namespace PlaceSet

variable {S : PlaceSet} {places : List (Fin 16)} {i j : Fin 16} {count more : Nat}

/-- Only the places that are dealt out are added. -/
theorem contains_deal_imp (h : (S.deal places count).contains i) : S.contains i ∨ i ∈ places := by
  induction places generalizing S count with
  | nil => exact .inl h
  | cons j places ih =>
      rw [deal] at h
      rcases ih h with hi | hi
      · by_cases hodd : count % 2 = 1
        · rw [if_pos hodd, contains_insert, Bool.or_eq_true, decide_eq_true_iff] at hi
          exact hi.imp_right fun hij => List.mem_cons.2 (.inl hij)
        · rw [if_neg hodd] at hi
          exact .inl hi
      · exact .inr (List.mem_cons_of_mem j hi)

/-- Adding a new place adds its power of two to the number. -/
theorem number_insert (h : S.contains i = false) :
    (S.insert i).number.val = S.number.val + 2 ^ i.val := by
  have hdisjoint : S.bits &&& BitVec.twoPow 16 i = 0#16 := by
    rw [BitVec.and_twoPow, if_neg]
    simpa [contains, BitVec.getLsbD_eq_getElem] using h
  show (S.bits ||| singleBits.get i).toNat = S.bits.toNat + 2 ^ i.val
  rw [singleBits_get, ← BitVec.add_eq_or_of_and_eq_zero _ _ hdisjoint,
    BitVec.toNat_add_of_and_eq_zero hdisjoint, BitVec.toNat_twoPow,
    Nat.mod_eq_of_lt (Nat.pow_lt_pow_right Nat.one_lt_two i.isLt)]

/-- The powers of two of those places whose bit of the count is set, added up. -/
def weight : List (Fin 16) → Nat → Nat
  | [], _ => 0
  | i :: places, count => (if count % 2 = 1 then 2 ^ i.val else 0) + weight places (count / 2)

/-- **Dealing out new places adds their weight to the number.** -/
theorem number_deal (hnodup : places.Nodup) (hnew : ∀ i ∈ places, S.contains i = false) :
    (S.deal places count).number.val = S.number.val + weight places count := by
  induction places generalizing S count with
  | nil => rfl
  | cons j places ih =>
      obtain ⟨hj, hnodup⟩ := List.nodup_cons.1 hnodup
      have hnew' : ∀ i ∈ places, S.contains i = false :=
        fun i hi => hnew i (List.mem_cons_of_mem j hi)
      rw [deal, weight]
      by_cases hodd : count % 2 = 1
      · have hinsert : ∀ i ∈ places, (S.insert j).contains i = false := by
          intro i hi
          have hij : i ≠ j := fun hij => hj (hij ▸ hi)
          simp [hnew' i hi, hij]
        rw [if_pos hodd, if_pos hodd, ih hnodup hinsert, number_insert (hnew j List.mem_cons_self),
          Nat.add_assoc]
      · rw [if_neg hodd, if_neg hodd, ih hnodup hnew', Nat.zero_add]

/-- The weight of places above another one is a multiple of a greater power of two. -/
theorem two_pow_dvd_weight (h : ∀ j ∈ places, i < j) : 2 ^ (i.val + 1) ∣ weight places count := by
  induction places generalizing count with
  | nil => exact Nat.dvd_zero _
  | cons j places ih =>
      have hj : i.val + 1 ≤ j.val := h j List.mem_cons_self
      rw [weight]
      refine Nat.dvd_add ?_ (ih fun k hk => h k (List.mem_cons_of_mem j hk))
      by_cases hodd : count % 2 = 1
      · rw [if_pos hodd]
        exact Nat.pow_dvd_pow 2 hj
      · rw [if_neg hodd]
        exact Nat.dvd_zero _

/-- **A greater count deals out a greater weight**, if the places ascend. -/
theorem weight_lt_weight (hplaces : places.Pairwise (· < ·)) (hlt : count < more)
    (hmore : more < 2 ^ places.length) : weight places count < weight places more := by
  induction places generalizing count more with
  | nil =>
      rw [List.length_nil, Nat.pow_zero] at hmore
      omega
  | cons i places ih =>
      obtain ⟨hi, hplaces⟩ := List.pairwise_cons.1 hplaces
      rw [List.length_cons, Nat.pow_succ] at hmore
      rw [weight, weight]
      rcases Nat.lt_or_ge (count / 2) (more / 2) with hhalf | hhalf
      · -- The higher bits decide, since what they deal out differs by more than the lowest place.
        obtain ⟨a, ha⟩ : 2 ^ (i.val + 1) ∣ weight places (count / 2) := two_pow_dvd_weight hi
        obtain ⟨b, hb⟩ : 2 ^ (i.val + 1) ∣ weight places (more / 2) := two_pow_dvd_weight hi
        have hweight := ih hplaces hhalf (by omega)
        rw [ha, hb] at hweight ⊢
        have hstep : 2 ^ (i.val + 1) * (a + 1) ≤ 2 ^ (i.val + 1) * b :=
          Nat.mul_le_mul_left _ (Nat.lt_of_mul_lt_mul_left hweight)
        have hlow : (if count % 2 = 1 then 2 ^ i.val else 0) < 2 ^ (i.val + 1) := by
          have hpos : 0 < 2 ^ i.val := Nat.two_pow_pos _
          rw [Nat.pow_succ]
          split <;> omega
        rw [Nat.mul_succ] at hstep
        omega
      · -- The higher bits are the same, so only the greater count has the lowest one.
        have heq : count / 2 = more / 2 := by omega
        have hpos : 0 < 2 ^ i.val := Nat.two_pow_pos _
        rw [heq, if_neg (show ¬ count % 2 = 1 by omega), if_pos (show more % 2 = 1 by omega)]
        omega

end PlaceSet

/-! ## Ranges -/

namespace ValuationRange

variable {R : ValuationRange} {atoms : List Atom}

/-- **The valuations of a range of ascending places come in the order of their numbers.** -/
theorem pairwise_toList (h : R.places.Pairwise (· < ·)) :
    R.toList.Pairwise fun U V => U.places.number < V.places.number := by
  have hnumber : ∀ count, (R.get count).places.number.val = PlaceSet.weight R.places count := by
    intro count
    have hempty : PlaceSet.empty.number.val = 0 := rfl
    rw [get, PlaceSet.number_deal (h.imp ne_of_lt) fun i _ => PlaceSet.contains_empty i, hempty,
      Nat.zero_add]
  rw [toList, List.pairwise_map]
  refine List.pairwise_lt_range.imp_of_mem fun {count more} _ hmore hlt => ?_
  rw [List.mem_range, total, Nat.one_shiftLeft] at hmore
  rw [Fin.lt_def, hnumber, hnumber]
  exact PlaceSet.weight_lt_weight h hlt hmore

/-- There are as many valuations in a range as its total says. -/
@[simp] theorem length_toList (R : ValuationRange) : R.toList.length = R.total := by
  rw [toList, List.length_map, List.length_range]

/-- A range begins with the empty valuation. -/
theorem head?_toList (R : ValuationRange) : R.toList.head? = some .empty := by
  have hempty : ∀ (places : List (Fin 16)) (S : PlaceSet), S.deal places 0 = S := by
    intro places S
    induction places generalizing S with
    | nil => rfl
    | cons i places ih => exact ih S
  have hpos : R.total ≠ 0 := by
    rw [total, Nat.one_shiftLeft]
    exact (Nat.two_pow_pos _).ne'
  rw [toList, List.head?_map, List.head?_range, if_neg hpos, Option.map_some, get, hempty,
    Valuation.empty]

/-! ## Ranges over atoms -/

/-- The places of the pairs of worlds and atoms ascend, by world and then by atom. -/
theorem pairwise_places_ofAtoms (atoms : List Atom) :
    (ofAtoms atoms).places.Pairwise (· < ·) := by
  have hworlds : World.all.Pairwise fun v w => v.index < w.index := by decide
  have hatoms : Atom.all.Pairwise fun x y => x.index < y.index := by decide
  rw [ofAtoms, List.pairwise_flatMap]
  constructor
  · intro w _
    refine List.pairwise_map.2 ((hatoms.filter _).imp fun {x y} hxy => ?_)
    rw [Fin.lt_def] at hxy ⊢
    exact Nat.add_lt_add_left hxy _
  · refine hworlds.imp fun {v w} hvw i hi j hj => ?_
    obtain ⟨x, -, rfl⟩ := List.mem_map.1 hi
    obtain ⟨y, -, rfl⟩ := List.mem_map.1 hj
    rw [Fin.lt_def] at hvw ⊢
    show 4 * v.index.val + x.index.val < 4 * w.index.val + y.index.val
    omega

/-- There are four places for each atom, one at each world. -/
theorem length_places_ofAtoms (atoms : List Atom) :
    (ofAtoms atoms).places.length = 4 * atoms.toFinset.card := by
  have hatoms : (Atom.all.filter (· ∈ atoms)).toFinset = atoms.toFinset := by
    ext x
    simp
  have hcard := List.toFinset_card_of_nodup (Atom.nodup_all.filter (· ∈ atoms))
  rw [hatoms] at hcard
  rw [ofAtoms, hcard, List.length_flatMap]
  simp only [List.length_map, List.map_const', List.sum_replicate_nat]
  rfl

/-- There are at most sixteen places. -/
theorem length_places_ofAtoms_le (atoms : List Atom) : (ofAtoms atoms).places.length ≤ 16 := by
  have hnodup : (ofAtoms atoms).places.Nodup := (pairwise_places_ofAtoms atoms).imp ne_of_lt
  exact (List.Nodup.length_le_card hnodup).trans_eq (Fintype.card_fin 16)

/-- **The number of valuations over some atoms is two to four times the number of these.** -/
theorem total_ofAtoms (atoms : List Atom) :
    (ofAtoms atoms).total = 2 ^ (4 * atoms.toFinset.card) := by
  rw [total, length_places_ofAtoms, Nat.one_shiftLeft]

/-- **The valuations over some atoms are those in which no other atom is true anywhere.** -/
theorem mem_toList_ofAtoms {V : Valuation} :
    V ∈ (ofAtoms atoms).toList ↔ ∀ w x, V.holds w x → x ∈ atoms := by
  constructor
  · intro hV w x hx
    obtain ⟨count, -, rfl⟩ := List.mem_map.1 hV
    rcases PlaceSet.contains_deal_imp hx with hempty | hplace
    · rw [PlaceSet.contains_empty] at hempty
      cases hempty
    · exact place_mem_ofAtoms.1 hplace
  · -- The range has a valuation that agrees with this one, so it is this one.
    intro h
    obtain ⟨U, hU, hUV⟩ := exists_holds_iff atoms fun w x => V.holds w x
    have heq : U = V := by
      ext w x
      rw [Bool.eq_iff_iff, hUV]
      exact and_iff_right_of_imp (h w x)
    exact heq ▸ hU

end ValuationRange

end FourWorlds
