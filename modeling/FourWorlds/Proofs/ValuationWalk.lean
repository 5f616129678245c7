import FourWorlds.Proofs.ValuationOrder
import FourWorlds.Valuation.Walk
import Mathlib.Data.List.Destutter

/-! # Walks visit the whole range

A walk over some atoms never meets a word without room, since it counts the subsets of at most sixteen
places. Each step gives the valuation at the count reached, and after the last one the walk ends. So
it gives the valuations of the range over these atoms, in their order.

* `ValuationWalk.sorted_eq`: sorting a list of atoms and leaving out repetitions gives its members.
* `ValuationWalk.reached`: the walk that has come to a count.
* `ValuationWalk.deal_eq`, `ValuationWalk.step_reached`: what one step does.
* `ValuationWalk.Gives`, `ValuationWalk.gives_reached`: all that a walk gives up to its end.
* `walk_visits_valuations_over`: all of it in one statement. -/

namespace FourWorlds

/-! ## Words with room -/

/-- A word has the bits at the places below its width. -/
theorem bitAt_of_lt {width place : Nat} (h : place < width) :
    bitAt width place = .ok (.twoPow width place) := if_pos h

/-- A word has room for the next number below the power of two of its width. -/
theorem successor_ofNat {width n : Nat} (h : n + 1 < 2 ^ width) :
    successor (BitVec.ofNat width n) = .ok (BitVec.ofNat width (n + 1)) := by
  have hroom : BitVec.ofNat width n ≠ .allOnes width := by
    intro hgreatest
    have heq := congrArg BitVec.toNat hgreatest
    rw [BitVec.toNat_ofNat, BitVec.toNat_allOnes, Nat.mod_eq_of_lt (by omega)] at heq
    omega
  rw [successor, if_neg hroom, BitVec.ofNat_add]
  rfl

namespace ValuationWalk

/-! ## The places of a walk -/

/-- Leaving out what equals the element before it loses no member. -/
theorem mem_destutter_ne {α : Type} [DecidableEq α] {l : List α} {x : α} :
    x ∈ l.destutter (· ≠ ·) ↔ x ∈ l := by
  refine ⟨fun h => (List.destutter_sublist _ l).subset h, fun h => ?_⟩
  have hmem : ∀ (l : List α) (y : α), x ∈ y :: l → x ∈ l.destutter' (· ≠ ·) y := by
    intro l
    induction l with
    | nil => exact fun y h => h
    | cons z l ih =>
        intro y h
        by_cases hyz : y = z
        · rw [List.destutter'_cons_neg _ (not_not.2 hyz)]
          refine ih y ?_
          rcases List.mem_cons.1 h with rfl | h
          · exact List.mem_cons_self
          · exact hyz ▸ h
        · rw [List.destutter'_cons_pos _ hyz]
          rcases List.mem_cons.1 h with rfl | h
          · exact List.mem_cons_self
          · exact List.mem_cons_of_mem y (ih z h)
  cases l with
  | nil => exact h
  | cons y l => exact hmem l y h

/-- Sorted atoms without repetitions ascend. -/
theorem pairwise_sorted (atoms : List Atom) :
    (sorted atoms).Pairwise fun x y => x.index < y.index := by
  have hle : (sorted atoms).Pairwise fun x y => x.index ≤ y.index := by
    have hsort := @List.pairwise_mergeSort _ (fun x y : Atom => decide (x.index ≤ y.index))
      (by simpa using fun _ _ _ => le_trans) (by simpa using fun _ _ => le_total _ _) atoms
    exact (hsort.imp of_decide_eq_true).sublist (List.destutter_sublist _ _)
  have hne : (sorted atoms).IsChain (· ≠ ·) := List.isChain_destutter _ _
  -- Neighbours ascend and are not equal, and what ascends from each to the next ascends throughout.
  have hchain : (sorted atoms).IsChain fun x y => x.index < y.index := by
    refine List.isChain_iff_getElem.2 fun n hn => ?_
    have hle' := List.isChain_iff_getElem.1 hle.isChain n hn
    have hne' := List.isChain_iff_getElem.1 hne n hn
    exact lt_of_le_of_ne hle' fun heq => hne' (Atom.index_inj.1 heq)
  have hmap : ((sorted atoms).map Atom.index).IsChain (· < ·) := (List.isChain_map _).2 hchain
  exact List.pairwise_map.1 (List.isChain_iff_pairwise.1 hmap)

/-- **Sorting a list of atoms and leaving out repetitions gives its members in order.** -/
theorem sorted_eq (atoms : List Atom) : sorted atoms = Atom.all.filter (· ∈ atoms) := by
  have hall : (Atom.all.filter (· ∈ atoms)).Pairwise fun x y => x.index < y.index :=
    List.Pairwise.filter _ (by decide)
  have hmem : ∀ x, x ∈ sorted atoms ↔ x ∈ Atom.all.filter (· ∈ atoms) := by
    intro x
    rw [sorted, mem_destutter_ne, List.mem_mergeSort]
    simp
  have hnodup : ∀ {l : List Atom}, l.Pairwise (fun x y => x.index < y.index) → l.Nodup :=
    fun h => h.imp fun hlt heq => absurd (congrArg Atom.index heq) hlt.ne
  have hperm := (List.perm_ext_iff_of_nodup (hnodup (pairwise_sorted atoms)) (hnodup hall)).2 hmem
  exact hperm.eq_of_pairwise (fun x y _ _ hxy hyx => absurd hxy hyx.asymm)
    (pairwise_sorted atoms) hall

/-! ## One step -/

variable {R : ValuationRange} {walk rest : ValuationWalk} {count position : Nat}

/-- The bit of a word at a position is set exactly if its number is odd once shifted down there. -/
theorem and_twoPow_eq_zero_iff (word : BitVec 32) (h : position < 32) :
    word &&& .twoPow 32 position = 0 ↔ ¬ (word.toNat >>> position) % 2 = 1 := by
  have hbit : word.getLsbD position = true ↔ (word.toNat >>> position) % 2 = 1 := by
    rw [← BitVec.testBit_toNat, Nat.testBit_eq_decide_div_mod_eq, Nat.shiftRight_eq_div_pow,
      decide_eq_true_iff]
  have hone : BitVec.twoPow 32 position ≠ 0 := by
    intro hzero
    have hget := congrArg (·.getLsbD position) hzero
    simp [h] at hget
  rw [BitVec.and_twoPow, ← hbit]
  by_cases hset : word.getLsbD position = true
  · rw [if_pos hset]
    exact iff_of_false hone (not_not.2 hset)
  · rw [if_neg hset]
    exact iff_of_true rfl hset

/-- **Dealing out the bits of a word is dealing out those of its number**, from some position on. -/
theorem deal_eq (word : BitVec 32) (places : List (Fin 16)) (S : PlaceSet)
    (h : position + places.length ≤ 32) :
    deal word position (places.map Fin.val) S.bits
      = .ok (S.deal places (word.toNat >>> position)).bits := by
  induction places generalizing position S with
  | nil => rfl
  | cons i places ih =>
      rw [List.length_cons] at h
      have hposition : position < 32 := by omega
      have hhalf : (word.toNat >>> position) / 2 = word.toNat >>> (position + 1) := rfl
      rw [List.map_cons, deal, bitAt_of_lt hposition, PlaceSet.deal, hhalf]
      show (if word &&& .twoPow 32 position = 0 then _ else _) = _
      by_cases hodd : (word.toNat >>> position) % 2 = 1
      · have hinsert : S.bits ||| .twoPow 16 i = (S.insert i).bits := by
          rw [PlaceSet.insert, PlaceSet.singleBits_get]
        rw [if_neg fun hzero => (and_twoPow_eq_zero_iff word hposition).1 hzero hodd, if_pos hodd,
          bitAt_of_lt i.isLt]
        show deal word (position + 1) (places.map Fin.val) (S.bits ||| .twoPow 16 i) = _
        rw [hinsert]
        exact ih (S.insert i) (by omega)
      · rw [if_pos ((and_twoPow_eq_zero_iff word hposition).2 hodd), if_neg hodd]
        exact ih S (by omega)

/-- The walk through a range that has come to a count. -/
def reached (R : ValuationRange) (count : Nat) : ValuationWalk :=
  ⟨R.places.map Fin.val, if count < R.total then some (.ofNat 32 count) else none⟩

/-- The walk over some atoms begins at count zero of the range over them. -/
theorem ofAtoms_eq_reached (atoms : List Atom) : ofAtoms atoms = reached (.ofAtoms atoms) 0 := by
  have htotal : 0 < (ValuationRange.ofAtoms atoms).total := by
    rw [ValuationRange.total_ofAtoms]
    exact Nat.two_pow_pos _
  rw [ofAtoms, reached, if_pos htotal, ValuationRange.ofAtoms, sorted_eq]
  simp only [List.map_flatMap, List.map_map]
  rfl

/-- A word has room for the counts up to the total. -/
theorem toNat_ofNat_of_le (h : R.places.length ≤ 16) (hcount : count ≤ R.total) :
    (BitVec.ofNat 32 count).toNat = count := by
  have htotal : R.total ≤ 2 ^ 16 := by
    rw [ValuationRange.total, Nat.one_shiftLeft]
    exact Nat.pow_le_pow_right Nat.two_pos h
  rw [BitVec.toNat_ofNat]
  exact Nat.mod_eq_of_lt (by omega)

/-- The total of a walk is that of the range, wherever the walk stands. -/
theorem total_eq (h : R.places.length ≤ 16) (next : Option (BitVec 32)) :
    total ⟨R.places.map Fin.val, next⟩ = .ok (.ofNat 32 R.total) := by
  have hwidth : (R.places.map Fin.val).length < 32 := by
    rw [List.length_map]
    omega
  rw [total, bitAt_of_lt hwidth, List.length_map, ValuationRange.total, Nat.one_shiftLeft]
  refine congrArg Except.ok (BitVec.eq_of_toNat_eq ?_)
  rw [BitVec.toNat_twoPow, BitVec.toNat_ofNat]

/-- **A step gives the valuation at the count that is reached.** -/
theorem step_reached (h : R.places.length ≤ 16) (hcount : count < R.total) :
    (reached R count).step = .ok (some (R.get count, reached R (count + 1))) := by
  have hword : (BitVec.ofNat 32 count).toNat = count := toNat_ofNat_of_le h hcount.le
  have hdeal : deal (.ofNat 32 count) 0 (R.places.map Fin.val) 0
      = .ok (R.get count).places.bits := by
    have hbits := @deal_eq 0 (.ofNat 32 count) R.places .empty (by omega)
    rwa [hword] at hbits
  have hsuccessor : successor (BitVec.ofNat 32 count) = .ok (.ofNat 32 (count + 1)) := by
    have hlt := (BitVec.ofNat 32 (count + 1)).isLt
    rw [toNat_ofNat_of_le h hcount] at hlt
    exact successor_ofNat hlt
  have hnext : BitVec.ofNat 32 (count + 1) < BitVec.ofNat 32 R.total ↔ count + 1 < R.total := by
    rw [BitVec.lt_def, toNat_ofNat_of_le h hcount, toNat_ofNat_of_le h le_rfl]
  rw [step, reached, if_pos hcount]
  show (deal _ _ _ _ >>= _) = _
  rw [hdeal]
  show (successor _ >>= _) = _
  rw [hsuccessor]
  show (total _ >>= _) = _
  rw [total_eq h]
  show Except.ok _ = _
  simp only [reached, hnext]

/-- At the total the walk is at its end. -/
theorem step_reached_total (R : ValuationRange) : (reached R R.total).step = .ok none := by
  rw [step, reached, if_neg (Nat.lt_irrefl _)]

/-! ## The whole walk -/

/-- A walk gives some valuations, one at each step, and then is at its end. -/
inductive Gives : ValuationWalk → List Valuation → Prop
  /-- The end is reached. -/
  | ended {walk : ValuationWalk} : walk.step = .ok none → Gives walk []
  /-- A valuation is given and then others. -/
  | gave {walk rest : ValuationWalk} {V : Valuation} {Vs : List Valuation} :
    walk.step = .ok (some (V, rest)) → Gives rest Vs → Gives walk (V :: Vs)

/-- A walk gives the same valuations whenever it is made. -/
theorem Gives.unique {Us Vs : List Valuation} (hU : walk.Gives Us) (hV : walk.Gives Vs) :
    Us = Vs := by
  induction hU generalizing Vs with
  | ended hend =>
      cases hV with
      | ended => rfl
      | gave hstep => rw [hend] at hstep; cases hstep
  | gave hstep _ ih =>
      cases hV with
      | ended hend => rw [hend] at hstep; cases hstep
      | gave hstep' hrest =>
          rw [hstep] at hstep'
          cases hstep'
          rw [ih hrest]

/-- **From any count on a walk gives the valuations that are left**, and then ends. -/
theorem gives_reached (h : R.places.length ≤ 16) {left : Nat} (hleft : count + left = R.total) :
    (reached R count).Gives ((List.range' count left).map R.get) := by
  induction left generalizing count with
  | zero =>
      obtain rfl : count = R.total := hleft
      exact .ended (step_reached_total R)
  | succ left ih =>
      rw [List.range'_succ, List.map_cons]
      exact .gave (step_reached h (by omega)) (ih (by omega))

/-- **A walk over some atoms gives the valuations of the range over them.** -/
theorem gives_ofAtoms (atoms : List Atom) : (ofAtoms atoms).Gives (ValuationRange.ofAtoms atoms).toList := by
  rw [ofAtoms_eq_reached, ValuationRange.toList, List.range_eq_range']
  exact gives_reached (ValuationRange.length_places_ofAtoms_le atoms) (Nat.zero_add _)

end ValuationWalk

/-- **A walk over some atoms visits all valuations over them.** It comes to an end, and no word on the
way is without room. What it gives are the valuations of the range over these atoms: those in which
no other atom is true anywhere, each once, from the empty one on in the order of their numbers. There
are as many as the total of the walk says, two to four times the number of the atoms. -/
theorem walk_visits_valuations_over (atoms : List Atom) :
    ∃ valuations : List Valuation,
      (∀ given, (ValuationWalk.ofAtoms atoms).Gives given ↔ given = valuations)
        ∧ (ValuationRange.ofAtoms atoms).toList = valuations
        ∧ (∀ V, V ∈ valuations ↔ ∀ w x, V.holds w x → x ∈ atoms)
        ∧ valuations.Nodup
        ∧ valuations.head? = some .empty
        ∧ valuations.Pairwise (fun U V => U.places.number < V.places.number)
        ∧ valuations.length = 2 ^ (4 * atoms.toFinset.card)
        ∧ ∃ total, (ValuationWalk.ofAtoms atoms).total = .ok total
          ∧ total.toNat = valuations.length := by
  have hgives := ValuationWalk.gives_ofAtoms atoms
  have hascending : (ValuationRange.ofAtoms atoms).toList.Pairwise
      fun U V => U.places.number < V.places.number :=
    ValuationRange.pairwise_toList (ValuationRange.pairwise_places_ofAtoms atoms)
  refine ⟨_, fun given => ⟨fun h => h.unique hgives, fun h => h ▸ hgives⟩, rfl,
    fun V => ValuationRange.mem_toList_ofAtoms, ?_, ValuationRange.head?_toList _, hascending, ?_, ?_⟩
  · exact hascending.imp fun hlt heq => hlt.ne (congrArg (·.places.number) heq)
  · rw [ValuationRange.length_toList, ValuationRange.total_ofAtoms]
  · have hlength := ValuationRange.length_places_ofAtoms_le atoms
    rw [ValuationWalk.ofAtoms_eq_reached, ValuationRange.length_toList]
    exact ⟨_, ValuationWalk.total_eq hlength _, ValuationWalk.toNat_ofNat_of_le hlength le_rfl⟩

end FourWorlds
