import FourWorlds.Proofs.HiddenFrame
import FourWorlds.Proofs.OrbitCount
import Mathlib.Algebra.Order.Floor.Div
import Mathlib.Data.List.GetD
import Mathlib.Data.Set.Card
import Mathlib.Order.Interval.Finset.Nat

/-! # Picks are uniform

The products of `n` with the words that pick the index `i` lie in a window that starts at
`i * 2 ^ 32` and is as long as the acceptance bound. That bound is `n` times a power of two, so wherever
the window starts, the number of multiples of `n` in it is that power of two.

* `acceptedIndex?_eq_some_iff`, `ncard_acceptedIndex?`: the window of an index, and the number of words
  that pick it.
* `selected?`, `ncard_selected?`: the item that a word selects, and the number of words for each item.
* `WordStream.TakesFirst`: a pick passes over refused words and takes the first other one.
* `Game.exists_takesFirst_picks`: so does each of the picks made from a list of words.
* `frames_picked_uniformly`: all of it for the frames that a game hides. -/

namespace FourWorlds

/-! ## The words that pick an index -/

section Index

variable {n i : Nat} {w : UInt32}

/-- The bound is `n` times a power of two. -/
theorem acceptanceBound_eq (n : Nat) : acceptanceBound n = n * 2 ^ (31 - n.log2) := by
  rw [acceptanceBound, Nat.shiftLeft_eq]

/-- The bound has at most 32 bits if `n` has. -/
theorem acceptanceBound_le (h : n < UInt32.size) : acceptanceBound n ≤ UInt32.size := by
  rcases Nat.eq_zero_or_pos n with rfl | hn
  · rw [acceptanceBound_eq, Nat.zero_mul]
    exact Nat.zero_le _
  · have hlog : n.log2 < 32 := (Nat.log2_lt hn.ne').2 h
    calc acceptanceBound n = n * 2 ^ (31 - n.log2) := acceptanceBound_eq n
      _ ≤ 2 ^ (n.log2 + 1) * 2 ^ (31 - n.log2) := Nat.mul_le_mul_right _ Nat.lt_log2_self.le
      _ = 2 ^ (n.log2 + 1 + (31 - n.log2)) := (Nat.pow_add _ _ _).symm
      _ = 2 ^ 32 := by rw [show n.log2 + 1 + (31 - n.log2) = 32 by omega]
      _ = UInt32.size := rfl

/-- **The window of an index**: a word picks `i` if its product is among those from `i * 2 ^ 32`
on that are less than the bound away. -/
theorem acceptedIndex?_eq_some_iff (h : n < UInt32.size) :
    acceptedIndex? n w = some i ↔ i * UInt32.size ≤ n * w.toNat
      ∧ n * w.toNat < i * UInt32.size + acceptanceBound n := by
  have hbound := acceptanceBound_le h
  rw [acceptedIndex?, Option.ite_none_right_eq_some, Option.some_inj, Nat.mul_comm n]
  simp only [UInt32.size] at hbound ⊢
  omega

/-- An index that is picked is less than `n`. -/
theorem lt_of_acceptedIndex?_eq_some (h : acceptedIndex? n w = some i) : i < n := by
  rw [acceptedIndex?, Option.ite_none_right_eq_some, Option.some_inj] at h
  obtain ⟨hbound, rfl⟩ := h
  have hn : 0 < n := by
    refine Nat.pos_of_ne_zero ?_
    rintro rfl
    rw [acceptanceBound_eq, Nat.zero_mul] at hbound
    exact Nat.not_lt_zero _ hbound
  exact Nat.div_lt_of_lt_mul (Nat.mul_lt_mul_of_pos_right w.toNat_lt hn)

/-- A window that is `n * b` long holds `b` multiples of `n`, wherever it starts. -/
theorem window_iff_mem_Ico (hn : 0 < n) (a b v : Nat) :
    a ≤ n * v ∧ n * v < a + n * b ↔ v ∈ Finset.Ico (a ⌈/⌉ n) (a ⌈/⌉ n + b) := by
  have hend : a ⌈/⌉ n + b = (a + n * b) ⌈/⌉ n := by
    rw [Nat.ceilDiv_eq_add_pred_div, Nat.ceilDiv_eq_add_pred_div,
      show a + n * b + n - 1 = a + n - 1 + n * b by omega, Nat.add_mul_div_left _ _ hn]
  rw [Finset.mem_Ico, hend, ceilDiv_le_iff_le_mul hn, ← not_le, ← not_le, ceilDiv_le_iff_le_mul hn]

/-- **All indices are equally likely**: each is picked by the same number of words. -/
theorem ncard_acceptedIndex? (h : n < UInt32.size) (hi : i < n) :
    {w : UInt32 | acceptedIndex? n w = some i}.ncard = 2 ^ (31 - n.log2) := by
  have hn : 0 < n := Nat.zero_lt_of_lt hi
  have himage : UInt32.toNat '' {w : UInt32 | acceptedIndex? n w = some i}
      = Finset.Ico (i * UInt32.size ⌈/⌉ n) (i * UInt32.size ⌈/⌉ n + 2 ^ (31 - n.log2)) := by
    ext v
    rw [Finset.mem_coe, ← window_iff_mem_Ico hn, ← acceptanceBound_eq]
    constructor
    · rintro ⟨w, hw, rfl⟩
      exact (acceptedIndex?_eq_some_iff h).1 hw
    · -- The last window ends at or before `n * 2 ^ 32`, so all of it is reached by words.
      intro hv
      have hlt : v < UInt32.size := by
        refine Nat.lt_of_mul_lt_mul_left (a := n) (hv.2.trans_le ?_)
        calc i * UInt32.size + acceptanceBound n ≤ i * UInt32.size + UInt32.size :=
              Nat.add_le_add_left (acceptanceBound_le h) _
          _ = (i + 1) * UInt32.size := (Nat.succ_mul _ _).symm
          _ ≤ n * UInt32.size := Nat.mul_le_mul_right _ hi
      have hword : (UInt32.ofNat v).toNat = v := UInt32.toNat_ofNat_of_lt hlt
      refine ⟨UInt32.ofNat v, (acceptedIndex?_eq_some_iff h).2 ?_, hword⟩
      rwa [hword]
  have hinjective : Function.Injective UInt32.toNat := fun _ _ => UInt32.toNat_inj.1
  rw [← Set.ncard_image_of_injective _ hinjective, himage, Set.ncard_coe_finset, Nat.card_Ico,
    Nat.add_sub_cancel_left]

end Index

/-! ## The words that select an item -/

section Item

variable {α : Type} {items : Array α} {x : α} {w : UInt32}

/-- The item that a word selects, if the word is not refused. -/
def selected? (items : Array α) (w : UInt32) : Option α :=
  (acceptedIndex? items.size w).bind (items[·]?)

/-- A word that picks an index selects the item there. -/
theorem selected?_eq_some_iff :
    selected? items w = some x ↔ ∃ i, acceptedIndex? items.size w = some i ∧ items[i]? = some x :=
  Option.bind_eq_some_iff

/-- A word selects no item exactly if it is refused. -/
theorem selected?_eq_none_iff : selected? items w = none ↔ acceptedIndex? items.size w = none := by
  rw [selected?]
  cases h : acceptedIndex? items.size w with
  | none => exact iff_of_true rfl rfl
  | some i =>
      rw [Option.bind_some, Array.getElem?_eq_none_iff]
      exact iff_of_false (lt_of_acceptedIndex?_eq_some h).not_ge nofun

/-- Zero is not refused. -/
theorem selected?_zero_ne_none (h : 0 < items.size) : selected? items 0 ≠ none := by
  have hbound : 0 < acceptanceBound items.size := by
    rw [acceptanceBound_eq]
    exact Nat.mul_pos h (Nat.two_pow_pos _)
  rw [Ne, selected?_eq_none_iff, acceptedIndex?, UInt32.toNat_zero, Nat.zero_mul, Nat.zero_mod,
    if_pos hbound]
  exact Option.some_ne_none _

/-- **All items are equally likely**, if they are distinct. -/
theorem ncard_selected? (h : items.size < UInt32.size) (hnodup : items.toList.Nodup)
    (hx : x ∈ items) :
    {w | selected? items w = some x}.ncard = 2 ^ (31 - items.size.log2) := by
  obtain ⟨i, hi, rfl⟩ := Array.mem_iff_getElem.1 hx
  have hindex : ∀ w, selected? items w = some items[i] ↔ acceptedIndex? items.size w = some i := by
    intro w
    rw [selected?_eq_some_iff]
    constructor
    · rintro ⟨j, hj, hget⟩
      have hlt := lt_of_acceptedIndex?_eq_some hj
      rw [Array.getElem?_eq_getElem hlt, Option.some_inj] at hget
      rwa [← (List.Nodup.getElem_inj_iff hnodup).1 hget]
    · exact fun hi' => ⟨i, hi', Array.getElem?_eq_getElem hi⟩
  simp only [hindex]
  exact ncard_acceptedIndex? h hi

end Item

/-! ## Picks from a stream -/

namespace WordStream

variable {α : Type} {items : Array α} {x : α} {words before after : WordStream}

/-- A pick of an item passes over the words that are refused, and takes the first other one. -/
structure TakesFirst (items : Array α) (before : WordStream) (x : α) (after : WordStream) : Prop where
  /-- Only the number of words drawn changes. -/
  eq : after = { before with drawn := after.drawn }
  /-- At least one word is drawn. -/
  drawn_lt : before.drawn < after.drawn
  /-- All words drawn but the last one are refused. -/
  refused : ∀ place, before.drawn ≤ place → place + 1 < after.drawn →
    selected? items (before.word place) = none
  /-- The last word drawn selects the item. -/
  selected : selected? items (before.word (after.drawn - 1)) = some x

/-- Refused words are passed over, up to the first word that picks an index. -/
theorem index?_eq {n i gap tries : Nat} (htries : gap < tries)
    (hrefused : ∀ q < gap, acceptedIndex? n (words.word (words.drawn + q)) = none)
    (haccepted : acceptedIndex? n (words.word (words.drawn + gap)) = some i) :
    words.index? n tries = (some i, { words with drawn := words.drawn + gap + 1 }) := by
  induction gap generalizing words tries with
  | zero =>
      obtain ⟨tries, rfl⟩ := Nat.exists_eq_add_of_lt htries
      rw [Nat.zero_add, index?]
      rw [Nat.add_zero] at haccepted ⊢
      simp only [haccepted]
  | succ gap ih =>
      obtain ⟨tries, rfl⟩ := Nat.exists_eq_add_of_lt htries
      have hfirst : acceptedIndex? n (words.word words.drawn) = none := hrefused 0 (Nat.succ_pos gap)
      have hplace : ∀ q, words.drawn + 1 + q = words.drawn + (q + 1) :=
        fun q => Nat.add_right_comm _ 1 q
      have hrest : { words with drawn := words.drawn + 1 }.index? n (gap + 1 + tries)
          = (some i, { words with drawn := words.drawn + 1 + gap + 1 }) := by
        refine ih (by omega) (fun q hq => ?_) ?_
        · rw [hplace]
          exact hrefused (q + 1) (Nat.succ_lt_succ hq)
        · rw [hplace]
          exact haccepted
      rw [index?]
      simp only [hfirst]
      rw [hrest, hplace]

/-- **A pick takes the first word that is not refused**, if there is one before it is given up. -/
theorem exists_takesFirst {gap : Nat} (hgap : gap < words.patience)
    (h : selected? items (words.word (words.drawn + gap)) ≠ none) :
    ∃ x, (words.pick items).1 = some x ∧ words.TakesFirst items x (words.pick items).2 := by
  classical
  have hexists : ∃ q, selected? items (words.word (words.drawn + q)) ≠ none := ⟨gap, h⟩
  obtain ⟨x, hx⟩ := Option.ne_none_iff_exists'.1 (Nat.find_spec hexists)
  obtain ⟨i, hi, hget⟩ := selected?_eq_some_iff.1 hx
  have hrefused : ∀ q < Nat.find hexists,
      selected? items (words.word (words.drawn + q)) = none :=
    fun q hq => not_not.1 (Nat.find_min hexists hq)
  have hindex := index?_eq ((Nat.find_min' hexists h).trans_lt hgap)
    (fun q hq => selected?_eq_none_iff.1 (hrefused q hq)) hi
  rw [pick, hindex]
  refine ⟨x, hget, rfl, Nat.lt_succ_of_le (Nat.le_add_right _ _), fun place hle hlt => ?_, hx⟩
  obtain ⟨q, rfl⟩ := Nat.exists_eq_add_of_le hle
  exact hrefused q (Nat.lt_of_add_lt_add_left (Nat.lt_of_succ_lt_succ hlt))

/-- A pick from a stream of which some words were drawn leaves that stream with more words drawn. -/
theorem TakesFirst.eq_of_eq (h : before.TakesFirst items x after)
    (hbefore : before = { words with drawn := before.drawn }) :
    after = { words with drawn := after.drawn } := by
  have hword : before.word = words.word := by rw [hbefore]
  have hpatience : before.patience = words.patience := by rw [hbefore]
  rw [h.eq, hword, hpatience]

/-- The words drawn by a pick select its item and no other. -/
theorem TakesFirst.filterMap_range (h : before.TakesFirst items x after) :
    (List.range after.drawn).filterMap (fun place => selected? items (before.word place))
      = (List.range before.drawn).filterMap (fun place => selected? items (before.word place))
        ++ [x] := by
  obtain ⟨gap, hgap⟩ := Nat.exists_eq_add_of_lt h.drawn_lt
  have hpassed : (List.range gap).filterMap
      ((fun place => selected? items (before.word place)) ∘ (before.drawn + ·)) = [] := by
    refine List.filterMap_eq_nil_iff.2 fun q hq => h.refused _ (Nat.le_add_right _ _) ?_
    rw [hgap]
    exact Nat.succ_lt_succ (Nat.add_lt_add_left (List.mem_range.1 hq) _)
  have hlast : [before.drawn + gap].filterMap (fun place => selected? items (before.word place))
      = [x] := by
    have hselected := h.selected
    rw [hgap, Nat.add_sub_cancel] at hselected
    exact List.filterMap_cons_some hselected
  rw [hgap, List.range_succ, List.filterMap_append, List.range_add, List.filterMap_append,
    List.filterMap_map, hpassed, hlast, List.append_nil]

end WordStream

/-! ## The frames picked -/

namespace Game

variable {words : List UInt32} {stream : WordStream}

/-- A pick from a list of words is never given up, as the zeros after them are not refused. -/
theorem exists_takesFirst_pick
    (h : stream = { WordStream.ofList words with drawn := stream.drawn }) :
    ∃ c, (stream.pick canonicalIds).1 = some c
      ∧ stream.TakesFirst canonicalIds c (stream.pick canonicalIds).2 := by
  have hword : stream.word (stream.drawn + words.length) = 0 := by
    rw [h]
    exact List.getD_eq_default _ _ (Nat.le_add_left _ _)
  have hpatience : words.length < stream.patience := by
    rw [h]
    exact Nat.lt_succ_self _
  have hnonempty : 0 < canonicalIds.size := by
    rw [size_canonicalIds]
    exact Nat.succ_pos _
  refine WordStream.exists_takesFirst hpatience ?_
  rw [hword]
  exact selected?_zero_ne_none hnonempty

/-- Picks from a list of words change nothing but the number of words drawn. -/
theorem picks_words_eq (words : List UInt32) (k : Nat) :
    ((WordStream.ofList words).picks canonicalIds k).2 = { WordStream.ofList words with
      drawn := ((WordStream.ofList words).picks canonicalIds k).2.drawn } := by
  induction k with
  | zero => rfl
  | succ k ih =>
      obtain ⟨c, -, htakes⟩ := exists_takesFirst_pick ih
      exact htakes.eq_of_eq ih

/-- **Each pick from a list of words takes the first word that is not refused**, among those left by
the picks before it. -/
theorem exists_takesFirst_picks (words : List UInt32) (k : Nat) :
    ∃ c, ((WordStream.ofList words).picks canonicalIds (k + 1)).1 = some c
      ∧ pickedFrame (.ofList words) (k + 1) = Frame.ofId c
      ∧ ((WordStream.ofList words).picks canonicalIds k).2.TakesFirst canonicalIds c
        ((WordStream.ofList words).picks canonicalIds (k + 1)).2 := by
  obtain ⟨c, hc, htakes⟩ := exists_takesFirst_pick (picks_words_eq words k)
  refine ⟨c, hc, ?_, htakes⟩
  rw [pickedFrame, WordStream.picks, hc, Option.elim_some]

/-- **The words drawn by a number of picks select the ids of the frames picked**, in order. -/
theorem filterMap_range_drawn (words : List UInt32) (k : Nat) :
    (List.range ((WordStream.ofList words).picks canonicalIds k).2.drawn).filterMap
        (fun place => selected? canonicalIds (words.getD place 0))
      = (List.range k).map fun j => (pickedFrame (.ofList words) (j + 1)).id := by
  induction k with
  | zero => rfl
  | succ k ih =>
      obtain ⟨c, -, hc, htakes⟩ := exists_takesFirst_picks words k
      have hword : ((WordStream.ofList words).picks canonicalIds k).2.word
          = fun place => words.getD place 0 := by
        rw [picks_words_eq]
        rfl
      have hstep := htakes.filterMap_range
      rw [hword] at hstep
      rw [hstep, ih, List.range_succ, List.map_append, List.map_singleton, hc, Frame.id_ofId]

/-- A game that was reset a number of times hides the frame of the latest pick. -/
theorem hidden_words_iterate_reset (config : Config) (stream : WordStream) (k : Nat) :
    ((reset^[k] (start config stream)).hidden, (reset^[k] (start config stream)).words)
      = (pickedFrame stream (k + 1), (stream.picks canonicalIds (k + 1)).2) := by
  induction k with
  | zero => exact (hidden_words_start config stream).trans (pickFrame_picks stream 0)
  | succ k ih =>
      rw [Function.iterate_succ_apply', reset, hidden_words_start, (Prod.mk.inj ih).2,
        pickFrame_picks]

end Game

/-- **Frames are picked uniformly.** A word is accepted if the low half of its product with 3044 is at
most `3044 * 2 ^ 20 - 1`, and then picks the high half as an index, which is less than 3044. Each
canonical id is selected by exactly `2 ^ 20` words. Making a game and resetting it picks frames one
after another. From a list of words followed by zeros every pick comes to an end: it draws the next
words up to the first that is not refused, and hides the frame of the id that this word selects. So
the words drawn select the ids of the frames picked, in order. -/
theorem frames_picked_uniformly :
    (∀ w : UInt32, acceptedIndex? canonicalIds.size w
        = if (w.toUInt64 * 3044).toUInt32.toNat ≤ 3044 * 2 ^ 20 - 1
          then some ((w.toUInt64 * 3044) >>> 32).toNat else none)
      ∧ (∀ w i, acceptedIndex? canonicalIds.size w = some i → i < 3044)
      ∧ (∀ c ∈ canonicalIds, {w | selected? canonicalIds w = some c}.ncard = 2 ^ 20)
      ∧ (∀ config stream k,
        ((Game.reset^[k] (Game.start config stream)).hidden,
          (Game.reset^[k] (Game.start config stream)).words)
            = (Game.pickedFrame stream (k + 1), (stream.picks canonicalIds (k + 1)).2))
      ∧ ∀ words : List UInt32,
        (∀ k, ∃ c, ((WordStream.ofList words).picks canonicalIds (k + 1)).1 = some c
          ∧ Game.pickedFrame (.ofList words) (k + 1) = Frame.ofId c
          ∧ ((WordStream.ofList words).picks canonicalIds k).2.TakesFirst canonicalIds c
            ((WordStream.ofList words).picks canonicalIds (k + 1)).2)
        ∧ ∀ k, (List.range ((WordStream.ofList words).picks canonicalIds k).2.drawn).filterMap
            (fun place => selected? canonicalIds (words.getD place 0))
          = (List.range k).map fun j => (Game.pickedFrame (.ofList words) (j + 1)).id := by
  have hlog : Nat.log2 3044 = 11 := by decide
  have hbound : acceptanceBound 3044 = 3044 * 2 ^ 20 := by rw [acceptanceBound_eq, hlog]
  have hsize : canonicalIds.size < UInt32.size := by
    rw [size_canonicalIds]
    decide
  refine ⟨fun w => ?_, fun w i h => ?_, fun c hc => ?_, Game.hidden_words_iterate_reset,
    fun words => ⟨Game.exists_takesFirst_picks words, Game.filterMap_range_drawn words⟩⟩
  · -- The product is less than `2 ^ 64`, so nothing of it is lost.
    have hproduct : (w.toUInt64 * 3044).toNat = w.toNat * 3044 := by
      have hlt : w.toNat < 2 ^ 32 := w.toNat_lt
      rw [UInt64.toNat_mul, UInt32.toNat_toUInt64]
      change w.toNat * 3044 % 2 ^ 64 = w.toNat * 3044
      omega
    have hlow : (w.toUInt64 * 3044).toUInt32.toNat = w.toNat * 3044 % UInt32.size := by
      rw [UInt64.toNat_toUInt32, hproduct]
    have hhigh : ((w.toUInt64 * 3044) >>> 32).toNat = w.toNat * 3044 / UInt32.size := by
      rw [UInt64.toNat_shiftRight, hproduct]
      exact Nat.shiftRight_eq_div_pow _ _
    rw [size_canonicalIds, acceptedIndex?, hlow, hhigh, hbound]
    exact if_congr (Nat.lt_iff_le_pred (by decide)) rfl rfl
  · rw [size_canonicalIds] at h
    exact lt_of_acceptedIndex?_eq_some h
  · rw [ncard_selected? hsize (pairwise_canonicalIds.imp ne_of_lt) hc, size_canonicalIds, hlog]

/-- The word `2 ^ 20` is refused, its product being just beyond the first window. As many words select
the id of the frame without relations as any other. -/
theorem frames_picked_uniformly_first_refused :
    acceptedIndex? canonicalIds.size 1048576 = none
      ∧ (acceptedIndex? canonicalIds.size 1048575 = some 0 ∧ 0 < 3044)
      ∧ {w | selected? canonicalIds w = some Frame.empty.id}.ncard = 2 ^ 20 := by
  obtain ⟨hrule, hlt, hcount, -⟩ := frames_picked_uniformly
  have haccepted : acceptedIndex? canonicalIds.size 1048575 = some 0 := (hrule _).trans rfl
  exact ⟨(hrule _).trans rfl, ⟨haccepted, hlt _ _ haccepted⟩, hcount _ id_empty_mem_canonicalIds⟩

end FourWorlds
