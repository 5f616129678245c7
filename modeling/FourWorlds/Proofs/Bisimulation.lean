import FourWorlds.Proofs.Confluence
import FourWorlds.Proofs.Relabelling

/-! # Bisimulation for a number of steps

A formula looks no further from a world than its modal operators are nested. So it cannot tell two
worlds apart, be they of one model or of two, that read its atoms alike and whose seen worlds match
each other in the same way for a step less. In particular neither other atoms nor anything further
away than the operators are nested has a say in its truth.

* `Formula.modalDepth`: how deep the modal operators of a formula are nested.
* `Model.Bisimilar`: two worlds of two models match for a number of steps.
* `Model.Bisimilar.satisfies_eq`: worlds that match satisfy the same formulas of that depth.
* `Model.AgreeNear`, `Model.AgreeNear.bisimilar`: two models agree up to a number of steps from a
  world, which then matches itself.
* `bisimilar_worlds_satisfy_alike`: both in one statement. -/

namespace FourWorlds

variable {φ : Formula} {n : Nat} {v w : World}

/-- How deep the modal operators of a formula are nested. -/
def Formula.modalDepth : Formula → Nat
  | top | bottom | atom _ => 0
  | not φ => φ.modalDepth
  | box φ | diamond φ => φ.modalDepth + 1
  | join _ φ ψ => max φ.modalDepth ψ.modalDepth

namespace Model

variable {atoms : List Atom} {M N : Model}

/-! ## Worlds that match -/

/-- Two worlds of two models match for a number of steps, as far as some atoms can tell: they read
these atoms alike, and while steps are left, each world that one of them sees matches one that the
other sees, for a step less. -/
def Bisimilar (atoms : List Atom) (M N : Model) : Nat → World → World → Prop
  | 0, v, w => ∀ x ∈ atoms, M.valuation.holds v x = N.valuation.holds w x
  | n + 1, v, w => (∀ x ∈ atoms, M.valuation.holds v x = N.valuation.holds w x)
      ∧ (∀ v', M.frame.contains ⟨v, v'⟩ →
        ∃ w', N.frame.contains ⟨w, w'⟩ ∧ Bisimilar atoms M N n v' w')
      ∧ ∀ w', N.frame.contains ⟨w, w'⟩ →
        ∃ v', M.frame.contains ⟨v, v'⟩ ∧ Bisimilar atoms M N n v' w'

instance Bisimilar.decidable (atoms : List Atom) (M N : Model) :
    ∀ n v w, Decidable (Bisimilar atoms M N n v w)
  | 0, v, w =>
    inferInstanceAs (Decidable (∀ x ∈ atoms, M.valuation.holds v x = N.valuation.holds w x))
  | n + 1, v, w =>
    have := Bisimilar.decidable atoms M N n
    inferInstanceAs (Decidable ((∀ x ∈ atoms, M.valuation.holds v x = N.valuation.holds w x)
      ∧ (∀ v', M.frame.contains ⟨v, v'⟩ →
        ∃ w', N.frame.contains ⟨w, w'⟩ ∧ Bisimilar atoms M N n v' w')
      ∧ ∀ w', N.frame.contains ⟨w, w'⟩ →
        ∃ v', M.frame.contains ⟨v, v'⟩ ∧ Bisimilar atoms M N n v' w'))

namespace Bisimilar

/-- Worlds that match read the atoms alike. -/
theorem holds_eq (h : Bisimilar atoms M N n v w) {x : Atom} (hx : x ∈ atoms) :
    M.valuation.holds v x = N.valuation.holds w x := by
  cases n with
  | zero => exact h x hx
  | succ n => exact h.1 x hx

/-- **Worlds that match satisfy the same formulas**, if the modal operators are nested no deeper
than there are steps. -/
theorem satisfies_eq (h : Bisimilar atoms M N n v w) (hatoms : ∀ x, φ.mentions x → x ∈ atoms)
    (hdepth : φ.modalDepth ≤ n) : M.satisfies v φ = N.satisfies w φ := by
  induction φ generalizing n v w with
  | top | bottom => rfl
  | atom x => exact h.holds_eq (hatoms x (by simp [Formula.mentions]))
  | apply o φ ih =>
      cases o with
      | not => rw [satisfies, satisfies, ih h hatoms hdepth]
      -- A modal operator spends a step, so there is one.
      | box =>
          obtain ⟨n, rfl⟩ := Nat.exists_eq_succ_of_ne_zero (Nat.ne_zero_of_lt hdepth)
          obtain ⟨-, hforth, hback⟩ := h
          rw [Bool.eq_iff_iff]
          simp only [satisfies, List.all_eq_true, Frame.mem_successors]
          constructor
          -- Necessity uses the clauses crosswise: what the other world sees has to be matched.
          · intro hbox w' hw'
            obtain ⟨v', hv', hmatch⟩ := hback w' hw'
            exact ih hmatch hatoms (Nat.le_of_succ_le_succ hdepth) ▸ hbox v' hv'
          · intro hbox v' hv'
            obtain ⟨w', hw', hmatch⟩ := hforth v' hv'
            exact ih hmatch hatoms (Nat.le_of_succ_le_succ hdepth) ▸ hbox w' hw'
      | diamond =>
          obtain ⟨n, rfl⟩ := Nat.exists_eq_succ_of_ne_zero (Nat.ne_zero_of_lt hdepth)
          obtain ⟨-, hforth, hback⟩ := h
          rw [Bool.eq_iff_iff]
          simp only [satisfies, List.any_eq_true, Frame.mem_successors]
          constructor
          · rintro ⟨v', hv', hφ⟩
            obtain ⟨w', hw', hmatch⟩ := hforth v' hv'
            exact ⟨w', hw', ih hmatch hatoms (Nat.le_of_succ_le_succ hdepth) ▸ hφ⟩
          · rintro ⟨w', hw', hφ⟩
            obtain ⟨v', hv', hmatch⟩ := hback w' hw'
            exact ⟨v', hv', ih hmatch hatoms (Nat.le_of_succ_le_succ hdepth) ▸ hφ⟩
  | join c φ ψ ihφ ihψ =>
      -- The connectives stay at the world, and each part is nested no deeper than the whole.
      have hφ := ihφ h (fun x hx => hatoms x (by simp [Formula.mentions, hx]))
        ((Nat.le_max_left _ _).trans hdepth)
      have hψ := ihψ h (fun x hx => hatoms x (by simp [Formula.mentions, hx]))
        ((Nat.le_max_right _ _).trans hdepth)
      cases c with
      | and => rw [satisfies, satisfies, hφ, hψ]
      | or => rw [satisfies, satisfies, hφ, hψ]
      | implies => rw [satisfies, satisfies, hφ, hψ]
      | iff => rw [satisfies, satisfies, hφ, hψ]

end Bisimilar

/-! ## Models that differ far away only -/

/-- Two models agree near a world: they read the atoms alike at the worlds that it reaches in at
most a number of steps, and relate those that it reaches in fewer to the same worlds. -/
structure AgreeNear (atoms : List Atom) (M N : Model) (n : Nat) (w : World) : Prop where
  /-- The atoms are read alike. -/
  holds_eq : ∀ k ≤ n, ∀ v, M.frame.Reaches k w v →
    ∀ x ∈ atoms, M.valuation.holds v x = N.valuation.holds v x
  /-- The same worlds are seen. -/
  contains_eq : ∀ k < n, ∀ v, M.frame.Reaches k w v →
    ∀ u, M.frame.contains ⟨v, u⟩ = N.frame.contains ⟨v, u⟩

namespace AgreeNear

/-- Models that agree near a world do so for a step less near those that it sees. -/
theorem of_contains (h : AgreeNear atoms M N (n + 1) w) (hv : M.frame.contains ⟨w, v⟩) :
    AgreeNear atoms M N n v where
  holds_eq k hk u hu := h.holds_eq (k + 1) (Nat.succ_le_succ hk) u (.step hv hu)
  contains_eq k hk u hu := h.contains_eq (k + 1) (Nat.succ_lt_succ hk) u (.step hv hu)

/-- **A world near which two models agree matches itself.** -/
theorem bisimilar (h : AgreeNear atoms M N n w) : Bisimilar atoms M N n w w := by
  induction n generalizing w with
  | zero => exact h.holds_eq 0 le_rfl w .here
  | succ n ih =>
      have hseen : ∀ v, M.frame.contains ⟨w, v⟩ = N.frame.contains ⟨w, v⟩ :=
        h.contains_eq 0 n.succ_pos w .here
      -- What is seen is matched by itself, as the models agree near it for a step less.
      refine ⟨h.holds_eq 0 (Nat.zero_le _) w .here, fun v hv => ?_, fun v hv => ?_⟩
      · exact ⟨v, hseen v ▸ hv, ih (h.of_contains hv)⟩
      · have hv' : M.frame.contains ⟨w, v⟩ := hseen v ▸ hv
        exact ⟨v, hv', ih (h.of_contains hv')⟩

end AgreeNear

end Model

/-- **A formula cannot tell worlds apart that match for as many steps as its modal operators are
nested.** Two worlds of two models that match so, as far as its atoms can tell, both satisfy it or
neither does. In particular its truth at a world depends on other atoms as little as on what lies
further away than its operators are nested, be it a value of its own atoms or a relation. -/
theorem bisimilar_worlds_satisfy_alike :
    (∀ (n : Nat) (φ : Formula), φ.modalDepth ≤ n → ∀ (M N : Model) (v w : World),
        Model.Bisimilar φ.atoms M N n v w → M.satisfies v φ = N.satisfies w φ)
      ∧ ∀ (φ : Formula) (M N : Model) (w : World),
        Model.AgreeNear φ.atoms M N φ.modalDepth w → M.satisfies w φ = N.satisfies w φ := by
  have hmentions : ∀ (φ : Formula) (x : Atom), φ.mentions x → x ∈ φ.atoms :=
    fun φ x => Formula.mem_atoms.2
  constructor
  · intro n φ hdepth M N v w h
    exact h.satisfies_eq (hmentions φ) hdepth
  · intro φ M N w h
    exact h.bisimilar.satisfies_eq (hmentions φ) le_rfl

/-- One world that sees a world with `p` satisfies `⋄p ∧ □p` as another one does that sees two such
worlds, though one of these sees further; and so it does if it sees a world with `q` beside `p`, and
`p` is true a step further on. -/
theorem bisimilar_worlds_satisfy_alike_one_step :
    let φ : Formula := .and (.diamond (.atom .p)) (.box (.atom .p))
    let one : Model := ⟨.ofRelations [⟨.a, .b⟩], .ofPairs [(.b, .p)]⟩
    let two : Model :=
      ⟨.ofRelations [⟨.b, .c⟩, ⟨.b, .d⟩, ⟨.d, .a⟩], .ofPairs [(.c, .p), (.d, .p)]⟩
    let more : Model :=
      ⟨.ofRelations [⟨.a, .b⟩, ⟨.b, .c⟩], .ofPairs [(.b, .p), (.b, .q), (.c, .p)]⟩
    (φ.modalDepth ≤ 1 ∧ Model.Bisimilar φ.atoms one two 1 .a .b
        ∧ one.satisfies .a φ = two.satisfies .b φ)
      ∧ Model.AgreeNear φ.atoms one more φ.modalDepth .a
      ∧ one.satisfies .a φ = more.satisfies .a φ := by
  intro φ one two more
  have hdepth : φ.modalDepth ≤ 1 := by decide
  have hmatch : Model.Bisimilar φ.atoms one two 1 .a .b := by decide
  have hnear : Model.AgreeNear φ.atoms one more φ.modalDepth .a := ⟨by decide, by decide⟩
  exact ⟨⟨hdepth, hmatch, bisimilar_worlds_satisfy_alike.1 1 φ hdepth one two .a .b hmatch⟩,
    hnear, bisimilar_worlds_satisfy_alike.2 φ one more .a hnear⟩

end FourWorlds
