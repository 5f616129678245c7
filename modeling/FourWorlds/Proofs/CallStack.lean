import FourWorlds.Formula.Printer
import FourWorlds.Model
import Mathlib.Data.Finset.Basic
import Mathlib.Data.List.Chain
import Mathlib.Order.Bounds.Defs

/-! # The calls of recursive functions

A recursive function is given by its body: at every argument a tree of the calls that it makes of
itself, where what is called next may depend on what the earlier calls gave. The calls that are open
at one time form a stack, each made by the one before it, and a rank that falls with every call
bounds all stacks.

* `Body`, `Recursion`, `Recursion.Stack`: bodies, the functions they define, and their stacks.
* `Recursion.length_le_of_stack`, `Recursion.eq_value`: a falling rank bounds the stacks, and leaves
  one function only that answers as the body says.
* `Formula.parts`, `Formula.height`, `Formula.isGreatest_height`: the immediate parts of a formula,
  and the length of its longest paths.
* `Model.satisfaction`, `Formula.collection`, `Formula.writing`: truth, the atoms that occur and the
  symbols, as recursions on the immediate parts of a formula. -/

namespace FourWorlds

/-! ## Recursive functions -/

/-- A rank that falls at every step bounds the number of steps. -/
theorem length_le_of_isChain {α : Type} {r : α → α → Prop} (rank : α → Nat)
    (hrank : ∀ a b, r a b → rank b < rank a) {a : α} {path : List α} (h : (a :: path).IsChain r) :
    path.length ≤ rank a := by
  induction path generalizing a with
  | nil => exact Nat.zero_le _
  | cons b path ih =>
      obtain ⟨hab, hpath⟩ := List.isChain_cons_cons.1 h
      exact (Nat.succ_le_succ (ih hpath)).trans (hrank a b hab)

/-- What a recursive function does at an argument, up to its own calls. -/
inductive Body (κ β : Type) where
  /-- Gives a result. -/
  | done (result : β)
  /-- Calls the function and goes on with its result. -/
  | call (q : κ) (next : β → Body κ β)

namespace Body

variable {κ β : Type} {answer answer' : κ → β}

/-- The result if the calls are answered by a function. -/
def run (answer : κ → β) : Body κ β → β
  | done result => result
  | call q next => (next (answer q)).run answer

/-- The calls that are made if they are answered by a function, in order. -/
def calls (answer : κ → β) : Body κ β → List κ
  | done _ => []
  | call q next => q :: (next (answer q)).calls answer

/-- A result is given without a call. -/
@[simp] theorem calls_done (answer : κ → β) (result : β) : (done result).calls answer = [] := rfl

/-- The first call comes before those that its answer leads to. -/
@[simp] theorem calls_call (answer : κ → β) (q : κ) (next : β → Body κ β) :
    (call q next).calls answer = q :: (next (answer q)).calls answer := rfl

/-- The result depends on the answers to the calls that are made, and on no others. -/
theorem run_congr {b : Body κ β} (h : ∀ q ∈ b.calls answer, answer' q = answer q) :
    b.run answer' = b.run answer := by
  induction b with
  | done => rfl
  | call q next ih =>
      rw [run, run, h q List.mem_cons_self]
      exact ih _ fun q' hq' => h q' (List.mem_cons_of_mem _ hq')

/-- Calls a function with one argument after another until it gives some truth value. -/
def search (stop : Bool) : List κ → Body κ Bool
  | [] => done !stop
  | q :: qs => call q fun found => if found = stop then done stop else search stop qs

/-- A search for an example decides whether some argument is accepted, and one for a counterexample
whether every one is. -/
theorem run_search (answer : κ → Bool) (stop : Bool) (qs : List κ) :
    (search stop qs).run answer = if stop then qs.any answer else qs.all answer := by
  induction qs with
  | nil => cases stop <;> rfl
  | cons q qs ih =>
      rw [search, run, List.any_cons, List.all_cons]
      by_cases hstop : answer q = stop
      · rw [if_pos hstop, hstop]
        cases stop <;> rfl
      · rw [if_neg hstop, ih, Bool.eq_not_of_ne hstop]
        cases stop <;> rfl

/-- A search calls the function with the arguments that it is given alone. -/
theorem mem_of_mem_calls_search {answer : κ → Bool} {stop : Bool} {qs : List κ} {q : κ}
    (h : q ∈ (search stop qs).calls answer) : q ∈ qs := by
  induction qs with
  | nil => exact h
  | cons q' qs ih =>
      rw [search, calls_call] at h
      rcases List.mem_cons.1 h with rfl | h
      · exact List.mem_cons_self
      · split at h
        · cases h
        · exact List.mem_cons_of_mem _ (ih h)

end Body

/-- A recursive function: a body at every argument, and a value that is the result of the body with
every call answered by the value there. -/
structure Recursion (κ β : Type) where
  /-- What is done at an argument. -/
  body : κ → Body κ β
  /-- The value at an argument. -/
  value : κ → β
  /-- The values are those that the bodies give. -/
  value_eq : ∀ q, value q = (body q).run value

namespace Recursion

variable {κ β : Type} {R : Recursion κ β}

/-- A call of the function makes another one. -/
def Makes (R : Recursion κ β) (q q' : κ) : Prop := q' ∈ (R.body q).calls R.value

/-- While a call is open some others may be, each made by the one before it. -/
def Stack (R : Recursion κ β) (q : κ) (stack : List κ) : Prop := (q :: stack).IsChain R.Makes

/-- **A rank that falls with every call bounds the stacks.** -/
theorem length_le_of_stack (rank : κ → Nat) (hrank : ∀ q q', R.Makes q q' → rank q' < rank q)
    {q : κ} {stack : List κ} (h : R.Stack q stack) : stack.length ≤ rank q :=
  length_le_of_isChain rank hrank h

/-- **A rank that falls with every call leaves one function only** that answers as the bodies say.
-/
theorem eq_value (rank : κ → Nat) (hrank : ∀ q q', R.Makes q q' → rank q' < rank q) {f : κ → β}
    (hf : ∀ q, f q = (R.body q).run f) : f = R.value := by
  funext q
  -- The calls that are made are those of the values, so the answers agree on them by induction.
  induction hq : rank q using Nat.strong_induction_on generalizing q with
  | _ n ih =>
      subst hq
      rw [hf, R.value_eq]
      exact Body.run_congr fun q' hq' => ih _ (hrank q q' hq') q' rfl

end Recursion

/-! ## Formulas as trees -/

namespace Formula

variable {φ ψ : Formula}

/-- The immediate parts of a formula. -/
def parts : Formula → List Formula
  | top | bottom | atom _ => []
  | apply _ φ => [φ]
  | join _ φ ψ => [φ, ψ]

/-- The part of a prefixed formula is what the operator is applied to. -/
@[simp] theorem mem_parts_apply {o : Operator} : ψ ∈ (apply o φ).parts ↔ ψ = φ := List.mem_singleton

/-- The parts of a joined formula are those that are joined. -/
@[simp] theorem mem_parts_join {c : Connective} {χ : Formula} :
    χ ∈ (join c φ ψ).parts ↔ χ = φ ∨ χ = ψ := List.mem_pair

/-- How many steps lead at most from a formula to a part of it, of a part of it and so on. -/
def height : Formula → Nat
  | top | bottom | atom _ => 0
  | apply _ φ => φ.height + 1
  | join _ φ ψ => max φ.height ψ.height + 1

/-- The immediate parts of a formula are lower. -/
theorem height_lt_of_mem_parts (h : ψ ∈ φ.parts) : ψ.height < φ.height := by
  cases φ with
  | top | bottom | atom => cases h
  | apply o φ =>
      obtain rfl := mem_parts_apply.1 h
      exact Nat.lt_succ_self _
  | join c φ χ =>
      rw [height, Nat.lt_succ_iff]
      rcases mem_parts_join.1 h with rfl | rfl
      · exact le_max_left _ _
      · exact le_max_right _ _

/-- A path leads from a formula to an immediate part, to one of that part and so on, as far as there
is any. -/
def IsPath (φ : Formula) (path : List Formula) : Prop :=
  (φ :: path).IsChain (fun χ ψ => ψ ∈ χ.parts) ∧ ∀ ψ ∈ (φ :: path).getLast?, ψ.parts = []

/-- A path may begin with a step to an immediate part. -/
theorem IsPath.cons {path : List Formula} (h : ψ.IsPath path) (hψ : ψ ∈ φ.parts) :
    φ.IsPath (ψ :: path) :=
  ⟨List.isChain_cons_cons.2 ⟨hψ, h.1⟩, h.2⟩

/-- Some path of a formula has its height as length. -/
theorem exists_isPath (φ : Formula) : ∃ path, φ.IsPath path ∧ path.length = φ.height := by
  have hleaf : ∀ χ : Formula, χ.parts = [] → χ.IsPath [] := fun χ hparts =>
    ⟨.singleton χ, fun ψ hψ => Option.some.inj hψ ▸ hparts⟩
  induction φ with
  | top | bottom | atom => exact ⟨[], hleaf _ rfl, rfl⟩
  | apply o φ ih =>
      obtain ⟨path, hpath, hlength⟩ := ih
      exact ⟨φ :: path, hpath.cons (mem_parts_apply.2 rfl), congrArg Nat.succ hlength⟩
  | join c φ ψ ihφ ihψ =>
      -- The path goes on into the higher part.
      rcases le_total ψ.height φ.height with hle | hle
      · obtain ⟨path, hpath, hlength⟩ := ihφ
        refine ⟨φ :: path, hpath.cons (mem_parts_join.2 (.inl rfl)), ?_⟩
        rw [List.length_cons, hlength, height, max_eq_left hle]
      · obtain ⟨path, hpath, hlength⟩ := ihψ
        refine ⟨ψ :: path, hpath.cons (mem_parts_join.2 (.inr rfl)), ?_⟩
        rw [List.length_cons, hlength, height, max_eq_right hle]

/-- **The height of a formula is the length of its longest paths.** -/
theorem isGreatest_height (φ : Formula) :
    IsGreatest {n | ∃ path, φ.IsPath path ∧ path.length = n} φ.height := by
  refine ⟨exists_isPath φ, ?_⟩
  rintro n ⟨path, hpath, rfl⟩
  exact length_le_of_isChain height (fun _ _ => height_lt_of_mem_parts) hpath.1

end Formula

/-! ## Recursion on formulas -/

/-- A recursive function makes its calls on the immediate parts of the formula in its argument. -/
def Recursion.OnParts {κ β : Type} (R : Recursion κ β) (formula : κ → Formula) : Prop :=
  ∀ q q', R.Makes q q' → formula q' ∈ (formula q).parts

/-- **The height of a formula bounds the stacks** of a function that calls itself on immediate
parts. -/
theorem Recursion.OnParts.length_le_height {κ β : Type} {R : Recursion κ β} {formula : κ → Formula}
    (hparts : R.OnParts formula) {q : κ} {stack : List κ} (h : R.Stack q stack) :
    stack.length ≤ (formula q).height :=
  length_le_of_stack (fun q => (formula q).height)
    (fun q q' hmakes => Formula.height_lt_of_mem_parts (hparts q q' hmakes)) h

namespace Model

/-- What is done to find out whether a formula is true at a world. -/
def satisfactionBody (M : Model) : World × Formula → Body (World × Formula) Bool
  | (_, .top) => .done true
  | (_, .bottom) => .done false
  | (w, .atom x) => .done (M.valuation.holds w x)
  | (w, .not φ) => .call (w, φ) fun found => .done !found
  | (w, .box φ) => .search false ((M.frame.successors w).map fun v => (v, φ))
  | (w, .diamond φ) => .search true ((M.frame.successors w).map fun v => (v, φ))
  | (w, .and φ ψ) => .search false [(w, φ), (w, ψ)]
  | (w, .or φ ψ) => .search true [(w, φ), (w, ψ)]
  | (w, .implies φ ψ) => .call (w, φ) fun found => if found then .call (w, ψ) .done else .done true
  | (w, .iff φ ψ) => .call (w, φ) fun found => .call (w, ψ) fun found' => .done (found == found')

/-- Truth at a world as a recursion. -/
def satisfaction (M : Model) : Recursion (World × Formula) Bool where
  body := M.satisfactionBody
  value q := M.satisfies q.1 q.2
  value_eq := by
    rintro ⟨w, φ⟩
    cases φ with
    | top | bottom | atom => rfl
    | apply o φ =>
        cases o with
        | not => rfl
        | box =>
            rw [satisfactionBody, Body.run_search, if_neg Bool.false_ne_true, List.all_map]
            rfl
        | diamond =>
            rw [satisfactionBody, Body.run_search, if_pos rfl, List.any_map]
            rfl
    | join c φ ψ =>
        cases c with
        | and | or =>
            rw [satisfactionBody, Body.run_search]
            simp [satisfies]
        | implies =>
            rw [satisfactionBody, Body.run, satisfies]
            cases M.satisfies w φ <;> rfl
        | iff => rfl

/-- Truth at a world is found from the truth of the immediate parts. -/
theorem satisfaction_onParts (M : Model) : M.satisfaction.OnParts Prod.snd := by
  rintro ⟨w, φ⟩ q h
  cases φ with
  | top | bottom | atom => cases h
  | apply o φ =>
      refine Formula.mem_parts_apply.2 ?_
      cases o with
      | not => exact congrArg Prod.snd (List.mem_singleton.1 h)
      | box | diamond =>
          obtain ⟨v, -, rfl⟩ := List.mem_map.1 (Body.mem_of_mem_calls_search h)
          rfl
  | join c φ ψ =>
      suffices hq : q = (w, φ) ∨ q = (w, ψ) from
        Formula.mem_parts_join.2 (hq.imp (congrArg Prod.snd) (congrArg Prod.snd))
      cases c with
      | and | or => exact List.mem_pair.1 (Body.mem_of_mem_calls_search h)
      | implies =>
          refine (List.mem_cons.1 h).imp_right fun h => ?_
          -- The second part is looked at only if the first one is true.
          cases hfound : M.satisfies w φ <;> simp_all [satisfaction]
      | iff => exact List.mem_pair.1 h

end Model

namespace Formula

/-- What is done to add the atoms of a formula to some others. -/
def collectionBody : Formula × Finset Atom → Body (Formula × Finset Atom) (Finset Atom)
  | (top, S) | (bottom, S) => .done S
  | (atom x, S) => .done (insert x S)
  | (apply _ φ, S) => .call (φ, S) .done
  | (join _ φ ψ, S) => .call (φ, S) fun S => .call (ψ, S) .done

/-- The collection of the atoms that occur as a recursion. -/
def collection : Recursion (Formula × Finset Atom) (Finset Atom) where
  body := collectionBody
  value q := q.2 ∪ q.1.atoms.toFinset
  value_eq := by
    rintro ⟨φ, S⟩
    ext x
    cases φ <;> simp [collectionBody, Body.run, mentions, or_comm]

/-- The atoms are collected from the immediate parts. -/
theorem collection_onParts : collection.OnParts Prod.fst := by
  rintro ⟨φ, S⟩ q h
  cases φ with
  | top | bottom | atom => cases h
  | apply o φ => exact mem_parts_apply.2 (congrArg Prod.fst (List.mem_singleton.1 h))
  | join c φ ψ =>
      exact mem_parts_join.2
        ((List.mem_pair.1 h).imp (congrArg Prod.fst) (congrArg Prod.fst))

/-- The symbols of a formula inside another one come in front of any that follow. -/
theorem nestedSymbols_eq_append (φ : Formula) (xs : List Symbol) :
    φ.nestedSymbols xs = φ.nestedSymbols [] ++ xs := by
  induction φ generalizing xs with
  | top | bottom | atom => rfl
  | apply o φ ih => rw [nestedSymbols, ih, nestedSymbols, List.cons_append]
  | join c φ ψ ihφ ihψ =>
      rw [nestedSymbols, nestedSymbols, ihφ, ihψ, ihφ (.connective c :: _), ihψ [.closing]]
      simp

/-- What is done to write a formula behind some symbols, inside another one or by itself. -/
def writingBody : Formula × Bool × List Symbol → Body (Formula × Bool × List Symbol) (List Symbol)
  | (top, _, row) => .done (row ++ [.top])
  | (bottom, _, row) => .done (row ++ [.bottom])
  | (atom x, _, row) => .done (row ++ [.atom x])
  | (apply o φ, _, row) => .call (φ, true, row ++ [.operator o]) .done
  | (join c φ ψ, nested, row) =>
    .call (φ, true, if nested then row ++ [.opening] else row) fun row =>
      .call (ψ, true, row ++ [.connective c]) fun row =>
        .done (if nested then row ++ [.closing] else row)

/-- The writing of a formula as a recursion. -/
def writing : Recursion (Formula × Bool × List Symbol) (List Symbol) where
  body := writingBody
  value q := q.2.2 ++ if q.2.1 then q.1.nestedSymbols [] else q.1.symbols
  value_eq := by
    rintro ⟨φ, nested, row⟩
    cases φ with
    | top | bottom | atom => cases nested <;> rfl
    | apply o φ => cases nested <;> simp [writingBody, Body.run, symbols, nestedSymbols]
    | join c φ ψ =>
        cases nested with
        | false =>
            simp only [writingBody, Body.run, symbols, Bool.false_eq_true, if_false, if_true]
            rw [φ.nestedSymbols_eq_append (.connective c :: _)]
            simp
        | true =>
            simp only [writingBody, Body.run, nestedSymbols, if_true]
            rw [φ.nestedSymbols_eq_append (.connective c :: _),
              ψ.nestedSymbols_eq_append [.closing]]
            simp

/-- A formula is written by writing its immediate parts. -/
theorem writing_onParts : writing.OnParts Prod.fst := by
  rintro ⟨φ, nested, row⟩ q h
  cases φ with
  | top | bottom | atom => cases h
  | apply o φ => exact mem_parts_apply.2 (congrArg Prod.fst (List.mem_singleton.1 h))
  | join c φ ψ =>
      exact mem_parts_join.2
        ((List.mem_pair.1 h).imp (congrArg Prod.fst) (congrArg Prod.fst))

end Formula

end FourWorlds
