import FourWorlds.Formula
import FourWorlds.Frame
import FourWorlds.PerWorld
import FourWorlds.Valuation

/-! # Models and truth

A model is a frame with a valuation of the atoms at its worlds. Truth of a formula at a world of a
model is defined by recursion on the formula: the connectives are read at the world itself, and the
two modal operators at the worlds that it sees.

* `Model.satisfies`: truth at a world.
* `Model.satisfiedAt`, `Model.valid`: the worlds at which a formula is true, and truth at them all.
* `Formula.truth`: the truth values at all worlds at once, so that each subformula is evaluated once
  and not once for each way of reaching it; `get_truth` says that they are those of `satisfies`. -/

namespace FourWorlds

/-- A frame with a valuation. -/
structure Model where
  /-- The worlds that each world sees. -/
  frame : Frame
  /-- The atoms that are true at each world. -/
  valuation : Valuation
  deriving DecidableEq

namespace Model

/-- Truth of a formula at a world of a model. -/
def satisfies (M : Model) (w : World) : Formula → Bool
  | .top => true
  | .bottom => false
  | .atom x => M.valuation.holds w x
  | .not φ => !M.satisfies w φ
  | .box φ => (M.frame.successors w).all fun v => M.satisfies v φ
  | .diamond φ => (M.frame.successors w).any fun v => M.satisfies v φ
  | .and φ ψ => M.satisfies w φ && M.satisfies w ψ
  | .or φ ψ => M.satisfies w φ || M.satisfies w ψ
  | .implies φ ψ => !M.satisfies w φ || M.satisfies w ψ
  | .iff φ ψ => M.satisfies w φ == M.satisfies w ψ

/-- The worlds of a model at which a formula is true, in order. -/
def satisfiedAt (M : Model) (φ : Formula) : List World := World.all.filter fun w => M.satisfies w φ

/-- Truth of a formula at every world of a model. -/
def valid (M : Model) (φ : Formula) : Bool := World.all.all fun w => M.satisfies w φ

end Model

/-! ### Truth at all worlds at once -/

/-- The truth values of a formula at the worlds, from the worlds that each of them sees and from a
valuation. -/
def Formula.truth (seen : PerWorld (List World)) (V : Valuation) : Formula → PerWorld Bool
  | top => .ofFn fun _ => true
  | bottom => .ofFn fun _ => false
  | atom x => .ofFn fun w => V.holds w x
  | not φ =>
    let S := φ.truth seen V
    .ofFn fun w => !S.get w
  | box φ =>
    let S := φ.truth seen V
    .ofFn fun w => (seen.get w).all S.get
  | diamond φ =>
    let S := φ.truth seen V
    .ofFn fun w => (seen.get w).any S.get
  | and φ ψ =>
    let S := φ.truth seen V
    let T := ψ.truth seen V
    .ofFn fun w => S.get w && T.get w
  | or φ ψ =>
    let S := φ.truth seen V
    let T := ψ.truth seen V
    .ofFn fun w => S.get w || T.get w
  | implies φ ψ =>
    let S := φ.truth seen V
    let T := ψ.truth seen V
    .ofFn fun w => !S.get w || T.get w
  | iff φ ψ =>
    let S := φ.truth seen V
    let T := ψ.truth seen V
    .ofFn fun w => S.get w == T.get w

/-- The truth value found for a world is the truth of the formula there. -/
@[simp] theorem Formula.get_truth (F : Frame) (V : Valuation) (φ : Formula) (w : World) :
    (φ.truth (.ofFn F.successors) V).get w = (Model.mk F V).satisfies w φ := by
  induction φ generalizing w with
  | top | bottom | atom x => simp [truth, Model.satisfies]
  | apply o φ ih =>
    have h : (φ.truth (.ofFn F.successors) V).get = fun v => (Model.mk F V).satisfies v φ :=
      funext ih
    cases o <;> simp [truth, Model.satisfies, h]
  | join c φ ψ ihφ ihψ => cases c <;> simp [truth, Model.satisfies, ihφ, ihψ]

end FourWorlds
