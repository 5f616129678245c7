import FourWorlds.Text.Lexer

/-! # Cursors

A cursor stands in a sequence of tokens and moves over it from front to back, one token at a time.

* `Cursor.tokens`, `Cursor.position`: the whole sequence, and the number of tokens already read.
* `Cursor.advance`, `Cursor.advanceWhen`, `Cursor.advanceIf`: reading the next token, in any case or
  only if it is a suitable one.
* `Cursor.expect`, `Cursor.finish`: requiring a token of some kind, or that there is none left. -/

namespace FourWorlds

variable {κ β : Type}

/-- A place in a sequence of tokens. -/
structure Cursor (κ : Type) where
  /-- The tokens already read, the latest first. -/
  passed : List (Token κ)
  /-- The tokens still to be read. -/
  unread : List (Token κ)
  deriving DecidableEq, Repr

namespace Cursor

/-- The cursor in front of a sequence of tokens. -/
def ofTokens (tokens : List (Token κ)) : Cursor κ := ⟨[], tokens⟩

/-- The whole sequence of tokens. -/
def tokens (c : Cursor κ) : List (Token κ) := c.passed.reverse ++ c.unread

/-- The number of tokens already read. -/
def position (c : Cursor κ) : Nat := c.passed.length

/-- Whether the whole sequence is empty. -/
def isEmpty (c : Cursor κ) : Bool := c.passed.isEmpty && c.unread.isEmpty

/-- The next token. -/
def peek? (c : Cursor κ) : Option (Token κ) := c.unread.head?

/-- Reads the next token, if there is one. -/
def advance (c : Cursor κ) : Option (Token κ × Cursor κ) :=
  match c.unread with
  | [] => none
  | t :: rest => some (t, ⟨t :: c.passed, rest⟩)

/-- Reads the next token if a test finds something in it, and gives what is found. -/
def advanceWhen (test : Token κ → Option β) (c : Cursor κ) : Option (β × Cursor κ) :=
  c.advance.bind fun (t, c) => (test t).map fun found => (found, c)

/-- Reads the next token if it is of one of some kinds. -/
def advanceIf [DecidableEq κ] (kinds : List κ) (c : Cursor κ) : Option (Token κ × Cursor κ) :=
  c.advanceWhen fun t => if t.kind ∈ kinds then some t else none

/-- Reads the next token, whatever it is, and requires that it is of a kind. -/
def expect [DecidableEq κ] (kind : κ) (c : Cursor κ) : Except ParseError (Token κ) × Cursor κ :=
  match c.advance with
  | none => (.error .unexpectedEnd, c)
  | some (t, c) => (if t.kind = kind then .ok t else .error (.unexpectedSymbol t.offset), c)

/-- Requires that every token has been read. -/
def finish (c : Cursor κ) : Except ParseError Unit :=
  match c.peek? with
  | none => .ok ()
  | some t => .error (.unreadInput t.offset)

/-! ### Elementary facts -/

/-- A new cursor has the whole sequence. -/
@[simp] theorem tokens_ofTokens (tokens : List (Token κ)) : (ofTokens tokens).tokens = tokens := rfl

/-- A new cursor has read nothing. -/
@[simp] theorem unread_ofTokens (tokens : List (Token κ)) : (ofTokens tokens).unread = tokens := rfl

/-- Reading moves the cursor by one token of the same sequence. -/
theorem of_advance {c d : Cursor κ} {t : Token κ} (h : c.advance = some (t, d)) :
    c.unread = t :: d.unread ∧ d.passed = t :: c.passed := by
  unfold advance at h
  split at h
  · simp at h
  · next hunread =>
    obtain ⟨rfl, rfl⟩ := by simpa using h
    exact ⟨hunread, rfl⟩

/-- A token of the required kind leaves fewer to be read. -/
theorem length_unread_of_expect [DecidableEq κ] {kind : κ} {c d : Cursor κ} {t : Token κ}
    (h : c.expect kind = (.ok t, d)) : d.unread.length < c.unread.length := by
  unfold expect at h
  split at h
  · simp at h
  · next u e hadvance =>
    obtain rfl : e = d := (Prod.ext_iff.1 h).2
    simp [(of_advance hadvance).1]

/-- A token read under a condition leaves fewer to be read. -/
theorem length_unread_of_advanceWhen {test : Token κ → Option β} {c d : Cursor κ} {found : β}
    (h : c.advanceWhen test = some (found, d)) : d.unread.length < c.unread.length := by
  obtain ⟨⟨t, e⟩, hadvance, htest⟩ := Option.bind_eq_some_iff.1 h
  obtain ⟨_, _, hd⟩ := Option.map_eq_some_iff.1 htest
  obtain rfl : e = d := (Prod.ext_iff.1 hd).2
  simp [(of_advance hadvance).1]

end Cursor

end FourWorlds
