import FourWorlds.Proofs.Lexer
import FourWorlds.Text.Cursor
import Mathlib.Logic.Basic

/-! # What a cursor passes over

Moving over a sequence of tokens takes a cursor from the place before them to the place after them.
Readers are described by the tokens they pass over, one step of the cursor at a time.

* `Cursor.Passes`: a sequence of tokens leads from one cursor to another.
* `Cursor.passes_nil_iff`, `Cursor.passes_cons_iff`, `Cursor.passes_append_iff`: passing over no
  token, over a first one and the rest, and over two sequences.
* `Cursor.advanceWhen_eq_some_iff`, `Cursor.expect_eq_ok_iff`, `Cursor.finish_eq_ok_iff`: when a
  conditional step is taken, and when a requirement is met. -/

namespace FourWorlds

variable {κ β : Type}

namespace Cursor

variable {c d e : Cursor κ} {t : Token κ} {ts us : List (Token κ)}

/-- The tokens lead from one cursor to another. -/
def Passes (c : Cursor κ) (ts : List (Token κ)) (d : Cursor κ) : Prop :=
  c.unread = ts ++ d.unread ∧ d.passed = ts.reverse ++ c.passed

/-- Passing over no token stays where it is. -/
@[simp] theorem passes_nil_iff : c.Passes [] d ↔ c = d := by
  constructor
  · rintro ⟨hunread, hpassed⟩
    cases c
    cases d
    simp_all
  · rintro rfl
    exact ⟨rfl, rfl⟩

/-- Reading succeeds exactly if a token is left, and moves over it. -/
theorem advance_eq_some_iff :
    c.advance = some (t, d) ↔ c.unread = t :: d.unread ∧ d.passed = t :: c.passed := by
  constructor
  · exact of_advance
  · rintro ⟨hunread, hpassed⟩
    cases d
    simp_all [advance]

/-- Nothing can be read exactly if no token is left. -/
theorem advance_eq_none_iff : c.advance = none ↔ c.unread = [] := by
  unfold advance
  split <;> simp_all

/-- Passing over a token and others is reading it and passing over the others. -/
theorem passes_cons_iff : c.Passes (t :: ts) e ↔ ∃ d, c.advance = some (t, d) ∧ d.Passes ts e := by
  simp only [advance_eq_some_iff, Passes]
  constructor
  · rintro ⟨hunread, hpassed⟩
    exact ⟨⟨t :: c.passed, ts ++ e.unread⟩, ⟨hunread, rfl⟩, rfl, by simpa using hpassed⟩
  · rintro ⟨d, ⟨hcd, hdc⟩, hde, hed⟩
    exact ⟨by rw [hcd, hde, List.cons_append], by rw [hed, hdc]; simp⟩

/-- Passing over one sequence and another is passing over them in a row. -/
theorem passes_append_iff : c.Passes (ts ++ us) e ↔ ∃ d, c.Passes ts d ∧ d.Passes us e := by
  induction ts generalizing c with
  | nil => simp
  | cons t ts ih =>
      simp only [List.cons_append, passes_cons_iff, ih]
      constructor
      · rintro ⟨b, hb, d, hd, he⟩
        exact ⟨d, ⟨b, hb, hd⟩, he⟩
      · rintro ⟨d, ⟨b, hb, hd⟩, he⟩
        exact ⟨b, hb, d, hd, he⟩

/-- A new cursor passes over the tokens of the sequence it was made for. -/
theorem passes_ofTokens (ts : List (Token κ)) : (ofTokens ts).Passes ts ⟨ts.reverse, []⟩ := by
  simp [Passes, ofTokens]

/-- A conditional step is taken exactly if the test finds something in the next token. -/
theorem advanceWhen_eq_some_iff {test : Token κ → Option β} {found : β} :
    c.advanceWhen test = some (found, d) ↔ ∃ t, c.advance = some (t, d) ∧ test t = some found := by
  rw [advanceWhen, Option.bind_eq_some_iff]
  constructor
  · rintro ⟨⟨t, b⟩, hadvance, htest⟩
    obtain ⟨_, hfound, heq⟩ := Option.map_eq_some_iff.1 htest
    obtain ⟨rfl, rfl⟩ := Prod.mk.inj heq
    exact ⟨t, hadvance, hfound⟩
  · rintro ⟨t, hadvance, hfound⟩
    exact ⟨(t, d), hadvance, Option.map_eq_some_iff.2 ⟨found, hfound, rfl⟩⟩

/-- A conditional step is not taken exactly if the test finds nothing in the next token. -/
theorem advanceWhen_eq_none_iff {test : Token κ → Option β} :
    c.advanceWhen test = none ↔ ∀ t ∈ c.unread.head?, test t = none := by
  rw [advanceWhen, advance]
  cases c.unread <;> simp

/-- A requirement is met exactly if the next token is of the kind. -/
theorem expect_eq_ok_iff [DecidableEq κ] {kind : κ} :
    c.expect kind = (.ok t, d) ↔ c.advance = some (t, d) ∧ t.kind = kind := by
  unfold expect
  rcases hadvance : c.advance with _ | ⟨u, b⟩
  · simp
  · by_cases hkind : u.kind = kind
    · simp only [if_pos hkind, Prod.mk.injEq, Except.ok.injEq, Option.some.injEq]
      exact (and_iff_left_of_imp fun h => h.1 ▸ hkind).symm
    · simp only [if_neg hkind, Prod.mk.injEq, reduceCtorEq, false_and, Option.some.injEq, false_iff]
      rintro ⟨⟨rfl, -⟩, h⟩
      exact hkind h

/-- A requirement is not met exactly if no token is left or the next one is of another kind. -/
theorem expect_eq_error_iff [DecidableEq κ] {kind : κ} {e : ParseError} :
    (c.expect kind).1 = .error e ↔ c.unread = [] ∧ e = .unexpectedEnd
      ∨ ∃ t ∈ c.unread.head?, t.kind ≠ kind ∧ e = .unexpectedSymbol t.offset := by
  unfold expect advance
  rcases c.unread with _ | ⟨t, rest⟩
  · simp [eq_comm]
  · by_cases hkind : t.kind = kind
    · simp [hkind]
    · simpa [hkind] using eq_comm

/-- A cursor is finished exactly if no token is left. -/
theorem finish_eq_ok_iff : c.finish = .ok () ↔ c.unread = [] := by
  unfold finish peek?
  cases c.unread <;> simp

end Cursor

end FourWorlds
