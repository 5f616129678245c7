import FourWorlds.Frame.Token
import FourWorlds.Text.Cursor

/-! # Reading frames

A frame is written as a list of relations between commas, each a world, a relator and a world:

    frame    := relation (',' relation)*
    relation := world relator world

The frame read has the relations listed, in whatever order and however often.

* `World.readNext`, `Relation.readNext`: a world and a relation in front of the unread tokens.
* `Frame.read`: the frame of a text. -/

namespace FourWorlds

/-- Reads a world. -/
def World.readNext (tokens : Cursor FrameKind) : Except ParseError (World × Cursor FrameKind) := do
  let (found, tokens) := tokens.expect .letter
  let t ← found
  let letter := t.text.headD default
  match World.ofLetter? letter with
  | some w => return (w, tokens)
  | none => throw (.unknownWorld letter t.offset)

/-- Reading a world leaves fewer tokens. -/
theorem World.length_unread_of_readNext {c d : Cursor FrameKind} {w : World}
    (h : World.readNext c = .ok (w, d)) : d.unread.length < c.unread.length := by
  unfold World.readNext at h
  rcases hexpect : c.expect .letter with ⟨_ | t, e⟩
  · simp [hexpect, bind, Except.bind] at h
  · simp only [hexpect, bind, Except.bind] at h
    split at h
    · obtain ⟨-, rfl⟩ : _ ∧ e = d := by simpa [pure, Except.pure] using h
      exact Cursor.length_unread_of_expect hexpect
    · simp [throw, throwThe, MonadExceptOf.throw] at h

/-- Reads a relation. -/
def Relation.readNext (tokens : Cursor FrameKind) :
    Except ParseError (Relation × Cursor FrameKind) := do
  let (source, tokens) ← World.readNext tokens
  let (found, tokens) := tokens.expect .relator
  let _ ← found
  let (target, tokens) ← World.readNext tokens
  return (⟨source, target⟩, tokens)

/-- Reading a relation leaves fewer tokens. -/
theorem Relation.length_unread_of_readNext {c d : Cursor FrameKind} {r : Relation}
    (h : Relation.readNext c = .ok (r, d)) : d.unread.length < c.unread.length := by
  unfold Relation.readNext at h
  rcases hsource : World.readNext c with _ | ⟨v, e⟩
  · simp [hsource, bind, Except.bind] at h
  rcases hexpect : e.expect .relator with ⟨_ | t, f⟩
  · simp [hsource, hexpect, bind, Except.bind] at h
  rcases htarget : World.readNext f with _ | ⟨w, g⟩
  · simp [hsource, hexpect, htarget, bind, Except.bind] at h
  obtain ⟨-, rfl⟩ : _ ∧ g = d := by
    simpa [hsource, hexpect, htarget, bind, Except.bind, pure, Except.pure] using h
  have h₁ := World.length_unread_of_readNext hsource
  have h₂ := Cursor.length_unread_of_expect hexpect
  have h₃ := World.length_unread_of_readNext htarget
  omega

namespace Frame

/-- Reads the relations that follow after commas. -/
def moreRelations (tokens : Cursor FrameKind) :
    Except ParseError (List Relation × Cursor FrameKind) :=
  match _hnext : tokens.advanceIf [.separator] with
  | none => .ok ([], tokens)
  | some (_, afterComma) =>
    match _hread : Relation.readNext afterComma with
    | .error e => .error e
    | .ok (r, afterRelation) => do
      let (relations, rest) ← moreRelations afterRelation
      return (r :: relations, rest)
termination_by tokens.unread.length
decreasing_by
  have h₁ := Cursor.length_unread_of_advanceWhen _hnext
  have h₂ := Relation.length_unread_of_readNext _hread
  omega

/-- The frame that a sequence of tokens spells. -/
def ofTokens (tokens : List (Token FrameKind)) : Except ParseError Frame := do
  if tokens.isEmpty then throw .blank
  let (first, rest) ← Relation.readNext (.ofTokens tokens)
  let (others, rest) ← moreRelations rest
  rest.finish
  return ofRelations (first :: others)

/-- The frame written in a text. -/
def read (text : String) : Except ParseError Frame := do
  let tokens ← lexer.tokens text
  ofTokens tokens

end Frame

end FourWorlds
