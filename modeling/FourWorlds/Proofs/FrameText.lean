import FourWorlds.Frame.Printer
import FourWorlds.Proofs.Juxtaposition

/-! # Written frames are read back

A list of relations may be written in many ways: each relation has a sign out of four between its
worlds, and blanks may stand around every token. However it is written, the tokens are the worlds,
signs and commas in turn, so the frame of the relations listed is read, and nothing of the text
matters but which relations these are. The text of a frame is one of these ways, but for the frame
without relations, whose text is no list.

* `WrittenRelation`, `WrittenRelation.listText`: a relation with the sign and the blanks that it is
  written with, and the text of a list of these.
* `WrittenRelation.toList_listText`, `WrittenRelation.specifies_tokensOf`: the text is a row of
  words, and the tokens of these list the relations.
* `WrittenRelation.read_listText`: the frame of the relations is read from the text.
* `Frame.text_eq_listText`: the text of a frame with relations is one of these texts.
* `written_frames_read_back`: all of it in one statement. -/

namespace FourWorlds

/-- A relation as it may be written: the sign between its worlds is any one of the table, and blanks
may stand around each of the three tokens. -/
structure WrittenRelation where
  /-- What is written. -/
  relation : Relation
  /-- The sign between the two worlds. -/
  sign : List Char
  /-- The blanks in front of the first world. -/
  front : Gap
  /-- The blanks between the first world and the sign. -/
  beforeSign : Gap
  /-- The blanks between the sign and the second world. -/
  behindSign : Gap
  /-- The blanks behind the second world. -/
  back : Gap
  /-- The sign is a spelling of the relator. -/
  sign_mem : (⟨.relator, sign⟩ : Spelling FrameKind) ∈ Frame.lexer.spellings

namespace WrittenRelation

/-- The characters of a written relation. -/
def text (x : WrittenRelation) : List Char :=
  x.front.1 ++ x.relation.source.letter :: (x.beforeSign.1 ++ (x.sign
    ++ (x.behindSign.1 ++ x.relation.target.letter :: x.back.1)))

/-- The text of written relations with commas between them. -/
def listText (items : List WrittenRelation) : String :=
  ",".intercalate (items.map fun x => .ofList x.text)

/-! ## The words of a list -/

/-- The words of a written relation, behind the blanks in front of it. -/
def words (x : WrittenRelation) : List (Word FrameKind) :=
  [⟨⟨.letter, [x.relation.source.letter]⟩, x.beforeSign⟩, ⟨⟨.relator, x.sign⟩, x.behindSign⟩,
    ⟨⟨.letter, [x.relation.target.letter]⟩, x.back⟩]

/-- The words of written relations, a first one and others, behind the blanks in front of the first.
-/
def wordsOf (x : WrittenRelation) : List WrittenRelation → List (Word FrameKind)
  | [] => x.words
  | y :: items => x.words ++ ⟨⟨.separator, [',']⟩, y.front⟩ :: wordsOf y items

variable {x : WrittenRelation} {items : List WrittenRelation}

/-- The characters of a written relation are those of its words. -/
theorem text_eq (x : WrittenRelation) : x.text = x.front.1 ++ Word.textOf x.words := by
  simp [text, words, Word.textOf, Word.text]

/-- A comma stands between a written relation and the next one. -/
theorem toList_listText_cons_cons (x y : WrittenRelation) (items : List WrittenRelation) :
    (listText (x :: y :: items)).toList = x.text ++ ',' :: (listText (y :: items)).toList := by
  simp [listText]

/-- **The text of written relations is a row**, with the comma between two of them as a word. -/
theorem toList_listText (x : WrittenRelation) (items : List WrittenRelation) :
    (listText (x :: items)).toList = x.front.1 ++ Word.textOf (wordsOf x items) := by
  induction items generalizing x with
  | nil => simp [listText, wordsOf, text_eq]
  | cons y items ih =>
      rw [toList_listText_cons_cons, ih, text_eq]
      simp [wordsOf, Word.textOf, Word.text]

/-- The words are items of a frame. -/
theorem isItem_of_mem_wordsOf : ∀ w ∈ wordsOf x items, Frame.IsItem w.item := by
  have hletter : ∀ w : World, Frame.IsItem ⟨.letter, [w.letter]⟩ :=
    fun w => .inr ⟨w.letter, by cases w <;> decide, rfl⟩
  have hwords : ∀ x : WrittenRelation, ∀ w ∈ x.words, Frame.IsItem w.item := by
    intro x
    simp only [words, List.forall_mem_cons]
    exact ⟨hletter _, .inl x.sign_mem, hletter _, List.forall_mem_nil _⟩
  induction items generalizing x with
  | nil => exact hwords x
  | cons y items ih =>
      have hcomma : Frame.IsItem ⟨.separator, [',']⟩ := .inl (by decide +kernel)
      exact List.forall_mem_append.2 ⟨hwords x, List.forall_mem_cons.2 ⟨hcomma, ih⟩⟩

/-- **The tokens of written relations list these**, wherever they stand. -/
theorem specifies_tokensOf (offset : Nat) (x : WrittenRelation) (items : List WrittenRelation) :
    Specifies (Word.tokensOf offset (wordsOf x items)) ((x :: items).map relation) := by
  have hspells : ∀ (x : WrittenRelation) (i j k : Nat), SpellsRelation
      [⟨.letter, [x.relation.source.letter], i⟩, ⟨.relator, x.sign, j⟩,
        ⟨.letter, [x.relation.target.letter], k⟩] x.relation :=
    fun x i j k => .intro ⟨rfl, rfl⟩ rfl ⟨rfl, rfl⟩
  induction items generalizing offset x with
  | nil => exact .last (hspells x _ _ _)
  | cons y items ih => exact .more (hspells x _ _ _) rfl (ih _ y)

/-- **The frame of the relations is read from their text**, however they are written. -/
theorem read_listText (hne : items ≠ []) :
    Frame.read (listText items) = .ok (.ofRelations (items.map relation)) := by
  obtain ⟨x, items, rfl⟩ := List.exists_cons_of_ne_nil hne
  have htext : Row.text ⟨x.front, wordsOf x items⟩ = (listText (x :: items)).toList :=
    (toList_listText x items).symm
  have htokens := Lexer.tokens_of_row htext (Frame.givesEach_of_isItem isItem_of_mem_wordsOf)
  rw [Frame.read, htokens]
  refine Frame.ofTokens_eq_ok_iff.2 ⟨_, specifies_tokensOf _ x items, fun r => ?_⟩
  rw [Frame.contains_ofRelations, decide_eq_true_iff]

end WrittenRelation

/-! ## The text of a frame -/

namespace Frame

/-- A relation as it stands in the text of a frame, behind some blanks. -/
def written (front : Gap) (r : Relation) : WrittenRelation where
  relation := r
  sign := ['R']
  front := front
  beforeSign := .none
  behindSign := .none
  back := .none
  sign_mem := by decide +kernel

/-- The characters of a relation in the text of a frame are its letters, behind the blanks. -/
theorem text_written (front : Gap) (r : Relation) :
    (written front r).text = front.1 ++ r.text.toList := by
  simp [WrittenRelation.text, written, Relation.text, Gap.none]

/-- Relations with a comma and a space between two of them. -/
theorem listText_written (front : Gap) (r : Relation) (relations : List Relation) :
    (WrittenRelation.listText (written front r :: relations.map (written .space))).toList
      = front.1 ++ (", ".intercalate ((r :: relations).map (·.text))).toList := by
  induction relations generalizing front r with
  | nil => simp [WrittenRelation.listText, text_written]
  | cons s relations ih =>
      rw [List.map_cons, WrittenRelation.toList_listText_cons_cons, ih, text_written]
      simp [Gap.space]

/-- **The text of a frame with relations is one of the texts of these**, with a space behind each
comma. -/
theorem text_eq_listText {F : Frame} {r : Relation} {relations : List Relation}
    (h : F.relations = r :: relations) :
    F.text = WrittenRelation.listText (written .none r :: relations.map (written .space)) := by
  rw [← String.toList_inj, listText_written, text, h]
  rfl

/-- The frames of two lists are equal exactly if the same relations are listed. -/
theorem ofRelations_eq_iff {relations others : List Relation} :
    ofRelations relations = ofRelations others ↔ ∀ r, r ∈ relations ↔ r ∈ others := by
  constructor
  · intro h r
    have hcontains := congrArg (contains · r) h
    simpa using hcontains
  · intro h
    ext r
    simp [h r]

/-- A frame is the frame of its relations. -/
theorem ofRelations_relations (F : Frame) : ofRelations F.relations = F := by
  ext r
  simp

/-- Frames with the same id are equal. -/
theorem id_injective : Function.Injective id := Function.LeftInverse.injective ofId_id

/-- **The text of a frame is read as the frame**, if it has a relation. -/
theorem read_text {F : Frame} (h : ∃ r, F.contains r) : read F.text = .ok F := by
  obtain ⟨r, hr⟩ := h
  obtain ⟨s, relations, hrelations⟩ :=
    List.exists_cons_of_ne_nil (List.ne_nil_of_mem (mem_relations.2 hr))
  rw [text_eq_listText hrelations, WrittenRelation.read_listText (List.cons_ne_nil _ _)]
  have hmap : (written .none s :: relations.map (written .space)).map WrittenRelation.relation
      = F.relations := by
    rw [hrelations, List.map_cons, List.map_map]
    exact congrArg (List.cons s) (List.map_id _)
  rw [hmap, ofRelations_relations]

/-- The text of the frame without relations is refused at its only character. -/
theorem read_text_empty : read empty.text = .error (.unknownSymbol 0) := by
  have hstuck : lexer.Stuck ['∅'] := ⟨by decide +kernel, '∅', rfl, by decide, by decide⟩
  have htokens : lexer.tokens empty.text = .error (.unknownSymbol 0) :=
    @Lexer.tokens_of_row_of_stuck _ _ ['∅'] empty.text ⟨.none, []⟩ rfl trivial hstuck
  rw [read, htokens]
  rfl

end Frame

/-- **Written frames are read back.** A list of relations, in any order and with any repetitions, is
read as the frame of these relations however it is written, with any of the four signs and with any
blanks around the tokens, as long as there is one to write. So the frames read from two such lists,
and their ids, are equal exactly if the same relations are listed. In particular the text of a frame
with relations is read as this frame, also if its worlds were renamed, while the text of the frame
without relations is refused where it begins. -/
theorem written_frames_read_back :
    (∀ items : List WrittenRelation, items ≠ [] →
        Frame.read (WrittenRelation.listText items)
          = .ok (.ofRelations (items.map WrittenRelation.relation)))
      ∧ (∀ items others : List WrittenRelation, items ≠ [] → others ≠ [] →
        (Frame.read (WrittenRelation.listText items) = Frame.read (WrittenRelation.listText others)
            ↔ ∀ r, r ∈ items.map WrittenRelation.relation ↔ r ∈ others.map WrittenRelation.relation)
          ∧ ((Frame.read (WrittenRelation.listText items)).map Frame.id
              = (Frame.read (WrittenRelation.listText others)).map Frame.id
            ↔ ∀ r, r ∈ items.map WrittenRelation.relation
              ↔ r ∈ others.map WrittenRelation.relation))
      ∧ (∀ F : Frame, (∃ r, F.contains r) → Frame.read F.text = .ok F
        ∧ ∀ f : Relabelling, Frame.read (F.relabelled f).text = .ok (F.relabelled f))
      ∧ Frame.read Frame.empty.text = .error (.unknownSymbol 0) := by
  refine ⟨fun items => WrittenRelation.read_listText, fun items others hne hne' => ?_,
    fun F hF => ⟨Frame.read_text hF, fun f => Frame.read_text ?_⟩, Frame.read_text_empty⟩
  · rw [WrittenRelation.read_listText hne, WrittenRelation.read_listText hne', Except.map,
      Except.map, Except.ok.injEq, Except.ok.injEq, Frame.id_injective.eq_iff]
    exact ⟨Frame.ofRelations_eq_iff, Frame.ofRelations_eq_iff⟩
  · -- The image of a relation of the frame is one of the relabelled frame.
    obtain ⟨r, hr⟩ := hF
    exact ⟨r.relabelled f, Frame.contains_relabelled.2 ⟨r, hr, rfl⟩⟩

/-- With each of the four signs, a relation written twice and blanks of several kinds, the frame of
three relations is read, and so it is from a plain list in another order. The frame with `aRb` is
read from its text, and with both worlds renamed to `c` from that of `cRc`. -/
theorem written_frames_read_back_four_signs :
    let wide : Gap := ⟨['\u3000', '\t'], List.all_eq_true.1 (by decide)⟩
    let items : List WrittenRelation :=
      [⟨⟨.b, .a⟩, ['<'], wide, .none, .space, .none, by decide +kernel⟩,
        ⟨⟨.a, .a⟩, ['R'], .none, .space, .none, wide, by decide +kernel⟩,
        ⟨⟨.b, .a⟩, "\\prec".toList, .none, .none, .none, .none, by decide +kernel⟩,
        ⟨⟨.c, .d⟩, ['≺'], .space, .none, wide, .space, by decide +kernel⟩]
    let others : List WrittenRelation :=
      [Frame.written .none ⟨.a, .a⟩, Frame.written .none ⟨.c, .d⟩, Frame.written .none ⟨.b, .a⟩]
    let F : Frame := .ofRelations [⟨.a, .b⟩]
    let f : Relabelling := fun _ => .c
    (items ≠ []
        ∧ WrittenRelation.listText items = "\u3000\tb< a,a Ra\u3000\t,b\\preca, c≺\u3000\td "
        ∧ Frame.read (WrittenRelation.listText items)
          = .ok (.ofRelations [⟨.b, .a⟩, ⟨.a, .a⟩, ⟨.b, .a⟩, ⟨.c, .d⟩]))
      ∧ (others ≠ [] ∧ WrittenRelation.listText others = "aRa,cRd,bRa"
        ∧ Frame.read (WrittenRelation.listText items)
          = Frame.read (WrittenRelation.listText others))
      ∧ (∃ r, F.contains r) ∧ Frame.read F.text = .ok F
        ∧ Frame.read (F.relabelled f).text = .ok (F.relabelled f) := by
  intro wide items others F f
  obtain ⟨hread, hsame, htext, -⟩ := written_frames_read_back
  have hitems : items ≠ [] := List.cons_ne_nil _ _
  have hothers : others ≠ [] := List.cons_ne_nil _ _
  have hF : ∃ r, F.contains r := ⟨⟨.a, .b⟩, by decide⟩
  have hrelations : ∀ r, r ∈ items.map WrittenRelation.relation
      ↔ r ∈ others.map WrittenRelation.relation := by
    intro r
    simp [items, others, Frame.written]
    tauto
  obtain ⟨hFtext, hrelabelled⟩ := htext F hF
  exact ⟨⟨hitems, by decide +kernel, hread items hitems⟩,
    ⟨hothers, by decide +kernel, (hsame items others hitems hothers).1.2 hrelations⟩,
    hF, hFtext, hrelabelled f⟩

end FourWorlds
