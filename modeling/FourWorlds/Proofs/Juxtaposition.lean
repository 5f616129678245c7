import FourWorlds.Proofs.FormulaTokens
import FourWorlds.Proofs.FrameReader
import FourWorlds.Proofs.Row
import Mathlib.Data.List.Chain

/-! # Items next to each other

Items of a formula may be written next to each other or with blanks between, and are read back all
the same, with one exception: `\to` directly before the letter `p` is `\top`. A row in which this
happens is read as the row with every such pair replaced. In a frame there is no exception.

* `Formula.IsItem`, `Frame.IsItem`: the spellings of the tables and the letters.
* `Formula.Fuses`, `Formula.fused`: two words that spell `\top` together, and a row with these
  replaced.
* `Formula.tokens_row`, `Frame.tokens_row`: what a row of items is read as.
* `Formula.items_ne_iff`: the pairs of items for which the blanks between them matter.
* `items_read_back`: all of it in one statement. -/

namespace FourWorlds

variable {κ : Type}

/-- The items read from a text, wherever they stand. -/
def Lexer.items (L : Lexer κ) (text : String) : Except ParseError (List (Spelling κ)) :=
  (L.tokens text).map fun tokens => tokens.map Token.spelling

/-- The tokens of some words are spelt as the items of these. -/
theorem Word.map_spelling_tokensOf (offset : Nat) (words : List (Word κ)) :
    (tokensOf offset words).map Token.spelling = words.map item := by
  induction words generalizing offset with
  | nil => rfl
  | cons x words ih => rw [tokensOf, List.map_cons, List.map_cons, ih, Token.spelling]

/-! ## Frames -/

namespace Frame

/-- An item of a frame: a spelling of the table, or a lowercase letter. -/
def IsItem (s : Spelling FrameKind) : Prop :=
  s ∈ lexer.spellings ∨ ∃ c : Char, c.isLower ∧ s = ⟨.letter, [c]⟩

variable {s : Spelling FrameKind} {rest tail : List Char} {words : List (Word FrameKind)}

/-- An item begins with no blank. -/
theorem IsItem.not_isBlank (hs : IsItem s) : ∀ c ∈ s.text.head?, ¬ isBlank c := by
  rcases hs with hs | ⟨c, hlower, rfl⟩
  · exact fun c hc => (head_of_mem_spellings hs hc).1
  · exact forall_head?_not_isBlank (not_isBlank_of_isLower hlower)

/-- An item is read back, whatever follows it. -/
theorem IsItem.reading? (hs : IsItem s) : lexer.reading? (s.text ++ rest) = some s := by
  rcases hs with hs | ⟨c, hlower, rfl⟩
  · exact reading?_spelling hs
  · exact reading?_letter hlower

/-- Each item of a row is given where it stands. -/
theorem givesEach_of_isItem (h : ∀ x ∈ words, IsItem x.item) : lexer.GivesEach tail words := by
  induction words with
  | nil => trivial
  | cons x words ih =>
      obtain ⟨hx, hwords⟩ := List.forall_mem_cons.1 h
      exact ⟨hx.not_isBlank, Lexer.reading?_eq_some_iff_gives.1 hx.reading?, ih hwords⟩

/-- **A row of items is read back.** -/
theorem tokens_row {row : Row FrameKind} (h : ∀ x ∈ row.words, IsItem x.item) :
    lexer.tokens (.ofList row.text) = .ok row.tokens :=
  Lexer.tokens_of_row String.toList_ofList.symm (givesEach_of_isItem h)

end Frame

/-! ## Formulas -/

namespace Formula

/-- An item of a formula: a spelling of the table, or a lowercase letter that is not `v`. -/
def IsItem (s : Spelling FormulaKind) : Prop :=
  s ∈ lexer.spellings ∨ ∃ c : Char, c.isLower ∧ c ≠ 'v' ∧ s = ⟨.letter, [c]⟩

/-- **Two words spell `\top` together**: the one is `\to` with no blank behind it, the other is the
letter `p`. -/
def Fuses (x y : Word FormulaKind) : Prop :=
  x.item.text = "\\to".toList ∧ x.gap.1 = [] ∧ y.item.text = ['p']

instance (x y : Word FormulaKind) : Decidable (Fuses x y) :=
  inferInstanceAs (Decidable (_ ∧ _ ∧ _))

/-- The item `\top`. -/
def topItem : Spelling FormulaKind := ⟨.top, "\\top".toList⟩

/-- A word in front of others, with `\top` in place of the first two if they spell it. -/
def attach (x : Word FormulaKind) : List (Word FormulaKind) → List (Word FormulaKind)
  | [] => [x]
  | y :: words => if Fuses x y then ⟨topItem, y.gap⟩ :: words else x :: y :: words

/-- Some words with `\top` in place of any two that spell it. -/
def fused (words : List (Word FormulaKind)) : List (Word FormulaKind) := words.foldr attach []

variable {s t : Spelling FormulaKind} {rest : List Char} {x y : Word FormulaKind}
  {words others : List (Word FormulaKind)}

/-! ### Single items -/

/-- The item `\top` is one of the table. -/
theorem isItem_topItem : IsItem topItem := .inl (by decide +kernel)

/-- The item `\top` is another one than `\to`. -/
theorem topItem_text_ne : topItem.text ≠ "\\to".toList := by decide

/-- An item begins with no blank. -/
theorem IsItem.not_isBlank (hs : IsItem s) : ∀ c ∈ s.text.head?, ¬ isBlank c := by
  rcases hs with hs | ⟨c, hlower, -, rfl⟩
  · exact fun c hc => (head_of_mem_spellings hs hc).1
  · exact forall_head?_not_isBlank (not_isBlank_of_isLower hlower)

/-- An item is read back, unless it is `\to` in front of the letter `p`. -/
theorem IsItem.reading? (hs : IsItem s) (hto : s.text = "\\to".toList → rest.head? ≠ some 'p') :
    lexer.reading? (s.text ++ rest) = some s := by
  rcases hs with hs | ⟨c, hlower, hv, rfl⟩
  · exact reading?_spelling hs hto
  · exact reading?_letter hlower hv

/-- An item is not empty. -/
theorem IsItem.text_ne_nil (hs : IsItem s) : s.text ≠ [] := by
  rcases hs with hs | ⟨c, -, -, rfl⟩
  · exact lexer.text_ne_nil s hs
  · exact List.cons_ne_nil c []

/-- The only item that begins with `p` is that letter. -/
theorem IsItem.text_eq_of_head? (hs : IsItem s) (hhead : s.text.head? = some 'p') :
    s.text = ['p'] := by
  rcases hs with hs | ⟨c, -, -, rfl⟩
  · have hv : 'p' = 'v' := (head_of_mem_spellings hs hhead).2 (by decide)
    exact absurd hv (by decide)
  · rw [Option.some.inj hhead]

/-! ### Rows in which no two words fuse -/

/-- Where the letter `p` stands directly behind `\to`, the next word is that letter, and the two
fuse. -/
theorem fuses_of_head? (hitems : ∀ y ∈ words, IsItem y.item) (hto : x.item.text = "\\to".toList)
    (hhead : (x.gap.1 ++ (Word.textOf words ++ [])).head? = some 'p') :
    ∃ y ∈ words.head?, Fuses x y := by
  rcases hgap : x.gap.1 with _ | ⟨c, gap⟩
  · rcases words with _ | ⟨y, words⟩
    · rw [hgap] at hhead
      cases hhead
    · have hy : IsItem y.item := hitems y List.mem_cons_self
      refine ⟨y, rfl, hto, hgap, hy.text_eq_of_head? ?_⟩
      rw [hgap, List.nil_append, Word.textOf_cons_append] at hhead
      rwa [List.head?_append_of_ne_nil _ hy.text_ne_nil] at hhead
  · -- A blank stands there.
    rw [hgap] at hhead
    have hblank := x.gap.2 c (by rw [hgap]; exact List.mem_cons_self)
    obtain rfl : c = 'p' := Option.some.inj hhead
    exact absurd hblank (by decide)

/-- Each item of a row is given where it stands, if no two words fuse. -/
theorem givesEach_of_isChain (hitems : ∀ x ∈ words, IsItem x.item)
    (hchain : words.IsChain (¬ Fuses · ·)) : lexer.GivesEach [] words := by
  induction words with
  | nil => trivial
  | cons x words ih =>
      obtain ⟨hx, hwords⟩ := List.forall_mem_cons.1 hitems
      obtain ⟨hnot, hchain⟩ := List.isChain_cons.1 hchain
      have hto : x.item.text = "\\to".toList →
          (x.gap.1 ++ (Word.textOf words ++ [])).head? ≠ some 'p' := by
        intro hto hhead
        obtain ⟨y, hy, hfuses⟩ := fuses_of_head? hwords hto hhead
        exact hnot y hy hfuses
      exact ⟨hx.not_isBlank, Lexer.reading?_eq_some_iff_gives.1 (hx.reading? hto),
        ih hwords hchain⟩

/-! ### Fusing words -/

/-- Where the first two words do not fuse, a word is put in front. -/
theorem attach_of_forall_not (h : ∀ y ∈ words.head?, ¬ Fuses x y) : attach x words = x :: words := by
  cases words with
  | nil => rfl
  | cons y words => exact if_neg (h y rfl)

/-- Fusing changes no character. -/
theorem textOf_attach (x : Word FormulaKind) (words : List (Word FormulaKind)) :
    Word.textOf (attach x words) = Word.textOf (x :: words) := by
  cases words with
  | nil => rfl
  | cons y words =>
      rw [attach]
      by_cases hfuses : Fuses x y
      · obtain ⟨hto, hgap, hp⟩ := hfuses
        rw [if_pos ⟨hto, hgap, hp⟩]
        simp only [Word.textOf, List.flatMap_cons, Word.text, hto, hgap, hp, topItem]
        rfl
      · rw [if_neg hfuses]

/-- Fused words are items, like the others. -/
theorem isItem_attach (hx : IsItem x.item) (hwords : ∀ y ∈ words, IsItem y.item) :
    ∀ y ∈ attach x words, IsItem y.item := by
  cases words with
  | nil => exact List.forall_mem_cons.2 ⟨hx, hwords⟩
  | cons y words =>
      rw [attach]
      by_cases hfuses : Fuses x y
      · rw [if_pos hfuses]
        exact List.forall_mem_cons.2 ⟨isItem_topItem, (List.forall_mem_cons.1 hwords).2⟩
      · rw [if_neg hfuses]
        exact List.forall_mem_cons.2 ⟨hx, hwords⟩

/-- Fusing leaves no two words that fuse. -/
theorem isChain_attach (x : Word FormulaKind) (h : words.IsChain (¬ Fuses · ·)) :
    (attach x words).IsChain (¬ Fuses · ·) := by
  cases words with
  | nil => exact List.isChain_singleton x
  | cons y words =>
      rw [attach]
      by_cases hfuses : Fuses x y
      · -- The word `\top` fuses with nothing behind it.
        rw [if_pos hfuses]
        exact List.isChain_cons.2 ⟨fun _ _ hnot => absurd hnot.1 topItem_text_ne,
          (List.isChain_cons.1 h).2⟩
      · rw [if_neg hfuses]
        exact List.isChain_cons_cons.2 ⟨hfuses, h⟩

/-- Words in front of others are fused one at a time. -/
theorem fused_cons (x : Word FormulaKind) (words : List (Word FormulaKind)) :
    fused (x :: words) = attach x (fused words) := rfl

/-- Fusing words changes no character. -/
theorem textOf_fused (words : List (Word FormulaKind)) :
    Word.textOf (fused words) = Word.textOf words := by
  induction words with
  | nil => rfl
  | cons x words ih => rw [fused_cons, textOf_attach, Word.textOf_cons, Word.textOf_cons, ih]

/-- Fused words are items if the words are. -/
theorem isItem_fused (h : ∀ x ∈ words, IsItem x.item) : ∀ x ∈ fused words, IsItem x.item := by
  induction words with
  | nil => exact h
  | cons x words ih =>
      obtain ⟨hx, hwords⟩ := List.forall_mem_cons.1 h
      exact isItem_attach hx (ih hwords)

/-- Of fused words no two fuse. -/
theorem isChain_fused (words : List (Word FormulaKind)) : (fused words).IsChain (¬ Fuses · ·) := by
  induction words with
  | nil => exact List.isChain_nil
  | cons x words ih => exact isChain_attach x ih

/-- Words of which no two fuse are left as they are. -/
theorem fused_of_isChain (h : words.IsChain (¬ Fuses · ·)) : fused words = words := by
  induction words with
  | nil => rfl
  | cons x words ih =>
      obtain ⟨hnot, hwords⟩ := List.isChain_cons.1 h
      rw [fused_cons, ih hwords, attach_of_forall_not hnot]

end Formula

/-- A row with `\top` in place of any two words that spell it. -/
def Row.fused (row : Row FormulaKind) : Row FormulaKind := ⟨row.front, Formula.fused row.words⟩

namespace Formula

/-- **A row of items is read back**, with `\top` in place of any two words that spell it. -/
theorem tokens_row {row : Row FormulaKind} (h : ∀ x ∈ row.words, IsItem x.item) :
    lexer.tokens (.ofList row.text) = .ok row.fused.tokens := by
  refine Lexer.tokens_of_row ?_ (givesEach_of_isChain (isItem_fused h) (isChain_fused row.words))
  rw [String.toList_ofList, Row.text, Row.text, Row.fused, textOf_fused]

/-- The items read from a row are those of its words, with `\top` in place of any two that spell
it. -/
theorem items_row {row : Row FormulaKind} (h : ∀ x ∈ row.words, IsItem x.item) :
    lexer.items (.ofList row.text) = .ok ((fused row.words).map Word.item) := by
  rw [Lexer.items, tokens_row h, Except.map, Row.tokens, Word.map_spelling_tokensOf, Row.fused]

/-! ### Where blanks matter -/

variable {before after : List (Word FormulaKind)} {front gap gap₁ gap₂ : Gap}

/-- Whether a word fuses with others does not depend on the blanks between these. -/
theorem map_item_attach_congr (x : Word FormulaKind)
    (h : words.map Word.item = others.map Word.item) :
    (attach x words).map Word.item = (attach x others).map Word.item := by
  rcases words with _ | ⟨y, words⟩ <;> rcases others with _ | ⟨z, others⟩
  · rfl
  · cases h
  · cases h
  · obtain ⟨hitem, htail⟩ := List.cons.inj h
    have hfuses : Fuses x y ↔ Fuses x z := by rw [Fuses, Fuses, hitem]
    rw [attach, attach]
    by_cases hxy : Fuses x y
    · rw [if_pos hxy, if_pos (hfuses.1 hxy), List.map_cons, List.map_cons, htail]
    · rw [if_neg hxy, if_neg (mt hfuses.2 hxy)]
      exact congrArg (List.cons x.item) h

/-- What fuses in front of some words depends on their items alone. -/
theorem map_item_fused_append_congr
    (h : (fused words).map Word.item = (fused others).map Word.item) :
    (fused (before ++ words)).map Word.item = (fused (before ++ others)).map Word.item := by
  induction before with
  | nil => exact h
  | cons x before ih => exact map_item_attach_congr x ih

/-- A word in front of others keeps its item, or is `\top`. -/
theorem exists_attach_eq_cons (x : Word FormulaKind) (words : List (Word FormulaKind)) :
    ∃ y rest, attach x words = y :: rest ∧ (y.item = x.item ∨ y.item = topItem) := by
  cases words with
  | nil => exact ⟨x, [], rfl, .inl rfl⟩
  | cons y words =>
      rw [attach]
      by_cases hfuses : Fuses x y
      · exact ⟨⟨topItem, y.gap⟩, words, if_pos hfuses, .inr rfl⟩
      · exact ⟨x, y :: words, if_neg hfuses, .inl rfl⟩

/-- A word that cannot fuse with the next item stays in front of it. -/
theorem fused_cons_cons_of_not (h : ¬ (s.text = "\\to".toList ∧ t.text = ['p'])) :
    fused (⟨s, gap₁⟩ :: ⟨t, gap⟩ :: after) = ⟨s, gap₁⟩ :: fused (⟨t, gap⟩ :: after) := by
  obtain ⟨y, rest, heq, hitem⟩ := exists_attach_eq_cons ⟨t, gap⟩ (fused after)
  rw [fused_cons, fused_cons, heq]
  refine attach_of_forall_not fun z hz hfuses => ?_
  obtain rfl : y = z := Option.some.inj hz
  obtain ⟨hto, -, hp⟩ := hfuses
  rcases hitem with hitem | hitem
  · exact h ⟨hto, by rw [← hp, hitem]⟩
  · rw [hitem] at hp
    exact absurd hp (by decide)

/-- Words in front of one that is not the letter `p` fuse as they do alone. -/
theorem fused_append_of_ne (hy : y.item.text ≠ ['p']) (h : fused words = y :: others) :
    fused (before ++ words) = fused before ++ y :: others := by
  induction before with
  | nil => exact h
  | cons x before ih =>
      rw [List.cons_append, fused_cons, fused_cons, ih]
      cases fused before with
      | nil => exact attach_of_forall_not fun z hz hfuses => hy (Option.some.inj hz ▸ hfuses.2.2)
      | cons z rest =>
          rw [List.cons_append, attach, attach]
          by_cases hfuses : Fuses x z
          · rw [if_pos hfuses, if_pos hfuses, List.cons_append]
          · rw [if_neg hfuses, if_neg hfuses, List.cons_append, List.cons_append]

/-- Words in which `\to` stands directly before the letter `p` give one item less than with a blank
between the two. -/
theorem length_fused_append (hto : s.text = "\\to".toList) (hp : t.text = ['p']) (hgap₁ : gap₁.1 = [])
    (hgap₂ : gap₂.1 ≠ []) :
    (fused (before ++ ⟨s, gap₁⟩ :: ⟨t, gap⟩ :: after)).length + 1
      = (fused (before ++ ⟨s, gap₂⟩ :: ⟨t, gap⟩ :: after)).length := by
  have hletter : fused (⟨t, gap⟩ :: after) = ⟨t, gap⟩ :: fused after := by
    refine attach_of_forall_not fun _ _ hfuses => ?_
    exact absurd (hp.symm.trans hfuses.1) (by decide)
  have hdirect : fused (⟨s, gap₁⟩ :: ⟨t, gap⟩ :: after) = ⟨topItem, gap⟩ :: fused after := by
    rw [fused_cons, hletter]
    exact if_pos ⟨hto, hgap₁, hp⟩
  have hparted : fused (⟨s, gap₂⟩ :: ⟨t, gap⟩ :: after) = ⟨s, gap₂⟩ :: ⟨t, gap⟩ :: fused after := by
    rw [fused_cons, hletter]
    exact attach_of_forall_not fun _ _ hfuses => hgap₂ hfuses.2.1
  have hs : s.text ≠ ['p'] := by
    rw [hto]
    decide
  have htop : topItem.text ≠ ['p'] := by decide
  rw [fused_append_of_ne htop hdirect, fused_append_of_ne hs hparted]
  simp only [List.length_append, List.length_cons]
  omega

/-- **The only pair of items for which the blanks between them matter** is `\to` before the letter
`p`, whatever stands before and behind. -/
theorem items_ne_iff (hbefore : ∀ x ∈ before, IsItem x.item) (hs : IsItem s) (ht : IsItem t)
    (hafter : ∀ x ∈ after, IsItem x.item) :
    (∃ gap₁ gap₂ : Gap,
        lexer.items (.ofList (Row.text ⟨front, before ++ ⟨s, gap₁⟩ :: ⟨t, gap⟩ :: after⟩))
          ≠ lexer.items (.ofList (Row.text ⟨front, before ++ ⟨s, gap₂⟩ :: ⟨t, gap⟩ :: after⟩)))
      ↔ s.text = "\\to".toList ∧ t.text = ['p'] := by
  have hitems : ∀ gap₁ : Gap, ∀ x ∈ before ++ ⟨s, gap₁⟩ :: ⟨t, gap⟩ :: after, IsItem x.item :=
    fun _ => List.forall_mem_append.2
      ⟨hbefore, List.forall_mem_cons.2 ⟨hs, List.forall_mem_cons.2 ⟨ht, hafter⟩⟩⟩
  have hread : ∀ gap₁ : Gap,
      lexer.items (.ofList (Row.text ⟨front, before ++ ⟨s, gap₁⟩ :: ⟨t, gap⟩ :: after⟩))
        = .ok ((fused (before ++ ⟨s, gap₁⟩ :: ⟨t, gap⟩ :: after)).map Word.item) :=
    fun gap₁ => items_row (hitems gap₁)
  constructor
  · rintro ⟨gap₁, gap₂, hne⟩
    by_contra hnot
    refine hne ?_
    rw [hread, hread]
    refine congrArg Except.ok (map_item_fused_append_congr ?_)
    rw [fused_cons_cons_of_not hnot, fused_cons_cons_of_not hnot, List.map_cons, List.map_cons]
  · rintro ⟨hto, hp⟩
    refine ⟨.none, .space, fun heq => ?_⟩
    rw [hread, hread] at heq
    have hlength := congrArg List.length (Except.ok.inj heq)
    rw [List.length_map, List.length_map] at hlength
    have hless : (fused (before ++ ⟨s, .none⟩ :: ⟨t, gap⟩ :: after)).length + 1
        = (fused (before ++ ⟨s, .space⟩ :: ⟨t, gap⟩ :: after)).length :=
      length_fused_append hto hp rfl (List.cons_ne_nil _ _)
    omega

end Formula

/-- **Items written in a row are read back.** Whatever blanks stand before, between and behind the
items of a formula, its tokens are these items at the offsets where they stand, unless `\to` stands
directly before the letter `p`: such a pair is the token `\top`, and for no other pair do the blanks
between its items matter. The items of a frame are read back without exception. -/
theorem items_read_back :
    (∀ row : Row FormulaKind, (∀ x ∈ row.words, Formula.IsItem x.item) →
        (row.words.IsChain (¬ Formula.Fuses · ·) →
            Formula.lexer.tokens (.ofList row.text) = .ok row.tokens)
          ∧ Formula.lexer.tokens (.ofList row.text) = .ok row.fused.tokens)
      ∧ (∀ (front gap : Gap) (before after : List (Word FormulaKind)) (s t : Spelling FormulaKind),
        (∀ x ∈ before, Formula.IsItem x.item) → Formula.IsItem s → Formula.IsItem t →
        (∀ x ∈ after, Formula.IsItem x.item) →
        ((∃ gap₁ gap₂ : Gap,
            Formula.lexer.items (.ofList (Row.text
                ⟨front, before ++ ⟨s, gap₁⟩ :: ⟨t, gap⟩ :: after⟩))
              ≠ Formula.lexer.items (.ofList (Row.text
                ⟨front, before ++ ⟨s, gap₂⟩ :: ⟨t, gap⟩ :: after⟩)))
          ↔ s.text = "\\to".toList ∧ t.text = ['p']))
      ∧ ∀ row : Row FrameKind, (∀ x ∈ row.words, Frame.IsItem x.item) →
        Frame.lexer.tokens (.ofList row.text) = .ok row.tokens := by
  refine ⟨fun row hitems => ⟨fun hchain => ?_, Formula.tokens_row hitems⟩, ?_,
    fun row => Frame.tokens_row⟩
  · have hfused : row.fused = row := by
      rw [Row.fused, Formula.fused_of_isChain hchain]
    rw [Formula.tokens_row hitems, hfused]
  · intro front gap before after s t hbefore hs ht hafter
    exact Formula.items_ne_iff hbefore hs ht hafter

/-- With a blank between them `\to` and the letter `p` are two items, and without it they are `\top`;
behind a letter `v` is a connective in a formula, and a letter in a frame. -/
theorem items_read_back_to_before_p :
    let arrow : Spelling FormulaKind := ⟨.connective .implies, "\\to".toList⟩
    let p : Spelling FormulaKind := ⟨.letter, ['p']⟩
    let parted : Row FormulaKind :=
      ⟨.space, [⟨arrow, .space⟩, ⟨p, .none⟩, ⟨⟨.connective .or, ['v']⟩, .none⟩]⟩
    let direct : Row FormulaKind := ⟨.none, [⟨arrow, .none⟩, ⟨p, .none⟩]⟩
    let frame : Row FrameKind :=
      ⟨.none, [⟨⟨.letter, ['a']⟩, .none⟩, ⟨⟨.relator, ['≺']⟩, .none⟩, ⟨⟨.letter, ['v']⟩, .none⟩]⟩
    ((∀ x ∈ parted.words, Formula.IsItem x.item) ∧ parted.words.IsChain (¬ Formula.Fuses · ·)
        ∧ Formula.lexer.tokens " \\to pv" = .ok [⟨.connective .implies, "\\to".toList, 1⟩,
          ⟨.letter, ['p'], 5⟩, ⟨.connective .or, ['v'], 6⟩])
      ∧ ((∀ x ∈ direct.words, Formula.IsItem x.item)
        ∧ Formula.lexer.tokens "\\top" = .ok [⟨.top, "\\top".toList, 0⟩])
      ∧ (∃ gap₁ gap₂ : Gap,
        Formula.lexer.items (.ofList (Row.text ⟨.none, [⟨arrow, gap₁⟩, ⟨p, .none⟩]⟩))
          ≠ Formula.lexer.items (.ofList (Row.text ⟨.none, [⟨arrow, gap₂⟩, ⟨p, .none⟩]⟩)))
      ∧ (∀ x ∈ frame.words, Frame.IsItem x.item)
      ∧ Frame.lexer.tokens "a≺v"
        = .ok [⟨.letter, ['a'], 0⟩, ⟨.relator, ['≺'], 1⟩, ⟨.letter, ['v'], 4⟩] := by
  intro arrow p parted direct frame
  have harrow : Formula.IsItem arrow := .inl (by decide +kernel)
  have hp : Formula.IsItem p := .inr ⟨'p', by decide, by decide, rfl⟩
  have hv : Formula.IsItem ⟨.connective .or, ['v']⟩ := .inl (by decide +kernel)
  have hparted : ∀ x ∈ parted.words, Formula.IsItem x.item := by
    simp only [parted, List.forall_mem_cons]
    exact ⟨harrow, hp, hv, nofun⟩
  have hdirect : ∀ x ∈ direct.words, Formula.IsItem x.item := by
    simp only [direct, List.forall_mem_cons]
    exact ⟨harrow, hp, nofun⟩
  have hframe : ∀ x ∈ frame.words, Frame.IsItem x.item := by
    simp only [frame, List.forall_mem_cons]
    exact ⟨.inr ⟨'a', by decide, rfl⟩, .inl (by decide +kernel), .inr ⟨'v', by decide, rfl⟩, nofun⟩
  have hchain : parted.words.IsChain (¬ Formula.Fuses · ·) := by decide
  refine ⟨⟨hparted, hchain, ?_⟩, ⟨hdirect, ?_⟩, ?_, hframe, ?_⟩
  · exact (items_read_back.1 parted hparted).1 hchain
  · exact (items_read_back.1 direct hdirect).2
  · exact (items_read_back.2.1 .none .none [] [] arrow p nofun harrow hp nofun).2 ⟨rfl, rfl⟩
  · exact items_read_back.2.2 frame hframe

end FourWorlds
