import FourWorlds.Proofs.Juxtaposition

/-! # Formulas are told apart by their texts

The symbols of a formula that stands inside another one settle where it ends: its first symbol tells
what it is made of, and where it is joined a closing parenthesis stands behind its second part. So
no two formulas have the same symbols, however deep they are. The lexer finds the symbols in a
written text, and what a notation spells is read as one symbol only, so no two formulas have a text
in common.

* `Formula.nestedSymbols_inj`, `Formula.symbols_injective`: symbols belong to one formula.
* `Formula.items_text`: the items of a written formula are its symbols as the notation spells them.
* `Symbol.isShared`, `Notation.eq_or_shared_of_item_eq`: the symbols that two notations may spell
  alike.
* `text_eq_text_iff`: formulas are written alike only if they are equal, and in different notations
  only if they are atoms. -/

namespace FourWorlds

/-! ## The symbols of a formula -/

namespace Formula

variable {φ ψ : Formula} {xs ys : List Symbol}

/-- **The symbols of a formula settle where it ends**, whatever symbols follow it. -/
theorem nestedSymbols_inj : φ.nestedSymbols xs = ψ.nestedSymbols ys ↔ φ = ψ ∧ xs = ys := by
  induction φ generalizing ψ xs ys with
  | top | bottom | atom x => cases ψ <;> simp [nestedSymbols]
  | apply o φ ih => cases ψ <;> simp [nestedSymbols, ih, and_assoc]
  | join c φ₁ φ₂ ih₁ ih₂ =>
      cases ψ with
      | join c' ψ₁ ψ₂ =>
          -- The first part settles where the connective stands, and so does the second part.
          simp only [nestedSymbols, List.cons.injEq, true_and, ih₁, ih₂, Symbol.connective.injEq,
            join.injEq]
          tauto
      | top | bottom | atom | apply => simp [nestedSymbols]

/-- A formula is written by itself as inside another one, unless it is joined. -/
theorem symbols_eq_nestedSymbols_or (φ : Formula) : φ.symbols = φ.nestedSymbols []
    ∨ ∃ c χ ψ, φ = join c χ ψ
      ∧ φ.symbols = χ.nestedSymbols (.connective c :: ψ.nestedSymbols []) := by
  cases φ with
  | join c χ ψ => exact .inr ⟨c, χ, ψ, rfl, rfl⟩
  | top | bottom | atom | apply => exact .inl rfl

/-- **No two formulas have the same symbols.** -/
theorem symbols_injective : Function.Injective symbols := by
  intro φ ψ h
  rcases φ.symbols_eq_nestedSymbols_or with hφ | ⟨c, φ₁, φ₂, rfl, hφ⟩ <;>
    rcases ψ.symbols_eq_nestedSymbols_or with hψ | ⟨c', ψ₁, ψ₂, rfl, hψ⟩ <;>
    rw [hφ, hψ] at h
  · exact (nestedSymbols_inj.1 h).1
  · -- Behind a first part a connective follows, and behind a whole formula nothing does.
    cases (nestedSymbols_inj.1 h).2
  · cases (nestedSymbols_inj.1 h).2
  · obtain ⟨rfl, hrest⟩ := nestedSymbols_inj.1 h
    obtain ⟨hc, hsecond⟩ := List.cons.inj hrest
    rw [Symbol.connective.inj hc, (nestedSymbols_inj.1 hsecond).1]

/-- The symbols behind a formula are among those of the row. -/
theorem mem_nestedSymbols_of_mem {x : Symbol} (hx : x ∈ xs) : x ∈ φ.nestedSymbols xs := by
  induction φ generalizing xs with
  | top | bottom | atom => exact List.mem_cons_of_mem _ hx
  | apply o φ ih => exact List.mem_cons_of_mem _ (ih hx)
  | join c φ ψ ihφ ihψ =>
      exact List.mem_cons_of_mem _
        (ihφ (List.mem_cons_of_mem _ (ihψ (List.mem_cons_of_mem _ hx))))

end Formula

/-! ## Symbols in several notations -/

/-- Distinct atoms have distinct letters. -/
theorem Atom.letter_injective : Function.Injective Atom.letter := by
  intro x y h
  have hfound := congrArg Atom.ofLetter? h
  rwa [Atom.ofLetter?_letter, Atom.ofLetter?_letter, Option.some.injEq] at hfound

namespace Symbol

/-- Whether notations may spell a symbol alike, as they do atoms and parentheses. -/
def isShared : Symbol → Bool
  | atom _ | opening | closing => true
  | top | bottom | operator _ | connective _ => false

/-- **Symbols that are read alike are equal**: they are told apart by their kinds, and atoms by
their letters. -/
theorem view_injective : Function.Injective view := by
  intro x y h
  cases x <;> cases y <;> simp_all [view, kind, Atom.letter_injective.eq_iff]

end Symbol

/-- Two notations spell a symbol alike only if it is an atom or a parenthesis. -/
theorem Notation.eq_or_shared_of_item_eq {m n : Notation} {x : Symbol} (h : m.item x = n.item x) :
    m = n ∨ x.isShared := by
  have hfixed : ∀ x ∈ Symbol.fixed, m.item x = n.item x → m = n ∨ x.isShared := by
    cases m <;> cases n <;> decide +kernel
  rcases x.eq_atom_or_mem_fixed with ⟨y, rfl⟩ | hx
  · exact .inr rfl
  · exact hfixed x hx h

/-! ## The symbols of a text -/

namespace Formula

variable {φ ψ : Formula} {m n : Notation}

/-- **The items of a written formula are its symbols** as the notation spells them. -/
theorem items_text (style : Notation) (φ : Formula) :
    lexer.items (φ.text style) = .ok (φ.symbols.map style.item) := by
  obtain ⟨tokens, htokens, hitems⟩ := exists_tokensFrom_items style φ.symbols 0
  rw [Lexer.items, Lexer.tokens, text, String.toList_join, List.flatMap_map, htokens, ← hitems]
  rfl

/-- Formulas that are written alike are equal: their texts have the same tokens, and these are read
as the symbols of one formula. -/
theorem eq_of_text_eq (h : φ.text m = ψ.text n) : φ = ψ := by
  obtain ⟨ts, hts, hφ⟩ := exists_tokens_text m φ
  obtain ⟨us, hus, hψ⟩ := exists_tokens_text n ψ
  rw [h, hus] at hts
  obtain rfl := Except.ok.inj hts
  exact symbols_injective (Symbol.view_injective.list_map (hφ.symm.trans hψ))

/-- An atom is written alike in every notation. -/
theorem text_atom (style : Notation) (x : Atom) : (atom x).text style = x.letter.toString := by
  have hspelling : style.spelling (.atom x) = x.letter.toString := by cases style <;> rfl
  simp [text, symbols, nestedSymbols, hspelling, String.join]

/-- A formula that is no atom has a symbol that is neither an atom nor a parenthesis. -/
theorem eq_atom_or_exists_not_shared (φ : Formula) :
    (∃ x, φ = atom x) ∨ ∃ x ∈ φ.symbols, ¬ x.isShared := by
  cases φ with
  | atom x => exact .inl ⟨x, rfl⟩
  | top => exact .inr ⟨.top, List.mem_cons_self, Bool.false_ne_true⟩
  | bottom => exact .inr ⟨.bottom, List.mem_cons_self, Bool.false_ne_true⟩
  | apply o φ => exact .inr ⟨.operator o, List.mem_cons_self, Bool.false_ne_true⟩
  | join c φ ψ =>
      have hmem : .connective c ∈ (join c φ ψ).symbols :=
        mem_nestedSymbols_of_mem List.mem_cons_self
      exact .inr ⟨.connective c, hmem, Bool.false_ne_true⟩

/-- Two notations write a formula alike only if it is an atom. -/
theorem eq_atom_of_text_eq (h : φ.text m = φ.text n) (hne : m ≠ n) : ∃ x, φ = atom x := by
  have hitems : φ.symbols.map m.item = φ.symbols.map n.item := by
    have hread := items_text m φ
    rw [h, items_text n φ] at hread
    exact (Except.ok.inj hread).symm
  refine φ.eq_atom_or_exists_not_shared.resolve_right ?_
  rintro ⟨x, hx, hshared⟩
  have hitem : m.item x = n.item x := List.map_inj_left.1 hitems x hx
  exact (Notation.eq_or_shared_of_item_eq hitem).elim hne hshared

end Formula

/-- **No two formulas are written alike**, within a notation or in two, however deep they are: a
text in a notation belongs to one formula. Only an atom has the same text in different notations. -/
theorem text_eq_text_iff (φ ψ : Formula) (m n : Notation) :
    φ.text m = ψ.text n ↔ φ = ψ ∧ (m = n ∨ ∃ x, φ = .atom x) := by
  constructor
  · intro h
    obtain rfl := Formula.eq_of_text_eq h
    exact ⟨rfl, or_iff_not_imp_left.2 (Formula.eq_atom_of_text_eq h)⟩
  · rintro ⟨rfl, rfl | ⟨x, rfl⟩⟩
    · rfl
    · rw [Formula.text_atom, Formula.text_atom]

end FourWorlds
