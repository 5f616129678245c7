import FourWorlds.Game
import FourWorlds.Proofs.Orbit
import FourWorlds.Proofs.Validity

/-! # Validity along maps of frames

A map of worlds that takes what each world sees in one frame onto what its image sees in another one
takes truth along, because the modal operators speak of seen worlds alone. A bijective relabelling is
such a map both ways, so it takes the worlds at which a formula is valid onto those of the relabelled
frame. Their number, all that a query tells, depends on the orbit of the hidden frame only.

* `Frame.IsBoundedMorphism`: a map that respects what is seen, on a set of worlds closed under sight.
* `Formula.holds_iff_of_isBoundedMorphism`, `Formula.ValidAt.of_isBoundedMorphism`: truth and
  validity along such a map.
* `Formula.validAt_relabelled_iff`: validity in a relabelled frame.
* `relabelling_carries_validity`: the worlds found valid are carried along, and frames of one orbit
  give the same answers to all queries. -/

namespace FourWorlds

variable {F G : Frame} {S : Set World} {f : World → World} {φ : Formula} {w : World}

/-- A map takes what each of some worlds sees in one frame onto what its image sees in another one,
and these worlds see no others. -/
structure Frame.IsBoundedMorphism (F G : Frame) (S : Set World) (f : World → World) : Prop where
  /-- The worlds see no others. -/
  mem_of_contains : ∀ u ∈ S, ∀ v, F.contains ⟨u, v⟩ → v ∈ S
  /-- An image sees the images of what is seen, and nothing else. -/
  contains_iff : ∀ u ∈ S, ∀ y, G.contains ⟨f u, y⟩ ↔ ∃ v, F.contains ⟨u, v⟩ ∧ f v = y

namespace Formula

/-- **Truth along a map of frames.** A formula is true at an image exactly if it is true at the world,
the atoms being read at the worlds as they are at their images. -/
theorem holds_iff_of_isBoundedMorphism (h : F.IsBoundedMorphism G S f) (V : World → Atom → Prop)
    (hw : w ∈ S) : φ.Holds G V (f w) ↔ φ.Holds F (fun v => V (f v)) w := by
  induction φ generalizing w with
  | top | bottom | atom x => rfl
  | apply o φ ih =>
      cases o with
      | not => exact not_congr (ih hw)
      | box =>
          constructor
          · intro hbox v hv
            have hseen := (h.contains_iff w hw (f v)).2 ⟨v, hv, rfl⟩
            exact (ih (h.mem_of_contains w hw v hv)).1 (hbox (f v) hseen)
          · -- What the image sees is the image of something seen.
            intro hbox y hy
            obtain ⟨v, hv, rfl⟩ := (h.contains_iff w hw y).1 hy
            exact (ih (h.mem_of_contains w hw v hv)).2 (hbox v hv)
      | diamond =>
          constructor
          · rintro ⟨y, hy, hφ⟩
            obtain ⟨v, hv, rfl⟩ := (h.contains_iff w hw y).1 hy
            exact ⟨v, hv, (ih (h.mem_of_contains w hw v hv)).1 hφ⟩
          · rintro ⟨v, hv, hφ⟩
            exact ⟨f v, (h.contains_iff w hw _).2 ⟨v, hv, rfl⟩,
              (ih (h.mem_of_contains w hw v hv)).2 hφ⟩
  | join c φ ψ ihφ ihψ =>
      cases c with
      | and => exact and_congr (ihφ hw) (ihψ hw)
      | or => exact or_congr (ihφ hw) (ihψ hw)
      | implies => exact imp_congr (ihφ hw) (ihψ hw)
      | iff => exact iff_congr (ihφ hw) (ihψ hw)

/-- **Validity goes along a map of frames**, as every reading at the images is one at the worlds. -/
theorem ValidAt.of_isBoundedMorphism (hφ : φ.ValidAt F w) (h : F.IsBoundedMorphism G S f)
    (hw : w ∈ S) : φ.ValidAt G (f w) :=
  fun V => (holds_iff_of_isBoundedMorphism h V hw).2 (hφ _)

end Formula

/-! ## Bijective relabellings -/

/-- A bijective relabelling respects what is seen. -/
theorem Frame.isBoundedMorphism_relabelled (F : Frame) (hf : Function.Bijective f) :
    F.IsBoundedMorphism (F.relabelled f) Set.univ f where
  mem_of_contains _ _ _ _ := Set.mem_univ _
  contains_iff u _ y := by
    obtain ⟨v, rfl⟩ := hf.surjective y
    rw [contains_relabelled_image hf.injective]
    constructor
    · exact fun h => ⟨v, h, rfl⟩
    · rintro ⟨v', h, heq⟩
      exact hf.injective heq ▸ h

/-- **A formula is valid at the image of a world in the relabelled frame** exactly if it is valid at
the world. -/
theorem Formula.validAt_relabelled_iff (hf : Function.Bijective f) :
    φ.ValidAt (F.relabelled f) (f w) ↔ φ.ValidAt F w := by
  constructor
  · -- The inverse takes the relabelled frame back to the frame.
    intro h
    obtain ⟨g, hgf, hfg⟩ := Function.bijective_iff_has_inverse.1 hf
    have hg : Function.Bijective g := Function.bijective_iff_has_inverse.2 ⟨f, hfg, hgf⟩
    have hself : F.relabelled (g ∘ f) = F := F.relabelled_eq_self hgf
    have hback := h.of_isBoundedMorphism
      ((F.relabelled f).isBoundedMorphism_relabelled hg) (Set.mem_univ _)
    rwa [Frame.relabelled_relabelled, hself, hgf] at hback
  · exact fun h => h.of_isBoundedMorphism (F.isBoundedMorphism_relabelled hf) (Set.mem_univ w)

/-- The worlds at which a formula is valid in the relabelled frame are the images of those in the
frame. -/
theorem setOf_validAt_relabelled (F : Frame) (hf : Function.Bijective f) (φ : Formula) :
    {w | φ.ValidAt (F.relabelled f) w} = f '' {w | φ.ValidAt F w} := by
  ext y
  obtain ⟨w, rfl⟩ := hf.surjective y
  rw [hf.injective.mem_set_image]
  exact Formula.validAt_relabelled_iff hf

/-- **Frames that are alike have equally many worlds at which a formula is valid.** -/
theorem Frame.Alike.length_validWorlds_eq (h : F.Alike G) (φ : Formula) :
    (F.validWorlds φ).length = (G.validWorlds φ).length := by
  obtain ⟨f, hf, rfl⟩ := h
  rw [length_validWorlds, length_validWorlds, setOf_validAt_relabelled F hf,
    Set.ncard_image_of_injective _ hf.injective]

/-! ## What a query tells -/

/-- A query tells the number of worlds at which the formula is valid. -/
theorem Game.fst_query (game : Game) (φ : Formula) :
    (game.query φ).1 = .ofCount (game.hidden.validWorlds φ).length := by
  rw [query]

/-- Frames are alike exactly if their ids have the same canonical id. -/
theorem Frame.alike_iff_canonicalId_eq : F.Alike G ↔ canonicalId F.id = canonicalId G.id := by
  rw [← equivalent_id_iff, equivalent, decide_eq_true_iff]

/-- **A query tells no more than the canonical id of the hidden frame.** A bijective relabelling takes
the worlds found valid in a frame onto those found valid in the relabelled one; so the frames of two
equivalent ids give one report on every formula, and two games whose hidden frames have the same
canonical id answer every query alike, asked by a formula or by a text. -/
theorem relabelling_carries_validity :
    (∀ (F : Frame) (f : Relabelling), Function.Bijective f → ∀ φ : Formula,
        {w | w ∈ (F.relabelled f).validWorlds φ} = f '' {w | w ∈ F.validWorlds φ})
      ∧ (∀ i j : FrameId, equivalent i j → ∀ φ : Formula,
        QueryReport.ofCount ((Frame.ofId i).validWorlds φ).length
          = QueryReport.ofCount ((Frame.ofId j).validWorlds φ).length)
      ∧ ∀ game other : Game, canonicalId game.hidden.id = canonicalId other.hidden.id →
        (∀ φ, (game.query φ).1 = (other.query φ).1)
          ∧ ∀ text, (game.queryText text).outcome = (other.queryText text).outcome := by
  have hquery : ∀ game other : Game, canonicalId game.hidden.id = canonicalId other.hidden.id →
      ∀ φ, (game.query φ).1 = (other.query φ).1 := by
    intro game other h φ
    rw [game.fst_query, other.fst_query,
      (Frame.alike_iff_canonicalId_eq.2 h).length_validWorlds_eq φ]
  refine ⟨fun F f hf φ => ?_, fun i j hij φ => ?_, fun game other h => ⟨hquery game other h, ?_⟩⟩
  · simp only [mem_validWorlds_iff]
    exact setOf_validAt_relabelled F hf φ
  · have halike : (Frame.ofId i).Alike (Frame.ofId j) := equivalent_iff_mem_orbitSet.1 hij
    rw [halike.length_validWorlds_eq φ]
  · -- Whether the text is read does not depend on the game.
    intro text
    rw [Game.queryText, Game.queryText]
    cases Formula.read text with
    | error e => rfl
    | ok φ => exact congrArg Except.ok (hquery game other h φ)

/-- The rotation of the worlds takes the relation from `a` to `b` to that from `b` to `c`, and what is
valid at the worlds other than `a` in the one frame is valid at those other than `b` in the other. -/
theorem relabelling_carries_validity_rotation :
    Function.Bijective (Relabelling.ofImages .b .c .d .a)
      ∧ equivalent 2 64
      ∧ {w | w ∈ (Frame.ofId 64).validWorlds (.box .bottom)}
        = Relabelling.ofImages .b .c .d .a '' {w | w ∈ (Frame.ofId 2).validWorlds (.box .bottom)}
      ∧ QueryReport.ofCount ((Frame.ofId 64).validWorlds (.box .bottom)).length = .validIn 3
      ∧ (Game.query ⟨{}, .ofList [], Frame.ofId 2, 1⟩ (.box .bottom)).1
        = (Game.query ⟨{}, .ofList [7], Frame.ofId 64, 9⟩ (.box .bottom)).1 := by
  have hbijective : Function.Bijective (Relabelling.ofImages .b .c .d .a) := by decide
  have hframe : (Frame.ofId 2).relabelled (Relabelling.ofImages .b .c .d .a) = Frame.ofId 64 := by
    decide
  have halike : (Frame.ofId 2).Alike (Frame.ofId 64) := ⟨_, hbijective, hframe⟩
  have hequivalent : equivalent 2 64 := equivalent_iff_mem_orbitSet.2 halike
  have hcount : QueryReport.ofCount ((Frame.ofId 2).validWorlds (.box .bottom)).length
      = .validIn 3 := by decide
  refine ⟨hbijective, hequivalent, ?_, ?_, ?_⟩
  · rw [← hframe]
    exact relabelling_carries_validity.1 _ _ hbijective _
  · rw [← relabelling_carries_validity.2.1 2 64 hequivalent, hcount]
  · exact (relabelling_carries_validity.2.2 ⟨{}, .ofList [], Frame.ofId 2, 1⟩
      ⟨{}, .ofList [7], Frame.ofId 64, 9⟩ (Frame.alike_iff_canonicalId_eq.1 halike)).1 _

end FourWorlds
