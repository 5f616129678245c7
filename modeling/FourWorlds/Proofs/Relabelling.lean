import FourWorlds.Frame
import Mathlib.Data.Fintype.EquivFin

/-! # One-to-one relabellings

The relabellings listed by `Relabelling.all` are the bijections of the worlds, and frames that differ
by one of them are alike. Being alike is an equivalence, because bijections can be composed and
undone.

* `mem_arrangements`: the arrangements of a list are the lists with the same elements.
* `Relabelling.mem_all_iff`: the relabellings listed are the bijections.
* `Frame.Alike`: some bijection takes one frame to another; `Frame.alike_iff` says it world by world,
  `Frame.Alike.refl`, `Frame.Alike.symm` and `Frame.Alike.trans` that it is an equivalence. -/

namespace FourWorlds

universe u

/-! ## Arrangements -/

section Arrangements

variable {α : Type u}

/-- An element can be picked wherever it stands, and the others are left in their order. -/
theorem mem_picks_append (x : α) (before after : List α) :
    (x, before ++ after) ∈ picks (before ++ x :: after) := by
  induction before with
  | nil => simp [picks]
  | cons y before ih =>
      rw [List.cons_append, List.cons_append, picks]
      exact List.mem_cons_of_mem _ (List.mem_map.2 ⟨_, ih, rfl⟩)

/-- Whatever can be moved to the front of a list can be picked from it. -/
theorem exists_mem_picks {x : α} {rest items : List α} (h : (x :: rest).Perm items) :
    ∃ left, (x, left) ∈ picks items ∧ rest.Perm left := by
  obtain ⟨before, after, rfl⟩ := List.append_of_mem (h.subset List.mem_cons_self)
  refine ⟨before ++ after, mem_picks_append x before after, ?_⟩
  exact (h.trans List.perm_middle).cons_inv

/-- The rows of all elements of a list are the lists with the same elements. -/
theorem mem_selections {n : Nat} {row items : List α} (hn : items.length = n) :
    row ∈ selections n items ↔ row.Perm items := by
  induction n generalizing row items with
  | zero =>
      obtain rfl := List.length_eq_zero_iff.1 hn
      rw [selections, List.mem_singleton, List.perm_nil]
  | succ n ih =>
      -- A pick leaves one element less, so the induction hypothesis applies to what is left.
      have hleft : ∀ pick ∈ picks items, pick.2.length = n := by
        intro pick hpick
        have hlength := length_of_mem_picks hpick
        omega
      rw [selections, List.mem_flatMap]
      constructor
      · rintro ⟨⟨x, left⟩, hpick, hrow⟩
        obtain ⟨rest, hrest, rfl⟩ := List.mem_map.1 hrow
        exact (((ih (hleft _ hpick)).1 hrest).cons x).trans (perm_of_mem_picks hpick)
      · intro h
        cases row with
        | nil => rw [← h.length_eq] at hn; simp at hn
        | cons x rest =>
            obtain ⟨left, hpick, hrest⟩ := exists_mem_picks h
            refine ⟨(x, left), hpick, List.mem_map.2 ⟨rest, ?_, rfl⟩⟩
            exact (ih (hleft _ hpick)).2 hrest

/-- **The arrangements of a list are the lists with the same elements.** -/
theorem mem_arrangements {row items : List α} : row ∈ arrangements items ↔ row.Perm items :=
  mem_selections rfl

end Arrangements

/-! ## The relabellings listed -/

/-- The four worlds are a finite type. -/
instance : Fintype World := ⟨⟨World.all, World.nodup_all⟩, World.mem_all⟩

namespace Relabelling

/-- The list from which a relabelling is made is the list of its images. -/
theorem ofList?_eq_some_iff {row : List World} {f : Relabelling} :
    ofList? row = some f ↔ row = f.images := by
  constructor
  · intro h
    match row, h with
    | [_, _, _, _], h =>
        obtain rfl := Option.some.inj h
        rfl
  · rintro rfl
    refine congrArg some (funext fun w => ?_)
    cases w <;> rfl

/-- The images of a relabelling are the worlds in some order exactly if it is a bijection. -/
theorem images_perm_iff {f : Relabelling} : f.images.Perm World.all ↔ Function.Bijective f := by
  constructor
  · -- Every world is an image, and among finitely many that makes the map one to one.
    intro h
    refine Function.Surjective.bijective_of_finite fun w => ?_
    obtain ⟨v, -, hv⟩ := List.mem_map.1 (h.symm.subset (World.mem_all w))
    exact ⟨v, hv⟩
  · intro h
    refine (List.perm_ext_iff_of_nodup (World.nodup_all.map h.injective) World.nodup_all).2 ?_
    intro w
    obtain ⟨v, rfl⟩ := h.surjective w
    exact iff_of_true (List.mem_map_of_mem (World.mem_all v)) (World.mem_all _)

/-- **The relabellings listed are the bijections of the worlds.** -/
theorem mem_all_iff {f : Relabelling} : f ∈ all ↔ Function.Bijective f := by
  rw [all, List.mem_filterMap, ← images_perm_iff, ← mem_arrangements]
  simp only [ofList?_eq_some_iff, exists_eq_right]

end Relabelling

/-! ## Frames that are alike -/

namespace Frame

variable {F G H : Frame} {f g : Relabelling}

/-- A bijection relates the images of exactly those worlds that were related. -/
theorem contains_relabelled_image (hf : Function.Injective f) (v w : World) :
    (F.relabelled f).contains ⟨f v, f w⟩ ↔ F.contains ⟨v, w⟩ := by
  rw [contains_relabelled]
  constructor
  · -- Only one relation has this image.
    rintro ⟨⟨x, y⟩, hxy, heq⟩
    obtain ⟨hx, hy⟩ : f x = f v ∧ f y = f w := Relation.mk.inj heq
    rwa [hf hx, hf hy] at hxy
  · exact fun h => ⟨⟨v, w⟩, h, rfl⟩

/-- A map that renames no world changes nothing. -/
theorem relabelled_eq_self (F : Frame) (h : ∀ w, f w = w) : F.relabelled f = F := by
  have hrelation : ∀ r : Relation, r.relabelled f = r := by
    intro ⟨v, w⟩
    rw [Relation.relabelled, h, h]
  ext r
  rw [Bool.eq_iff_iff, contains_relabelled]
  simp only [hrelation, exists_eq_right]

/-- Renaming twice is renaming once through both maps. -/
theorem relabelled_relabelled (F : Frame) (f g : Relabelling) :
    (F.relabelled f).relabelled g = F.relabelled (g ∘ f) := by
  ext r
  rw [Bool.eq_iff_iff, contains_relabelled, contains_relabelled]
  constructor
  · rintro ⟨s, hs, rfl⟩
    obtain ⟨t, ht, rfl⟩ := contains_relabelled.1 hs
    exact ⟨t, ht, rfl⟩
  · rintro ⟨t, ht, rfl⟩
    exact ⟨t.relabelled f, contains_relabelled.2 ⟨t, ht, rfl⟩, rfl⟩

/-- One frame is another up to a bijection of the worlds. -/
def Alike (F G : Frame) : Prop := ∃ f : Relabelling, Function.Bijective f ∧ F.relabelled f = G

/-- A frame is like itself. -/
theorem Alike.refl (F : Frame) : F.Alike F :=
  ⟨fun w => w, Function.bijective_id, F.relabelled_eq_self fun _ => rfl⟩

/-- A frame is like those that are like it, by the inverse bijection. -/
theorem Alike.symm (h : F.Alike G) : G.Alike F := by
  obtain ⟨f, hf, rfl⟩ := h
  obtain ⟨g, hgf, hfg⟩ := Function.bijective_iff_has_inverse.1 hf
  refine ⟨g, Function.bijective_iff_has_inverse.2 ⟨f, hfg, hgf⟩, ?_⟩
  rw [relabelled_relabelled]
  exact F.relabelled_eq_self hgf

/-- A frame is like what those like it are like, by the composite bijection. -/
theorem Alike.trans (hFG : F.Alike G) (hGH : G.Alike H) : F.Alike H := by
  obtain ⟨f, hf, rfl⟩ := hFG
  obtain ⟨g, hg, rfl⟩ := hGH
  exact ⟨g ∘ f, hg.comp hf, (relabelled_relabelled F f g).symm⟩

/-- **Frames are alike exactly if some bijection respects their relations both ways.** -/
theorem alike_iff : F.Alike G ↔ ∃ f : Relabelling, Function.Bijective f ∧
    ∀ v w, F.contains ⟨v, w⟩ ↔ G.contains ⟨f v, f w⟩ := by
  refine exists_congr fun f => and_congr_right fun hf => ?_
  constructor
  · rintro rfl v w
    exact (contains_relabelled_image hf.injective v w).symm
  · intro h
    ext ⟨x, y⟩
    -- Both ends are images, and on images the two frames agree.
    obtain ⟨v, rfl⟩ := hf.surjective x
    obtain ⟨w, rfl⟩ := hf.surjective y
    rw [Bool.eq_iff_iff, contains_relabelled_image hf.injective, h]

end Frame

end FourWorlds
