import Mathlib.Data.Multiset.Bind
import Mathlib.Data.Multiset.Filter

/-!
# Selections

Selections from a multiset and from the pairs of two multisets, seen through a
function of the elements.  When equal images are kept or dropped together, the
images that are left say which elements were kept.
-/

set_option autoImplicit false

namespace Selection

open Multiset

variable {α β γ : Type}

/-- The elements with one image are kept together or dropped together. -/
def Factors (s : Multiset α) (f : α → β) (p : α → Prop) : Prop :=
  ∀ a ∈ s, ∀ b ∈ s, f a = f b → p a → p b

theorem factors_of_injOn {s : Multiset α} {f : α → β} (h : ∀ a ∈ s, ∀ b ∈ s, f a = f b → a = b)
    (p : α → Prop) : Factors s f p := by
  intro a ha b hb hab hp
  obtain rfl := h a ha b hb hab
  exact hp

/-- Two selections leave the same images exactly when they keep the same elements. -/
theorem map_filter_eq_iff {s : Multiset α} {f : α → β} {p q : α → Prop} [DecidablePred p]
    [DecidablePred q] (hp : Factors s f p) (hq : Factors s f q) :
    (s.filter p).map f = (s.filter q).map f ↔ ∀ a ∈ s, (p a ↔ q a) := by
  constructor
  · intro h
    have hkept : ∀ {p q : α → Prop} [DecidablePred p] [DecidablePred q], Factors s f q →
        (s.filter p).map f = (s.filter q).map f → ∀ a ∈ s, p a → q a := by
      intro p q _ _ hq h a ha hpa
      have hmem : f a ∈ (s.filter q).map f := by
        rw [← h]
        exact mem_map_of_mem f (mem_filter.mpr ⟨ha, hpa⟩)
      obtain ⟨b, hb, hab⟩ := mem_map.mp hmem
      obtain ⟨hb, hqb⟩ := mem_filter.mp hb
      exact hq b hb a ha hab hqb
    intro a ha
    exact ⟨hkept hq h a ha, hkept hp h.symm a ha⟩
  · intro h
    rw [filter_congr h]

/-- A list of images is the list of images of some order of the elements. -/
theorem exists_map_eq {f : α → β} : ∀ {s : Multiset α} {bs : List β}, (bs : Multiset β) = s.map f →
    ∃ as : List α, as.map f = bs ∧ (as : Multiset α) = s := by
  intro s bs
  induction bs generalizing s with
  | nil =>
      intro h
      exact ⟨[], rfl, (map_eq_zero.mp h.symm).symm⟩
  | cons b bs ih =>
      intro h
      obtain ⟨a, ha, rfl⟩ := mem_map.mp (h ▸ mem_coe.mpr List.mem_cons_self)
      obtain ⟨t, rfl⟩ := exists_cons_of_mem ha
      rw [map_cons, ← cons_coe, cons_inj_right] at h
      obtain ⟨as, rfl, rfl⟩ := ih h
      exact ⟨a :: as, rfl, (cons_coe a as).symm⟩

/-- A loop over the first multiset that keeps some elements of the second one for
every element selects from the pairs. -/
theorem bind_filter_map (s : Multiset α) (t : Multiset β) (p : α → β → Prop)
    [∀ a b, Decidable (p a b)] (f : α → β → γ) :
    (s.bind fun a => (t.filter (p a)).map (f a)) =
      ((s ×ˢ t).filter fun x => p x.1 x.2).map fun x => f x.1 x.2 := by
  induction s using Multiset.induction with
  | empty => rfl
  | cons a s ih =>
      rw [cons_bind, cons_product, filter_add, map_add, ih, filter_map, map_map]
      rfl

/-- A loop over the second multiset selects from the same pairs. -/
theorem bind_filter_map_swap (s : Multiset α) (t : Multiset β) (p : α → β → Prop)
    [∀ a b, Decidable (p a b)] (f : α → β → γ) :
    (t.bind fun b => (s.filter fun a => p a b).map fun a => f a b) =
      ((s ×ˢ t).filter fun x => p x.1 x.2).map fun x => f x.1 x.2 := by
  rw [← bind_filter_map]
  simp only [filter_eq_bind, map_bind]
  rw [bind_bind]
  refine bind_congr fun a _ => bind_congr fun b _ => ?_
  split
  · rw [map_singleton, map_singleton]
  · rw [map_zero, map_zero]

/-- The pairs of the images are the images of the pairs. -/
theorem map_product {δ : Type} (s : Multiset α) (t : Multiset β) (f : α → γ) (g : β → δ) :
    s.map f ×ˢ t.map g = (s ×ˢ t).map fun x => (f x.1, g x.2) := by
  induction s using Multiset.induction with
  | empty => rfl
  | cons a s ih =>
      rw [map_cons, cons_product, cons_product, map_add, ih, map_map, map_map]
      rfl

end Selection
