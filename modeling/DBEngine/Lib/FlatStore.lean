import DBEngine.Lib.PagedProgram
import Mathlib.Data.Finset.Card
import Mathlib.Data.Multiset.Dedup
import Mathlib.Data.Finset.Dedup
import Mathlib.Data.Finset.Image

/-!
# The flat store

What a page cache is for: a map from pages to blocks, the sizes of the files,
and who holds which pages.  The flat store has no frames, no table and no
replacement, only the rules a client has to follow so that a cache cannot lose
a change: change only what is pinned, release a changed page as dirty (or write
it through) before any other page is fetched, save only whole blocks of pages
that exist, and let go of a page only in a state that may be found on disk.  A
request against the rules is answered by `misuse`.

The only trace of the cache itself is its capacity: when as many pages are
pinned as there are frames, fetching another one fails.
-/

set_option autoImplicit false

namespace Paged

/-- What the cache in front of the store fixes: how many pages can be pinned at
once, which blocks may be saved, what may stand in a page that nobody holds, and
the two errors. -/
structure Limits (F B E : Type) where
  capacity : Nat
  valid : B → Bool
  good : F × Nat → B → Bool
  full : E
  misuse : E

/-- The state of the flat store. -/
structure Flat (F B : Type) where
  /-- the block of every page, as a client sees it -/
  mem : F × Nat → B
  /-- the number of pages of every file -/
  size : F → Nat
  /-- the pins held, one entry for each -/
  pins : Multiset (F × Nat)
  /-- the pages changed since they were last released as dirty or written through -/
  unsaved : Finset (F × Nat)
  /-- the files removed -/
  gone : Finset F

namespace Flat

variable {F B E σ α : Type}

/-- One more pin on a page. -/
def pin (w : Flat F B) (k : F × Nat) : Flat F B := { w with pins := k ::ₘ w.pins }

@[simp] theorem pin_mem (w : Flat F B) (k : F × Nat) : (w.pin k).mem = w.mem := rfl
@[simp] theorem pin_size (w : Flat F B) (k : F × Nat) : (w.pin k).size = w.size := rfl
@[simp] theorem pin_pins (w : Flat F B) (k : F × Nat) : (w.pin k).pins = k ::ₘ w.pins := rfl
@[simp] theorem pin_unsaved (w : Flat F B) (k : F × Nat) : (w.pin k).unsaved = w.unsaved := rfl
@[simp] theorem pin_gone (w : Flat F B) (k : F × Nat) : (w.pin k).gone = w.gone := rfl

variable [DecidableEq F]

/-- Another block for a page. -/
def setMem (w : Flat F B) (k : F × Nat) (b : B) : Flat F B :=
  { w with mem := Function.update w.mem k b }

/-- A page changed in place. -/
def write (w : Flat F B) (k : F × Nat) (b : B) : Flat F B :=
  { w.setMem k b with unsaved := insert k w.unsaved }

/-- What code on a pinned page leaves: a page left as it was counts as not
changed. -/
def change [DecidableEq B] (w : Flat F B) (k : F × Nat) (b : B) : Flat F B :=
  if b = w.mem k then w else w.write k b

/-- One pin fewer on a page; the page is saved when it is released as dirty. -/
def release (w : Flat F B) (k : F × Nat) (dirty : Bool) : Flat F B :=
  { w with
    pins := w.pins.erase k
    unsaved := if dirty then w.unsaved.erase k else w.unsaved }

/-- One more page in a file. -/
def extend (w : Flat F B) (f : F) : Flat F B :=
  { w with size := Function.update w.size f (w.size f + 1) }

/-- A page written through. -/
def save (w : Flat F B) (k : F × Nat) : Flat F B := { w with unsaved := w.unsaved.erase k }

/-- A file removed. -/
def forget (w : Flat F B) (f : F) : Flat F B := { w with gone := insert f w.gone }

/-- Every changed page is still pinned. -/
def Held (w : Flat F B) : Prop := ∀ k ∈ w.unsaved, k ∈ w.pins

/-- The page may be saved as it is: a whole block of a page that exists. -/
def Savable (lim : Limits F B E) (w : Flat F B) (k : F × Nat) : Prop :=
  lim.valid (w.mem k) = true ∧ k.2 < w.size k.1

instance (w : Flat F B) : Decidable w.Held := inferInstanceAs (Decidable (∀ k ∈ w.unsaved, k ∈ w.pins))

instance (lim : Limits F B E) (w : Flat F B) (k : F × Nat) : Decidable (w.Savable lim k) :=
  inferInstanceAs (Decidable (_ ∧ _))

/-- The page may be let go of as it is. -/
def Good (lim : Limits F B E) (w : Flat F B) (k : F × Nat) : Prop := lim.good k (w.mem k) = true

instance (lim : Limits F B E) (w : Flat F B) (k : F × Nat) : Decidable (w.Good lim k) :=
  inferInstanceAs (Decidable (_ = true))

/-- The answers of the flat store. -/
def store (lim : Limits F B E) : Store F B E (Flat F B)
  | .fetch k, w =>
      if k.1 ∈ w.gone ∨ ¬ w.Held then (.error lim.misuse, w)
      else if k ∉ w.pins ∧ lim.capacity ≤ w.pins.toFinset.card then (.error lim.full, w)
      else (.ok (w.mem k), w.pin k)
  | .peek k, w => if k.1 ∈ w.gone ∨ k ∉ w.pins then (.error lim.misuse, w) else (.ok (w.mem k), w)
  | .put k b, w =>
      if k.1 ∈ w.gone ∨ k ∉ w.pins then (.error lim.misuse, w) else (.ok (), w.write k b)
  | .unpin k dirty, w =>
      if k.1 ∈ w.gone then (.error lim.misuse, w)
      else if k ∉ w.pins then (.ok false, w)
      else if ¬ w.Good lim k ∨ dirty = true ∧ ¬ w.Savable lim k then (.error lim.misuse, w)
      else (.ok true, w.release k dirty)
  | .alloc f, w => if f ∈ w.gone then (.error lim.misuse, w) else (.ok (w.size f), w.extend f)
  | .flush k, w =>
      if k.1 ∈ w.gone ∨ ¬ w.Good lim k ∨ ¬ w.Savable lim k then (.error lim.misuse, w)
      else (.ok (), w.save k)
  | .remove f, w =>
      if f ∈ w.gone ∨ w.size f = 0 ∨ f ∈ w.pins.map Prod.fst ∨ f ∈ w.unsaved.image Prod.fst then
        (.error lim.misuse, w)
      else (.ok (), w.forget f)

/-- Nobody holds a page, and the file is there: the state between two calls. -/
structure Idle (w : Flat F B) (f : F) : Prop where
  here : f ∉ w.gone
  pins : w.pins = 0
  unsaved : w.unsaved = ∅

/-! ## One request -/

variable {lim : Limits F B E} {w : Flat F B} {k j : F × Nat} {s : σ}

open Prog

/-- The page can be fetched: its file is there, every changed page is held, and
there is room for one more pin. -/
structure Fetchable (lim : Limits F B E) (w : Flat F B) (k : F × Nat) : Prop where
  here : k.1 ∉ w.gone
  held : w.Held
  room : w.pins.card < lim.capacity

theorem run_fetch (h : w.Fetchable lim k) :
    (request (.fetch k) : Prog F B E σ B).run (store lim) s w = (.ok (w.mem k), s, w.pin k) := by
  have hcard : w.pins.toFinset.card < lim.capacity :=
    Nat.lt_of_le_of_lt (Multiset.toFinset_card_le _) h.room
  rw [run_request]
  simp [store, h.here, h.held, Nat.not_le.mpr hcard]

theorem run_peek (hk : k.1 ∉ w.gone) (hpin : k ∈ w.pins) :
    (request (.peek k) : Prog F B E σ B).run (store lim) s w = (.ok (w.mem k), s, w) := by
  rw [run_request]
  simp [store, hk, hpin]

theorem run_put (hk : k.1 ∉ w.gone) (hpin : k ∈ w.pins) (b : B) :
    (request (.put k b) : Prog F B E σ Unit).run (store lim) s w = (.ok (), s, w.write k b) := by
  rw [run_request]
  simp [store, hk, hpin]

/-- Code on a pinned block runs on the block and leaves what it wrote. -/
theorem run_inPlace [DecidableEq B] (hk : k.1 ∉ w.gone) (hpin : k ∈ w.pins)
    (m : B → Except E α × B) :
    (inPlace k m : Prog F B E σ α).run (store lim) s w =
      ((m (w.mem k)).1, s, w.change k (m (w.mem k)).2) := by
  refine (run_bind_ok (run_peek hk hpin)).trans ?_
  rw [change]
  split
  · rw [run_ofExcept]
  · rw [run_bind_ok (run_put hk hpin _), run_ofExcept]

theorem run_unpin_clean (hk : k.1 ∉ w.gone) (hpin : k ∈ w.pins) (hgood : w.Good lim k) :
    (request (.unpin k false) : Prog F B E σ Bool).run (store lim) s w =
      (.ok true, s, w.release k false) := by
  rw [run_request]
  simp [store, hk, hpin, hgood]

theorem run_unpin_dirty (hk : k.1 ∉ w.gone) (hpin : k ∈ w.pins) (hgood : w.Good lim k)
    (hsave : w.Savable lim k) :
    (request (.unpin k true) : Prog F B E σ Bool).run (store lim) s w =
      (.ok true, s, w.release k true) := by
  rw [run_request]
  simp [store, hk, hpin, hgood, hsave]

theorem run_alloc {f : F} (hf : f ∉ w.gone) :
    (request (.alloc f) : Prog F B E σ Nat).run (store lim) s w =
      (.ok (w.size f), s, w.extend f) := by
  rw [run_request]
  simp [store, hf]

theorem run_flush (hk : k.1 ∉ w.gone) (hgood : w.Good lim k) (hsave : w.Savable lim k) :
    (request (.flush k) : Prog F B E σ Unit).run (store lim) s w = (.ok (), s, w.save k) := by
  rw [run_request]
  simp [store, hk, hgood, hsave]

/-! ## Fields of the state -/

@[simp] theorem setMem_mem (w : Flat F B) (k : F × Nat) (b : B) :
    (w.setMem k b).mem = Function.update w.mem k b := rfl
@[simp] theorem setMem_size (w : Flat F B) (k : F × Nat) (b : B) :
    (w.setMem k b).size = w.size := rfl
@[simp] theorem setMem_pins (w : Flat F B) (k : F × Nat) (b : B) :
    (w.setMem k b).pins = w.pins := rfl
@[simp] theorem setMem_unsaved (w : Flat F B) (k : F × Nat) (b : B) :
    (w.setMem k b).unsaved = w.unsaved := rfl
@[simp] theorem setMem_gone (w : Flat F B) (k : F × Nat) (b : B) :
    (w.setMem k b).gone = w.gone := rfl

@[simp] theorem write_mem (w : Flat F B) (k : F × Nat) (b : B) :
    (w.write k b).mem = Function.update w.mem k b := rfl
@[simp] theorem write_size (w : Flat F B) (k : F × Nat) (b : B) :
    (w.write k b).size = w.size := rfl
@[simp] theorem write_pins (w : Flat F B) (k : F × Nat) (b : B) :
    (w.write k b).pins = w.pins := rfl
@[simp] theorem write_unsaved (w : Flat F B) (k : F × Nat) (b : B) :
    (w.write k b).unsaved = insert k w.unsaved := rfl
@[simp] theorem write_gone (w : Flat F B) (k : F × Nat) (b : B) :
    (w.write k b).gone = w.gone := rfl

section change

variable [DecidableEq B]

theorem change_self (w : Flat F B) (k : F × Nat) : w.change k (w.mem k) = w := if_pos rfl

@[simp] theorem change_mem (w : Flat F B) (k : F × Nat) (b : B) :
    (w.change k b).mem = Function.update w.mem k b := by
  unfold change
  split
  · rename_i hb
    rw [hb, Function.update_eq_self]
  · rfl

@[simp] theorem change_size (w : Flat F B) (k : F × Nat) (b : B) :
    (w.change k b).size = w.size := by
  unfold change
  split <;> rfl

@[simp] theorem change_pins (w : Flat F B) (k : F × Nat) (b : B) :
    (w.change k b).pins = w.pins := by
  unfold change
  split <;> rfl

@[simp] theorem change_gone (w : Flat F B) (k : F × Nat) (b : B) :
    (w.change k b).gone = w.gone := by
  unfold change
  split <;> rfl

theorem change_unsaved_subset (w : Flat F B) (k : F × Nat) (b : B) :
    (w.change k b).unsaved ⊆ insert k w.unsaved := by
  unfold change
  split
  · exact Finset.subset_insert k w.unsaved
  · exact Finset.Subset.refl _

theorem unsaved_subset_change (w : Flat F B) (k : F × Nat) (b : B) :
    w.unsaved ⊆ (w.change k b).unsaved := by
  unfold change
  split
  · exact Finset.Subset.refl _
  · exact Finset.subset_insert k w.unsaved

end change

omit [DecidableEq F] in
theorem Held.pin {w : Flat F B} (h : w.Held) (k : F × Nat) : (w.pin k).Held := fun j hj =>
  Multiset.mem_cons_of_mem (h j hj)

/-- Code on a pinned page leaves no change behind that nobody holds. -/
theorem Held.change [DecidableEq B] {w : Flat F B} {k : F × Nat} (h : w.Held) (hk : k ∈ w.pins) (b : B) :
    (w.change k b).Held := by
  intro j hj
  rw [change_pins]
  rcases Finset.mem_insert.mp (change_unsaved_subset w k b hj) with rfl | hj
  · exact hk
  · exact h j hj

@[simp] theorem release_mem (w : Flat F B) (k : F × Nat) (d : Bool) :
    (w.release k d).mem = w.mem := rfl
@[simp] theorem release_size (w : Flat F B) (k : F × Nat) (d : Bool) :
    (w.release k d).size = w.size := rfl
@[simp] theorem release_pins (w : Flat F B) (k : F × Nat) (d : Bool) :
    (w.release k d).pins = w.pins.erase k := rfl
@[simp] theorem release_unsaved_clean (w : Flat F B) (k : F × Nat) :
    (w.release k false).unsaved = w.unsaved := rfl
@[simp] theorem release_unsaved_dirty (w : Flat F B) (k : F × Nat) :
    (w.release k true).unsaved = w.unsaved.erase k := rfl
@[simp] theorem release_gone (w : Flat F B) (k : F × Nat) (d : Bool) :
    (w.release k d).gone = w.gone := rfl

@[simp] theorem extend_mem (w : Flat F B) (f : F) : (w.extend f).mem = w.mem := rfl
@[simp] theorem extend_size (w : Flat F B) (f : F) :
    (w.extend f).size = Function.update w.size f (w.size f + 1) := rfl
@[simp] theorem extend_pins (w : Flat F B) (f : F) : (w.extend f).pins = w.pins := rfl
@[simp] theorem extend_unsaved (w : Flat F B) (f : F) : (w.extend f).unsaved = w.unsaved := rfl
@[simp] theorem extend_gone (w : Flat F B) (f : F) : (w.extend f).gone = w.gone := rfl

@[simp] theorem save_mem (w : Flat F B) (k : F × Nat) : (w.save k).mem = w.mem := rfl
@[simp] theorem save_size (w : Flat F B) (k : F × Nat) : (w.save k).size = w.size := rfl
@[simp] theorem save_pins (w : Flat F B) (k : F × Nat) : (w.save k).pins = w.pins := rfl
@[simp] theorem save_unsaved (w : Flat F B) (k : F × Nat) :
    (w.save k).unsaved = w.unsaved.erase k := rfl
@[simp] theorem save_gone (w : Flat F B) (k : F × Nat) : (w.save k).gone = w.gone := rfl

/-! ## Pages nobody holds -/

/-- Every page that nobody holds is in a state that may be found on disk. -/
def Rested (lim : Limits F B E) (w : Flat F B) : Prop :=
  ∀ k, k.1 ∉ w.gone → k ∉ w.pins → w.Good lim k

/-- Every request keeps the pages that nobody holds as they may be found. -/
theorem rested_store (hw : w.Rested lim) (r : Request F B) : (store lim r w).2.Rested lim := by
  cases r with
  | fetch k =>
      simp only [store]
      split_ifs
      · exact hw
      · exact hw
      · exact fun j hj hpin => hw j hj fun h => hpin (Multiset.mem_cons_of_mem h)
  | peek k =>
      simp only [store]
      split_ifs <;> exact hw
  | put k b =>
      simp only [store]
      split_ifs with hbad
      · exact hw
      · intro j hj hpin
        have hjk : j ≠ k := by
          rintro rfl
          exact hbad (Or.inr hpin)
        have := hw j hj hpin
        simpa [Good, hjk] using this
  | unpin k dirty =>
      simp only [store]
      split_ifs with hgone hpin hbad
      · exact hw
      · exact hw
      · intro j hj hjpin
        by_cases hjk : j = k
        · subst hjk
          exact not_not.mp fun h => hbad (Or.inl h)
        · exact hw j hj fun h => hjpin (by simpa [Multiset.mem_erase_of_ne hjk] using h)
      · exact hw
  | alloc f =>
      simp only [store]
      split_ifs <;> exact hw
  | flush k =>
      simp only [store]
      split_ifs <;> exact hw
  | remove f =>
      simp only [store]
      split_ifs
      · exact hw
      · exact fun j hj hpin => hw j (fun h => hj (Finset.mem_insert_of_mem h)) hpin

/-! ## A page fetched, used and released -/

theorem release_pin (w : Flat F B) (k : F × Nat) : (w.pin k).release k false = w := by
  simp [pin, release]

/-- A page changed under a pin and released as dirty: only its block differs. -/
theorem release_write_pin (hk : k ∉ w.unsaved) (b : B) :
    ((w.pin k).write k b).release k true = w.setMem k b := by
  simp [pin, write, release, setMem, hk]

/-- The same for code that may have left the page as it was. -/
theorem release_change_pin [DecidableEq B] (hk : k ∉ w.unsaved) (b : B) :
    ((w.pin k).change k b).release k true = w.setMem k b := by
  unfold change
  split
  · rename_i hb
    have hsame : w.setMem k b = w := by
      rw [hb, setMem, pin_mem, Function.update_eq_self]
    simp [hsame, pin, release, hk]
  · exact release_write_pin hk b

/-- Releasing the older of two pins. -/
theorem release_pin_of_ne (hjk : j ≠ k) (d : Bool) :
    (w.pin j).release k d = (w.release k d).pin j := by
  simp [pin, release, Multiset.erase_cons_tail w.pins hjk]

/-- Two changes under one pin: the second counts. -/
theorem release_change_change_pin [DecidableEq B] (hk : k ∉ w.unsaved) (b₁ b₂ : B) :
    (((w.pin k).change k b₁).change k b₂).release k true = w.setMem k b₂ := by
  have hunsaved : (((w.pin k).change k b₁).change k b₂).unsaved.erase k = w.unsaved := by
    have h₁ := change_unsaved_subset (w.pin k) k b₁
    have h₂ := change_unsaved_subset ((w.pin k).change k b₁) k b₂
    have hle : w.unsaved ⊆ (((w.pin k).change k b₁).change k b₂).unsaved :=
      (unsaved_subset_change (w.pin k) k b₁).trans (unsaved_subset_change _ k b₂)
    refine Finset.Subset.antisymm (fun j hj => ?_) fun j hj => Finset.mem_erase.mpr ⟨?_, hle hj⟩
    · obtain ⟨hjk, hj⟩ := Finset.mem_erase.mp hj
      have := Finset.mem_insert.mp (h₂ hj)
      exact (Finset.mem_insert.mp (h₁ (this.resolve_left hjk))).resolve_left hjk
    · rintro rfl
      exact hk hj
  have hmem : (((w.pin k).change k b₁).change k b₂).mem = Function.update w.mem k b₂ := by simp
  simp only [release, if_true, hunsaved, hmem]
  simp [setMem]

/-- Two pages changed, each under a pin, and then released. -/
theorem release_change_two [DecidableEq B] (hj : j ∉ w.unsaved) (hk : k ∉ w.unsaved)
    (b₁ b₂ : B) :
    (((((w.pin j).pin k).change j b₁).change k b₂).release j true).release k true =
      (w.setMem j b₁).setMem k b₂ := by
  have hunsaved : (((((w.pin j).pin k).change j b₁).change k b₂).unsaved.erase j).erase k =
      w.unsaved := by
    have h₁ := change_unsaved_subset ((w.pin j).pin k) j b₁
    have h₂ := change_unsaved_subset (((w.pin j).pin k).change j b₁) k b₂
    have hle : w.unsaved ⊆ ((((w.pin j).pin k).change j b₁).change k b₂).unsaved :=
      (unsaved_subset_change ((w.pin j).pin k) j b₁).trans (unsaved_subset_change _ k b₂)
    refine Finset.Subset.antisymm (fun i hi => ?_) fun i hi => ?_
    · obtain ⟨hik, hi⟩ := Finset.mem_erase.mp hi
      obtain ⟨hij, hi⟩ := Finset.mem_erase.mp hi
      exact (Finset.mem_insert.mp (h₁ ((Finset.mem_insert.mp (h₂ hi)).resolve_left hik))).resolve_left hij
    · refine Finset.mem_erase.mpr ⟨?_, Finset.mem_erase.mpr ⟨?_, hle hi⟩⟩
      · rintro rfl
        exact hk hi
      · rintro rfl
        exact hj hi
  have hmem : ((((w.pin j).pin k).change j b₁).change k b₂).mem =
      Function.update (Function.update w.mem j b₁) k b₂ := by simp
  have hpins : ((k ::ₘ j ::ₘ w.pins).erase j).erase k = w.pins := by
    rw [Multiset.cons_swap]
    simp
  simp only [release, if_true, hunsaved, hmem]
  simp [setMem, hpins]

/-- A page changed under a pin, released as clean and written through. -/
theorem save_release_change_pin [DecidableEq B] (hk : k ∉ w.unsaved) (b : B) :
    (((w.pin k).change k b).release k false).save k = w.setMem k b := by
  have hsame : (((w.pin k).change k b).release k false).save k =
      ((w.pin k).change k b).release k true := by simp [save, release]
  rw [hsame, release_change_pin hk]

/-- Changes of different pages commute. -/
theorem setMem_change_comm [DecidableEq B] (hjk : j ≠ k) (b₁ b₂ : B) :
    (w.change k b₁).setMem j b₂ = (w.setMem j b₂).change k b₁ := by
  have hmem : (w.setMem j b₂).mem k = w.mem k := by simp [hjk.symm]
  unfold change
  rw [hmem]
  split
  · rfl
  · simp [setMem, write, Function.update_comm hjk]

theorem setMem_pin (w : Flat F B) (k j : F × Nat) (b : B) :
    (w.pin j).setMem k b = (w.setMem k b).pin j := rfl

theorem setMem_mem_self (w : Flat F B) (k : F × Nat) (b : B) : (w.setMem k b).mem k = b := by
  simp

theorem setMem_mem_of_ne (h : j ≠ k) (b : B) : (w.setMem k b).mem j = w.mem j := by
  simp [h]

/-! ## Pins that are never released -/

/-- The store with pins on top that the client has lost. -/
def leak (w : Flat F B) (lost : Multiset (F × Nat)) : Flat F B := { w with pins := w.pins + lost }

omit [DecidableEq F] in
@[simp] theorem leak_zero (w : Flat F B) : w.leak 0 = w := by simp [leak]

omit [DecidableEq F] in
/-- A pin that is not released. -/
theorem pin_leak (w : Flat F B) (k : F × Nat) (lost : Multiset (F × Nat)) :
    (w.pin k).leak lost = w.leak (k ::ₘ lost) := by
  simp [leak, pin, Multiset.add_cons, Multiset.cons_add]

/-- The answers of a store to a client that releases only what it has pinned, removes no
file and never has as many pins as there is room for. -/
def careful (lim : Limits F B E) : Store F B E (Flat F B)
  | .fetch k, w =>
      if k.1 ∈ w.gone ∨ ¬ w.Held ∨ lim.capacity ≤ w.pins.card then (.error lim.misuse, w)
      else (.ok (w.mem k), w.pin k)
  | .peek k, w => if k.1 ∈ w.gone ∨ k ∉ w.pins then (.error lim.misuse, w) else (.ok (w.mem k), w)
  | .put k b, w =>
      if k.1 ∈ w.gone ∨ k ∉ w.pins then (.error lim.misuse, w) else (.ok (), w.write k b)
  | .unpin k dirty, w =>
      if k.1 ∈ w.gone ∨ k ∉ w.pins ∨ ¬ w.Good lim k ∨ dirty = true ∧ ¬ w.Savable lim k then
        (.error lim.misuse, w)
      else (.ok true, w.release k dirty)
  | .alloc f, w => if f ∈ w.gone then (.error lim.misuse, w) else (.ok (w.size f), w.extend f)
  | .flush k, w =>
      if k.1 ∈ w.gone ∨ ¬ w.Good lim k ∨ ¬ w.Savable lim k then (.error lim.misuse, w)
      else (.ok (), w.save k)
  | .remove _, w => (.error lim.misuse, w)

omit [DecidableEq F] in
theorem Held.leak {w : Flat F B} (h : w.Held) (lost : Multiset (F × Nat)) : (w.leak lost).Held :=
  fun k hk => Multiset.mem_add.mpr (Or.inl (h k hk))

/-- Outside the file `f` the two are the same. -/
structure SameElsewhere (f : F) (w w' : Flat F B) : Prop where
  mem : ∀ k : F × Nat, k.1 ≠ f → w'.mem k = w.mem k
  size : ∀ g, g ≠ f → w'.size g = w.size g
  gone : w'.gone = w.gone

omit [DecidableEq F] in
theorem SameElsewhere.refl (f : F) (w : Flat F B) : SameElsewhere f w w :=
  ⟨fun _ _ => rfl, fun _ _ => rfl, rfl⟩

omit [DecidableEq F] in
theorem SameElsewhere.trans {f : F} {w₁ w₂ w₃ : Flat F B} (h₁ : SameElsewhere f w₁ w₂)
    (h₂ : SameElsewhere f w₂ w₃) : SameElsewhere f w₁ w₃ :=
  ⟨fun k hk => (h₂.mem k hk).trans (h₁.mem k hk), fun g hg => (h₂.size g hg).trans (h₁.size g hg),
    h₂.gone.trans h₁.gone⟩

/-- A request about a file leaves all others as they are. -/
theorem sameElsewhere_careful {r : Request F B} {f : F} (hfile : r.file = f) (w : Flat F B) :
    SameElsewhere f w (careful lim r w).2 := by
  subst hfile
  have hmem : ∀ (k : F × Nat) (b : B) (j : F × Nat), j.1 ≠ k.1 → (w.write k b).mem j = w.mem j := by
    intro k b j hj
    exact Function.update_of_ne (fun h => hj (congrArg Prod.fst h)) b w.mem
  cases r with
  | fetch k =>
      simp only [careful]
      split_ifs
      · exact .refl _ w
      · exact ⟨fun _ _ => rfl, fun _ _ => rfl, rfl⟩
  | peek k =>
      simp only [careful]
      split_ifs <;> exact .refl _ w
  | put k b =>
      simp only [careful]
      split_ifs
      · exact .refl _ w
      · exact ⟨hmem k b, fun _ _ => rfl, rfl⟩
  | unpin k dirty =>
      simp only [careful]
      split_ifs
      · exact .refl _ w
      · exact ⟨fun _ _ => rfl, fun _ _ => rfl, rfl⟩
  | alloc g =>
      simp only [careful]
      split_ifs
      · exact .refl _ w
      · exact ⟨fun _ _ => rfl, fun e he => Function.update_of_ne he _ _, rfl⟩
  | flush k =>
      simp only [careful]
      split_ifs
      · exact .refl _ w
      · exact ⟨fun _ _ => rfl, fun _ _ => rfl, rfl⟩
  | remove g => exact .refl _ w

/-- A program about one file leaves all others as they are. -/
theorem run_sameElsewhere {p : Prog F B E σ α} {f : F} (hp : p.Only fun r => r.file = f) (s : σ)
    (w : Flat F B) : SameElsewhere f w (p.run (careful lim) s w).2.2 :=
  run_invariant (I := SameElsewhere f w)
    (fun _ w' hfile hw => hw.trans (sameElsewhere_careful hfile w')) hp s (.refl f w)

variable (lim) in
/-- The answers to a careful client with and without lost pins: they differ only where there
is no room for another page. -/
theorem answer_leak (n : Nat) (lost : Multiset (F × Nat)) (r : Request F B) (w : Flat F B) :
    (careful { lim with capacity := n } r w).1 = .error lim.misuse ∨
    (∃ k, r = .fetch k ∧ store lim r (w.leak lost) = (.error lim.full, w.leak lost)) ∨
    ((store lim r (w.leak lost)).1 = (careful { lim with capacity := n } r w).1 ∧
      (store lim r (w.leak lost)).2 = (careful { lim with capacity := n } r w).2.leak lost) := by
  have hsame {x : Except E r.Reply} {w' : Flat F B}
      (hcareful : careful { lim with capacity := n } r w = (x, w'))
      (hstore : store lim r (w.leak lost) = (x, w'.leak lost)) :
      (store lim r (w.leak lost)).1 = (careful { lim with capacity := n } r w).1 ∧
        (store lim r (w.leak lost)).2 = (careful { lim with capacity := n } r w).2.leak lost := by
    rw [hcareful, hstore]
    exact ⟨rfl, rfl⟩
  have hmem : ∀ k ∈ w.pins, k ∈ (w.leak lost).pins := fun k hk => Multiset.mem_add.mpr (Or.inl hk)
  cases r with
  | fetch k =>
      by_cases hbad : k.1 ∈ w.gone ∨ ¬ w.Held ∨ n ≤ w.pins.card
      · exact Or.inl (congrArg Prod.fst (if_pos hbad))
      · right
        obtain ⟨hgone, hheld, -⟩ := not_or.mp hbad |>.imp_right not_or.mp
        have hok : ¬ (k.1 ∈ (w.leak lost).gone ∨ ¬ (w.leak lost).Held) :=
          not_or.mpr ⟨hgone, not_not.mpr ((not_not.mp hheld).leak lost)⟩
        by_cases hfull : k ∉ (w.leak lost).pins ∧ lim.capacity ≤ (w.leak lost).pins.toFinset.card
        · exact Or.inl ⟨k, rfl, (if_neg hok).trans (if_pos hfull)⟩
        · refine Or.inr (hsame (if_neg hbad) ?_)
          have hpin : (w.leak lost).pin k = (w.pin k).leak lost := by simp [leak, pin]
          rw [← hpin]
          exact (if_neg hok).trans (if_neg hfull)
  | peek k =>
      by_cases hbad : k.1 ∈ w.gone ∨ k ∉ w.pins
      · exact Or.inl (congrArg Prod.fst (if_pos hbad))
      · refine Or.inr (Or.inr (hsame (if_neg hbad) (if_neg ?_)))
        simp only [not_or, not_not] at hbad
        exact not_or.mpr ⟨hbad.1, not_not.mpr (hmem k hbad.2)⟩
  | put k b =>
      by_cases hbad : k.1 ∈ w.gone ∨ k ∉ w.pins
      · exact Or.inl (congrArg Prod.fst (if_pos hbad))
      · refine Or.inr (Or.inr (hsame (if_neg hbad) (if_neg ?_)))
        simp only [not_or, not_not] at hbad
        exact not_or.mpr ⟨hbad.1, not_not.mpr (hmem k hbad.2)⟩
  | unpin k dirty =>
      by_cases hbad : k.1 ∈ w.gone ∨ k ∉ w.pins ∨ ¬ w.Good { lim with capacity := n } k ∨
          dirty = true ∧ ¬ w.Savable { lim with capacity := n } k
      · exact Or.inl (congrArg Prod.fst (if_pos hbad))
      · refine Or.inr (Or.inr (hsame (if_neg hbad) ?_))
        simp only [not_or, not_not] at hbad
        obtain ⟨hgone, hpin, hgood, hsave⟩ := hbad
        have hkeep : ¬ (¬ (w.leak lost).Good lim k ∨ dirty = true ∧ ¬ (w.leak lost).Savable lim k) :=
          not_or.mpr ⟨not_not.mpr hgood, hsave⟩
        have hrelease : (w.leak lost).release k dirty = (w.release k dirty).leak lost := by
          simp [leak, release, Multiset.erase_add_left_pos _ hpin]
        rw [← hrelease]
        exact (if_neg hgone).trans ((if_neg (not_not.mpr (hmem k hpin))).trans (if_neg hkeep))
  | alloc f =>
      by_cases hbad : f ∈ w.gone
      · exact Or.inl (congrArg Prod.fst (if_pos hbad))
      · exact Or.inr (Or.inr (hsame (if_neg hbad) (if_neg hbad)))
  | flush k =>
      by_cases hbad : k.1 ∈ w.gone ∨ ¬ w.Good { lim with capacity := n } k ∨
          ¬ w.Savable { lim with capacity := n } k
      · exact Or.inl (congrArg Prod.fst (if_pos hbad))
      · exact Or.inr (Or.inr (hsame (if_neg hbad) (if_neg hbad)))
  | remove f => exact Or.inl rfl

/-- A careful client does not notice lost pins, as long as there is room for the pages they
are on. -/
theorem leak_simulates {n : Nat} {lost : Multiset (F × Nat)}
    (hroom : n + lost.toFinset.card ≤ lim.capacity) :
    Simulates (store lim) (careful { lim with capacity := n }) lim.misuse
      fun v w => v = w.leak lost := by
  rintro r _ w rfl
  rcases answer_leak lim n lost r w with hbad | ⟨k, rfl, hfull⟩ | hsame
  · exact .inl hbad
  · left
    by_contra hgood
    -- the client has fewer than `n` pins, so there is room
    have hok : ¬ (k.1 ∈ w.gone ∨ ¬ w.Held ∨ n ≤ w.pins.card) := fun hbad =>
      hgood (congrArg Prod.fst (if_pos hbad))
    simp only [not_or, not_not, Nat.not_le] at hok
    obtain ⟨hgone, hheld, hfew⟩ := hok
    have hcard : (w.leak lost).pins.toFinset.card < lim.capacity := by
      have hsum : (w.leak lost).pins.toFinset.card ≤ w.pins.toFinset.card + lost.toFinset.card := by
        rw [leak, Multiset.toFinset_add]
        exact Finset.card_union_le _ _
      have hpins := Multiset.toFinset_card_le w.pins
      omega
    have hstore : store lim (.fetch k) (w.leak lost) = (.ok ((w.leak lost).mem k), (w.leak lost).pin k) :=
      (if_neg (not_or.mpr ⟨hgone, not_not.mpr (hheld.leak lost)⟩)).trans
        (if_neg fun h => Nat.not_le.mpr hcard h.2)
    rw [hstore] at hfull
    exact nomatch (Prod.mk.inj hfull).1
  · exact .inr hsame

end Flat

end Paged
