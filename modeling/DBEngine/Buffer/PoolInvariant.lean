import DBEngine.Buffer.BufferPool
import Mathlib.Data.Finset.Card
import Mathlib.Data.Fintype.Card

/-!
# The invariant of the buffer pool

Six pieces of state move together: the two tables are inverse to each other on
the frames in use, the others are free, a frame is evictable exactly when it is
in use and not pinned, and a frame in use has been accessed.  `fetchPage` is
taken apart once, in `findFrame_cases`; everything said about it later goes
through `Vacated`, the state a chosen frame is handed over in.
-/

set_option autoImplicit false

namespace DBEngine

open ByteBuffer Paged

namespace BufferPoolManager

/-- The invariant of the pool. -/
structure Inv (bp : BufferPoolManager) : Prop where
  tables : ∀ k f, bp.pageTable k = some f ↔ bp.frameTable f = some k
  free : ∀ f, f ∈ bp.freeFrames ↔ bp.frameTable f = none
  evictable : ∀ f, f ∈ bp.replacer.evictable ↔ bp.frameTable f ≠ none ∧ bp.pinCount f = 0
  history : ∀ f, bp.frameTable f ≠ none → bp.replacer.history f ≠ []
  dirty : ∀ f, bp.dirty f = true → bp.frameTable f ≠ none

theorem inv_new (disk : Disk) : (new disk).Inv where
  tables := by simp [new]
  free := by simp [new]
  evictable := by simp [new, LRUKReplacer.new]
  history := by simp [new]
  dirty := by simp [new]

/-- What `findFrame` leaves when it hands out a frame: the frame is not pinned,
its old page is out of the page table and on disk, and nothing else changed. -/
structure Vacated (bp : BufferPoolManager) (f : FrameId) (bp' : BufferPoolManager) : Prop where
  idle : bp.frameTable f = none ∨ bp.pinCount f = 0
  frames : bp'.frames = bp.frames
  pageTable : ∀ j, bp'.pageTable j = if bp.frameTable f = some j then none else bp.pageTable j
  frameTable : bp'.frameTable = bp.frameTable
  freeFrames : bp'.freeFrames = bp.freeFrames.erase f
  pinCount : bp'.pinCount = bp.pinCount
  dirty : bp'.dirty = bp.dirty
  evictable : bp'.replacer.evictable = bp.replacer.evictable.erase f
  history : ∀ g, g ≠ f → bp'.replacer.history g = bp.replacer.history g
  disk : bp'.disk = match bp.frameTable f with
    | none => bp.disk
    | some old =>
        if bp.dirty f then bp.disk.writePage old.2 old.1 (bp.frames f) else bp.disk

/-- Either a frame is handed out, or all frames are in use and pinned and the
pool is left as it was. -/
theorem findFrame_cases {bp : BufferPoolManager} (order : SetOrder) (hinv : bp.Inv) :
    (∃ f bp', bp.findFrame order = (.ok f, bp') ∧ Vacated bp f bp') ∨
      (bp.freeFrames = ∅ ∧ bp.replacer.evictable = ∅ ∧
        bp.findFrame order = (.error (.keyError "None"), bp)) := by
  unfold findFrame
  cases hfree : order.iter bp.replacer.currentTime bp.freeFrames with
  | cons f rest =>
      left
      have hf : f ∈ bp.freeFrames := (order.mem_iter _ _ f).mp (by rw [hfree]; simp)
      have hnone : bp.frameTable f = none := (hinv.free f).mp hf
      have hev : f ∉ bp.replacer.evictable := fun h => ((hinv.evictable f).mp h).1 hnone
      refine ⟨f, _, rfl, ?_⟩
      exact
        { idle := Or.inl hnone, frames := rfl, pageTable := by simp [hnone], frameTable := rfl,
          freeFrames := rfl, pinCount := rfl, dirty := rfl,
          evictable := (Finset.erase_eq_of_notMem hev).symm, history := fun _ _ => rfl,
          disk := by simp [hnone] }
  | nil =>
      have hempty : bp.freeFrames = ∅ := by
        refine Finset.eq_empty_of_forall_notMem fun f hf => ?_
        have := (order.mem_iter bp.replacer.currentTime _ f).mpr hf
        simp [hfree] at this
      by_cases hne : bp.replacer.evictable.Nonempty
      · left
        obtain ⟨f, hf, hevict⟩ := LRUKReplacer.evict_some
          (order.mem_iter bp.replacer.currentTime bp.replacer.evictable) hne
          (fun f hf => hinv.history f ((hinv.evictable f).mp hf).1)
        obtain ⟨huse, hpin⟩ := (hinv.evictable f).mp hf
        obtain ⟨old, hold⟩ := Option.ne_none_iff_exists'.mp huse
        refine ⟨f, dropPage f old { bp with
          replacer := { bp.replacer with
            evictable := bp.replacer.evictable.erase f
            history := Function.update bp.replacer.history f [] } },
          by simp [hevict, hold], ?_⟩
        exact
          { idle := Or.inr hpin, frames := rfl,
            pageTable := fun j => by
              simp only [dropPage, hold, Option.some.injEq]
              by_cases hj : old = j
              · subst hj
                simp
              · simp [hj, Function.update_of_ne (Ne.symm hj)]
            frameTable := rfl,
            freeFrames := by simp [dropPage, hempty], pinCount := rfl, dirty := rfl,
            evictable := rfl,
            history := fun g hg => by simp [dropPage, hg],
            disk := by simp [dropPage, hold] }
      · right
        have hev : bp.replacer.evictable = ∅ := Finset.not_nonempty_iff_eq_empty.mp hne
        exact ⟨hempty, hev, by simp [LRUKReplacer.evict_none hev]⟩

section load

variable {bp bp' : BufferPoolManager} {f : FrameId} {k : PageKey}

@[simp] theorem loadPage_frames : (bp'.loadPage f k).frames =
    Function.update bp'.frames f (bp'.disk.page k) := rfl

@[simp] theorem loadPage_pinCount : (bp'.loadPage f k).pinCount =
    Function.update bp'.pinCount f 1 := rfl

@[simp] theorem loadPage_dirty : (bp'.loadPage f k).dirty =
    Function.update bp'.dirty f false := rfl

@[simp] theorem content_loadPage (g : FileId) :
    (bp'.loadPage f k).disk.content g = bp'.disk.content g := by
  simp [loadPage, touch]

/-- After a load the frame holds the page, and the old page of the frame is
nowhere. -/
theorem pageTable_loadPage (hv : Vacated bp f bp') (j : PageKey) :
    (bp'.loadPage f k).pageTable j =
      if j = k then some f else if bp.frameTable f = some j then none else bp.pageTable j := by
  by_cases hj : j = k
  · subst hj
    simp [loadPage, touch]
  · simp [loadPage, touch, hj, hv.pageTable]

theorem inv_loadPage (hinv : bp.Inv) (hv : Vacated bp f bp') (hk : bp.pageTable k = none) :
    (bp'.loadPage f k).Inv where
  tables j g := by
    rw [pageTable_loadPage hv]
    by_cases hg : g = f
    · subst hg
      by_cases hj : j = k
      · simp [loadPage, touch, hj]
      · by_cases hold : bp.frameTable g = some j
        · simp [loadPage, touch, hj, hold, Ne.symm hj]
        · have hnot : bp.pageTable j ≠ some g := fun h => hold ((hinv.tables j g).mp h)
          simp [loadPage, touch, hj, hold, hnot, Ne.symm hj]
    · have hft : (bp'.loadPage f k).frameTable g = bp.frameTable g := by
        simp [loadPage, touch, hg, hv.frameTable]
      rw [hft]
      by_cases hj : j = k
      · subst hj
        have hnot : bp.frameTable g ≠ some j := fun h => by
          simp [(hinv.tables j g).mpr h] at hk
        simp [hnot, Ne.symm hg]
      · by_cases hold : bp.frameTable f = some j
        · -- the page of `f` is in no other frame
          have hnot : bp.frameTable g ≠ some j := fun h => by
            have h1 := (hinv.tables j g).mpr h
            have h2 := (hinv.tables j f).mpr hold
            rw [h1] at h2
            exact hg (Option.some.inj h2)
          simp [hj, hold, hnot]
        · simp only [if_neg hj, if_neg hold]
          exact hinv.tables j g
  free g := by
    by_cases hg : g = f
    · subst hg
      simp [loadPage, touch, hv.freeFrames]
    · simp [loadPage, touch, hv.freeFrames, hv.frameTable, hg, hinv.free]
  evictable g := by
    by_cases hg : g = f
    · subst hg
      simp [loadPage, touch, LRUKReplacer.setEvictable]
    · simp [loadPage, touch, LRUKReplacer.setEvictable, LRUKReplacer.recordAccess, hv.evictable,
        hv.frameTable, hv.pinCount, hg, hinv.evictable]
  history g := by
    by_cases hg : g = f
    · subst hg
      intro _
      simpa [loadPage, touch, LRUKReplacer.setEvictable, LRUKReplacer.recordAccess] using
        LRUKReplacer.dequeAppend_ne_nil (n := lruK) (by decide) _ _
    · intro huse
      have hold : bp.frameTable g ≠ none := by
        simpa [loadPage, touch, hg, hv.frameTable] using huse
      simpa [loadPage, touch, LRUKReplacer.setEvictable, LRUKReplacer.recordAccess, hg,
        hv.history g hg] using hinv.history g hold
  dirty g hg := by
    by_cases hgf : g = f
    · subst hgf
      simp at hg
    · have := hinv.dirty g (by simpa [hgf, hv.dirty] using hg)
      simpa [loadPage, touch, hgf, hv.frameTable] using this

end load

theorem inv_fetchHit {bp : BufferPoolManager} {f : FrameId} (hinv : bp.Inv)
    (huse : bp.frameTable f ≠ none) : (bp.fetchHit f).Inv where
  tables := hinv.tables
  free := hinv.free
  evictable g := by
    by_cases hg : g = f
    · subst hg
      simp [fetchHit, touch, LRUKReplacer.setEvictable]
    · simp [fetchHit, touch, LRUKReplacer.setEvictable, LRUKReplacer.recordAccess, hg,
        hinv.evictable]
  history g := by
    by_cases hg : g = f
    · subst hg
      intro _
      simpa [fetchHit, touch, LRUKReplacer.setEvictable, LRUKReplacer.recordAccess] using
        LRUKReplacer.dequeAppend_ne_nil (n := lruK) (by decide) _ _
    · intro h
      simpa [fetchHit, touch, LRUKReplacer.setEvictable, LRUKReplacer.recordAccess, hg] using
        hinv.history g h
  dirty := hinv.dirty

theorem inv_unpinPage {bp : BufferPoolManager} (pageId : Nat) (fileId : FileId) (dirty : Bool)
    (hinv : bp.Inv) : (bp.unpinPage pageId fileId dirty).2.Inv := by
  unfold unpinPage
  cases hk : bp.pageTable (fileId, pageId) with
  | none => exact hinv
  | some f =>
      by_cases hpin : bp.pinCount f = 0
      · simpa [hpin] using hinv
      · simp only [if_neg hpin]
        have huse : bp.frameTable f ≠ none := by simp [(hinv.tables _ _).mp hk]
        refine ⟨hinv.tables, hinv.free, fun g => ?_, fun g hg => ?_, fun g hg => ?_⟩
        · by_cases hlast : bp.pinCount f - 1 = 0
          · by_cases hg : g = f
            · subst hg
              simp [LRUKReplacer.setEvictable, hlast, huse]
            · simp [LRUKReplacer.setEvictable, hlast, hg, hinv.evictable]
          · by_cases hg : g = f
            · subst hg
              simp [hlast, hinv.evictable, hpin]
            · simp [hlast, hg, hinv.evictable]
        · have := hinv.history g hg
          by_cases hlast : bp.pinCount f - 1 = 0 <;>
            simpa [hlast, LRUKReplacer.setEvictable] using this
        · by_cases hgf : g = f
          · exact hgf ▸ huse
          · cases dirty <;> exact hinv.dirty g (by simpa [hgf] using hg)

theorem inv_flushPage {bp : BufferPoolManager} (k : PageKey) (hinv : bp.Inv) :
    (bp.flushPage k).2.Inv := by
  unfold flushPage
  cases bp.pageTable k with
  | none => exact hinv
  | some f =>
      refine ⟨hinv.tables, hinv.free, hinv.evictable, hinv.history, fun g hg => ?_⟩
      by_cases hgf : g = f
      · subst hgf
        simp at hg
      · exact hinv.dirty g (by simpa [hgf] using hg)

theorem inv_framePut {bp : BufferPoolManager} (k : PageKey) (b : Bytes) (hinv : bp.Inv) :
    (bp.framePut k b).Inv := by
  unfold framePut
  cases bp.pageTable k with
  | none => exact hinv
  | some f => exact ⟨hinv.tables, hinv.free, hinv.evictable, hinv.history, hinv.dirty⟩

/-- The invariant says nothing about the files. -/
theorem inv_disk {bp : BufferPoolManager} (disk : Disk) (hinv : bp.Inv) :
    ({ bp with disk := disk } : BufferPoolManager).Inv :=
  ⟨hinv.tables, hinv.free, hinv.evictable, hinv.history, hinv.dirty⟩

theorem inv_fetchPage {bp : BufferPoolManager} (order : SetOrder) (pageId : Nat) (fileId : FileId)
    (hinv : bp.Inv) : (bp.fetchPage order pageId fileId).2.Inv := by
  unfold fetchPage
  cases hk : bp.pageTable (fileId, pageId) with
  | some f => exact inv_fetchHit hinv (by simp [(hinv.tables _ _).mp hk])
  | none =>
      rcases findFrame_cases order hinv with ⟨f, bp', hfind, hv⟩ | ⟨_, _, hfind⟩
      · simp only [hfind]
        exact inv_loadPage hinv hv hk
      · simpa only [hfind] using hinv

/-! ## How many pages are pinned -/

/-- The pins on a page. -/
def pinsOf (bp : BufferPoolManager) (k : PageKey) : Nat :=
  match bp.pageTable k with
  | none => 0
  | some f => bp.pinCount f

/-- As many pinned pages as there are frames leave no frame unpinned. -/
theorem all_pinned_of_card {bp : BufferPoolManager} (hinv : bp.Inv) {s : Finset PageKey}
    (hs : ∀ k ∈ s, bp.pinsOf k ≠ 0) (hcard : numFrames ≤ s.card) (f : FrameId) :
    ∃ k ∈ s, bp.pageTable k = some f := by
  -- every pinned page has a frame, and different pages have different frames
  have hcached : ∀ k ∈ s, ∃ g, bp.pageTable k = some g := by
    intro k hk
    have := hs k hk
    unfold pinsOf at this
    cases hg : bp.pageTable k with
    | none => simp [hg] at this
    | some g => exact ⟨g, rfl⟩
  let frameOf : PageKey → FrameId := fun k => (bp.pageTable k).getD frameZero
  have hframe : ∀ k ∈ s, bp.pageTable k = some (frameOf k) := by
    intro k hk
    obtain ⟨g, hg⟩ := hcached k hk
    simp [frameOf, hg]
  have hinj : Set.InjOn frameOf s := by
    intro k hk j hj heq
    have h1 := (hinv.tables k _).mp (hframe k hk)
    have h2 := (hinv.tables j _).mp (hframe j hj)
    rw [heq, h2] at h1
    exact (Option.some.inj h1).symm
  have himage : s.image frameOf = Finset.univ := by
    refine Finset.eq_univ_of_card _ ?_
    have hle := Finset.card_le_univ (s.image frameOf)
    have himg : (s.image frameOf).card = s.card := Finset.card_image_of_injOn hinj
    have hfin : Fintype.card FrameId = numFrames := Fintype.card_fin _
    omega
  have hmem : f ∈ s.image frameOf := by
    rw [himage]
    exact Finset.mem_univ f
  obtain ⟨k, hk, rfl⟩ := Finset.mem_image.mp hmem
  exact ⟨k, hk, hframe k hk⟩

/-- When no frame is free or evictable, as many pages are pinned as there are
frames. -/
theorem card_of_all_pinned {bp : BufferPoolManager} (hinv : bp.Inv) {s : Finset PageKey}
    (hs : ∀ k, bp.pinsOf k ≠ 0 → k ∈ s) (hfree : bp.freeFrames = ∅)
    (hev : bp.replacer.evictable = ∅) : numFrames ≤ s.card := by
  have huse : ∀ f, ∃ k, bp.frameTable f = some k ∧ bp.pinCount f ≠ 0 := by
    intro f
    have hf : bp.frameTable f ≠ none := fun h => by
      simpa [hfree] using (hinv.free f).mpr h
    obtain ⟨k, hk⟩ := Option.ne_none_iff_exists'.mp hf
    refine ⟨k, hk, fun hpin => ?_⟩
    simpa [hev] using (hinv.evictable f).mpr ⟨hf, hpin⟩
  choose page hpage hpin using huse
  have hinj : Function.Injective page := by
    intro f g heq
    have h1 := (hinv.tables _ f).mpr (hpage f)
    have h2 := (hinv.tables _ g).mpr (hpage g)
    rw [heq, h2] at h1
    exact (Option.some.inj h1).symm
  have hsub : Finset.univ.image page ⊆ s := by
    intro k hk
    obtain ⟨f, _, rfl⟩ := Finset.mem_image.mp hk
    refine hs _ ?_
    simp [pinsOf, (hinv.tables _ f).mpr (hpage f), hpin f]
  have hcard := Finset.card_le_card hsub
  rw [Finset.card_image_of_injective _ hinj, Finset.card_univ, Fintype.card_fin] at hcard
  exact hcard

end BufferPoolManager

end DBEngine
