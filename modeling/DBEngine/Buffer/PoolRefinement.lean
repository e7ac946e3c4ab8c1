import DBEngine.Buffer.PoolInvariant

/-!
# The pool refines the flat store

`Refines bp w` says that the pool `bp` holds what the flat store `w` says: a
cached page is in its frame, a page that is neither cached dirty nor changed
since is on disk, and the pins agree.  Every request keeps it, with the same
answer, unless the client breaks the rules of the flat store; so every program
runs over the pool as over the flat store.
-/

set_option autoImplicit false

namespace DBEngine

open ByteBuffer Paged

/-- The pool as the flat store sees it: as many pins as frames, whole pages, and
the `KeyError` of `self.frame_table[None]` when every frame is pinned.  What may
stand in a page that nobody holds is for the clients to say. -/
def poolLimits (good : PageKey → Bytes → Bool) : Limits FileId Bytes PyErr where
  capacity := numFrames
  valid b := b.length == pageSize
  good := good
  full := .keyError "None"
  misuse := .misuse

/-- Clients that say nothing about what may stand in a page. -/
def anyBlock : PageKey → Bytes → Bool := fun _ _ => true

/-- A whole page of a file that has it. -/
def Storable (w : Flat FileId Bytes) (k : PageKey) : Prop :=
  (w.mem k).length = pageSize ∧ k.2 < w.size k.1

theorem savable_iff {good : PageKey → Bytes → Bool} {w : Flat FileId Bytes} {k : PageKey} :
    w.Savable (poolLimits good) k ↔ Storable w k := by
  simp [Flat.Savable, Storable, poolLimits]

namespace BufferPoolManager

/-- No cached copy of the page is dirty. -/
def Clean (bp : BufferPoolManager) (k : PageKey) : Prop :=
  ∀ f, bp.pageTable k = some f → bp.dirty f = false

/-- The pool holds what the flat store says.  Nothing is said about the pages
of files that were removed. -/
structure Refines (bp : BufferPoolManager) (w : Flat FileId Bytes) : Prop where
  inv : bp.Inv
  pins : ∀ k, bp.pinsOf k = w.pins.count k
  frame : ∀ k f, bp.pageTable k = some f → k.1 ∉ w.gone → bp.frames f = w.mem k
  disk : ∀ k, k.1 ∉ w.gone → k ∉ w.unsaved → bp.Clean k → bp.disk.page k = w.mem k
  cached : ∀ k ∈ w.unsaved, bp.pageTable k ≠ none
  size : ∀ f, f ∉ w.gone → (bp.disk.content f).length = w.size f * pageSize
  valid : ∀ k : PageKey, k.1 ∉ w.gone → k ∉ w.unsaved → (w.mem k).length = pageSize
  dirty : ∀ k f, bp.pageTable k = some f → bp.dirty f = true → k.1 ∉ w.gone → k.2 < w.size k.1

section

variable {bp bp' : BufferPoolManager} {w : Flat FileId Bytes} {k : PageKey} {f : FrameId}

theorem pinsOf_of_cached (h : bp.pageTable k = some f) : bp.pinsOf k = bp.pinCount f := by
  simp [pinsOf, h]

theorem mem_pins_iff (hr : bp.Refines w) : k ∈ w.pins ↔ bp.pinsOf k ≠ 0 := by
  rw [hr.pins, Multiset.count_ne_zero]

/-- A pinned page is cached. -/
theorem cached_of_mem_pins (hr : bp.Refines w) (hk : k ∈ w.pins) :
    ∃ f, bp.pageTable k = some f ∧ bp.pinCount f ≠ 0 := by
  have hpin := (mem_pins_iff hr).mp hk
  cases hf : bp.pageTable k with
  | none => simp [pinsOf, hf] at hpin
  | some f => exact ⟨f, rfl, by rwa [pinsOf_of_cached hf] at hpin⟩

theorem numPages_eq (hr : bp.Refines w) {g : FileId} (hg : g ∉ w.gone) :
    bp.disk.numPages g = w.size g := by
  rw [Disk.numPages, hr.size g hg, Nat.mul_div_cancel _ pageSize_pos]

theorem whole (hr : bp.Refines w) {g : FileId} (hg : g ∉ w.gone) : bp.disk.Whole g := by
  rw [Disk.Whole, numPages_eq hr hg, hr.size g hg]

/-! ## Fetching -/

/-- The files after a frame was vacated: the page it held is on disk now, and
every other page reads as before. -/
theorem page_of_vacated (hr : bp.Refines w) (hheld : w.Held) (hv : Vacated bp f bp')
    (hk : k.1 ∉ w.gone) (hun : k ∉ w.unsaved) (hclean : bp.Clean k ∨ bp.frameTable f = some k) :
    bp'.disk.page k = w.mem k := by
  rw [hv.disk]
  cases hold : bp.frameTable f with
  | none =>
      refine hr.disk k hk hun (hclean.resolve_right ?_)
      simp [hold]
  | some old =>
      have hcached : bp.pageTable old = some f := (hr.inv.tables old f).mpr hold
      by_cases hdirty : bp.dirty f = true
      · simp only [hdirty, if_true]
        by_cases hgone : old.1 ∈ w.gone
        · -- the old page belongs to a removed file: no other file is touched
          have hne : k.1 ≠ old.1 := fun h => hk (h ▸ hgone)
          have hclean' : bp.Clean k := hclean.resolve_right fun h => by
            rw [hold] at h
            exact hne (by rw [← Option.some.inj h])
          rw [Disk.page_congr (Disk.content_writePage_of_ne hne)]
          exact hr.disk k hk hun hclean'
        · have hpin : bp.pinCount f = 0 := hv.idle.resolve_left (by simp [hold])
          have holdun : old ∉ w.unsaved := fun h => by
            have := (mem_pins_iff hr).mp (hheld old h)
            rw [pinsOf_of_cached hcached] at this
            exact this hpin
          have hframe := hr.frame old f hcached hgone
          have hlen : (bp.frames f).length = pageSize := by
            rw [hframe]
            exact hr.valid old hgone holdun
          have hlt : old.2 < bp.disk.numPages old.1 := by
            rw [numPages_eq hr hgone]
            exact hr.dirty old f hcached hdirty hgone
          by_cases hko : k = old
          · subst hko
            rw [Disk.page_writePage_self (whole hr hgone) hlt hlen, hframe]
          · have hclean' : bp.Clean k := hclean.resolve_right fun h => by
              rw [hold] at h
              exact hko (Option.some.inj h).symm
            rw [Disk.page_writePage_of_ne (whole hr hgone) hlt hlen (by simpa using hko)]
            exact hr.disk k hk hun hclean'
      · simp only [hdirty]
        refine hr.disk k hk hun ?_
        rcases hclean with h | h
        · exact h
        · intro g hg
          rw [(hr.inv.tables k f).mpr h] at hg
          rw [← Option.some.inj hg]
          simpa using hdirty

theorem size_of_vacated (hr : bp.Refines w) (hheld : w.Held) (hv : Vacated bp f bp') {g : FileId}
    (hg : g ∉ w.gone) : (bp'.disk.content g).length = w.size g * pageSize := by
  rw [hv.disk, ← hr.size g hg]
  cases hold : bp.frameTable f with
  | none => rfl
  | some old =>
      by_cases hdirty : bp.dirty f = true
      · simp only [hdirty, if_true]
        by_cases hgo : g = old.1
        · subst hgo
          have hcached : bp.pageTable old = some f := (hr.inv.tables old f).mpr hold
          have hpin : bp.pinCount f = 0 := hv.idle.resolve_left (by simp [hold])
          have holdun : old ∉ w.unsaved := fun h => by
            have := (mem_pins_iff hr).mp (hheld old h)
            rw [pinsOf_of_cached hcached] at this
            exact this hpin
          refine Disk.length_writePage (whole hr hg) ?_ ?_
          · rw [numPages_eq hr hg]
            exact hr.dirty old f hcached hdirty hg
          · rw [hr.frame old f hcached hg]
            exact hr.valid old hg holdun
        · rw [Disk.content_writePage_of_ne hgo]
      · simp [hdirty]

/-- A page that is in no frame reads from disk as the flat store says. -/
theorem frames_loadPage_eq (hr : bp.Refines w) (hheld : w.Held) (hv : Vacated bp f bp')
    (hgone : k.1 ∉ w.gone) (hk : bp.pageTable k = none) : (bp'.loadPage f k).frames f = w.mem k := by
  have hkun : k ∉ w.unsaved := fun h => hr.cached k h hk
  have hread : bp'.disk.page k = w.mem k :=
    page_of_vacated hr hheld hv hgone hkun (Or.inl fun g hg => by simp [hk] at hg)
  simp [hread]

/-- Loading a page takes a pin on it, also when nothing is said about its file. -/
theorem refines_loadPage (hr : bp.Refines w) (hheld : w.Held) (hv : Vacated bp f bp')
    (hk : bp.pageTable k = none) : (bp'.loadPage f k).Refines (w.pin k) := by
  have htable := pageTable_loadPage (k := k) hv
  exact
    { inv := inv_loadPage hr.inv hv hk
      pins := fun j => by
        by_cases hj : j = k
        · subst hj
          have hzero : w.pins.count j = 0 := by
            rw [← hr.pins]
            simp [pinsOf, hk]
          simp [pinsOf, htable, hzero]
        · have hcount : (w.pin k).pins.count j = w.pins.count j := by
            simp [Multiset.count_cons_of_ne hj]
          rw [hcount, ← hr.pins]
          by_cases hold : bp.frameTable f = some j
          · -- the page that left was not pinned
            have hcached := (hr.inv.tables j f).mpr hold
            have hpin : bp.pinCount f = 0 := hv.idle.resolve_left (by simp [hold])
            simp [pinsOf, htable, hj, hold, hcached, hpin]
          · cases hg : bp.pageTable j with
            | none => simp [pinsOf, htable, hj, hg]
            | some g =>
                have hgf : g ≠ f := fun h => hold (by
                  rw [← h]
                  exact (hr.inv.tables j g).mp hg)
                simp [pinsOf, htable, hj, hold, hg, hv.pinCount, hgf]
      frame := fun j g hg hj => by
        rw [htable] at hg
        by_cases hjk : j = k
        · subst hjk
          simp only [if_true, Option.some.injEq] at hg
          subst hg
          have hframe : (bp'.loadPage f j).frames f = w.mem j := frames_loadPage_eq hr hheld hv hj hk
          exact hframe
        · by_cases hold : bp.frameTable f = some j
          · simp [hjk, hold] at hg
          · simp only [if_neg hjk, if_neg hold] at hg
            have hgf : g ≠ f := fun h => hold (by
              rw [← h]
              exact (hr.inv.tables j g).mp hg)
            have := hr.frame j g hg hj
            simpa [hv.frames, hgf] using this
      disk := fun j hj hjun hjclean => by
        have hpage : (bp'.loadPage f k).disk.page j = bp'.disk.page j :=
          Disk.page_congr (content_loadPage _)
        rw [hpage]
        by_cases hold : bp.frameTable f = some j
        · exact page_of_vacated (w := w) hr hheld hv hj hjun (Or.inr hold)
        · refine page_of_vacated (w := w) hr hheld hv hj hjun (Or.inl fun g hg => ?_)
          have hjk : j ≠ k := fun h => by simp [h, hk] at hg
          have hgf : g ≠ f := fun h => hold (by
            rw [← h]
            exact (hr.inv.tables j g).mp hg)
          have := hjclean g (by rw [htable]; simp [hjk, hold, hg])
          simpa [hv.dirty, hgf] using this
      cached := fun j hj => by
        rw [htable]
        by_cases hjk : j = k
        · simp [hjk]
        · obtain ⟨g, hg, hpin⟩ := cached_of_mem_pins hr (hheld j hj)
          have hold : bp.frameTable f ≠ some j := fun h => by
            have h2 := (hr.inv.tables j f).mpr h
            rw [hg] at h2
            rcases hv.idle with h3 | h3
            · simp [h3] at h
            · rw [Option.some.inj h2] at hpin
              exact hpin h3
          simp [hjk, hold, hg]
      size := fun g hg => by
        rw [content_loadPage]
        exact size_of_vacated hr hheld hv hg
      valid := hr.valid
      dirty := fun j g hg hdirty hj => by
        rw [htable] at hg
        by_cases hjk : j = k
        · subst hjk
          simp only [if_true, Option.some.injEq] at hg
          subst hg
          simp at hdirty
        · by_cases hold : bp.frameTable f = some j
          · simp [hjk, hold] at hg
          · simp only [if_neg hjk, if_neg hold] at hg
            have hgf : g ≠ f := fun h => hold (by
              rw [← h]
              exact (hr.inv.tables j g).mp hg)
            refine hr.dirty j g hg ?_ hj
            simpa [hv.dirty, hgf] using hdirty }

theorem refines_fetchHit (hr : bp.Refines w) (hk : bp.pageTable k = some f) :
    (bp.fetchHit f).Refines (w.pin k) where
  inv := inv_fetchHit hr.inv (by simp [(hr.inv.tables k f).mp hk])
  pins j := by
    by_cases hj : j = k
    · subst hj
      have := hr.pins j
      rw [pinsOf_of_cached hk] at this
      simp [pinsOf, fetchHit, touch, hk, this]
    · have hcount : (w.pin k).pins.count j = w.pins.count j := by
        simp [Multiset.count_cons_of_ne hj]
      rw [hcount, ← hr.pins]
      cases hg : bp.pageTable j with
      | none => simp [pinsOf, fetchHit, touch, hg]
      | some g =>
          have hgf : g ≠ f := fun h => hj (by
            have h1 := (hr.inv.tables j g).mp hg
            have h2 := (hr.inv.tables k f).mp hk
            rw [h, h2] at h1
            exact (Option.some.inj h1).symm)
          simp [pinsOf, fetchHit, touch, hg, hgf]
  frame := hr.frame
  disk := hr.disk
  cached := hr.cached
  size := hr.size
  valid := hr.valid
  dirty := hr.dirty

/-- The pool fails a fetch exactly when the flat store says it is full. -/
theorem full_iff (hr : bp.Refines w) :
    numFrames ≤ w.pins.toFinset.card ↔ bp.freeFrames = ∅ ∧ bp.replacer.evictable = ∅ := by
  have hpins : ∀ j, j ∈ w.pins.toFinset ↔ bp.pinsOf j ≠ 0 := fun j => by
    rw [Multiset.mem_toFinset, mem_pins_iff hr]
  constructor
  · intro hcard
    have hall := all_pinned_of_card hr.inv (fun j hj => (hpins j).mp hj) hcard
    constructor
    · refine Finset.eq_empty_of_forall_notMem fun f hf => ?_
      obtain ⟨j, _, hjf⟩ := hall f
      exact absurd ((hr.inv.free f).mp hf) (by simp [(hr.inv.tables j f).mp hjf])
    · refine Finset.eq_empty_of_forall_notMem fun f hf => ?_
      obtain ⟨j, hj, hjf⟩ := hall f
      have := (hpins j).mp hj
      rw [pinsOf_of_cached hjf] at this
      exact this ((hr.inv.evictable f).mp hf).2
  · rintro ⟨hfree, hev⟩
    exact card_of_all_pinned hr.inv (fun j hj => (hpins j).mpr hj) hfree hev

/-- A cached page that is not pinned leaves room for one more pin. -/
theorem not_full_of_cached (hr : bp.Refines w) (hk : bp.pageTable k = some f) (hpin : k ∉ w.pins) :
    ¬ numFrames ≤ w.pins.toFinset.card := by
  intro hcard
  obtain ⟨j, hj, hjf⟩ := all_pinned_of_card hr.inv
    (fun j hj => (mem_pins_iff hr).mp (Multiset.mem_toFinset.mp hj)) hcard f
  have h1 := (hr.inv.tables j f).mp hjf
  have h2 := (hr.inv.tables k f).mp hk
  rw [h2] at h1
  rw [← Option.some.inj h1] at hj
  exact hpin (Multiset.mem_toFinset.mp hj)

/-- `fetchPage` answers as the flat store does. -/
theorem refines_fetch (order : SetOrder) (hr : bp.Refines w) (hgone : k.1 ∉ w.gone)
    (hheld : w.Held) :
    (if k ∉ w.pins ∧ numFrames ≤ w.pins.toFinset.card then
        bp.fetchPage order k.2 k.1 = (.error (.keyError "None"), bp)
      else ∃ bp', bp.fetchPage order k.2 k.1 = (.ok (w.mem k), bp') ∧ bp'.Refines (w.pin k)) := by
  obtain ⟨fileId, pageId⟩ := k
  unfold fetchPage
  cases hk : bp.pageTable (fileId, pageId) with
  | some f =>
      have hnot : ¬ ((fileId, pageId) ∉ w.pins ∧ numFrames ≤ w.pins.toFinset.card) :=
        fun h => not_full_of_cached hr hk h.1 h.2
      rw [if_neg hnot]
      refine ⟨bp.fetchHit f, ?_, refines_fetchHit hr hk⟩
      simp only [hr.frame _ f hk hgone]
  | none =>
      have hpin : (fileId, pageId) ∉ w.pins := fun h => by
        obtain ⟨f, hf, _⟩ := cached_of_mem_pins hr h
        simp [hk] at hf
      rcases findFrame_cases order hr.inv with ⟨f, bp', hfind, hv⟩ | ⟨hfree, hev, hfind⟩
      · have hroom : ¬ numFrames ≤ w.pins.toFinset.card := by
          rw [full_iff hr]
          rintro ⟨hfree, hev⟩
          -- a frame was found, so one was free or evictable
          have huse : bp.frameTable f ≠ none := fun h => by
            simpa [hfree] using (hr.inv.free f).mpr h
          have hidle := hv.idle.resolve_left huse
          simpa [hev] using (hr.inv.evictable f).mpr ⟨huse, hidle⟩
        have hframe := frames_loadPage_eq hr hheld hv hgone hk
        rw [if_neg fun h => hroom h.2]
        refine ⟨_, ?_, refines_loadPage hr hheld hv hk⟩
        simp only [hfind, hframe]
      · rw [if_pos ⟨hpin, (full_iff hr).mpr ⟨hfree, hev⟩⟩]
        simp only [hfind]

/-! ## The other requests -/

/-- No two pages share a frame. -/
theorem ne_of_cached (hr : bp.Refines w) {j : PageKey} {g : FrameId}
    (hk : bp.pageTable k = some f) (hj : bp.pageTable j = some g) (hjk : j ≠ k) : g ≠ f := by
  intro h
  have h1 := (hr.inv.tables j g).mp hj
  have h2 := (hr.inv.tables k f).mp hk
  rw [h, h2] at h1
  exact hjk (Option.some.inj h1).symm

theorem framePeek_eq (hr : bp.Refines w) (hgone : k.1 ∉ w.gone) (hpin : k ∈ w.pins) :
    bp.framePeek k = w.mem k := by
  obtain ⟨f, hf, _⟩ := cached_of_mem_pins hr hpin
  simp [framePeek, hf, hr.frame k f hf hgone]

theorem refines_framePut (hr : bp.Refines w) (hpin : k ∈ w.pins) (b : Bytes) :
    (bp.framePut k b).Refines (w.write k b) := by
  obtain ⟨f, hf, _⟩ := cached_of_mem_pins hr hpin
  have heq : bp.framePut k b = { bp with frames := Function.update bp.frames f b } := by
    simp [framePut, hf]
  rw [heq]
  exact
    { inv := heq ▸ inv_framePut k b hr.inv
      pins := hr.pins
      frame := fun j g hg hj => by
        by_cases hjk : j = k
        · subst hjk
          have hgf : g = f := by
            rw [hf] at hg
            exact (Option.some.inj hg).symm
          subst hgf
          simp
        · have hgf := ne_of_cached hr hf hg hjk
          simpa [hgf, hjk] using hr.frame j g hg hj
      disk := fun j hj hun hclean => by
        have hjk : j ≠ k := fun h => hun (by simp [h])
        have hun' : j ∉ w.unsaved := fun h => hun (by simp [h])
        simpa [hjk] using hr.disk j hj hun' hclean
      cached := fun j hj => by
        rcases Finset.mem_insert.mp hj with rfl | hj
        · simp [hf]
        · exact hr.cached j hj
      size := hr.size
      valid := fun j hj hun => by
        have hjk : j ≠ k := fun h => hun (by simp [h])
        have hun' : j ∉ w.unsaved := fun h => hun (by simp [h])
        simpa [hjk] using hr.valid j hj hun'
      dirty := hr.dirty }

/-- Releasing a pin. -/
theorem refines_unpinPage (hr : bp.Refines w) (hpin : k ∈ w.pins) (dirty : Bool)
    (hsave : dirty = true → k.1 ∉ w.gone → Storable w k) :
    ∃ bp', bp.unpinPage k.2 k.1 dirty = (true, bp') ∧ bp'.Refines (w.release k dirty) := by
  obtain ⟨f, hf, hcount⟩ := cached_of_mem_pins hr hpin
  have hinv := inv_unpinPage k.2 k.1 dirty hr.inv
  unfold unpinPage at hinv ⊢
  simp only [Prod.mk.eta, hf, if_neg hcount] at hinv ⊢
  refine ⟨_, rfl, ?_⟩
  exact
    { inv := hinv
      pins := fun j => by
        by_cases hjk : j = k
        · subst hjk
          have := hr.pins j
          rw [pinsOf_of_cached hf] at this
          simp [pinsOf, hf, this]
        · have hold := hr.pins j
          cases hg : bp.pageTable j with
          | none => simpa [pinsOf, hg, Multiset.count_erase_of_ne hjk] using hold
          | some g =>
              have hgf := ne_of_cached hr hf hg hjk
              simpa [pinsOf, hg, hgf, Multiset.count_erase_of_ne hjk] using hold
      frame := hr.frame
      disk := fun j hj hun hclean => by
        cases dirty with
        | false => exact hr.disk j hj hun hclean
        | true =>
            have hjk : j ≠ k := fun h => by
              subst h
              simpa using hclean f hf
            have hun' : j ∉ w.unsaved := fun h => hun (by simp [hjk, h])
            refine hr.disk j hj hun' fun g hg => ?_
            simpa [ne_of_cached hr hf hg hjk] using hclean g hg
      cached := fun j hj => by
        cases dirty with
        | false => exact hr.cached j hj
        | true => exact hr.cached j (Finset.mem_of_mem_erase hj)
      size := hr.size
      valid := fun j hj hun => by
        cases dirty with
        | false => exact hr.valid j hj hun
        | true =>
            by_cases hjk : j = k
            · subst hjk
              exact (hsave rfl hj).1
            · exact hr.valid j hj fun h => hun (by simp [hjk, h])
      dirty := fun j g hg hdirty hj => by
        cases dirty with
        | false => exact hr.dirty j g hg hdirty hj
        | true =>
            by_cases hjk : j = k
            · subst hjk
              exact (hsave rfl hj).2
            · refine hr.dirty j g hg ?_ hj
              simpa [ne_of_cached hr hf hg hjk] using hdirty }

/-- A page that is not pinned cannot be released. -/
theorem unpinPage_rejected (hr : bp.Refines w) (hpin : k ∉ w.pins) (dirty : Bool) :
    bp.unpinPage k.2 k.1 dirty = (false, bp) := by
  have hzero : bp.pinsOf k = 0 := by
    by_contra h
    exact hpin ((mem_pins_iff hr).mpr h)
  unfold unpinPage
  simp only [Prod.mk.eta]
  cases hf : bp.pageTable k with
  | none => rfl
  | some f =>
      rw [pinsOf_of_cached hf] at hzero
      simp [hzero]

theorem refines_allocatePage (hr : bp.Refines w) {g : FileId} (hg : g ∉ w.gone) :
    (bp.allocatePage g).1 = w.size g ∧ (bp.allocatePage g).2.Refines (w.extend g) := by
  have hw := whole hr hg
  refine ⟨numPages_eq hr hg, ?_⟩
  exact
    { inv := inv_disk _ hr.inv
      pins := hr.pins
      frame := hr.frame
      disk := fun j hj hun hclean => by
        have hpage := Disk.page_allocatePage hw j
        exact hpage.trans (hr.disk j hj hun hclean)
      cached := hr.cached
      size := fun e he => by
        by_cases heg : e = g
        · subst heg
          have hlen := congrArg List.length (Disk.content_allocatePage hw)
          rw [List.length_append, length_zeros, hr.size e he] at hlen
          simpa [Nat.succ_mul, allocatePage] using hlen
        · have hcontent := Disk.content_allocatePage_of_ne (d := bp.disk) heg
          have hsize := hr.size e he
          rw [← hcontent] at hsize
          simpa [heg, allocatePage] using hsize
      valid := hr.valid
      dirty := fun j f hf hdirty hj => by
        have hlt := hr.dirty j f hf hdirty hj
        by_cases hjg : j.1 = g
        · rw [hjg] at hlt
          simp only [Flat.extend_size, hjg, Function.update_self]
          omega
        · simpa [hjg] using hlt }

/-- Writing the frame of a cached page: the flat store sees no difference. -/
theorem refines_writeThrough (hr : bp.Refines w) (hf : bp.pageTable k = some f)
    (hsave : k.1 ∉ w.gone → Storable w k) :
    (bp.flushPage k).2.Refines w ∧
      (k.1 ∉ w.gone → (bp.flushPage k).2.disk.page k = w.mem k) := by
  have hinv := inv_flushPage k hr.inv
  have hflush : (bp.flushPage k).2 = { bp with
      disk := bp.disk.writePage k.2 k.1 (bp.frames f)
      dirty := Function.update bp.dirty f false } := by simp [flushPage, hf]
  rw [hflush] at hinv ⊢
  have hlen : k.1 ∉ w.gone → (bp.frames f).length = pageSize := fun hk => by
    rw [hr.frame k f hf hk]
    exact (hsave hk).1
  have hlt : k.1 ∉ w.gone → k.2 < bp.disk.numPages k.1 := fun hk => by
    rw [numPages_eq hr hk]
    exact (hsave hk).2
  have hself : k.1 ∉ w.gone →
      (bp.disk.writePage k.2 k.1 (bp.frames f)).page k = w.mem k := fun hk =>
    (Disk.page_writePage_self (whole hr hk) (hlt hk) (hlen hk)).trans (hr.frame k f hf hk)
  have hother : ∀ j : PageKey, j.1 ∉ w.gone → j ≠ k →
      (bp.disk.writePage k.2 k.1 (bp.frames f)).page j = bp.disk.page j := fun j hj hjk => by
    by_cases hfile : j.1 = k.1
    · have hk : k.1 ∉ w.gone := hfile ▸ hj
      exact Disk.page_writePage_of_ne (whole hr hk) (hlt hk) (hlen hk) hjk
    · exact Disk.page_congr (Disk.content_writePage_of_ne hfile)
  refine ⟨?_, hself⟩
  exact
    { inv := hinv
      pins := hr.pins
      frame := hr.frame
      disk := fun j hj hun hclean => by
        by_cases hjk : j = k
        · subst hjk
          exact hself hj
        · refine (hother j hj hjk).trans (hr.disk j hj hun fun g hg => ?_)
          simpa [ne_of_cached hr hf hg hjk] using hclean g hg
      cached := hr.cached
      size := fun e he => by
        refine Eq.trans ?_ (hr.size e he)
        by_cases hek : e = k.1
        · subst hek
          exact Disk.length_writePage (whole hr he) (hlt he) (hlen he)
        · exact congrArg List.length (Disk.content_writePage_of_ne hek)
      valid := hr.valid
      dirty := fun j g hg hdirty hj => by
        by_cases hjk : j = k
        · subst hjk
          exact (hsave hj).2
        · refine hr.dirty j g hg ?_ hj
          simpa [ne_of_cached hr hf hg hjk] using hdirty }

/-- A page whose block is on disk counts as saved. -/
theorem refines_save (hr : bp.Refines w) (hsave : Storable w k)
    (hpage : bp.disk.page k = w.mem k) : bp.Refines (w.save k) where
  inv := hr.inv
  pins := hr.pins
  frame := hr.frame
  disk j hj hun hclean := by
    by_cases hjk : j = k
    · subst hjk
      exact hpage
    · exact hr.disk j hj (fun h => hun (by simp [hjk, h])) hclean
  cached j hj := hr.cached j (Finset.mem_of_mem_erase hj)
  size := hr.size
  valid j hj hun := by
    by_cases hjk : j = k
    · subst hjk
      exact hsave.1
    · exact hr.valid j hj fun h => hun (by simp [hjk, h])
  dirty := hr.dirty

/-- `flushPage` answers as the flat store does. -/
theorem refines_flushPage (hr : bp.Refines w) (hgone : k.1 ∉ w.gone)
    (hsave : Storable w k) : (bp.flushPage k).2.Refines (w.save k) := by
  cases hf : bp.pageTable k with
  | none =>
      -- a page that is not cached is on disk already
      have hun : k ∉ w.unsaved := fun h => hr.cached k h hf
      have hsame : w.save k = w := by simp [Flat.save, hun]
      simpa [flushPage, hf, hsame] using hr
  | some f =>
      obtain ⟨hr', hpage⟩ := refines_writeThrough hr hf fun _ => hsave
      exact refines_save hr' hsave (hpage hgone)

theorem refines_remove (hr : bp.Refines w) {g : FileId} (hg : g ∉ w.gone) (hsize : w.size g ≠ 0) :
    (bp.disk.remove g).1 = .ok () ∧
      ({ bp with disk := (bp.disk.remove g).2 } : BufferPoolManager).Refines (w.forget g) := by
  have hex : ∃ bytes, bp.disk.files g = some bytes := by
    refine Option.ne_none_iff_exists'.mp fun h => ?_
    have hlen := hr.size g hg
    simp only [Disk.content, h, Option.getD_none, List.length_nil] at hlen
    have := pageSize_pos
    have := Nat.pos_of_ne_zero hsize
    have := Nat.mul_pos this pageSize_pos
    omega
  obtain ⟨bytes, hbytes⟩ := hex
  have heq : bp.disk.remove g = (.ok (), ⟨Function.update bp.disk.files g none⟩) := by
    simp [Disk.remove, hbytes]
  rw [heq]
  refine ⟨rfl, ?_⟩
  have hcontent : ∀ e, e ≠ g →
      (⟨Function.update bp.disk.files g none⟩ : Disk).content e = bp.disk.content e := by
    intro e he
    simp [Disk.content, he]
  have hother : ∀ e, e ∉ (w.forget g).gone → e ≠ g ∧ e ∉ w.gone := by
    intro e he
    simpa [Flat.forget, not_or] using he
  exact
    { inv := inv_disk _ hr.inv
      pins := hr.pins
      frame := fun j f hf hj => hr.frame j f hf (hother _ hj).2
      disk := fun j hj hun hclean => by
        rw [Disk.page_congr (hcontent _ (hother _ hj).1)]
        exact hr.disk j (hother _ hj).2 hun hclean
      cached := hr.cached
      size := fun e he => by
        rw [hcontent e (hother e he).1]
        exact hr.size e (hother e he).2
      valid := fun j hj hun => hr.valid j (hother _ hj).2 hun
      dirty := fun j f hf hdirty hj => hr.dirty j f hf hdirty (hother _ hj).2 }

end

/-! ## Programs -/

/-- The pool answers every request as the flat store does. -/
theorem store_simulates (order : SetOrder) (good : PageKey → Bytes → Bool) :
    Simulates (store order) (Flat.store (poolLimits good)) .misuse Refines := by
  intro r bp w hr
  cases r with
  | fetch k =>
      by_cases hbad : k.1 ∈ w.gone ∨ ¬ w.Held
      · left
        simp only [Flat.store, if_pos hbad]
        rfl
      · right
        have hgone : k.1 ∉ w.gone := fun h => hbad (Or.inl h)
        have hheld : w.Held := not_not.mp fun h => hbad (Or.inr h)
        have hfetch := refines_fetch order hr hgone hheld
        simp only [Flat.store, if_neg hbad, store]
        by_cases hfull : k ∉ w.pins ∧ numFrames ≤ w.pins.toFinset.card
        · rw [if_pos hfull] at hfetch
          rw [if_pos (show k ∉ w.pins ∧ (poolLimits good).capacity ≤ w.pins.toFinset.card from hfull),
            hfetch]
          exact ⟨rfl, hr⟩
        · rw [if_neg hfull] at hfetch
          obtain ⟨bp', hbp', hr'⟩ := hfetch
          rw [if_neg (show ¬ (k ∉ w.pins ∧ (poolLimits good).capacity ≤ w.pins.toFinset.card) from hfull),
            hbp']
          exact ⟨rfl, hr'⟩
  | peek k =>
      by_cases hbad : k.1 ∈ w.gone ∨ k ∉ w.pins
      · left
        simp only [Flat.store, if_pos hbad]
        rfl
      · right
        have hgone : k.1 ∉ w.gone := fun h => hbad (Or.inl h)
        have hpin : k ∈ w.pins := not_not.mp fun h => hbad (Or.inr h)
        simp only [Flat.store, if_neg hbad, store, framePeek_eq hr hgone hpin]
        exact ⟨trivial, hr⟩
  | put k b =>
      by_cases hbad : k.1 ∈ w.gone ∨ k ∉ w.pins
      · left
        simp only [Flat.store, if_pos hbad]
        rfl
      · right
        have hpin : k ∈ w.pins := not_not.mp fun h => hbad (Or.inr h)
        simp only [Flat.store, if_neg hbad, store]
        exact ⟨trivial, refines_framePut hr hpin b⟩
  | unpin k dirty =>
      by_cases hgone : k.1 ∈ w.gone
      · left
        simp only [Flat.store, if_pos hgone]
        rfl
      · by_cases hpin : k ∈ w.pins
        · by_cases hbad : ¬ w.Good (poolLimits good) k ∨
              dirty = true ∧ ¬ w.Savable (poolLimits good) k
          · left
            simp only [Flat.store, if_neg hgone, if_neg (not_not.mpr hpin), if_pos hbad]
            rfl
          · right
            obtain ⟨bp', hbp', hr'⟩ := refines_unpinPage hr hpin dirty fun hd _ =>
              savable_iff.mp (not_not.mp fun h => hbad (Or.inr ⟨hd, h⟩))
            simp only [Flat.store, if_neg hgone, if_neg (not_not.mpr hpin), if_neg hbad, store,
              hbp']
            exact ⟨trivial, hr'⟩
        · right
          simp only [Flat.store, if_neg hgone, if_pos hpin, store, unpinPage_rejected hr hpin]
          exact ⟨trivial, hr⟩
  | alloc g =>
      by_cases hgone : g ∈ w.gone
      · left
        simp only [Flat.store, if_pos hgone]
        rfl
      · right
        obtain ⟨hid, hr'⟩ := refines_allocatePage hr hgone
        simp only [Flat.store, if_neg hgone, store, hid]
        exact ⟨trivial, hr'⟩
  | flush k =>
      by_cases hbad : k.1 ∈ w.gone ∨ ¬ w.Good (poolLimits good) k ∨ ¬ w.Savable (poolLimits good) k
      · left
        simp only [Flat.store, if_pos hbad]
        rfl
      · right
        simp only [Flat.store, if_neg hbad, store]
        exact ⟨trivial, refines_flushPage hr (fun h => hbad (Or.inl h))
          (savable_iff.mp (not_not.mp fun h => hbad (Or.inr (Or.inr h))))⟩
  | remove g =>
      by_cases hbad : g ∈ w.gone ∨ w.size g = 0 ∨ g ∈ w.pins.map Prod.fst ∨
          g ∈ w.unsaved.image Prod.fst
      · left
        simp only [Flat.store, if_pos hbad]
        rfl
      · right
        obtain ⟨hok, hr'⟩ := refines_remove hr (fun h => hbad (Or.inl h))
          (fun h => hbad (Or.inr (Or.inl h)))
        simp only [Flat.store, if_neg hbad, store, hok]
        exact ⟨rfl, hr'⟩

/-- A run over the pool is the run over the flat store. -/
theorem run_eq_flat {σ α : Type} (order : SetOrder) {good : PageKey → Bytes → Bool}
    (p : Prog FileId Bytes PyErr σ α) (s s' : σ) {bp : BufferPoolManager}
    {w w' : Flat FileId Bytes} {r : Except PyErr α} (hr : bp.Refines w)
    (hrun : p.run (Flat.store (poolLimits good)) s w = (r, s', w')) (hok : r ≠ .error .misuse) :
    ∃ bp', p.run (store order) s bp = (r, s', bp') ∧ bp'.Refines w' := by
  rcases run_simulates (store_simulates order good) p s hr with hbad | ⟨hres, hst, hr'⟩
  · rw [hrun] at hbad
    exact absurd hbad hok
  · rw [hrun] at hres hst hr'
    exact ⟨(p.run (store order) s bp).2.2, Prod.ext hres (Prod.ext hst rfl), hr'⟩

/-! ## Flushing everything, and starting again -/

/-- `flush_all` writes every dirty frame and changes nothing a client can see. -/
theorem refines_flushFrames : ∀ (frames : List FrameId) {bp : BufferPoolManager}
    {w : Flat FileId Bytes}, bp.Refines w →
    (∀ k f, bp.pageTable k = some f → bp.dirty f = true → k.1 ∉ w.gone → Storable w k) →
    ∃ bp', flushFrames frames bp = (.ok (), bp') ∧ bp'.Refines w ∧
      ∀ f, bp'.dirty f = true → bp.dirty f = true ∧ f ∉ frames := by
  intro frames
  induction frames with
  | nil => exact fun {bp} w hr _ => ⟨bp, rfl, hr, fun f hf => ⟨hf, List.not_mem_nil⟩⟩
  | cons f rest ih =>
      intro bp w hr hsave
      by_cases hdirty : bp.dirty f = true
      · obtain ⟨k, hk⟩ := Option.ne_none_iff_exists'.mp (hr.inv.dirty f hdirty)
        have hf : bp.pageTable k = some f := (hr.inv.tables k f).mpr hk
        obtain ⟨hr', -⟩ := refines_writeThrough hr hf (hsave k f hf hdirty)
        have hflush : (bp.flushPage k).2 = { bp with
            disk := bp.disk.writePage k.2 k.1 (bp.frames f)
            dirty := Function.update bp.dirty f false } := by simp [flushPage, hf]
        have hless : ∀ g, (bp.flushPage k).2.dirty g = true → bp.dirty g = true ∧ g ≠ f := by
          intro g hg
          rw [hflush] at hg
          by_cases hgf : g = f
          · subst hgf
            simp at hg
          · exact ⟨by simpa [hgf] using hg, hgf⟩
        obtain ⟨bp', hloop, hr'', hclean⟩ := ih hr' fun j g hg hd hj =>
          hsave j g (by simpa [hflush] using hg) (hless g hd).1 hj
        refine ⟨bp', by simp only [flushFrames, if_pos hdirty, hk, hloop], hr'', fun g hg => ?_⟩
        obtain ⟨h1, h2⟩ := hclean g hg
        obtain ⟨h3, h4⟩ := hless g h1
        exact ⟨h3, by simp [h4, h2]⟩
      · obtain ⟨bp', hloop, hr', hclean⟩ := ih hr hsave
        refine ⟨bp', by simp only [flushFrames, if_neg hdirty, hloop], hr', fun g hg => ?_⟩
        obtain ⟨h1, h2⟩ := hclean g hg
        have hgf : g ≠ f := fun h => hdirty (h ▸ h1)
        exact ⟨h1, by simp [hgf, h2]⟩

/-- After `flush_all` no frame is dirty. -/
theorem refines_flushAll {bp : BufferPoolManager} {w : Flat FileId Bytes} (hr : bp.Refines w)
    (hlen : ∀ k : PageKey, k.1 ∉ w.gone → k ∈ w.unsaved → (w.mem k).length = pageSize) :
    ∃ bp', bp.flushAll = (.ok (), bp') ∧ bp'.Refines w ∧ ∀ f, bp'.dirty f = false := by
  obtain ⟨bp', hflush, hr', hclean⟩ := refines_flushFrames (List.finRange numFrames) hr
    fun k f hf hd hk => ⟨(by
      by_cases hun : k ∈ w.unsaved
      · exact hlen k hk hun
      · exact hr.valid k hk hun), hr.dirty k f hf hd hk⟩
  refine ⟨bp', hflush, hr', fun f => ?_⟩
  by_contra hf
  exact (hclean f (by simpa using hf)).2 (List.mem_finRange f)

/-- A new pool over the files of a clean pool, where all pins are lost, holds the same
pages. -/
theorem refines_restart {bp : BufferPoolManager} {w : Flat FileId Bytes} {lost : Multiset PageKey}
    (hr : bp.Refines (w.leak lost)) (hclean : ∀ f, bp.dirty f = false) (hpins : w.pins = 0)
    (hun : w.unsaved = ∅) : (new bp.disk).Refines w where
  inv := inv_new _
  pins k := by simp [hpins, pinsOf, new]
  frame k f hf := by simp [new] at hf
  disk k hk hunk _ := hr.disk k hk hunk fun f _ => hclean f
  cached k hk := by simp [hun] at hk
  size := hr.size
  valid := hr.valid
  dirty k f hf := by simp [new] at hf

/-- A new pool over the files of a clean pool without pins holds the same pages. -/
theorem refines_new {bp : BufferPoolManager} {w : Flat FileId Bytes} (hr : bp.Refines w)
    (hclean : ∀ f, bp.dirty f = false) (hpins : w.pins = 0) (hun : w.unsaved = ∅) :
    (new bp.disk).Refines w := by
  have hr' : bp.Refines (w.leak 0) := by rwa [Flat.leak_zero]
  exact refines_restart hr' hclean hpins hun

/-- The flat store of the files as they are on disk. -/
def flatOf (d : Disk) : Flat FileId Bytes where
  mem := d.page
  size := d.numPages
  pins := 0
  unsaved := ∅
  gone := ∅

@[simp] theorem flatOf_mem (d : Disk) : (flatOf d).mem = d.page := rfl
@[simp] theorem flatOf_size (d : Disk) : (flatOf d).size = d.numPages := rfl
@[simp] theorem flatOf_pins (d : Disk) : (flatOf d).pins = 0 := rfl
@[simp] theorem flatOf_unsaved (d : Disk) : (flatOf d).unsaved = ∅ := rfl
@[simp] theorem flatOf_gone (d : Disk) : (flatOf d).gone = ∅ := rfl

/-- A new pool over files of whole pages. -/
theorem refines_flatOf {d : Disk} (hd : ∀ f, d.Whole f) : (new d).Refines (flatOf d) where
  inv := inv_new _
  pins k := by simp [flatOf, pinsOf, new]
  frame k f hf := by simp [new] at hf
  disk _ _ _ _ := rfl
  cached k hk := by simp [flatOf] at hk
  size f _ := hd f
  valid k _ _ := Disk.length_page (hd k.1) k.2
  dirty k f hf := by simp [new] at hf

/-! ## The pages of a pool -/

/-- The bytes a fetch of the page would return. -/
def current (k : PageKey) (bp : BufferPoolManager) : Bytes :=
  match bp.pageTable k with
  | some frameId => bp.frames frameId
  | none => bp.disk.page k

theorem current_eq {bp : BufferPoolManager} {w : Flat FileId Bytes} {k : PageKey}
    (hr : bp.Refines w) (hgone : k.1 ∉ w.gone) : bp.current k = w.mem k := by
  unfold current
  cases hk : bp.pageTable k with
  | some g => exact hr.frame k g hk hgone
  | none =>
      have hun : k ∉ w.unsaved := fun h => hr.cached k h hk
      exact hr.disk k hgone hun fun g hg => by simp [hk] at hg

end BufferPoolManager

end DBEngine
