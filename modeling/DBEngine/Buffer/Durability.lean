import DBEngine.Buffer.PoolRefinement

/-!
# What an unclean stop finds on disk

The pool writes a frame when it is evicted or flushed.  An evicted page is held
by nobody, so a client that lets go of a page only in states it can pick up
again finds such a state in every page of the files, whenever the process stops
and whatever the pool had written by then.
-/

set_option autoImplicit false

namespace DBEngine

open ByteBuffer Paged

namespace BufferPoolManager

variable {good : PageKey → Bytes → Bool} {bp bp' : BufferPoolManager} {w : Flat FileId Bytes}
  {k : PageKey} {f : FrameId}

/-- Every page of the files that exist may be found as it is on disk. -/
def Durable (good : PageKey → Bytes → Bool) (bp : BufferPoolManager) (w : Flat FileId Bytes) :
    Prop :=
  ∀ k : PageKey, k.1 ∉ w.gone → good k (bp.disk.page k) = true

/-- Vacating a frame writes at most the page it held, which nobody holds. -/
theorem page_vacated_cases (hr : bp.Refines w) (hheld : w.Held) (hv : Vacated bp f bp')
    (hk : k.1 ∉ w.gone) :
    bp'.disk.page k = bp.disk.page k ∨ (bp'.disk.page k = w.mem k ∧ k ∉ w.pins) := by
  rw [hv.disk]
  cases hold : bp.frameTable f with
  | none => exact Or.inl rfl
  | some old =>
      have hcached : bp.pageTable old = some f := (hr.inv.tables old f).mpr hold
      have hpin : bp.pinCount f = 0 := hv.idle.resolve_left (by simp [hold])
      have hfree : old ∉ w.pins := fun h => by
        rw [mem_pins_iff hr, pinsOf_of_cached hcached] at h
        exact h hpin
      by_cases hdirty : bp.dirty f = true
      · simp only [hdirty, if_true]
        by_cases hfile : k.1 = old.1
        · have hgone : old.1 ∉ w.gone := hfile ▸ hk
          have hun : old ∉ w.unsaved := fun h => hfree (hheld old h)
          have hlt : old.2 < bp.disk.numPages old.1 := by
            rw [numPages_eq hr hgone]
            exact hr.dirty old f hcached hdirty hgone
          have hframe := hr.frame old f hcached hgone
          have hlen : (bp.frames f).length = pageSize := by
            rw [hframe]
            exact hr.valid old hgone hun
          by_cases hko : k = old
          · subst hko
            right
            exact ⟨by rw [Disk.page_writePage_self (whole hr hgone) hlt hlen, hframe], hfree⟩
          · left
            exact Disk.page_writePage_of_ne (whole hr hgone) hlt hlen (by simpa using hko)
        · left
          exact Disk.page_congr (Disk.content_writePage_of_ne hfile)
      · left
        simp [hdirty]

/-- A fetch writes no more than the page it evicts. -/
theorem durable_fetchPage (order : SetOrder) (hr : bp.Refines w) (hheld : w.Held)
    (hrest : w.Rested (poolLimits good)) (hd : bp.Durable good w) (k : PageKey) :
    (bp.fetchPage order k.2 k.1).2.Durable good w := by
  unfold fetchPage
  cases hk : bp.pageTable k with
  | some f => exact hd
  | none =>
      rcases findFrame_cases order hr.inv with ⟨f, mid, hfind, hv⟩ | ⟨-, -, hfind⟩
      · simp only [hfind]
        intro j hj
        rw [Disk.page_congr (content_loadPage j.1)]
        rcases page_vacated_cases hr hheld hv hj with hsame | ⟨hmem, hfree⟩
        · rw [hsame]
          exact hd j hj
        · rw [hmem]
          exact hrest j hj hfree
      · simp only [hfind]
        exact hd

/-- Writing a page through leaves what its client wrote. -/
theorem durable_flushPage (hr : bp.Refines w) (hgone : k.1 ∉ w.gone) (hsave : Storable w k)
    (hgood : good k (w.mem k) = true) (hd : bp.Durable good w) :
    (bp.flushPage k).2.Durable good w := by
  unfold flushPage
  cases hf : bp.pageTable k with
  | none => exact hd
  | some f =>
      have hlt : k.2 < bp.disk.numPages k.1 := by
        rw [numPages_eq hr hgone]
        exact hsave.2
      have hframe := hr.frame k f hf hgone
      have hlen : (bp.frames f).length = pageSize := by
        rw [hframe]
        exact hsave.1
      intro j hj
      by_cases hjk : j = k
      · subst hjk
        have hself : (bp.disk.writePage j.2 j.1 (bp.frames f)).page j = bp.frames f :=
          Disk.page_writePage_self (whole hr hgone) hlt hlen
        rw [hframe] at hself
        simp only [hframe, hself]
        exact hgood
      · have hother : (bp.disk.writePage k.2 k.1 (bp.frames f)).page j = bp.disk.page j :=
          Disk.page_writePage_of_ne (whole hr hgone) hlt hlen hjk
        simp only [hother]
        exact hd j hj

/-- Every request keeps the disk as it may be found. -/
theorem durable_store (order : SetOrder) (r : Request FileId Bytes) (hr : bp.Refines w)
    (hrest : w.Rested (poolLimits good)) (hd : bp.Durable good w)
    (hok : (Flat.store (poolLimits good) r w).1 ≠ .error .misuse) :
    (store order r bp).2.Durable good (Flat.store (poolLimits good) r w).2 := by
  cases r with
  | fetch k =>
      simp only [Flat.store] at hok ⊢
      split_ifs at hok ⊢ with hbad hfull
      · exact absurd rfl hok
      · exact durable_fetchPage order hr (not_not.mp fun h => hbad (Or.inr h)) hrest hd k
      · exact durable_fetchPage order hr (not_not.mp fun h => hbad (Or.inr h)) hrest hd k
  | peek k =>
      simp only [Flat.store] at hok ⊢
      split_ifs <;> exact hd
  | put k b =>
      simp only [Flat.store] at hok ⊢
      have hdisk : (store order (.put k b) bp).2.disk = bp.disk := by
        simp only [store, framePut]
        split <;> rfl
      split_ifs <;> exact fun j hj => by
        rw [hdisk]
        exact hd j hj
  | unpin k dirty =>
      simp only [Flat.store] at hok ⊢
      have hdisk : (store order (.unpin k dirty) bp).2.disk = bp.disk := by
        simp only [store, unpinPage]
        split
        · rfl
        · split_ifs <;> rfl
      split_ifs <;> exact fun j hj => by
        rw [hdisk]
        exact hd j hj
  | alloc g =>
      simp only [Flat.store] at hok ⊢
      split_ifs at hok ⊢ with hgone
      · exact absurd rfl hok
      · intro j hj
        simp only [store, allocatePage]
        rw [Disk.page_allocatePage (whole hr hgone)]
        exact hd j hj
  | flush k =>
      simp only [Flat.store] at hok ⊢
      split_ifs at hok ⊢ with hbad
      · exact absurd rfl hok
      · have hgood : w.Good (poolLimits good) k :=
          not_not.mp fun h => hbad (Or.inr (Or.inl h))
        have hsave : w.Savable (poolLimits good) k :=
          not_not.mp fun h => hbad (Or.inr (Or.inr h))
        have hflush : (bp.flushPage k).2.Durable good w :=
          durable_flushPage hr (fun h => hbad (Or.inl h)) (savable_iff.mp hsave) hgood hd
        exact hflush
  | remove g =>
      simp only [Flat.store] at hok ⊢
      split_ifs at hok ⊢ with hbad
      · exact absurd rfl hok
      · intro j hj
        have hne : j.1 ≠ g := fun h => hj (by simp [Flat.forget, h])
        have hcontent : (bp.disk.remove g).2.content j.1 = bp.disk.content j.1 := by
          unfold Disk.remove
          split
          · rfl
          · simp [Disk.content, hne]
        simp only [store]
        rw [Disk.page_congr hcontent]
        exact hd j fun h => hj (by simp [Flat.forget, h])

/-- The pool holds what the flat store says, and leaves on disk only what its
clients can pick up again. -/
structure Keeps (good : PageKey → Bytes → Bool) (bp : BufferPoolManager) (w : Flat FileId Bytes) :
    Prop where
  refines : bp.Refines w
  rested : w.Rested (poolLimits good)
  durable : bp.Durable good w

/-- One request, with the disk in view. -/
theorem store_simulates_keeps (order : SetOrder) (good : PageKey → Bytes → Bool) :
    Simulates (store order) (Flat.store (poolLimits good)) .misuse (Keeps good) := by
  intro r bp w h
  by_cases hbad : (Flat.store (poolLimits good) r w).1 = .error .misuse
  · exact Or.inl hbad
  · rcases store_simulates order good r bp w h.refines with hmis | ⟨hres, hr⟩
    · exact absurd hmis hbad
    · exact Or.inr ⟨hres, ⟨hr, Flat.rested_store h.rested r,
        durable_store order r h.refines h.rested h.durable hbad⟩⟩

/-- A run over the pool is the run over the flat store, and keeps the disk as
it may be found. -/
theorem run_keeps {σ α : Type} (order : SetOrder) (p : Prog FileId Bytes PyErr σ α) (s s' : σ)
    {w' : Flat FileId Bytes} {r : Except PyErr α} (h : bp.Keeps good w)
    (hrun : p.run (Flat.store (poolLimits good)) s w = (r, s', w')) (hok : r ≠ .error .misuse) :
    ∃ bp', p.run (store order) s bp = (r, s', bp') ∧ bp'.Keeps good w' := by
  rcases run_simulates (store_simulates_keeps order good) p s h with hbad | ⟨hres, hst, h'⟩
  · rw [hrun] at hbad
    exact absurd hbad hok
  · rw [hrun] at hres hst h'
    exact ⟨(p.run (store order) s bp).2.2, Prod.ext hres (Prod.ext hst rfl), h'⟩

/-- A new pool over the files a stopped process left. -/
theorem keeps_new (h : bp.Keeps good w) (hgone : w.gone = ∅) :
    (new bp.disk).Keeps good (flatOf bp.disk) where
  refines := refines_flatOf fun f => whole h.refines (by simp [hgone])
  rested k _ _ := h.durable k (by simp [hgone])
  durable k _ := h.durable k (by simp [hgone])

/-! ## A pool with frames to spare -/

/-- The pool has `n` free frames. -/
structure Free (n : Nat) (bp : BufferPoolManager) : Prop where
  inv : bp.Inv
  free : n ≤ bp.freeFrames.card

/-- The pool has `n` free frames, and the pages on disk are those of `image`. -/
structure Spare (image : PageKey → Bytes) (n : Nat) (bp : BufferPoolManager) : Prop
    extends Free n bp where
  whole : ∀ f, bp.disk.Whole f
  image : ∀ k, bp.disk.page k = image k

/-- The requests that leave the pages on disk alone while there are free frames. -/
def LeavesDisk : Request FileId Bytes → Prop
  | .flush _ => False
  | .remove _ => False
  | _ => True

/-- The free frames a request takes. -/
def framesTaken : Request FileId Bytes → Nat
  | .fetch _ => 1
  | _ => 0

theorem free_mono {m n : Nat} (h : m ≤ n) (hs : Free n bp) : Free m bp :=
  ⟨hs.inv, Nat.le_trans h hs.free⟩

theorem spare_mono {image : PageKey → Bytes} {m n : Nat} (h : m ≤ n) (hs : Spare image n bp) :
    Spare image m bp := ⟨free_mono h hs.toFree, hs.whole, hs.image⟩

/-- A new pool is all free. -/
theorem free_new (disk : Disk) : Free numFrames (new disk) :=
  ⟨inv_new disk, by simp [new]⟩

/-- With a free frame to take, a fetch evicts nothing. -/
theorem fetchPage_of_free (order : SetOrder) {n : Nat} (hs : Free (n + 1) bp) (k : PageKey) :
    Free n (bp.fetchPage order k.2 k.1).2 ∧
      ∀ g, (bp.fetchPage order k.2 k.1).2.disk.content g = bp.disk.content g := by
  have hinv := inv_fetchPage order k.2 k.1 hs.inv
  unfold fetchPage at hinv ⊢
  cases hk : bp.pageTable (k.1, k.2) with
  | some f =>
      rw [hk] at hinv
      exact ⟨⟨hinv, Nat.le_of_succ_le hs.free⟩, fun _ => rfl⟩
  | none =>
      cases hiter : order.iter bp.replacer.currentTime bp.freeFrames with
      | nil =>
          -- some frame is free, so the iteration is not empty
          obtain ⟨f, hf⟩ := Finset.card_pos.mp (Nat.lt_of_lt_of_le (Nat.succ_pos n) hs.free)
          have := (order.mem_iter bp.replacer.currentTime _ f).mpr hf
          simp [hiter] at this
      | cons f rest =>
          have hf : f ∈ bp.freeFrames :=
            (order.mem_iter bp.replacer.currentTime _ f).mp (by simp [hiter])
          have hfind : bp.findFrame order =
              (.ok f, { bp with freeFrames := bp.freeFrames.erase f }) := by
            simp [findFrame, hiter]
          have hcard := Finset.card_erase_of_mem hf
          have hfree := hs.free
          simp only [hk, hfind] at hinv ⊢
          refine ⟨⟨hinv, ?_⟩, content_loadPage⟩
          change n ≤ (bp.freeFrames.erase f).card
          omega

/-- No request takes more free frames than it says. -/
theorem free_store (order : SetOrder) (r : Request FileId Bytes) (n : Nat) (bp : BufferPoolManager)
    (hs : Free (n + framesTaken r) bp) : Free n (store order r bp).2 := by
  cases r with
  | fetch k => exact (fetchPage_of_free order hs k).1
  | peek k => exact hs
  | put k b =>
      refine ⟨inv_framePut k b hs.inv, ?_⟩
      simp only [store, framePut]
      split <;> exact hs.free
  | unpin k dirty =>
      refine ⟨inv_unpinPage k.2 k.1 dirty hs.inv, ?_⟩
      simp only [store, unpinPage]
      split
      · exact hs.free
      · split <;> exact hs.free
  | alloc f => exact ⟨inv_disk _ hs.inv, hs.free⟩
  | flush k =>
      refine ⟨inv_flushPage k hs.inv, ?_⟩
      simp only [store, flushPage]
      split <;> exact hs.free
  | remove f => exact ⟨inv_disk _ hs.inv, hs.free⟩

/-- As long as there are free frames, the pages on disk stay as they are. -/
theorem spare_store (order : SetOrder) {image : PageKey → Bytes} (r : Request FileId Bytes) (n : Nat)
    (bp : BufferPoolManager) (hr : LeavesDisk r) (hs : Spare image (n + framesTaken r) bp) :
    Spare image n (store order r bp).2 := by
  have hfree := free_store order r n bp hs.toFree
  have hsame : ∀ {bp' : BufferPoolManager}, Free n bp' →
      (∀ g, bp'.disk.content g = bp.disk.content g) → Spare image n bp' := fun h hcontent =>
    ⟨h, fun g => by simpa [Disk.Whole, Disk.numPages, hcontent] using hs.whole g,
      fun k => (Disk.page_congr (hcontent k.1)).trans (hs.image k)⟩
  cases r with
  | fetch k => exact hsame hfree (fetchPage_of_free order hs.toFree k).2
  | peek k => exact hs
  | put k b =>
      refine hsame hfree fun g => ?_
      simp only [store, framePut]
      split <;> rfl
  | unpin k dirty =>
      refine hsame hfree fun g => ?_
      simp only [store, unpinPage]
      split
      · rfl
      · split <;> rfl
  | alloc f =>
      refine ⟨hfree, fun g => ?_, fun k => (Disk.page_allocatePage (hs.whole f) k).trans (hs.image k)⟩
      by_cases hg : g = f
      · subst hg
        exact Disk.whole_allocatePage (hs.whole g)
      · have hcontent := Disk.content_allocatePage_of_ne (d := bp.disk) hg
        have hold := hs.whole g
        simp only [store, allocatePage, Disk.Whole, Disk.numPages, hcontent] at hold ⊢
        exact hold
  | flush k => exact absurd hr id
  | remove f => exact absurd hr id

end BufferPoolManager

end DBEngine
