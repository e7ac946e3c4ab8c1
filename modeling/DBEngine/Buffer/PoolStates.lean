import DBEngine.Buffer.PoolInvariant

/-!
# The pool under any calls

Nothing is asked of the callers here: pages are fetched and never released,
released twice, or flushed while somebody changes them.  The tables, the pins
and the replacer still agree, a pinned frame keeps its page, and a fetch that
finds no frame changes nothing.
-/

set_option autoImplicit false

namespace DBEngine

open ByteBuffer Paged

/-- A call on the pool, by anybody at any time. -/
inductive LooseCall where
  | fetchPage (k : PageKey)
  /-- somebody changes, in place, a frame that was handed out -/
  | modifyPage (k : PageKey) (data : Bytes)
  | unpinPage (k : PageKey) (isDirty : Bool)
  | flushPage (k : PageKey)
  | flushAll
  | allocatePage (fileId : FileId)
  deriving DecidableEq, Repr

namespace BufferPoolManager

/-- The pool after a call. -/
def after (order : SetOrder) (bp : BufferPoolManager) : LooseCall → BufferPoolManager
  | .fetchPage k => (bp.fetchPage order k.2 k.1).2
  | .modifyPage k data => bp.framePut k data
  | .unpinPage k isDirty => (bp.unpinPage k.2 k.1 isDirty).2
  | .flushPage k => (bp.flushPage k).2
  | .flushAll => bp.flushAll.2
  | .allocatePage f => (bp.allocatePage f).2

/-- The states of a pool. -/
inductive Reached (order : SetOrder) : BufferPoolManager → Prop
  | new (disk : Disk) : Reached order (new disk)
  | call {bp : BufferPoolManager} (call : LooseCall) (h : Reached order bp) :
      Reached order (bp.after order call)

/-- What holds of a pool in every state. -/
structure Sound (order : SetOrder) (bp : BufferPoolManager) : Prop where
  tables : ∀ k f, bp.pageTable k = some f ↔ bp.frameTable f = some k
  evictable : ∀ f, f ∈ bp.replacer.evictable ↔ bp.frameTable f ≠ none ∧ bp.pinCount f = 0
  history : ∀ f ∈ bp.replacer.evictable, bp.replacer.history f ≠ []
  /-- a fetch leaves the page and the bytes of a pinned frame alone -/
  pinned : ∀ k f, bp.pinCount f ≠ 0 →
    (bp.after order (.fetchPage k)).frameTable f = bp.frameTable f ∧
      (bp.after order (.fetchPage k)).frames f = bp.frames f
  /-- a fetch raises when there is no frame for its page -/
  raises : ∀ k, (∃ e, (bp.fetchPage order k.2 k.1).1 = .error e) ↔
    bp.pageTable k = none ∧ bp.freeFrames = ∅ ∧ ∀ f, bp.pinCount f ≠ 0
  /-- and then changes nothing -/
  unchanged : ∀ (k : PageKey) e bp', bp.fetchPage order k.2 k.1 = (.error e, bp') → bp' = bp

/-- A frame without a page is not pinned. -/
def PinsInUse (bp : BufferPoolManager) : Prop := ∀ f, bp.frameTable f = none → bp.pinCount f = 0

variable {order : SetOrder} {bp bp' : BufferPoolManager} {f : FrameId} {k : PageKey}

/-- A fetch finds its page, takes a frame nobody has pinned, or raises and leaves the pool
as it was. -/
theorem fetchPage_cases (order : SetOrder) (hinv : bp.Inv) (k : PageKey) :
    (∃ f, bp.pageTable k = some f ∧
      bp.fetchPage order k.2 k.1 = (.ok (bp.frames f), bp.fetchHit f)) ∨
    (∃ f bp', bp.pageTable k = none ∧ Vacated bp f bp' ∧
      bp.fetchPage order k.2 k.1 = (.ok ((bp'.loadPage f k).frames f), bp'.loadPage f k)) ∨
    (bp.pageTable k = none ∧ bp.freeFrames = ∅ ∧ bp.replacer.evictable = ∅ ∧
      bp.fetchPage order k.2 k.1 = (.error (.keyError "None"), bp)) := by
  unfold fetchPage
  cases hk : bp.pageTable (k.1, k.2) with
  | some f => exact Or.inl ⟨f, rfl, rfl⟩
  | none =>
      rcases findFrame_cases order hinv with ⟨f, bp', hfind, hv⟩ | ⟨hfree, hev, hfind⟩
      · exact Or.inr (Or.inl ⟨f, bp', rfl, hv, by rw [hfind]⟩)
      · exact Or.inr (Or.inr ⟨rfl, hfree, hev, by rw [hfind]⟩)

/-! ## Frames without a page -/

theorem pinsInUse_new (disk : Disk) : (new disk).PinsInUse := fun _ _ => rfl

theorem PinsInUse.fetchPage (h : bp.PinsInUse) (order : SetOrder) (hinv : bp.Inv) (k : PageKey) :
    (bp.fetchPage order k.2 k.1).2.PinsInUse := by
  rcases fetchPage_cases order hinv k with ⟨f, hk, hfetch⟩ | ⟨f, bp', -, hv, hfetch⟩ | ⟨-, -, -, hfetch⟩
  · intro g hg
    rw [hfetch] at hg ⊢
    have hgf : g ≠ f := by
      rintro rfl
      exact absurd (hg.symm.trans ((hinv.tables k g).mp hk)) (by simp)
    simpa [fetchHit, touch, hgf] using h g hg
  · intro g hg
    rw [hfetch] at hg ⊢
    have hgf : g ≠ f := by
      rintro rfl
      simp [loadPage, touch] at hg
    have hold : bp.frameTable g = none := by simpa [loadPage, touch, hgf, hv.frameTable] using hg
    simpa [hgf, hv.pinCount] using h g hold
  · rw [hfetch]
    exact h

theorem PinsInUse.unpinPage (h : bp.PinsInUse) (hinv : bp.Inv) (k : PageKey) (isDirty : Bool) :
    (bp.unpinPage k.2 k.1 isDirty).2.PinsInUse := by
  unfold BufferPoolManager.unpinPage
  cases hk : bp.pageTable (k.1, k.2) with
  | none => exact h
  | some f =>
      by_cases hpin : bp.pinCount f = 0
      · simpa [hpin] using h
      · intro g hg
        have hgf : g ≠ f := by
          rintro rfl
          simp only [if_neg hpin] at hg
          exact absurd (hg.symm.trans ((hinv.tables _ g).mp hk)) (by simp)
        simp only [if_neg hpin] at hg ⊢
        simpa [hgf] using h g hg

/-- Writing a page through touches neither tables nor pins. -/
theorem flushPage_same (k : PageKey) (bp : BufferPoolManager) :
    (bp.flushPage k).2.frameTable = bp.frameTable ∧ (bp.flushPage k).2.pinCount = bp.pinCount := by
  unfold flushPage
  cases bp.pageTable k <;> exact ⟨rfl, rfl⟩

theorem PinsInUse.flushPage (h : bp.PinsInUse) (k : PageKey) : (bp.flushPage k).2.PinsInUse := by
  obtain ⟨htable, hpins⟩ := flushPage_same k bp
  intro g hg
  rw [htable] at hg
  rw [hpins]
  exact h g hg

theorem PinsInUse.framePut (h : bp.PinsInUse) (k : PageKey) (data : Bytes) :
    (bp.framePut k data).PinsInUse := by
  unfold BufferPoolManager.framePut
  cases bp.pageTable k <;> exact h

/-- The loop of `flush_all` flushes pages one after the other. -/
theorem flushFrames_induction {P : BufferPoolManager → Prop} (hflush : ∀ bp k, P bp → P (bp.flushPage k).2)
    (frames : List FrameId) (hbp : P bp) : P (flushFrames frames bp).2 := by
  induction frames generalizing bp with
  | nil => exact hbp
  | cons f rest ih =>
      unfold flushFrames
      split
      · cases hk : bp.frameTable f with
        | none => exact hbp
        | some k => exact ih (hflush bp k hbp)
      · exact ih hbp

/-! ## Every state -/

theorem inv_after (order : SetOrder) (hinv : bp.Inv) (h : bp.PinsInUse) (call : LooseCall) :
    (bp.after order call).Inv ∧ (bp.after order call).PinsInUse := by
  cases call with
  | fetchPage k => exact ⟨inv_fetchPage order k.2 k.1 hinv, h.fetchPage order hinv k⟩
  | modifyPage k data => exact ⟨inv_framePut k data hinv, h.framePut k data⟩
  | unpinPage k isDirty => exact ⟨inv_unpinPage k.2 k.1 isDirty hinv, h.unpinPage hinv k isDirty⟩
  | flushPage k => exact ⟨inv_flushPage k hinv, h.flushPage k⟩
  | flushAll =>
      exact flushFrames_induction (P := fun bp => bp.Inv ∧ bp.PinsInUse)
        (fun bp k hbp => ⟨inv_flushPage k hbp.1, hbp.2.flushPage k⟩) _ ⟨hinv, h⟩
  | allocatePage f => exact ⟨inv_disk _ hinv, h⟩

theorem inv_of_reached (h : Reached order bp) : bp.Inv ∧ bp.PinsInUse := by
  induction h with
  | new disk => exact ⟨inv_new disk, pinsInUse_new disk⟩
  | call call _ ih => exact inv_after order ih.1 ih.2 call

theorem fetchPage_pinned (order : SetOrder) (hinv : bp.Inv) (huse : bp.PinsInUse) (k : PageKey)
    (hpin : bp.pinCount f ≠ 0) :
    (bp.fetchPage order k.2 k.1).2.frameTable f = bp.frameTable f ∧
      (bp.fetchPage order k.2 k.1).2.frames f = bp.frames f := by
  rcases fetchPage_cases order hinv k with ⟨g, -, hfetch⟩ | ⟨g, bp', -, hv, hfetch⟩ | ⟨-, -, -, hfetch⟩
  · rw [hfetch]
    exact ⟨rfl, rfl⟩
  · rw [hfetch]
    have hfg : f ≠ g := by
      rintro rfl
      exact hpin (hv.idle.elim (huse f) id)
    exact ⟨by simp [loadPage, touch, hfg, hv.frameTable], by simp [hfg, hv.frames]⟩
  · rw [hfetch]
    exact ⟨rfl, rfl⟩

theorem fetchPage_raises_iff (order : SetOrder) (hinv : bp.Inv) (k : PageKey) :
    (∃ e, (bp.fetchPage order k.2 k.1).1 = .error e) ↔
      bp.pageTable k = none ∧ bp.freeFrames = ∅ ∧ ∀ f, bp.pinCount f ≠ 0 := by
  -- with no free frame, every frame is in use, so that none is evictable exactly if all are pinned
  have hall (hfree : bp.freeFrames = ∅) :
      bp.replacer.evictable = ∅ ↔ ∀ f, bp.pinCount f ≠ 0 := by
    rw [Finset.eq_empty_iff_forall_notMem]
    refine forall_congr' fun f => ?_
    have huse : bp.frameTable f ≠ none := fun hnone => by
      simpa [hfree] using (hinv.free f).mpr hnone
    rw [hinv.evictable, not_and]
    exact ⟨fun h => h huse, fun h _ => h⟩
  rcases fetchPage_cases order hinv k with ⟨f, hk, hfetch⟩ | ⟨f, bp', -, hv, hfetch⟩ | ⟨hk, hfree, hev, hfetch⟩
  · rw [hfetch]
    simp [hk]
  · rw [hfetch]
    constructor
    · rintro ⟨e, he⟩
      simp at he
    · rintro ⟨-, hfree, hpins⟩
      have hnone : bp.frameTable f = none := hv.idle.resolve_right (hpins f)
      simpa [hfree] using (hinv.free f).mpr hnone
  · rw [hfetch]
    exact ⟨fun _ => ⟨hk, hfree, (hall hfree).mp hev⟩, fun _ => ⟨_, rfl⟩⟩

/-- However the calls are paired, the tables agree, pinned pages stay where they are, and a
fetch fails only when every frame is pinned, without a trace. -/
theorem sound_of_reached (h : Reached order bp) : Sound order bp := by
  obtain ⟨hinv, huse⟩ := inv_of_reached h
  exact
    { tables := hinv.tables
      evictable := hinv.evictable
      history := fun f hf => hinv.history f ((hinv.evictable f).mp hf).1
      pinned := fun k f hpin => fetchPage_pinned order hinv huse k hpin
      raises := fetchPage_raises_iff order hinv
      unchanged := fun k e bp' hfetch => by
        rcases fetchPage_cases order hinv k with ⟨f, -, hok⟩ | ⟨f, bp'', -, -, hok⟩ | ⟨-, -, -, herror⟩
        · rw [hok] at hfetch
          simp at hfetch
        · rw [hok] at hfetch
          simp at hfetch
        · rw [herror] at hfetch
          exact (Prod.mk.inj hfetch).2.symm }

/-- A page fetched once and released twice. -/
theorem sound_of_reached_unpaired :
    Sound .increasing ((((new Disk.empty).after .increasing (.fetchPage (0, 0))).after .increasing
      (.unpinPage (0, 0) false)).after .increasing (.unpinPage (0, 0) true)) :=
  sound_of_reached (.call _ (.call _ (.call _ (.new Disk.empty))))

end BufferPoolManager

end DBEngine
