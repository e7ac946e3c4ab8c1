import DBEngine.Buffer.Durability

/-!
# Programs over the pool

The calls on the pool as the heap file and the tree write them, and what each
does on the flat store.
-/

set_option autoImplicit false

namespace DBEngine

open ByteBuffer Paged

/-- A program over the pool. -/
abbrev PageProg (σ α : Type) : Type := Prog FileId Bytes PyErr σ α

namespace Bpm

variable {σ α : Type}

/-- `bpm.fetch_page(page_id, file_id)`. -/
def fetchPage (pageId : Nat) (fileId : FileId) : PageProg σ Bytes :=
  Prog.request (.fetch (fileId, pageId))

/-- `bpm.unpin_page(page_id, file_id, is_dirty)`; no client looks at the result. -/
def unpinPage (pageId : Nat) (fileId : FileId) (isDirty : Bool) : PageProg σ Unit := do
  let _ ← Prog.request (.unpin (fileId, pageId) isDirty)
  pure ()

/-- `bpm.allocate_page(file_id)`. -/
def allocatePage (fileId : FileId) : PageProg σ Nat := Prog.request (.alloc fileId)

/-- `bpm.flush_page((file_id, page_id))`. -/
def flushPage (k : PageKey) : PageProg σ Unit := Prog.request (.flush k)

/-- Code that changes the frame of a pinned page in place. -/
def onFrame (pageId : Nat) (fileId : FileId) (m : Buf PyErr α) : PageProg σ α :=
  Prog.inPlace (fileId, pageId) m

/-- Code that only reads the bytes a fetch returned. -/
def reading (raw : Bytes) (m : Buf PyErr α) : PageProg σ α := Prog.ofExcept (m raw).1

/-! ## What the programs rely on -/

/-- A store that answers a client as the flat store does, as long as the client keeps to
the rules and has fewer than eight pins when it fetches. -/
class Serves (pages : Store FileId Bytes PyErr (Flat FileId Bytes))
    (good : outParam (PageKey → Bytes → Bool)) : Prop where
  fetch {w : Flat FileId Bytes} {k : PageKey} (hk : k.1 ∉ w.gone) (hheld : w.Held)
    (hpins : Multiset.card w.pins < 8) : pages (.fetch k) w = (.ok (w.mem k), w.pin k)
  peek {w : Flat FileId Bytes} {k : PageKey} (hk : k.1 ∉ w.gone) (hpin : k ∈ w.pins) :
    pages (.peek k) w = (.ok (w.mem k), w)
  put {w : Flat FileId Bytes} {k : PageKey} (hk : k.1 ∉ w.gone) (hpin : k ∈ w.pins) (b : Bytes) :
    pages (.put k b) w = (.ok (), w.write k b)
  unpin {w : Flat FileId Bytes} {k : PageKey} {dirty : Bool} (hk : k.1 ∉ w.gone) (hpin : k ∈ w.pins)
    (hgood : w.Good (poolLimits good) k) (hsave : dirty = true → Storable w k) :
    pages (.unpin k dirty) w = (.ok true, w.release k dirty)
  alloc {w : Flat FileId Bytes} {f : FileId} (hf : f ∉ w.gone) :
    pages (.alloc f) w = (.ok (w.size f), w.extend f)
  flush {w : Flat FileId Bytes} {k : PageKey} (hk : k.1 ∉ w.gone) (hgood : w.Good (poolLimits good) k)
    (hsave : Storable w k) : pages (.flush k) w = (.ok (), w.save k)

instance serves_store (good : PageKey → Bytes → Bool) : Serves (Flat.store (poolLimits good)) good where
  fetch {w k} hk hheld hpins := by
    have hcard : w.pins.toFinset.card < numFrames :=
      Nat.lt_of_le_of_lt (Multiset.toFinset_card_le _) (Nat.lt_trans hpins (by decide))
    have hroom : ¬ (k ∉ w.pins ∧ (poolLimits good).capacity ≤ w.pins.toFinset.card) := fun h =>
      Nat.not_le.mpr hcard h.2
    simp only [Flat.store]
    rw [if_neg (not_or.mpr ⟨hk, not_not.mpr hheld⟩), if_neg hroom]
  peek hk hpin := by simp [Flat.store, hk, hpin]
  put hk hpin b := by simp [Flat.store, hk, hpin]
  unpin {w k dirty} hk hpin hgood hsave := by
    have hkeep : ¬ (¬ w.Good (poolLimits good) k ∨ dirty = true ∧ ¬ w.Savable (poolLimits good) k) := by
      rw [not_or]
      exact ⟨not_not.mpr hgood, fun h => h.2 (savable_iff.mpr (hsave h.1))⟩
    simp only [Flat.store]
    rw [if_neg hk, if_neg (not_not.mpr hpin), if_neg hkeep]
  alloc hf := by simp [Flat.store, hf]
  flush hk hgood hsave := by simp [Flat.store, hk, hgood, savable_iff.mpr hsave]

/-- The pool as a client sees it that has few pins and loses some. -/
def clientLimits (good : PageKey → Bytes → Bool) : Limits FileId Bytes PyErr :=
  { poolLimits good with capacity := 8 }

instance serves_careful (good : PageKey → Bytes → Bool) :
    Serves (Flat.careful (clientLimits good)) good where
  fetch {w k} hk hheld hpins := by
    have hok : ¬ (k.1 ∈ w.gone ∨ ¬ w.Held ∨ (clientLimits good).capacity ≤ w.pins.card) := by
      rw [not_or, not_or]
      exact ⟨hk, not_not.mpr hheld, Nat.not_le.mpr hpins⟩
    exact if_neg hok
  peek hk hpin := if_neg (not_or.mpr ⟨hk, not_not.mpr hpin⟩)
  put hk hpin b := if_neg (not_or.mpr ⟨hk, not_not.mpr hpin⟩)
  unpin {w k dirty} hk hpin hgood hsave := by
    have hok : ¬ (k.1 ∈ w.gone ∨ k ∉ w.pins ∨ ¬ w.Good (clientLimits good) k ∨
        dirty = true ∧ ¬ w.Savable (clientLimits good) k) := by
      rw [not_or, not_or, not_or]
      refine ⟨hk, not_not.mpr hpin, not_not.mpr hgood, fun h => h.2 ?_⟩
      exact show w.Savable (poolLimits good) k from savable_iff.mpr (hsave h.1)
    exact if_neg hok
  alloc hf := if_neg hf
  flush {w k} hk hgood hsave := by
    have hok : ¬ (k.1 ∈ w.gone ∨ ¬ w.Good (clientLimits good) k ∨ ¬ w.Savable (clientLimits good) k) := by
      rw [not_or, not_or]
      refine ⟨hk, not_not.mpr hgood, not_not.mpr ?_⟩
      exact show w.Savable (poolLimits good) k from savable_iff.mpr hsave
    exact if_neg hok

/-- A program runs over a pool where pins on at most two pages were lost as over the careful
store. -/
theorem run_of_careful (order : SetOrder) {good : PageKey → Bytes → Bool} {p : PageProg σ α}
    {s s' : σ} {bp : BufferPoolManager} {w w' : Flat FileId Bytes} {lost : Multiset PageKey}
    {r : Except PyErr α} (hr : bp.Refines (w.leak lost)) (hlost : lost.toFinset.card ≤ 2)
    (hrun : p.run (Flat.careful (clientLimits good)) s w = (r, s', w')) (hok : r ≠ .error .misuse) :
    ∃ bp', p.run (BufferPoolManager.store order) s bp = (r, s', bp') ∧ bp'.Refines (w'.leak lost) := by
  have hroom : 8 + lost.toFinset.card ≤ (poolLimits good).capacity := by
    simp only [poolLimits, numFrames]
    omega
  have hsim : Simulates (Flat.store (poolLimits good)) (Flat.careful (clientLimits good)) .misuse
      fun v w => v = w.leak lost := Flat.leak_simulates hroom
  rcases run_simulates hsim p s rfl with hbad | ⟨hres, hst, hw⟩
  · rw [hrun] at hbad
    exact absurd hbad hok
  · rw [hrun] at hres hst hw
    exact BufferPoolManager.run_eq_flat order p s s' hr (Prod.ext hres (Prod.ext hst hw)) hok

section

variable {good : PageKey → Bytes → Bool} {pages : Store FileId Bytes PyErr (Flat FileId Bytes)}
  {w : Flat FileId Bytes} {s : σ} {pageId : Nat} {fileId : FileId}

/-- A page can be fetched when nothing changed is let go of and few pages are
pinned. -/
theorem fetchable (hf : fileId ∉ w.gone) (hheld : w.Held) (hpins : Multiset.card w.pins < 8) :
    w.Fetchable (clientLimits good) (fileId, pageId) :=
  ⟨hf, hheld, hpins⟩

theorem run_fetchPage [Serves pages good] (h : w.Fetchable (clientLimits good) (fileId, pageId)) :
    (fetchPage pageId fileId : PageProg σ Bytes).run pages s w =
      (.ok (w.mem (fileId, pageId)), s, w.pin (fileId, pageId)) :=
  Prog.run_request_ok (Serves.fetch h.here h.held h.room) s

theorem run_fetch [Serves pages good] (hf : fileId ∉ w.gone) (hheld : w.Held)
    (hpins : Multiset.card w.pins < 8) :
    (fetchPage pageId fileId : PageProg σ Bytes).run pages s w =
      (.ok (w.mem (fileId, pageId)), s, w.pin (fileId, pageId)) :=
  run_fetchPage (show w.Fetchable (clientLimits good) (fileId, pageId) from fetchable hf hheld hpins)

theorem run_unpinPage_clean [Serves pages good] (hf : fileId ∉ w.gone) (hpin : (fileId, pageId) ∈ w.pins)
    (hgood : w.Good (poolLimits good) (fileId, pageId)) :
    (unpinPage pageId fileId false : PageProg σ Unit).run pages s w =
      (.ok (), s, w.release (fileId, pageId) false) := by
  have hunpin : pages (.unpin (fileId, pageId) false) w =
      (.ok true, w.release (fileId, pageId) false) := Serves.unpin hf hpin hgood (by simp)
  rw [unpinPage, Prog.run_bind_ok (Prog.run_request_ok hunpin s), Prog.run_pure]

theorem run_unpinPage_dirty [Serves pages good] (hf : fileId ∉ w.gone) (hpin : (fileId, pageId) ∈ w.pins)
    (hgood : w.Good (poolLimits good) (fileId, pageId))
    (hsave : Storable w (fileId, pageId)) :
    (unpinPage pageId fileId true : PageProg σ Unit).run pages s w =
      (.ok (), s, w.release (fileId, pageId) true) := by
  have hunpin : pages (.unpin (fileId, pageId) true) w =
      (.ok true, w.release (fileId, pageId) true) := Serves.unpin hf hpin hgood fun _ => hsave
  rw [unpinPage, Prog.run_bind_ok (Prog.run_request_ok hunpin s), Prog.run_pure]

theorem run_allocatePage [Serves pages good] (hf : fileId ∉ w.gone) :
    (allocatePage fileId : PageProg σ Nat).run pages s w =
      (.ok (w.size fileId), s, w.extend fileId) :=
  Prog.run_request_ok (Serves.alloc hf) s

theorem run_flushPage [Serves pages good] (hf : fileId ∉ w.gone)
    (hgood : w.Good (poolLimits good) (fileId, pageId)) (hsave : Storable w (fileId, pageId)) :
    (flushPage (fileId, pageId) : PageProg σ Unit).run pages s w =
      (.ok (), s, w.save (fileId, pageId)) :=
  Prog.run_request_ok (Serves.flush hf hgood hsave) s

theorem run_onFrame [Serves pages good] (hf : fileId ∉ w.gone) (hpin : (fileId, pageId) ∈ w.pins)
    {m : Buf PyErr α} {r : Except PyErr α} {b : Bytes} (hm : m (w.mem (fileId, pageId)) = (r, b)) :
    (onFrame pageId fileId m : PageProg σ α).run pages s w =
      (r, s, w.change (fileId, pageId) b) := by
  refine (Prog.run_bind_ok (Prog.run_request_ok (Serves.peek hf hpin) s)).trans ?_
  rw [hm, Flat.change]
  split
  · rw [Prog.run_ofExcept]
  · rw [Prog.run_bind_ok (Prog.run_request_ok (Serves.put hf hpin b) s), Prog.run_ofExcept]

theorem run_reading {raw : Bytes} {m : Buf PyErr α} {r : Except PyErr α} {b : Bytes}
    (hm : m raw = (r, b)) :
    (reading raw m : PageProg σ α).run pages s w = (r, s, w) := by
  rw [reading, hm, Prog.run_ofExcept]

end

/-! ## Footprints -/

section

variable {P : Request FileId Bytes → Prop} {pageId : Nat} {fileId : FileId}

theorem only_fetchPage (h : P (.fetch (fileId, pageId))) :
    (fetchPage pageId fileId : PageProg σ Bytes).Only P := Prog.only_request h

theorem only_unpinPage {isDirty : Bool} (h : P (.unpin (fileId, pageId) isDirty)) :
    (unpinPage pageId fileId isDirty : PageProg σ Unit).Only P :=
  Prog.only_bind (Prog.only_request h) fun _ => Prog.only_pure ()

theorem only_allocatePage (h : P (.alloc fileId)) :
    (allocatePage fileId : PageProg σ Nat).Only P := Prog.only_request h

theorem only_onFrame {m : Buf PyErr α} (hpeek : P (.peek (fileId, pageId)))
    (hput : ∀ b, P (.put (fileId, pageId) b)) : (onFrame pageId fileId m : PageProg σ α).Only P :=
  Prog.only_inPlace hpeek hput

theorem only_reading {raw : Bytes} {m : Buf PyErr α} : (reading raw m : PageProg σ α).Only P :=
  Prog.only_ofExcept _

theorem within_fetchPage (h : P (.fetch (fileId, pageId))) :
    (fetchPage pageId fileId : PageProg σ Bytes).Within P BufferPoolManager.framesTaken 1 :=
  Prog.within_request _ h

theorem within_unpinPage {isDirty : Bool} (h : P (.unpin (fileId, pageId) isDirty)) :
    (unpinPage pageId fileId isDirty : PageProg σ Unit).Within P BufferPoolManager.framesTaken 0 :=
  Prog.within_bind (m := 0) (n := 0)
    (Prog.within_request BufferPoolManager.framesTaken h) fun _ => trivial

theorem within_allocatePage (h : P (.alloc fileId)) :
    (allocatePage fileId : PageProg σ Nat).Within P BufferPoolManager.framesTaken 0 :=
  Prog.within_request BufferPoolManager.framesTaken h

theorem within_flushPage {k : PageKey} (h : P (.flush k)) :
    (flushPage k : PageProg σ Unit).Within P BufferPoolManager.framesTaken 0 :=
  Prog.within_request BufferPoolManager.framesTaken h

theorem within_onFrame {m : Buf PyErr α} (hpeek : P (.peek (fileId, pageId)))
    (hput : ∀ b, P (.put (fileId, pageId) b)) :
    (onFrame pageId fileId m : PageProg σ α).Within P BufferPoolManager.framesTaken 0 :=
  Prog.Only.within (Prog.only_inPlace ⟨hpeek, rfl⟩ fun b => ⟨hput b, rfl⟩)

end

end Bpm

end DBEngine
