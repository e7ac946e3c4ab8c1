import DBEngine.Buffer.PoolPrograms
import DBEngine.Lib.PinDiscipline

/-!
# Pins over the pool

What a call does to the pins of a pool in which others hold pages too, and when
it cannot find the pool full.  There are two kinds of callers: one whose pages
are known, and which runs as over the careful store; and one of whose file
nothing is known, for which it is enough that its program is tidy.
-/

set_option autoImplicit false

namespace DBEngine

open ByteBuffer Paged

namespace BufferPoolManager

variable {σ α : Type} {bp bp' : BufferPoolManager} {w w' : Flat FileId Bytes} {k : PageKey}
  {lost : Multiset PageKey}

/-! ## A frame for one more page -/

/-- A frame is free, or one can be evicted. -/
def HasRoom (bp : BufferPoolManager) : Prop :=
  bp.freeFrames.Nonempty ∨ bp.replacer.evictable.Nonempty

/-- Whenever the program fetches a page, the pool has a frame for it. -/
def NeverFull (order : SetOrder) (p : PageProg σ α) (s : σ) (bp : BufferPoolManager) : Prop :=
  p.Throughout (store order) (fun r bp => ∀ k, r = .fetch k → bp.HasRoom) s bp

theorem hasRoom_of_card (hr : bp.Refines w) (hpins : w.pins.card < numFrames) : bp.HasRoom := by
  have hcard : ¬ numFrames ≤ w.pins.toFinset.card :=
    Nat.not_le.mpr (Nat.lt_of_le_of_lt (Multiset.toFinset_card_le _) hpins)
  rw [full_iff hr, not_and_or] at hcard
  exact hcard.imp Finset.nonempty_iff_ne_empty.mpr Finset.nonempty_iff_ne_empty.mpr

/-! ## Files whose pages are known -/

/-- The pool answers as the careful store does, or it is full. -/
theorem careful_simulatesUntil (order : SetOrder) (good : PageKey → Bytes → Bool)
    (lost : Multiset PageKey) :
    SimulatesUntil (store order) (Flat.careful (Bpm.clientLimits good)) .misuse (.keyError "None")
      fun bp w => bp.Refines (w.leak lost) := by
  intro r bp w hr
  have hpool := store_simulates order good r bp (w.leak lost) hr
  rcases Flat.answer_leak (poolLimits good) 8 lost r w with hbad | ⟨k, rfl, hfull⟩ | ⟨hsame, hw⟩
  · exact .inl hbad
  · right
    left
    rw [hfull] at hpool
    rcases hpool with hbad | ⟨heq, -⟩
    · exact absurd hbad (by simp [poolLimits])
    · exact heq
  · rw [hsame, hw] at hpool
    rcases hpool with hbad | hpool
    · exact .inl hbad
    · exact .inr (.inr hpool)

/-- A program runs over the pool as over the careful store, unless the pool is full. -/
theorem run_of_careful_or_full (order : SetOrder) {good : PageKey → Bytes → Bool} {p : PageProg σ α}
    {s s' : σ} {r : Except PyErr α} (hr : bp.Refines (w.leak lost))
    (hrun : p.run (Flat.careful (Bpm.clientLimits good)) s w = (r, s', w')) (hok : r ≠ .error .misuse) :
    (p.run (store order) s bp).1 = .error (.keyError "None") ∨
      ∃ bp', p.run (store order) s bp = (r, s', bp') ∧ bp'.Refines (w'.leak lost) := by
  rcases run_simulatesUntil (careful_simulatesUntil order good lost) p s hr with
    hbad | hfull | ⟨hres, hst, hr'⟩
  · rw [hrun] at hbad
    exact absurd hbad hok
  · exact .inl hfull
  · rw [hrun] at hres hst hr'
    exact .inr ⟨(p.run (store order) s bp).2.2, Prod.ext hres (Prod.ext hst rfl), hr'⟩

/-- A program that the careful store does not stop finds a frame whenever it fetches a page,
when nobody else has a pin. -/
theorem neverFull_of_careful (order : SetOrder) {good : PageKey → Bytes → Bool} {p : PageProg σ α}
    {s : σ} (hr : bp.Refines w)
    (hok : (p.run (Flat.careful (Bpm.clientLimits good)) s w).1 ≠ .error .misuse) :
    NeverFull order p s bp := by
  have hr₀ : bp.Refines (w.leak 0) := by rwa [Flat.leak_zero]
  refine Prog.throughout_of_simulatesUntil (careful_simulatesUntil order good 0) ?_ p s hr₀ hok
  rintro r bp w hr hanswer k rfl
  rw [Flat.leak_zero] at hr
  refine hasRoom_of_card hr ?_
  by_contra hcard
  have hmany : (Bpm.clientLimits good).capacity ≤ w.pins.card :=
    Nat.le_trans (show 8 ≤ numFrames by decide) (Nat.not_lt.mp hcard)
  exact hanswer (congrArg Prod.fst (if_pos (.inr (.inr hmany))))

/-! ## Files of whose pages nothing is known -/

/-- A file of which nothing is said any more. -/
theorem refines_forget (hr : bp.Refines w) (f : FileId) : bp.Refines (w.forget f) := by
  have hother : ∀ {e : FileId}, e ∉ (w.forget f).gone → e ∉ w.gone := fun he h =>
    he (Finset.mem_insert_of_mem h)
  exact
    { inv := hr.inv
      pins := hr.pins
      frame := fun k g hk hfile => hr.frame k g hk (hother hfile)
      disk := fun k hk => hr.disk k (hother hk)
      cached := hr.cached
      size := fun g hg => hr.size g (hother hg)
      valid := fun k hk => hr.valid k (hother hk)
      dirty := fun k g hk hdirty hfile => hr.dirty k g hk hdirty (hother hfile) }

/-- A fetch that returns takes a pin. -/
theorem refines_fetch_ok {order : SetOrder} {raw : Bytes} (hr : bp.Refines w) (hheld : w.Held)
    (hfetch : bp.fetchPage order k.2 k.1 = (.ok raw, bp')) : bp'.Refines (w.pin k) := by
  unfold fetchPage at hfetch
  cases hk : bp.pageTable (k.1, k.2) with
  | some f =>
      simp only [hk] at hfetch
      exact (Prod.mk.inj hfetch).2 ▸ refines_fetchHit hr hk
  | none =>
      simp only [hk] at hfetch
      rcases findFrame_cases order hr.inv with ⟨f, bp₁, hfind, hv⟩ | ⟨-, -, hfind⟩
      · simp only [hfind] at hfetch
        exact (Prod.mk.inj hfetch).2 ▸ refines_loadPage hr hheld hv hk
      · simp [hfind] at hfetch

theorem refines_framePut_gone (hr : bp.Refines w) (hk : k.1 ∈ w.gone) (b : Bytes) :
    (bp.framePut k b).Refines w := by
  cases hf : bp.pageTable k with
  | none => simpa [framePut, hf] using hr
  | some f =>
      have hput : bp.framePut k b = { bp with frames := Function.update bp.frames f b } := by
        simp [framePut, hf]
      have hinv := inv_framePut k b hr.inv
      rw [hput] at hinv ⊢
      have hframe : ∀ j g, bp.pageTable j = some g → j.1 ∉ w.gone →
          Function.update bp.frames f b g = w.mem j := by
        intro j g hg hj
        have hgf : g ≠ f := ne_of_cached hr hf hg fun h => hj (h ▸ hk)
        rw [Function.update_of_ne hgf]
        exact hr.frame j g hg hj
      exact ⟨hinv, hr.pins, hframe, hr.disk, hr.cached, hr.size, hr.valid, hr.dirty⟩

theorem refines_allocatePage_gone (hr : bp.Refines w) {f : FileId} (hf : f ∈ w.gone) :
    (bp.allocatePage f).2.Refines w := by
  have hcontent : ∀ g, g ∉ w.gone → (bp.allocatePage f).2.disk.content g = bp.disk.content g := by
    intro g hg
    exact Disk.content_allocatePage_of_ne fun h => hg (h ▸ hf)
  exact
    { inv := inv_disk _ hr.inv
      pins := hr.pins
      frame := hr.frame
      disk := fun k hk hun hclean => (Disk.page_congr (hcontent k.1 hk)).trans (hr.disk k hk hun hclean)
      cached := hr.cached
      size := fun g hg => (congrArg List.length (hcontent g hg)).trans (hr.size g hg)
      valid := hr.valid
      dirty := hr.dirty }

theorem refines_flushPage_gone (hr : bp.Refines w) (hk : k.1 ∈ w.gone) :
    (bp.flushPage k).2.Refines w := by
  cases hf : bp.pageTable k with
  | none => simpa [flushPage, hf] using hr
  | some f => exact (refines_writeThrough hr hf fun h => absurd hk h).1

/-- A request about such a file changes no page that is known, and the pins as it should. -/
theorem refines_allowed (order : SetOrder) {f : FileId} {n : Nat} {own : Multiset PageKey}
    (hun : w.unsaved = ∅) (hf : f ∈ w.gone) {r : Request FileId Bytes} (hfile : r.file = f)
    (hallowed : r.Allowed n own) {x : r.Reply} (hr : bp.Refines (w.leak (own + lost)))
    (hanswer : store order r bp = (.ok x, bp')) : bp'.Refines (w.leak (r.pinsAfter own + lost)) := by
  have hgone : r.file ∈ (w.leak (own + lost)).gone := hfile ▸ hf
  have hafter : (store order r bp).2 = bp' := congrArg Prod.snd hanswer
  cases r with
  | fetch k =>
      have hheld : (w.leak (own + lost)).Held := fun j hj => absurd hj (by simp [Flat.leak, hun])
      have hpin : (w.leak (own + lost)).pin k = w.leak (k ::ₘ own + lost) := by
        simp [Flat.leak, Flat.pin, Multiset.add_cons]
      exact hpin ▸ refines_fetch_ok hr hheld hanswer
  | peek k => exact hafter ▸ hr
  | put k b => exact hafter ▸ refines_framePut_gone hr hgone b
  | unpin k dirty =>
      have hk : k ∈ own := hallowed
      have hpin : k ∈ (w.leak (own + lost)).pins :=
        Multiset.mem_add.mpr (.inr (Multiset.mem_add.mpr (.inl hk)))
      obtain ⟨bp₁, hbp₁, hr₁⟩ := refines_unpinPage hr hpin dirty fun _ h => absurd hgone h
      have hrelease : (w.leak (own + lost)).release k dirty = w.leak (own.erase k + lost) := by
        have herase : (w.pins + (own + lost)).erase k = w.pins + (own.erase k + lost) := by
          rw [Multiset.erase_add_right_pos _ (Multiset.mem_add.mpr (.inl hk)),
            Multiset.erase_add_left_pos _ hk]
        simp [Flat.leak, Flat.release, herase, hun]
      rw [hrelease] at hr₁
      have hstore : (store order (.unpin k dirty) bp).2 = bp₁ := congrArg Prod.snd hbp₁
      exact hafter ▸ hstore ▸ hr₁
  | alloc g => exact hafter ▸ refines_allocatePage_gone hr hgone
  | flush k => exact hafter ▸ refines_flushPage_gone hr hgone
  | remove g => exact absurd hallowed not_false

section

variable {f : FileId} {n : Nat} {p : PageProg σ α} {s s' : σ} {a : α}

/-- A tidy program that returns leaves the pins as they were, and the files that are known. -/
theorem refines_of_tidy (order : SetOrder) (hp : p.Tidy (fun r => r.file = f) n 0 0)
    (hun : w.unsaved = ∅) (hf : f ∈ w.gone) (hr : bp.Refines (w.leak lost))
    (hrun : p.run (store order) s bp = (.ok a, s', bp')) : bp'.Refines (w.leak lost) := by
  have hr' := Prog.run_tidy (I := fun own bp => bp.Refines (w.leak (own + lost)))
    (fun r own bp x bp' hfile hallowed hr => refines_allowed order hun hf hfile hallowed hr) hp
    (by simpa using hr) hrun
  simpa using hr'

/-- A tidy program finds a frame whenever it fetches a page, when nobody else has a pin. -/
theorem neverFull_of_tidy (order : SetOrder) (hp : p.Tidy (fun r => r.file = f) n 0 0)
    (hn : n ≤ numFrames) (hun : w.unsaved = ∅) (hpins : w.pins = 0) (hf : f ∈ w.gone)
    (hr : bp.Refines w) : NeverFull order p s bp := by
  refine Prog.throughout_tidy (I := fun own bp => bp.Refines (w.leak (own + 0)))
    (fun r own bp x bp' hfile hallowed hr => refines_allowed order hun hf hfile hallowed hr) ?_ hp s
    (by simpa using hr)
  rintro r own bp hallowed hr k rfl
  refine hasRoom_of_card hr ?_
  have hcard : own.card < n := hallowed
  simpa [Flat.leak, hpins] using Nat.lt_of_lt_of_le hcard hn

end

end BufferPoolManager

/-! ## The calls on the pool -/

namespace Bpm

variable {σ α : Type} {P : Request FileId Bytes → Prop} {n pageId : Nat} {fileId : FileId}
  {own : Multiset PageKey}

theorem tidy_fetchPage (hP : P (.fetch (fileId, pageId))) (hroom : own.card < n) :
    (fetchPage pageId fileId : PageProg σ Bytes).Tidy P n own ((fileId, pageId) ::ₘ own) :=
  Prog.tidy_request hP hroom

theorem tidy_unpinPage {isDirty : Bool} (hP : P (.unpin (fileId, pageId) isDirty)) :
    (unpinPage pageId fileId isDirty : PageProg σ Unit).Tidy P n ((fileId, pageId) ::ₘ own) own := by
  have hafter : Request.pinsAfter ((fileId, pageId) ::ₘ own)
      (.unpin (fileId, pageId) isDirty : Request FileId Bytes) = own := Multiset.erase_cons_head _ _
  have hunpin : (Prog.request (.unpin (fileId, pageId) isDirty) : PageProg σ Bool).Tidy P n
      ((fileId, pageId) ::ₘ own) (Request.pinsAfter _ (.unpin (fileId, pageId) isDirty)) :=
    Prog.tidy_request hP (Multiset.mem_cons_self _ _)
  rw [hafter] at hunpin
  exact Prog.tidy_bind hunpin fun _ => Prog.tidy_pure ()

theorem tidy_allocatePage (hP : P (.alloc fileId)) :
    (allocatePage fileId : PageProg σ Nat).Tidy P n own own := Prog.tidy_request hP trivial

theorem tidy_flushPage {k : PageKey} (hP : P (.flush k)) :
    (flushPage k : PageProg σ Unit).Tidy P n own own := Prog.tidy_request hP trivial

theorem tidy_onFrame {m : Buf PyErr α} (hpin : (fileId, pageId) ∈ own) (hpeek : P (.peek (fileId, pageId)))
    (hput : ∀ b, P (.put (fileId, pageId) b)) :
    (onFrame pageId fileId m : PageProg σ α).Tidy P n own own := Prog.tidy_inPlace hpin hpeek hput

theorem tidy_reading {raw : Bytes} {m : Buf PyErr α} :
    (reading raw m : PageProg σ α).Tidy P n own own := Prog.tidy_ofExcept _

end Bpm

end DBEngine
