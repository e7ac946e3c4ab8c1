import DBEngine.Buffer.PoolPins
import DBEngine.Storage.HeapFile

/-!
# The pins of a heap file

Whatever the pages of the file hold, every operation of a heap file works only
on pages it has pinned itself, two at a time at most, and has released them all
when it returns.
-/

set_option autoImplicit false

namespace DBEngine

open ByteBuffer Paged

variable {σ β : Type} {f : FileId} {own : Multiset PageKey}

/-- The program is about the file `f` only and holds no more than its directory and one page;
with these pins when it starts it ends with those. -/
abbrev HeapTidy {α : Type} (f : FileId) (own post : Multiset PageKey) (p : PageProg σ α) : Prop :=
  p.Tidy (fun r => r.file = f) 2 own post

/-- A loop over the slots of a page whose body is tidy. -/
theorem tidy_scanSlots (page : Page) (raw : Bytes) {visit : β → Nat → Bytes → PageProg σ β}
    (hvisit : ∀ acc slotId data, HeapTidy f own own (visit acc slotId data)) (slots : List Nat) (acc : β) :
    HeapTidy f own own (page.scanSlots raw visit slots acc) := by
  induction slots generalizing acc with
  | nil => exact Prog.tidy_pure acc
  | cons slotId rest ih =>
      refine Prog.tidy_bind Bpm.tidy_reading fun tuple => ?_
      cases tuple with
      | none => exact ih acc
      | some data => exact Prog.tidy_bind (hvisit acc slotId data) ih

namespace HeapFile

theorem tidy_insertInto (data : Bytes) (directory : DirectoryPage) (pageId : Nat) (newPage : Bool) :
    HeapTidy f {(f, directoryId)} 0 (insertInto f data directory pageId newPage : PageProg σ Rid) := by
  have hroom : Multiset.card ({(f, directoryId)} : Multiset PageKey) < 2 := by simp
  refine Prog.tidy_bind (Bpm.tidy_fetchPage rfl hroom) fun _ => ?_
  refine Prog.tidy_bind (Bpm.tidy_onFrame (Multiset.mem_cons_self _ _) rfl fun _ => rfl) fun placed => ?_
  refine Prog.tidy_bind (Bpm.tidy_unpinPage rfl) fun _ => ?_
  refine Prog.tidy_bind (Bpm.tidy_onFrame (Multiset.mem_singleton_self _) rfl fun _ => rfl) fun _ => ?_
  exact Prog.tidy_bind (Bpm.tidy_unpinPage rfl) fun _ => Prog.tidy_pure _

theorem tidy_insertTuple (data : Bytes) : HeapTidy f 0 0 (insertTuple f data : PageProg σ Rid) := by
  refine Prog.tidy_bind (Bpm.tidy_fetchPage rfl (by simp)) fun dirRaw => ?_
  refine Prog.tidy_bind Bpm.tidy_reading fun directory => ?_
  split
  · exact tidy_insertInto data directory _ false
  · refine Prog.tidy_bind (Bpm.tidy_allocatePage rfl) fun pageId => ?_
    refine Prog.tidy_bind (Bpm.tidy_onFrame (Multiset.mem_cons_self _ _) rfl fun _ => rfl) fun grown => ?_
    exact tidy_insertInto data grown pageId true

theorem tidy_getTuple (rid : Rid) : HeapTidy f 0 0 (getTuple f rid : PageProg σ (Option Bytes)) := by
  refine Prog.tidy_bind (Bpm.tidy_fetchPage rfl (by simp)) fun pageRaw => ?_
  refine Prog.tidy_bind Bpm.tidy_reading fun page => ?_
  exact Prog.tidy_bind (Bpm.tidy_unpinPage rfl) fun _ => Bpm.tidy_reading

theorem tidy_deleteTuple (rid : Rid) : HeapTidy f 0 0 (deleteTuple f rid : PageProg σ Bool) := by
  refine Prog.tidy_bind (Bpm.tidy_fetchPage rfl (by simp)) fun pageRaw => ?_
  refine Prog.tidy_bind Bpm.tidy_reading fun _ => ?_
  refine Prog.tidy_bind (Bpm.tidy_onFrame (Multiset.mem_cons_self _ _) rfl fun _ => rfl) fun deleted => ?_
  exact Prog.tidy_bind (Bpm.tidy_unpinPage rfl) fun _ => Prog.tidy_pure deleted

/-- A scan has released each page before the body of the loop sees its tuples. -/
theorem tidy_scanPages {visit : β → Rid → Bytes → PageProg σ β}
    (hvisit : ∀ acc rid data, HeapTidy f 0 0 (visit acc rid data)) (pages : List Nat) (acc : β) :
    HeapTidy f 0 0 (scanPages f visit pages acc) := by
  induction pages generalizing acc with
  | nil => exact Prog.tidy_pure acc
  | cons pageId rest ih =>
      refine Prog.tidy_bind (Bpm.tidy_fetchPage rfl (by simp)) fun pageRaw => ?_
      refine Prog.tidy_bind Bpm.tidy_reading fun page => ?_
      refine Prog.tidy_bind (Bpm.tidy_unpinPage rfl) fun _ => ?_
      exact Prog.tidy_bind (tidy_scanSlots page pageRaw (fun acc slotId => hvisit acc (pageId, slotId)) _ acc)
        ih

theorem tidy_forEach {visit : β → Rid → Bytes → PageProg σ β}
    (hvisit : ∀ acc rid data, HeapTidy f 0 0 (visit acc rid data)) (acc : β) :
    HeapTidy f 0 0 (forEach f visit acc) := by
  refine Prog.tidy_bind (Bpm.tidy_fetchPage rfl (by simp)) fun dirRaw => ?_
  refine Prog.tidy_bind Bpm.tidy_reading fun directory => ?_
  exact Prog.tidy_bind (Bpm.tidy_unpinPage rfl) fun _ => tidy_scanPages hvisit _ acc

theorem tidy_scan : HeapTidy f 0 0 (scan f : PageProg σ (List (Rid × Bytes))) :=
  tidy_forEach (fun acc rid data => Prog.tidy_pure (acc ++ [(rid, data)])) []

theorem tidy_createDirectory : HeapTidy f 0 0 (createDirectory f : PageProg σ Unit) := by
  refine Prog.tidy_bind (Bpm.tidy_allocatePage rfl) fun pageId => ?_
  refine Prog.tidy_bind (Bpm.tidy_fetchPage rfl (by simp)) fun _ => ?_
  refine Prog.tidy_bind (Bpm.tidy_onFrame (Multiset.mem_cons_self _ _) rfl fun _ => rfl) fun _ => ?_
  exact Prog.tidy_bind (Bpm.tidy_unpinPage rfl) fun _ => Bpm.tidy_flushPage rfl

end HeapFile

end DBEngine
