import DBEngine.Index.BTreeFootprint
import DBEngine.Index.BTreeUnfit
import DBEngine.Storage.HeapPins

/-!
# Pins of the storage operations

The storage layer in use: one pool, any number of files with an index and of
files with a heap, tree objects opened and closed, other clients that pin pages
and release them.  Every method that returns has released what it pinned, and
when nobody else holds a page it finds a frame whenever it fetches one.

Of an index the pages are known: they are those of a tree.  Of a heap file
nothing has to be known, its programs are tidy whatever the pages hold.
-/

set_option autoImplicit false

namespace DBEngine

open ByteBuffer Paged

/-! ## The storage layer in use -/

/-- `BPlusTree(bpm, file_id)` on a file that has an index, and the methods of a tree object. -/
inductive TreeMethod where
  | openIndex
  | insert (key : Int) (rid : Rid)
  | search (key : Int)
  | rangeScan (start stop : Option Int)
  | delete (key : Int) (rid : Rid)
  deriving DecidableEq, Repr

/-- The methods of a heap file. -/
inductive HeapMethod where
  | createDirectory
  | insertTuple (data : Bytes)
  | getTuple (rid : Rid)
  | deleteTuple (rid : Rid)
  /-- `list(scan())` -/
  | scan

/-- A storage operation. -/
inductive StorageCall where
  /-- `BPlusTree(bpm, file_id, True)` -/
  | createIndex (f : FileId)
  | tree (f : FileId) (call : TreeMethod)
  | heap (f : FileId) (call : HeapMethod)

/-- Run the program and drop its result. -/
def dropResult {σ α : Type} (p : PageProg σ α) : PageProg σ Unit := do
  let _ ← p
  pure ()

def TreeMethod.program (f : FileId) : TreeMethod → PageProg BPlusTree Unit
  | .openIndex => BPlusTree.openIndex f
  | .insert key rid => BPlusTree.insert f key rid
  | .search key => dropResult (BPlusTree.search f key)
  | .rangeScan start stop => dropResult (BPlusTree.rangeScan f start stop)
  | .delete key rid => dropResult (BPlusTree.delete f key rid)

def HeapMethod.program {σ : Type} (f : FileId) : HeapMethod → PageProg σ Unit
  | .createDirectory => HeapFile.createDirectory f
  | .insertTuple data => dropResult (HeapFile.insertTuple f data)
  | .getTuple rid => dropResult (HeapFile.getTuple f rid)
  | .deleteTuple rid => dropResult (HeapFile.deleteTuple f rid)
  | .scan => dropResult (HeapFile.scan f)

namespace StorageCall

def file : StorageCall → FileId
  | createIndex f => f
  | tree f _ => f
  | heap f _ => f

/-- The program of the operation; the methods of a heap file do not look at the client state. -/
def program : StorageCall → PageProg BPlusTree Unit
  | createIndex f => BPlusTree.create f
  | tree f call => call.program f
  | heap f call => call.program f

end StorageCall

/-- The storage layer: the pool, the tree objects that are open, and what the files are
used for. -/
structure StorageSession where
  pool : BufferPoolManager
  trees : FileId → Option BPlusTree
  indexes : Finset FileId
  heaps : Finset FileId

namespace StorageSession

/-- A new pool over the files of `disk`. -/
def start (disk : Disk) : StorageSession := ⟨BufferPoolManager.new disk, fun _ => none, ∅, ∅⟩

/-- The fields of the tree object; a constructor sets them. -/
def object (s : StorageSession) (f : FileId) : BPlusTree := (s.trees f).getD ⟨0, 0⟩

/-- A new index is made in an empty file that is no heap file; a tree object is made on a file
that has an index, and its methods are called on it; a heap file is no index. -/
def Applies (s : StorageSession) : StorageCall → Prop
  | .createIndex f => f ∉ s.heaps ∧ s.pool.disk.numPages f = 0
  | .tree f call => f ∈ s.indexes ∧ (call = .openIndex ∨ s.trees f ≠ none)
  | .heap f _ => f ∉ s.indexes

/-- The session after an operation that returned. -/
def after (s : StorageSession) (tree : BPlusTree) (pool : BufferPoolManager) :
    StorageCall → StorageSession
  | .createIndex f => ⟨pool, Function.update s.trees f (some tree), insert f s.indexes, s.heaps⟩
  | .tree f _ => ⟨pool, Function.update s.trees f (some tree), s.indexes, s.heaps⟩
  | .heap f _ => ⟨pool, s.trees, s.indexes, insert f s.heaps⟩

/-- One operation, when it returns. -/
def step (order : SetOrder) (s : StorageSession) (call : StorageCall) :
    Except PyErr StorageSession :=
  match call.program.run (BufferPoolManager.store order) (s.object call.file) s.pool with
  | (.ok _, tree, pool) => .ok (s.after tree pool call)
  | (.error e, _, _) => .error e

/-- The states reached by operations that return.  Between them other clients pin pages and
release pages they have not changed, and everything is flushed, after which a new pool may
take the place of the old one. -/
inductive Reachable (order : SetOrder) : StorageSession → Prop
  | start (disk : Disk) (hdisk : ∀ f, disk.Whole f) : Reachable order (start disk)
  | call {s s' : StorageSession} (call : StorageCall) (hs : Reachable order s) (hcall : s.Applies call)
      (hrun : s.step order call = .ok s') : Reachable order s'
  | fetch {s : StorageSession} (k : PageKey) (hs : Reachable order s) {raw : Bytes}
      {pool : BufferPoolManager} (hfetch : s.pool.fetchPage order k.2 k.1 = (.ok raw, pool)) :
      Reachable order { s with pool := pool }
  | unpin {s : StorageSession} (k : PageKey) (hs : Reachable order s) :
      Reachable order { s with pool := (s.pool.unpinPage k.2 k.1 false).2 }
  | flushAll {s : StorageSession} (hs : Reachable order s) {pool : BufferPoolManager}
      (hflush : s.pool.flushAll = (.ok (), pool)) : Reachable order { s with pool := pool }
  | restart {s : StorageSession} (hs : Reachable order s) {pool : BufferPoolManager}
      (hflush : s.pool.flushAll = (.ok (), pool)) :
      Reachable order { s with pool := BufferPoolManager.new pool.disk, trees := fun _ => none }

/-! ## What is kept -/

/-- The file is a tree, and an open tree object has its root and number of keys. -/
def HasTree (s : StorageSession) (w : Flat FileId Bytes) (f : FileId) : Prop :=
  ∃ t : BTree, t.Shape ∧ TreeRep f w t ⟨t.root, t.numKeys⟩ ∧ ∀ tree ∈ s.trees f, tree = ⟨t.root, t.numKeys⟩

/-- What is kept along every run, with the pins that other clients have. -/
structure Kept (s : StorageSession) (w : Flat FileId Bytes) (others : Multiset PageKey) : Prop where
  refines : s.pool.Refines (w.leak others)
  pins : w.pins = 0
  unsaved : w.unsaved = ∅
  gone : w.gone = s.heaps
  trees : ∀ f ∈ s.indexes, s.HasTree w f

variable {order : SetOrder} {s s' : StorageSession} {w w' : Flat FileId Bytes}
  {others : Multiset PageKey} {f : FileId} {call : StorageCall}

theorem Kept.pinsOf_eq (h : Kept s w others) (k : PageKey) : s.pool.pinsOf k = others.count k := by
  rw [h.refines.pins, Flat.leak, h.pins, zero_add]

theorem Kept.held (h : Kept s w others) : (w.leak others).Held := fun k hk => by
  simp [Flat.leak, h.unsaved] at hk

theorem kept_start {disk : Disk} (hdisk : ∀ f, disk.Whole f) :
    Kept (start disk) (BufferPoolManager.flatOf disk) 0 where
  refines := by
    rw [Flat.leak_zero]
    exact BufferPoolManager.refines_flatOf hdisk
  pins := rfl
  unsaved := rfl
  gone := rfl
  trees f hf := by simp [start] at hf

/-! ## Operations on an index -/

/-- The store over which the methods of a tree are followed. -/
abbrev carefulPages : Store FileId Bytes PyErr (Flat FileId Bytes) :=
  Flat.careful (Bpm.clientLimits anyBlock)

/-- The method breaks no rule of the store, and when it returns the file is a tree, whose
object it has left. -/
def Completes (f : FileId) (p : PageProg BPlusTree Unit) (object : BPlusTree) (w : Flat FileId Bytes) :
    Prop :=
  ∃ r tree w', p.run carefulPages object w = (r, tree, w') ∧ r ≠ .error .misuse ∧
    (r = .ok () → ∃ t : BTree, t.Shape ∧ TreeRep f w' t tree)

section

variable {t : BTree} {tree object : BPlusTree} {p : PageProg BPlusTree Unit}

theorem completes_ok {w' : Flat FileId Bytes} (hrun : p.run carefulPages object w = (.ok (), tree, w'))
    (h : t.Shape) (hrep : TreeRep f w' t tree) : Completes f p object w :=
  ⟨_, _, _, hrun, by simp, fun _ => ⟨t, h, hrep⟩⟩

theorem completes_error {w' : Flat FileId Bytes}
    (hrun : p.run carefulPages object w = (.error .structError, tree, w')) : Completes f p object w :=
  ⟨_, _, _, hrun, by simp, by simp⟩

theorem run_dropResult {α : Type} {q : PageProg BPlusTree α} {a : α} {w' : Flat FileId Bytes}
    (hrun : q.run carefulPages object w = (.ok a, tree, w')) :
    (dropResult q).run carefulPages object w = (.ok (), tree, w') := Prog.run_bind_ok hrun

/-- The constructor on an empty file makes an empty tree. -/
theorem completes_create (object : BPlusTree) (hidle : w.Idle f) (hsize : w.size f = 0)
    (hlen : ∀ p, (w.mem (f, p)).length = pageSize) : Completes f (BPlusTree.create f) object w := by
  obtain ⟨w', hrun, hrep⟩ := run_create (c := carefulPages) object hidle hsize hlen
  exact completes_ok hrun BTree.shape_empty hrep

/-- The methods on the file of a tree. -/
theorem completes_tree (h : t.Shape) (hrep : TreeRep f w t ⟨t.root, t.numKeys⟩) {call : TreeMethod}
    (hobject : call = .openIndex ∨ object = ⟨t.root, t.numKeys⟩) :
    Completes f (call.program f) object w := by
  cases call with
  | openIndex => exact completes_ok (run_openIndex hrep object) h.reopened hrep.reopened
  | insert key rid =>
      obtain rfl := hobject.resolve_left (by simp)
      by_cases hfits : EntryFits (key, rid)
      · rcases run_insert (c := carefulPages) h hrep hfits.1 hfits.2 with
          ⟨-, tree, w', hrun⟩ | ⟨tree, w', hrun, hrep'⟩
        · exact completes_error hrun
        · exact completes_ok hrun (h.insert hfits.1 hfits.2).shape hrep'
      · obtain ⟨tree, w', hrun⟩ := run_insert_raises (c := carefulPages) h hrep hfits
        exact completes_error hrun
  | search key =>
      obtain rfl := hobject.resolve_left (by simp)
      exact completes_ok (run_dropResult (run_search h hrep key)) h hrep
  | rangeScan start stop =>
      obtain rfl := hobject.resolve_left (by simp)
      exact completes_ok (run_dropResult (run_rangeScan h hrep start stop)) h hrep
  | delete key rid =>
      obtain rfl := hobject.resolve_left (by simp)
      rcases run_delete (c := carefulPages) h hrep key rid with
        ⟨-, -, tree, w', hrun⟩ | ⟨tree, w', hrun, hrep'⟩
      · exact completes_error (Prog.run_bind_error hrun)
      · have hshape : (t.delete key rid).2.Shape := by
          rcases h.delete key rid with hnone | ⟨t', hsome, hdeleted⟩
          · rw [hnone]
            exact h
          · rw [hsome]
            exact hdeleted.shape
        exact completes_ok (run_dropResult hrun) hshape hrep'

theorem inFile_dropResult {α : Type} {q : PageProg BPlusTree α} (hq : InFile f q) :
    InFile f (dropResult q) := Prog.only_bind hq fun _ => Prog.only_pure ()

theorem inFile_treeMethod (call : TreeMethod) : InFile f (call.program f) := by
  cases call with
  | openIndex => exact BPlusTree.inFile_openIndex
  | insert key rid => exact BPlusTree.inFile_insert key rid
  | search key => exact inFile_dropResult (BPlusTree.inFile_search key)
  | rangeScan start stop => exact inFile_dropResult (BPlusTree.inFile_rangeScan start stop)
  | delete key rid => exact inFile_dropResult (BPlusTree.inFile_delete key rid)

/-- The tree of another file. -/
theorem treeRep_elsewhere {g : FileId} (hrep : TreeRep g w t tree) (hsame : Flat.SameElsewhere f w w')
    (hg : g ≠ f) (hpins : w'.pins = 0) (hun : w'.unsaved = ∅) : TreeRep g w' t tree := by
  have hmem : ∀ p, w'.mem (g, p) = w.mem (g, p) := fun p => hsame.mem (g, p) hg
  refine ⟨⟨hsame.gone ▸ hrep.idle.here, hpins, hun⟩, (hsame.size g hg).trans hrep.size, hrep.tree, ?_,
    hrep.levels.congr fun p _ => hmem p, hrep.chain.congr fun p _ => hmem p, fun p => ?_, hrep.format⟩
  · rw [hmem]
    exact hrep.header
  · rw [hmem]
    exact hrep.lengths p

/-- A method that completes keeps what is known of all indexes, and the pins. -/
theorem Kept.of_completes (h : Kept s w others) (hin : InFile f p) (hp : Completes f p object w)
    {pool : BufferPoolManager} {indexes : Finset FileId} (hindexes : indexes ⊆ insert f s.indexes)
    (hrun : p.run (BufferPoolManager.store order) object s.pool = (.ok (), tree, pool)) :
    ∃ w', Kept ⟨pool, Function.update s.trees f (some tree), indexes, s.heaps⟩ w' others := by
  obtain ⟨r, tree', w', hcareful, hok, hreturned⟩ := hp
  have hsame : Flat.SameElsewhere f w w' := by
    have hsame : Flat.SameElsewhere f w (p.run carefulPages object w).2.2 :=
      Flat.run_sameElsewhere hin object w
    rwa [hcareful] at hsame
  rcases BufferPoolManager.run_of_careful_or_full order h.refines hcareful hok with
    hfull | ⟨pool', hpool, hr⟩
  · rw [hrun] at hfull
    exact absurd hfull (by simp)
  · obtain ⟨hr₁, hrest⟩ := Prod.mk.inj (hpool.symm.trans hrun)
    obtain ⟨rfl, rfl⟩ := Prod.mk.inj hrest
    obtain ⟨t, hshape, hrep⟩ := hreturned hr₁
    refine ⟨w', hr, hrep.idle.pins, hrep.idle.unsaved, hsame.gone.trans h.gone, fun g hg => ?_⟩
    by_cases hgf : g = f
    · subst hgf
      refine ⟨t, hshape, hrep.tree ▸ hrep, fun tree hmem => ?_⟩
      rw [← hrep.tree]
      simpa [eq_comm] using hmem
    · obtain ⟨t', hshape', hrep', hopen⟩ := h.trees g ((Finset.mem_insert.mp (hindexes hg)).resolve_left hgf)
      refine ⟨t', hshape', treeRep_elsewhere hrep' hsame hgf hrep.idle.pins hrep.idle.unsaved, ?_⟩
      simpa [hgf] using hopen

end

/-! ## Operations on a heap file -/

theorem tidy_heapMethod (call : HeapMethod) : HeapTidy f 0 0 (call.program f : PageProg BPlusTree Unit) := by
  have hdrop {α : Type} {q : PageProg BPlusTree α} (hq : HeapTidy f 0 0 q) : HeapTidy f 0 0 (dropResult q) :=
    Prog.tidy_bind hq fun _ => Prog.tidy_pure ()
  cases call with
  | createDirectory => exact HeapFile.tidy_createDirectory
  | insertTuple data => exact hdrop (HeapFile.tidy_insertTuple data)
  | getTuple rid => exact hdrop (HeapFile.tidy_getTuple rid)
  | deleteTuple rid => exact hdrop (HeapFile.tidy_deleteTuple rid)
  | scan => exact hdrop HeapFile.tidy_scan

/-- A file that is no index may become a heap file, of whose pages nothing is known. -/
theorem Kept.forget (h : Kept s w others) (hf : f ∉ s.indexes) :
    Kept { s with heaps := insert f s.heaps } (w.forget f) others where
  refines := BufferPoolManager.refines_forget h.refines f
  pins := h.pins
  unsaved := h.unsaved
  gone := congrArg (insert f) h.gone
  trees g hg := by
    obtain ⟨t, hshape, hrep, hopen⟩ := h.trees g hg
    have hgf : g ≠ f := fun heq => hf (heq ▸ hg)
    have hhere : g ∉ (w.forget f).gone := fun hmem =>
      hrep.idle.here ((Finset.mem_insert.mp hmem).resolve_left hgf)
    exact ⟨t, hshape, ⟨⟨hhere, h.pins, h.unsaved⟩, hrep.size, rfl, hrep.header, hrep.levels,
      hrep.chain.congr fun _ _ => rfl, hrep.lengths, hrep.format⟩, hopen⟩

/-! ## One operation -/

/-- An operation on an index completes. -/
theorem Kept.completes_createIndex (h : Kept s w others) (hcall : s.Applies (.createIndex f))
    (object : BPlusTree) : Completes f (BPlusTree.create f) object w := by
  obtain ⟨hheap, hempty⟩ := hcall
  have hhere : f ∉ w.gone := by rwa [h.gone]
  refine completes_create object ⟨hhere, h.pins, h.unsaved⟩ ?_ fun p => ?_
  · rw [← hempty]
    exact (BufferPoolManager.numPages_eq h.refines hhere).symm
  · exact h.refines.valid (f, p) hhere (by simp [Flat.leak, h.unsaved])

theorem Kept.completes_tree {call : TreeMethod} (h : Kept s w others) (hcall : s.Applies (.tree f call)) :
    Completes f (call.program f) (s.object f) w := by
  obtain ⟨hf, hobject⟩ := hcall
  obtain ⟨t, hshape, hrep, hopen⟩ := h.trees f hf
  refine StorageSession.completes_tree hshape hrep (hobject.imp_right fun hne => ?_)
  obtain ⟨tree, htree⟩ := Option.ne_none_iff_exists'.mp hne
  simp only [object, htree, Option.getD_some]
  exact hopen tree htree

theorem of_step_ok (hrun : s.step order call = .ok s') : ∃ tree pool,
    call.program.run (BufferPoolManager.store order) (s.object call.file) s.pool = (.ok (), tree, pool) ∧
      s.after tree pool call = s' := by
  unfold step at hrun
  split at hrun
  · rename_i tree pool hres
    exact ⟨tree, pool, hres, Except.ok.inj hrun⟩
  · exact absurd hrun (by simp)

/-- An operation that returns keeps what is known, and the pins of the others. -/
theorem Kept.step (h : Kept s w others) (hcall : s.Applies call) (hrun : s.step order call = .ok s') :
    ∃ w', Kept s' w' others := by
  obtain ⟨tree, pool, hprog, rfl⟩ := of_step_ok hrun
  cases call with
  | createIndex f =>
      exact h.of_completes BPlusTree.inFile_create (h.completes_createIndex hcall _) (Finset.Subset.refl _)
        hprog
  | tree f call =>
      exact h.of_completes (inFile_treeMethod call) (h.completes_tree hcall) (Finset.subset_insert f _) hprog
  | heap f call =>
      have hforget := h.forget hcall
      have hr := BufferPoolManager.refines_of_tidy order (tidy_heapMethod call) hforget.unsaved
        (Finset.mem_insert_self f _) hforget.refines hprog
      exact ⟨w.forget f, hr, hforget.pins, hforget.unsaved, hforget.gone, hforget.trees⟩

/-- When nobody has a pin the operation finds a frame whenever it fetches a page. -/
theorem Kept.neverFull (order : SetOrder) (h : Kept s w 0) (hcall : s.Applies call) :
    BufferPoolManager.NeverFull order call.program (s.object call.file) s.pool := by
  have hr := h.refines
  rw [Flat.leak_zero] at hr
  have hcareful {p : PageProg BPlusTree Unit} {f : FileId} {object : BPlusTree}
      (hp : Completes f p object w) : BufferPoolManager.NeverFull order p object s.pool := by
    obtain ⟨r, tree, w', hrun, hok, -⟩ := hp
    have hanswer : (p.run carefulPages object w).1 ≠ .error .misuse := by rwa [hrun]
    exact BufferPoolManager.neverFull_of_careful order hr hanswer
  cases call with
  | createIndex f => exact hcareful (h.completes_createIndex hcall _)
  | tree f call => exact hcareful (h.completes_tree hcall)
  | heap f call =>
      exact BufferPoolManager.neverFull_of_tidy (w := w.forget f) order (tidy_heapMethod call) (by decide)
        h.unsaved h.pins (Finset.mem_insert_self f _) (BufferPoolManager.refines_forget hr f)

/-! ## Runs -/

/-- Between two operations: other clients, and flushing. -/
theorem Kept.fetch (h : Kept s w others) {k : PageKey} {raw : Bytes} {pool : BufferPoolManager}
    (hfetch : s.pool.fetchPage order k.2 k.1 = (.ok raw, pool)) :
    Kept { s with pool := pool } w (k ::ₘ others) := by
  have hpin : (w.leak others).pin k = w.leak (k ::ₘ others) := by
    simp [Flat.leak, Flat.pin, Multiset.add_cons]
  exact ⟨hpin ▸ BufferPoolManager.refines_fetch_ok h.refines h.held hfetch, h.pins, h.unsaved, h.gone,
    h.trees⟩

theorem Kept.unpin (h : Kept s w others) (k : PageKey) :
    Kept { s with pool := (s.pool.unpinPage k.2 k.1 false).2 } w (others.erase k) := by
  by_cases hk : k ∈ others
  · obtain ⟨pool, hpool, hr⟩ := BufferPoolManager.refines_unpinPage h.refines
      (Multiset.mem_add.mpr (.inr hk)) false (by simp)
    have hrelease : (w.leak others).release k false = w.leak (others.erase k) := by
      simp [Flat.leak, Flat.release, h.pins]
    rw [hrelease] at hr
    exact ⟨hpool ▸ hr, h.pins, h.unsaved, h.gone, h.trees⟩
  · have hnot : k ∉ (w.leak others).pins := by simpa [Flat.leak, h.pins] using hk
    rw [BufferPoolManager.unpinPage_rejected h.refines hnot, Multiset.erase_of_notMem hk]
    exact h

theorem Kept.flushAll (h : Kept s w others) {pool : BufferPoolManager}
    (hflush : s.pool.flushAll = (.ok (), pool)) :
    Kept { s with pool := pool } w others ∧ ∀ frame, pool.dirty frame = false := by
  obtain ⟨pool', hpool, hr, hclean⟩ := BufferPoolManager.refines_flushAll h.refines fun k _ hk => by
    simp [Flat.leak, h.unsaved] at hk
  obtain ⟨-, rfl⟩ := Prod.mk.inj (hpool.symm.trans hflush)
  exact ⟨⟨hr, h.pins, h.unsaved, h.gone, h.trees⟩, hclean⟩

theorem Kept.restart (h : Kept s w others) {pool : BufferPoolManager}
    (hflush : s.pool.flushAll = (.ok (), pool)) :
    Kept { s with pool := BufferPoolManager.new pool.disk, trees := fun _ => none } w 0 := by
  obtain ⟨hflushed, hclean⟩ := h.flushAll hflush
  have hr := BufferPoolManager.refines_restart hflushed.refines hclean h.pins h.unsaved
  refine ⟨by rwa [Flat.leak_zero], h.pins, h.unsaved, h.gone, fun f hf => ?_⟩
  obtain ⟨t, hshape, hrep, -⟩ := h.trees f hf
  exact ⟨t, hshape, hrep, by simp⟩

/-- In every reachable state every index is a tree, and only other clients have pins. -/
theorem kept_of_reachable (hs : Reachable order s) : ∃ w others, Kept s w others := by
  induction hs with
  | start disk hdisk => exact ⟨_, _, kept_start hdisk⟩
  | call call _ hcall hrun ih =>
      obtain ⟨w, others, h⟩ := ih
      obtain ⟨w', h'⟩ := h.step hcall hrun
      exact ⟨w', others, h'⟩
  | fetch k _ hfetch ih =>
      obtain ⟨w, others, h⟩ := ih
      exact ⟨w, _, h.fetch hfetch⟩
  | unpin k _ ih =>
      obtain ⟨w, others, h⟩ := ih
      exact ⟨w, _, h.unpin k⟩
  | flushAll _ hflush ih =>
      obtain ⟨w, others, h⟩ := ih
      exact ⟨w, others, (h.flushAll hflush).1⟩
  | restart _ hflush ih =>
      obtain ⟨w, others, h⟩ := ih
      exact ⟨w, 0, h.restart hflush⟩

/-- Every storage operation that returns leaves the pins of every page as they were, and when
no page is pinned none finds the pool without a free or evictable frame. -/
theorem Reachable.balanced (hs : Reachable order s) (hcall : s.Applies call) :
    (∀ s', s.step order call = .ok s' → ∀ k, s'.pool.pinsOf k = s.pool.pinsOf k) ∧
    ((∀ k, s.pool.pinsOf k = 0) →
      BufferPoolManager.NeverFull order call.program (s.object call.file) s.pool) := by
  obtain ⟨w, others, h⟩ := kept_of_reachable hs
  refine ⟨fun s' hrun k => ?_, fun hnone => ?_⟩
  · obtain ⟨w', h'⟩ := h.step hcall hrun
    rw [h.pinsOf_eq, h'.pinsOf_eq]
  · have hothers : others = 0 := Multiset.ext' fun k => by
      rw [← h.pinsOf_eq, hnone, Multiset.count_zero]
    subst hothers
    exact h.neverFull order hcall

/-- The first insert into a new index. -/
theorem balanced_insert : ∃ s : StorageSession,
    (start Disk.empty).step SetOrder.increasing (.createIndex 3) = .ok s ∧
    (∀ s', s.step SetOrder.increasing (.tree 3 (.insert 5 (1, 0))) = .ok s' →
      ∀ k, s'.pool.pinsOf k = s.pool.pinsOf k) ∧
    ((∀ k, s.pool.pinsOf k = 0) → BufferPoolManager.NeverFull SetOrder.increasing
      (StorageCall.tree 3 (.insert 5 (1, 0))).program (s.object 3) s.pool) := by
  have hstart : Reachable SetOrder.increasing (start Disk.empty) := .start _ Disk.whole_empty
  have hempty : (start Disk.empty).Applies (.createIndex 3) := ⟨by simp [start], rfl⟩
  obtain ⟨w, hrun, -⟩ := run_create (c := carefulPages) (w := BufferPoolManager.flatOf Disk.empty) (f := 3)
    ⟨0, 0⟩ ⟨by simp, rfl, rfl⟩ rfl fun p => Disk.length_page (Disk.whole_empty 3) p
  obtain ⟨pool, hpool, -⟩ := Bpm.run_of_careful SetOrder.increasing
    (kept_start Disk.whole_empty).refines (by simp) hrun (by simp)
  have hcreate : (start Disk.empty).step SetOrder.increasing (.createIndex 3) =
      .ok ((start Disk.empty).after ⟨1, 0⟩ pool (.createIndex 3)) := by
    have hprog : (BPlusTree.create 3).run (BufferPoolManager.store SetOrder.increasing)
        ((start Disk.empty).object 3) (start Disk.empty).pool = (.ok (), ⟨1, 0⟩, pool) := hpool
    simp only [StorageSession.step, StorageCall.program, StorageCall.file, hprog]
  refine ⟨_, hcreate, Reachable.balanced (hstart.call _ hempty hcreate) ⟨?_, .inr ?_⟩⟩ <;>
    simp [after]

end StorageSession

end DBEngine
