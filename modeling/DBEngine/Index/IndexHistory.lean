import DBEngine.Index.BTreeGrowth
import DBEngine.Index.BTreeInsert

/-!
# Histories of an index

An index in use: calls of `insert` and `delete` that return, and moments at
which everything is flushed and the index is opened again.  Whatever the keys
are, the pages of the file are those of the tree that the calls make of an empty
one, and its entries are those inserted and not deleted.
-/

set_option autoImplicit false

namespace DBEngine

open ByteBuffer Paged

/-- What happens to an index. -/
inductive IndexCall where
  | insert (key : Int) (rid : Rid)
  | delete (key : Int) (rid : Rid)
  /-- `flush_all`, and a new tree object on the file -/
  | reopen
  deriving DecidableEq, Repr

/-- Keys are 32-bit integers, and record ids are pairs of page and slot. -/
def IndexCall.Typed : IndexCall → Prop
  | .insert key rid => formati.Fits key ∧ RidFits rid
  | _ => True

instance (call : IndexCall) : Decidable call.Typed := by
  cases call with
  | insert key rid => exact inferInstanceAs (Decidable (formati.Fits key ∧ (_ ∧ _)))
  | delete key rid => exact inferInstanceAs (Decidable True)
  | reopen => exact inferInstanceAs (Decidable True)

/-- The tree after a call. -/
def BTree.after (t : BTree) : IndexCall → BTree
  | .insert key rid => t.insert key rid
  | .delete key rid => (t.delete key rid).2
  | .reopen => { t with numKeys := t.stored }

/-- An index in use: the pool, the tree object, and the entries inserted and not
removed by a delete that returned `True`. -/
structure IndexSession where
  pool : BufferPoolManager
  tree : BPlusTree
  live : Multiset (Int × Rid)

namespace IndexSession

/-- A method of the tree object. -/
def run {α : Type} (order : SetOrder) (p : PageProg BPlusTree α) (s : IndexSession) :
    Except PyErr α × BPlusTree × BufferPoolManager :=
  p.run (BufferPoolManager.store order) s.tree s.pool

/-- `BPlusTree(bpm, file_id, True)` with a new pool over the files of `disk`. -/
def create (order : SetOrder) (f : FileId) (disk : Disk) : IndexSession :=
  let (_, tree, pool) := run order (BPlusTree.create f) ⟨BufferPoolManager.new disk, ⟨0, 0⟩, 0⟩
  ⟨pool, tree, 0⟩

/-- The session after a method that returned, with the entries that are live then. -/
def returned {α : Type} (live : α → Multiset (Int × Rid)) :
    Except PyErr α × BPlusTree × BufferPoolManager → Except PyErr IndexSession
  | (.ok a, tree, pool) => .ok ⟨pool, tree, live a⟩
  | (.error e, _, _) => .error e

/-- One call, when it returns. -/
def step (order : SetOrder) (f : FileId) (s : IndexSession) : IndexCall → Except PyErr IndexSession
  | .insert key rid =>
      returned (fun _ => (key, rid) ::ₘ s.live) (s.run order (BPlusTree.insert f key rid))
  | .delete key rid =>
      returned (fun removed => if removed then s.live.erase (key, rid) else s.live)
        (s.run order (BPlusTree.delete f key rid))
  | .reopen =>
      match s.pool.flushAll with
      | (.ok _, pool) =>
          returned (fun _ => s.live) (run order (BPlusTree.openIndex f) ⟨pool, ⟨0, 0⟩, s.live⟩)
      | (.error e, _) => .error e

/-- The states reached by calls that return; `allowed` is what is asked of them. -/
inductive Reachable (order : SetOrder) (f : FileId) (allowed : IndexSession → IndexCall → Prop) :
    IndexSession → Prop
  | create (disk : Disk) (hdisk : ∀ g, disk.Whole g) (hempty : disk.numPages f = 0) :
      Reachable order f allowed (create order f disk)
  | step {s s' : IndexSession} (call : IndexCall) (hs : Reachable order f allowed s)
      (htyped : call.Typed) (hcall : allowed s call) (hrun : s.step order f call = .ok s') :
      Reachable order f allowed s'

/-- The index is never opened again. -/
def Unopened : IndexSession → IndexCall → Prop
  | _, .reopen => False
  | _, _ => True

/-- The number of keys that the header has. -/
def storedCount (f : FileId) (s : IndexSession) : Except PyErr Nat :=
  (unpackI 4 (s.pool.current (f, 0))).1

/-- What is kept along every run: the file is a tree, and its entries are live. -/
structure Kept (f : FileId) (s : IndexSession) (w : Flat FileId Bytes) (t : BTree) : Prop where
  refines : s.pool.Refines w
  rep : TreeRep f w t s.tree
  shape : t.Shape
  grown : t.Grown
  entries : (t.entries : Multiset (Int × Rid)) = s.live

variable {order : SetOrder} {f : FileId} {s s' : IndexSession} {w w' : Flat FileId Bytes} {t : BTree}
  {key : Int} {rid : Rid} {allowed : IndexSession → IndexCall → Prop}

theorem step_insert : s.step order f (.insert key rid) =
    returned (fun _ => (key, rid) ::ₘ s.live) (s.run order (BPlusTree.insert f key rid)) := rfl

theorem step_delete : s.step order f (.delete key rid) =
    returned (fun removed => if removed then s.live.erase (key, rid) else s.live)
      (s.run order (BPlusTree.delete f key rid)) := rfl

theorem step_reopen {pool : BufferPoolManager} (hflush : s.pool.flushAll = (.ok (), pool)) :
    s.step order f .reopen =
      returned (fun _ => s.live) (run order (BPlusTree.openIndex f) ⟨pool, ⟨0, 0⟩, s.live⟩) := by
  unfold step
  rw [hflush]

/-- What the flat store answers, the pool answers. -/
theorem Kept.run_eq {α : Type} (order : SetOrder) (h : Kept f s w t) {p : PageProg BPlusTree α}
    {r : Except PyErr α} {tree' : BPlusTree} (hrun : p.run flatPages s.tree w = (r, tree', w'))
    (hok : r ≠ .error .misuse) :
    ∃ pool, s.run order p = (r, tree', pool) ∧ pool.Refines w' :=
  BufferPoolManager.run_eq_flat order p s.tree tree' h.refines hrun hok

theorem Kept.current_eq (h : Kept f s w t) (p : Nat) : s.pool.current (f, p) = w.mem (f, p) :=
  BufferPoolManager.current_eq h.refines h.rep.idle.here

theorem Kept.numPages_eq (h : Kept f s w t) : s.pool.disk.numPages f = t.next := by
  rw [BufferPoolManager.numPages_eq h.refines h.rep.idle.here, h.rep.size]

theorem Kept.tree_eq (h : Kept f s w t) : s.tree = ⟨t.root, t.numKeys⟩ := h.rep.tree

/-- The header has the number that the tree has for it. -/
theorem Kept.storedCount_eq (h : Kept f s w t) : ∃ n : Nat, storedCount f s = .ok n ∧ t.stored = n := by
  obtain ⟨n, hn, hstored⟩ := h.rep.header.numKeys
  exact ⟨n, by rw [storedCount, h.current_eq, hn], hstored⟩

theorem Kept.card_live (h : Kept f s w t) : s.live.card = t.entries.length := by
  rw [← h.entries, Multiset.coe_card]

/-! ## The start -/

/-- A new index is an empty tree. -/
theorem kept_create (order : SetOrder) {disk : Disk} (hdisk : ∀ g, disk.Whole g)
    (hempty : disk.numPages f = 0) : ∃ w, Kept f (create order f disk) w BTree.empty := by
  have hlen : ∀ p, ((BufferPoolManager.flatOf disk).mem (f, p)).length = pageSize := fun p =>
    Disk.length_page (hdisk f) p
  obtain ⟨w, hrun, hrep⟩ := run_create (c := flatPages) (w := BufferPoolManager.flatOf disk) ⟨0, 0⟩
    ⟨by simp, rfl, rfl⟩ hempty hlen
  obtain ⟨pool, hpool, hrefines⟩ := BufferPoolManager.run_eq_flat order (BPlusTree.create f) ⟨0, 0⟩ _
    (BufferPoolManager.refines_flatOf hdisk) hrun (by simp)
  have hcreate : create order f disk = ⟨pool, ⟨1, 0⟩, 0⟩ := by
    simp only [create, run, hpool]
  rw [hcreate]
  exact ⟨w, hrefines, hrep, BTree.shape_empty, BTree.grown_empty, rfl⟩

/-! ## One call -/

/-- An insert returns, or the file or the count has reached its limit. -/
theorem Kept.run_insert (order : SetOrder) (h : Kept f s w t) (hkey : formati.Fits key)
    (hrid : RidFits rid) :
    (¬ t.CanGrow ∧ s.step order f (.insert key rid) = .error .structError) ∨
      ∃ s' w', s.step order f (.insert key rid) = .ok s' ∧ s'.live = (key, rid) ::ₘ s.live ∧
        Kept f s' w' (t.insert key rid) := by
  rcases DBEngine.run_insert (c := flatPages) h.shape h.rep hkey hrid with
    ⟨hfull, tree', w', hrun⟩ | ⟨tree', w', hrun, hrep⟩
  · obtain ⟨pool, hpool, -⟩ := h.run_eq order hrun (by simp)
    refine Or.inl ⟨hfull, ?_⟩
    rw [step_insert, hpool]
    rfl
  · obtain ⟨pool, hpool, hrefines⟩ := h.run_eq order hrun (by simp)
    have hinserted := h.shape.insert hkey hrid
    have hstep : s.step order f (.insert key rid) = .ok ⟨pool, tree', (key, rid) ::ₘ s.live⟩ := by
      rw [step_insert, hpool]
      rfl
    have hentries : ((t.insert key rid).entries : Multiset (Int × Rid)) = (key, rid) ::ₘ s.live := by
      rw [Multiset.coe_eq_coe.mpr hinserted.entries, ← Multiset.cons_coe, h.entries]
    exact Or.inr ⟨_, w', hstep, rfl,
      ⟨hrefines, hrep, hinserted.shape, h.grown.insert h.shape hkey hrid, hentries⟩⟩

/-- A delete returns whether its walk found the entry, or the count does not fit
in the header any more. -/
theorem Kept.run_delete (order : SetOrder) (h : Kept f s w t) (key : Int) (rid : Rid) :
    (¬ formatI.Fits (t.numKeys - 1) ∧ (t.delete key rid).1 = true ∧
      (s.run order (BPlusTree.delete f key rid)).1 = .error .structError) ∨
      ∃ tree' pool w', s.run order (BPlusTree.delete f key rid) =
          (.ok (t.delete key rid).1, tree', pool) ∧
        Kept f ⟨pool, tree', if (t.delete key rid).1 then s.live.erase (key, rid) else s.live⟩ w'
          (t.delete key rid).2 := by
  rcases DBEngine.run_delete (c := flatPages) h.shape h.rep key rid with
    ⟨hfull, hfound, tree', w', hrun⟩ | ⟨tree', w', hrun, hrep⟩
  · obtain ⟨pool, hpool, -⟩ := h.run_eq order hrun (by simp)
    exact Or.inl ⟨hfull, hfound, by rw [hpool]⟩
  · obtain ⟨pool, hpool, hrefines⟩ := h.run_eq order hrun (by simp)
    have hgrown := h.grown.delete h.shape key rid
    rcases h.shape.delete key rid with hnone | ⟨t', hsome, hdeleted⟩
    · rw [hnone] at hpool hrep
      rw [hnone]
      exact Or.inr ⟨tree', pool, w', hpool, hrefines, hrep, h.shape, h.grown, h.entries⟩
    · rw [hsome] at hpool hrep hgrown
      rw [hsome]
      have hentries : (t'.entries : Multiset (Int × Rid)) = s.live.erase (key, rid) := by
        rw [← h.entries, Multiset.coe_eq_coe.mpr hdeleted.entries, ← Multiset.cons_coe,
          Multiset.erase_cons_head]
      exact Or.inr ⟨tree', pool, w', hpool, hrefines, hrep, hdeleted.shape, hgrown, hentries⟩

/-- After `flush_all` a new tree object has the root, and the number of keys that
the header has. -/
theorem Kept.run_reopen (order : SetOrder) (h : Kept f s w t) :
    ∃ s', s.step order f .reopen = .ok s' ∧ s'.live = s.live ∧
      Kept f s' w { t with numKeys := t.stored } := by
  obtain ⟨pool, hflush, hrefines, -⟩ := BufferPoolManager.refines_flushAll h.refines
    fun k _ hk => by simp [h.rep.idle.unsaved] at hk
  obtain ⟨pool', hpool, hrefines'⟩ := BufferPoolManager.run_eq_flat order (BPlusTree.openIndex f)
    ⟨0, 0⟩ _ hrefines (run_openIndex h.rep ⟨0, 0⟩) (by simp)
  have hstep : s.step order f .reopen = .ok ⟨pool', ⟨t.root, t.stored⟩, s.live⟩ := by
    rw [step_reopen hflush, run, hpool]
    rfl
  exact ⟨_, hstep, rfl, hrefines', h.rep.reopened, h.shape.reopened, ⟨h.grown.half, h.grown.used⟩,
    h.entries⟩

/-- A call that returns makes of the file what it makes of the tree. -/
theorem Kept.step (h : Kept f s w t) {call : IndexCall} (htyped : call.Typed)
    (hrun : s.step order f call = .ok s') : ∃ w', Kept f s' w' (t.after call) := by
  cases call with
  | insert key rid =>
      rcases h.run_insert order htyped.1 htyped.2 with ⟨-, herror⟩ | ⟨s'', w', hstep, -, hkept⟩
      · rw [herror] at hrun
        exact absurd hrun (by simp)
      · rw [hstep] at hrun
        exact ⟨w', Except.ok.inj hrun ▸ hkept⟩
  | delete key rid =>
      rw [step_delete] at hrun
      rcases h.run_delete order key rid with ⟨-, -, herror⟩ | ⟨tree', pool, w', hok, hkept⟩
      · cases hres : s.run order (BPlusTree.delete f key rid) with
        | mk r rest =>
            obtain rfl : r = .error .structError := by rw [← herror, hres]
            rw [hres] at hrun
            exact absurd hrun (by simp [returned])
      · rw [hok] at hrun
        exact ⟨w', Except.ok.inj hrun ▸ hkept⟩
  | reopen =>
      obtain ⟨s'', hstep, -, hkept⟩ := h.run_reopen order
      rw [hstep] at hrun
      exact ⟨w, Except.ok.inj hrun ▸ hkept⟩

/-- In every reachable state the file is a tree. -/
theorem kept_of_reachable (hs : Reachable order f allowed s) : ∃ w t, Kept f s w t := by
  induction hs with
  | create disk hdisk hempty =>
      obtain ⟨w, h⟩ := kept_create order hdisk hempty
      exact ⟨w, _, h⟩
  | step call _ htyped _ hrun ih =>
      obtain ⟨w, t, h⟩ := ih
      obtain ⟨w', h'⟩ := h.step htyped hrun
      exact ⟨w', _, h'⟩

/-- An insert returns as long as the file has room for a split and the header
for the count. -/
theorem insert_returns (hs : Reachable order f allowed s) (hkey : formati.Fits key) (hrid : RidFits rid)
    (hpages : s.pool.disk.numPages f < 2147483648) (hcount : formatI.Fits (s.tree.numKeys + 1)) :
    ∃ s', s.step order f (.insert key rid) = .ok s' := by
  obtain ⟨w, t, h⟩ := kept_of_reachable hs
  rcases h.run_insert order hkey hrid with ⟨hfull, -⟩ | ⟨s', w', hstep, -⟩
  · rw [h.numPages_eq] at hpages
    rw [h.tree_eq] at hcount
    exact absurd ⟨hpages, hcount⟩ hfull
  · exact ⟨s', hstep⟩

end IndexSession

end DBEngine
