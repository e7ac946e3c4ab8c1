import DBEngine.Index.IndexHistory

/-!
# The number of keys of an index

`insert` and `delete` count in memory; the number reaches the header when a
delete succeeds or the root is split.  An index that is opened again at another
moment starts with an older number, which later deletes can take below zero.
-/

set_option autoImplicit false

namespace DBEngine

open ByteBuffer Paged

namespace BTree

variable {t : BTree} {key : Int} {rid : Rid}

theorem numKeys_insert (h : t.Shape) : (t.insert key rid).numKeys = t.numKeys + 1 := by
  obtain ⟨leaf, trail, C₁, C₂, hr⟩ := h.reaches key
  by_cases hroom : (leaf.insert key rid).entries.length ≤ BTreePage.maxKeys
  · rw [insert_room h hr hroom]
  · rw [insert_split h hr (by omega)]

theorem numKeys_delete (h : t.Shape) (key : Int) (rid : Rid) :
    (t.delete key rid).2.numKeys = if (t.delete key rid).1 then t.numKeys - 1 else t.numKeys := by
  rcases h.delete_cases key rid with hnone | ⟨C₁, leaf, C₂, -, -, hsome⟩
  · simp [hnone]
  · simp [hsome]

theorem mem_lookup {leaf : Leaf} : rid ∈ leaf.lookup key ↔ (key, rid) ∈ leaf.entries := by
  simp [Leaf.lookup]

/-- A delete stops where a search of the key would have found the entry. -/
theorem deleteIn_isSome (key : Int) (rid : Rid) (chain : List Leaf) :
    (deleteIn key rid chain).isSome = decide (rid ∈ searchIn key chain) := by
  induction chain with
  | nil => simp [deleteIn, searchIn]
  | cons leaf rest ih =>
      by_cases hmem : (key, rid) ∈ leaf.entries
      · simp [deleteIn, searchIn, hmem, mem_lookup]
      · by_cases hpassed : leaf.passed key = true
        · simp [deleteIn, searchIn, hmem, hpassed, mem_lookup]
        · simp [deleteIn, searchIn, hmem, hpassed, mem_lookup, ih]

/-- A delete finds what a search of the key finds. -/
theorem delete_fst (t : BTree) (key : Int) (rid : Rid) :
    (t.delete key rid).1 = decide (rid ∈ t.search key) := by
  unfold delete search
  cases t.leafOf key with
  | none => simp
  | some found =>
      obtain ⟨leaf, trail⟩ := found
      have hfound := deleteIn_isSome key rid (t.chainFrom leaf.pageId)
      simp only
      rw [← hfound]
      cases deleteIn key rid (t.chainFrom leaf.pageId) <;> rfl

end BTree

namespace IndexSession

variable {order : SetOrder} {f : FileId} {s s' : IndexSession} {w w' : Flat FileId Bytes} {t : BTree}
  {key : Int} {rid : Rid} {allowed : IndexSession → IndexCall → Prop}

/-- The index is opened again only when the header has the number of keys that
the tree object has. -/
def Recorded (f : FileId) (s : IndexSession) : IndexCall → Prop
  | .reopen => ∃ n : Nat, storedCount f s = .ok n ∧ s.tree.numKeys = n
  | _ => True

theorem Kept.numKeys_eq (h : Kept f s w t) : s.tree.numKeys = t.numKeys := by rw [h.tree_eq]

/-- The header has the number of the tree object when the tree says so. -/
theorem Kept.recorded_iff (h : Kept f s w t) : Recorded f s .reopen ↔ t.stored = t.numKeys := by
  obtain ⟨n, hn, hstored⟩ := h.storedCount_eq
  rw [Recorded, h.numKeys_eq]
  constructor
  · rintro ⟨m, hm, hcount⟩
    rw [hn] at hm
    rw [hstored, hcount, Except.ok.inj hm]
  · intro heq
    exact ⟨n, hn, by rw [← heq, hstored]⟩

/-- One call keeps the count, when it is recorded before the index is opened again. -/
theorem Kept.counted_step (h : Kept f s w t) (hcount : s.tree.numKeys = s.live.card) {call : IndexCall}
    (htyped : call.Typed) (hcall : Recorded f s call) (hrun : s.step order f call = .ok s') :
    s'.tree.numKeys = s'.live.card := by
  obtain ⟨w', h'⟩ := h.step htyped hrun
  rw [h.numKeys_eq, h.card_live] at hcount
  rw [h'.numKeys_eq, h'.card_live]
  cases call with
  | insert key rid =>
      have hlength := (h.shape.insert htyped.1 htyped.2).entries.length_eq
      rw [List.length_cons] at hlength
      change (t.insert key rid).numKeys = ((t.insert key rid).entries.length : Int)
      rw [BTree.numKeys_insert h.shape, hlength]
      omega
  | delete key rid =>
      change (t.delete key rid).2.numKeys = ((t.delete key rid).2.entries.length : Int)
      rw [BTree.numKeys_delete h.shape]
      rcases h.shape.delete key rid with hnone | ⟨t', hsome, hdeleted⟩
      · rw [hnone]
        exact hcount
      · have hlength := hdeleted.entries.length_eq
        rw [List.length_cons] at hlength
        rw [hsome]
        simp only [if_true]
        omega
  | reopen =>
      change t.stored = (t.entries.length : Int)
      rw [h.recorded_iff.mp hcall, hcount]

theorem counted_of_reachable (hs : Reachable order f (Recorded f) s) :
    s.tree.numKeys = s.live.card := by
  induction hs with
  | create disk hdisk hempty =>
      obtain ⟨w, h⟩ := kept_create order hdisk hempty
      rw [h.numKeys_eq, h.card_live]
      rfl
  | step call hs htyped hcall hrun ih =>
      obtain ⟨w, t, h⟩ := kept_of_reachable hs
      exact h.counted_step ih htyped hcall hrun

/-- A search returns what the walk of the tree finds. -/
theorem Kept.search_eq (order : SetOrder) (h : Kept f s w t) (key : Int) :
    (s.run order (BPlusTree.search f key)).1 = .ok (t.search key) := by
  obtain ⟨pool, hpool, -⟩ := h.run_eq order (run_search h.shape h.rep key) (by simp)
  rw [hpool]

/-- With the right count a delete cannot fail. -/
theorem Kept.delete_eq (order : SetOrder) (h : Kept f s w t) (hcount : s.tree.numKeys = s.live.card)
    (hsmall : s.live.card ≤ 4294967296) (key : Int) (rid : Rid) :
    (s.run order (BPlusTree.delete f key rid)).1 = .ok (t.delete key rid).1 := by
  rcases h.run_delete order key rid with ⟨hfull, hfound, -⟩ | ⟨tree', pool, w', hok, -⟩
  · refine absurd (fits_formatI.mpr ?_) hfull
    rw [h.numKeys_eq] at hcount
    rcases h.shape.delete key rid with hnone | ⟨t', hsome, hdeleted⟩
    · simp [hnone] at hfound
    · have hlength := hdeleted.entries.length_eq
      rw [List.length_cons, ← h.card_live] at hlength
      omega
  · rw [hok]

end IndexSession

end DBEngine
