import DBEngine.Index.BTreeShape
import DBEngine.Index.BPlusTree

/-!
# The methods of a node

What the loops of `BTreePage` compute on a node that is in order in itself:
each is the operation of `Leaf` or `InnerPage` on the entries, and none of them
runs out of its lists.
-/

set_option autoImplicit false

namespace DBEngine

open ByteBuffer

/-! ## Filing a key -/

theorem findKey_eq (p : Int → Bool) (keys : List Int) :
    BTreePage.findKey p keys.length keys =
      .ok (if keys.findIdx p < keys.length then some (keys.findIdx p) else none) := by
  induction keys with
  | nil => rfl
  | cons k keys ih =>
      simp only [List.length_cons, BTreePage.findKey, List.findIdx_cons]
      cases hk : p k with
      | true => simp
      | false =>
          simp only [ih, Bool.false_eq_true, if_false, cond_false, Nat.add_lt_add_iff_right]
          split <;> rfl

theorem map_insertAt {α β : Type} (f : α → β) (xs : List α) (i : Nat) (x : α) :
    (BTreePage.insertAt xs i x).map f = BTreePage.insertAt (xs.map f) i (f x) := by
  simp [BTreePage.insertAt, List.map_take, List.map_drop]

theorem insertAt_end {α : Type} {xs : List α} {i : Nat} (hi : xs.length = i) (x : α) :
    BTreePage.insertAt xs i x = xs ++ [x] := by
  simp [BTreePage.insertAt, ← hi]

theorem length_insertAt {α : Type} {xs : List α} {i : Nat} (hi : i ≤ xs.length) (x : α) :
    (BTreePage.insertAt xs i x).length = xs.length + 1 := by
  simp only [BTreePage.insertAt, List.length_append, List.length_take, List.length_cons,
    List.length_drop]
  omega

section

variable {node : InnerPage} {leaf : Leaf} {key : Int} {rid : Rid} {prev next : Int}

/-- `insert_pointer` files the node. -/
theorem insertPointer_of_ok (h : NodeOk node) (minKey : Int) (pointer : Nat) :
    node.insertPointer minKey pointer = .ok (node.filed minKey pointer) := by
  have hle : (node.keys.findIdx fun k => decide (minKey < k)) ≤ node.keys.length := List.findIdx_le_length
  rw [InnerPage.insertPointer, h.count, findKey_eq, InnerPage.filed]
  by_cases hlt : (node.keys.findIdx fun k => decide (minKey < k)) < node.keys.length
  · rw [if_pos hlt]
    simp [Bind.bind, Except.bind, h.count]
  · have hend : (node.keys.findIdx fun k => decide (minKey < k)) = node.keys.length := by omega
    rw [if_neg hlt, hend, insertAt_end rfl, insertAt_end h.linked]
    simp [Bind.bind, Except.bind, h.count]

/-- `insert` of a leaf. -/
theorem insert_node (leaf : Leaf) (key : Int) (rid : Rid) (prev next : Int) :
    (leaf.node prev next).insert key rid = .ok ((leaf.insert key rid).node prev next) := by
  have hcount : (leaf.node prev next).numKeys = (leaf.node prev next).keys.length := by
    simp [Leaf.node, Leaf.keys]
  have hidx : ((leaf.node prev next).keys.findIdx fun k => decide (key < k)) =
      leaf.entries.findIdx fun e => decide (key < e.1) := by
    simp only [Leaf.node, Leaf.keys, List.findIdx_map]
    rfl
  have hle : (leaf.entries.findIdx fun e => decide (key < e.1)) ≤ leaf.entries.length :=
    List.findIdx_le_length
  have hnew : (leaf.insert key rid).node prev next =
      { leaf.node prev next with
        keys := BTreePage.insertAt (leaf.node prev next).keys
          (leaf.entries.findIdx fun e => decide (key < e.1)) key
        rids := BTreePage.insertAt (leaf.node prev next).rids
          (leaf.entries.findIdx fun e => decide (key < e.1)) rid
        numKeys := (leaf.node prev next).numKeys + 1 } := by
    simp only [Leaf.node, Leaf.insert, Leaf.keys, map_insertAt, length_insertAt hle]
  rw [LeafPage.insert, hcount, findKey_eq, hidx, hnew]
  have hlen : (leaf.node prev next).keys.length = leaf.entries.length := by simp [Leaf.node, Leaf.keys]
  have hlen' : (leaf.node prev next).rids.length = leaf.entries.length := by simp [Leaf.node]
  by_cases hlt : (leaf.entries.findIdx fun e => decide (key < e.1)) < leaf.entries.length
  · rw [if_pos (by omega)]
    simp [Bind.bind, Except.bind, hcount]
  · have hend : (leaf.entries.findIdx fun e => decide (key < e.1)) = leaf.entries.length := by omega
    rw [if_neg (by omega), hend, insertAt_end hlen, insertAt_end hlen']
    simp [Bind.bind, Except.bind, hcount]

theorem isOverflow_node (leaf : Leaf) (prev next : Int) :
    (leaf.node prev next).isOverflow = decide (BTreePage.maxKeys < leaf.entries.length) := rfl

theorem lowerHalf_node (leaf : Leaf) (prev next : Int) (newPageId : Nat) :
    (leaf.node prev next).lowerHalf newPageId = leaf.lower.node prev newPageId := by
  simp [LeafPage.lowerHalf, Leaf.node, Leaf.lower, Leaf.keys, List.map_take]

theorem upperHalf_node (leaf : Leaf) (prev next : Int) (newPageId : Nat) :
    (leaf.node prev next).upperHalf newPageId = (leaf.upper newPageId).node leaf.pageId next := by
  simp [LeafPage.upperHalf, Leaf.node, Leaf.upper, Leaf.keys, List.map_drop]

theorem passed_node (leaf : Leaf) (prev next key : Int) :
    (leaf.node prev next).passed key = leaf.passed key := by
  simp only [LeafPage.passed, Leaf.passed, Leaf.node, Leaf.keys, List.getLast?_map]
  cases leaf.entries.getLast? <;> rfl

/-! ## Looking for a key -/

theorem lookupIn_eq {es : List (Int × Rid)} (hsorted : es.Pairwise fun x y => x.1 ≤ y.1) (key : Int) :
    LeafPage.lookupIn key es.length (es.map Prod.fst) (es.map Prod.snd) =
      .ok ((es.filter fun e => decide (e.1 = key)).map Prod.snd) := by
  induction es with
  | nil => rfl
  | cons e es ih =>
      obtain ⟨hle, hrest⟩ := List.pairwise_cons.mp hsorted
      simp only [List.length_cons, List.map_cons, LeafPage.lookupIn, List.tail_cons, ih hrest]
      by_cases hlt : key < e.1
      · -- every key from here on is larger
        have hnone : (e :: es).filter (fun e => decide (e.1 = key)) = [] := by
          refine List.filter_eq_nil_iff.mpr fun x hx => ?_
          rcases List.mem_cons.mp hx with rfl | hx
          · simp; omega
          · have := hle x hx
            simp; omega
        rw [if_pos hlt, hnone]
        rfl
      · rw [if_neg hlt]
        by_cases heq : key = e.1
        · simp [heq, Except.map]
        · have hne : ¬ e.1 = key := fun h => heq h.symm
          simp [heq, hne]

theorem lookup_node (h : LeafOk leaf) (key : Int) :
    (leaf.node prev next).lookup key = .ok (leaf.lookup key) :=
  lookupIn_eq (List.pairwise_map.mp h.sorted) key

theorem findEntry_eq {es : List (Int × Rid)} (hsorted : es.Pairwise fun x y => x.1 ≤ y.1) (key : Int)
    (rid : Rid) :
    LeafPage.findEntry key rid es.length (es.map Prod.fst) (es.map Prod.snd) =
      .ok (if (key, rid) ∈ es then some (es.idxOf (key, rid)) else none) := by
  induction es with
  | nil => rfl
  | cons e es ih =>
      obtain ⟨hle, hrest⟩ := List.pairwise_cons.mp hsorted
      simp only [List.length_cons, List.map_cons, LeafPage.findEntry, List.tail_cons, ih hrest]
      by_cases hlt : key < e.1
      · have hnot : (key, rid) ∉ e :: es := fun hmem => by
          rcases List.mem_cons.mp hmem with rfl | hmem
          · exact absurd hlt (Int.lt_irrefl _)
          · exact absurd (hle _ hmem) (Int.not_le.mpr hlt)
        rw [if_pos hlt, if_neg hnot]
      · rw [if_neg hlt]
        by_cases hhere : e = (key, rid)
        · subst hhere
          simp
        · have hnext : (es.idxOf (key, rid) + 1) = (e :: es).idxOf (key, rid) := by
            rw [List.idxOf_cons_ne _ hhere]
          have hmem : (key, rid) ∈ e :: es ↔ (key, rid) ∈ es := by simp [Ne.symm hhere]
          have hnot : key = e.1 → rid ≠ e.2 := fun h h' => hhere (Prod.ext h.symm h'.symm)
          simp only [hmem, ← hnext]
          split
          · rename_i heq
            rw [if_neg (hnot heq)]
            split <;> rfl
          · split <;> rfl

/-- `remove_key` takes out the first entry that is there. -/
theorem removeKey_node (h : LeafOk leaf) (key : Int) (rid : Rid) :
    (leaf.node prev next).removeKey key rid =
      .ok (if (key, rid) ∈ leaf.entries then
        some ((leaf.erase key rid).node prev next) else none) := by
  have hfind : LeafPage.findEntry key rid (leaf.node prev next).numKeys (leaf.node prev next).keys
      (leaf.node prev next).rids =
        .ok (if (key, rid) ∈ leaf.entries then some (leaf.entries.idxOf (key, rid)) else none) :=
    findEntry_eq (List.pairwise_map.mp h.sorted) key rid
  rw [LeafPage.removeKey, hfind]
  by_cases hmem : (key, rid) ∈ leaf.entries
  · have herase : leaf.entries.erase (key, rid) = leaf.entries.eraseIdx (leaf.entries.idxOf (key, rid)) :=
      List.erase_eq_eraseIdx_of_idxOf rfl
    have hlen := List.length_erase_of_mem hmem
    rw [if_pos hmem, if_pos hmem]
    simp only [Leaf.node, Leaf.keys, Leaf.erase, Bind.bind, Except.bind, hlen]
    rw [herase, List.eraseIdx_map, List.eraseIdx_map]
  · rw [if_neg hmem, if_neg hmem]
    rfl

/-- The loop of `range_scan` over a leaf takes the entries at or above the
start, up to the first one past the end. -/
theorem takeRange_eq (start stop : Option Int) (es : List (Int × Rid)) (taken : List Rid) :
    BPlusTree.takeRange start stop es.length (es.map Prod.fst) (es.map Prod.snd) taken =
      let inside := es.filter fun e => !start.any fun s => decide (e.1 < s)
      let past := inside.any fun e => stop.any fun s => decide (s < e.1)
      .ok (taken ++ (inside.takeWhile fun e => !stop.any fun s => decide (s < e.1)).map Prod.snd, past) := by
  induction es generalizing taken with
  | nil => simp [BPlusTree.takeRange]
  | cons e es ih =>
      simp only [List.length_cons, List.map_cons, BPlusTree.takeRange, List.tail_cons, ih,
        List.filter_cons]
      by_cases hstart : start.any (fun s => decide (e.1 < s)) = true
      · simp [hstart]
      · by_cases hstop : stop.any (fun s => decide (s < e.1)) = true
        · simp [hstart, hstop]
        · simp [hstart, hstop]

/-! ## Routing -/

/-- In a sorted node the loop of `_find_leaf` stops behind the keys below the one
looked for. -/
theorem routeFrom_eq (h : NodeOk node) (key : Int) : ∀ n, n ≤ node.keys.length →
    node.routeFrom key n = node.pointer ((node.keys.take n).countP fun k => decide (k < key)) := by
  intro n
  induction n with
  | zero => exact fun _ => rfl
  | succ n ih =>
      intro hn
      have hget : node.keys[n]? = some node.keys[n] := List.getElem?_eq_getElem (by omega)
      rw [InnerPage.routeFrom, hget, List.take_add_one, hget, Option.toList_some, List.countP_append]
      by_cases hlt : node.keys[n] < key
      · have hall : (node.keys.take n).countP (fun k => decide (k < key)) = n := by
          have hlen : (node.keys.take n).length = n := by simp; omega
          conv_rhs => rw [← hlen]
          refine List.countP_eq_length.mpr fun k hk => ?_
          obtain ⟨i, hi, rfl⟩ := List.mem_take_iff_getElem.mp hk
          have hle := List.pairwise_iff_getElem.mp h.sorted i n (by omega) (by omega) (by omega)
          simp only [decide_eq_true_eq]
          omega
        simp [hlt, hall]
      · simp [hlt, ih (by omega)]

/-- `_find_leaf` goes on to the child of the key. -/
theorem route_of_ok (h : NodeOk node) {c : Nat} (hc : node.child? key = some c) :
    node.route key = .ok c := by
  rw [InnerPage.route, h.count, routeFrom_eq h key _ (Nat.le_refl _), List.take_length]
  rw [InnerPage.child?] at hc
  rw [InnerPage.pointer, hc]

end

end DBEngine
