import DBEngine.Index.BTree

/-!
# The shape of a tree

What every tree keeps, whatever keys go in: each level of nodes points to the
pages of the level below it, no page has two places, and each node is sorted in
itself.  An insert keeps the shape and adds its entry; a separator filed in the
wrong place does not disturb it.
-/

set_option autoImplicit false

namespace DBEngine

open ByteBuffer

/-! ## Keys in order -/

/-- Where a key goes in a sorted list of keys. -/
theorem cut_at {α : Type} (key : α → Int) (m : Int) {xs : List α}
    (hsorted : xs.Pairwise fun x y => key x ≤ key y) :
    ∃ lo hi, xs = lo ++ hi ∧ (xs.findIdx fun x => decide (m < key x)) = lo.length ∧
      (∀ x ∈ lo, key x ≤ m) ∧ ∀ x ∈ hi, m < key x := by
  induction xs with
  | nil => exact ⟨[], [], rfl, rfl, by simp, by simp⟩
  | cons x xs ih =>
      obtain ⟨hx, hrest⟩ := List.pairwise_cons.mp hsorted
      by_cases hlt : m < key x
      · refine ⟨[], x :: xs, rfl, by simp [List.findIdx_cons, hlt], by simp, fun y hy => ?_⟩
        rcases List.mem_cons.mp hy with rfl | hy
        · exact hlt
        · exact Int.lt_of_lt_of_le hlt (hx y hy)
      · obtain ⟨lo, hi, rfl, hidx, hlo, hhi⟩ := ih hrest
        refine ⟨x :: lo, hi, rfl, by simp [List.findIdx_cons, hlt, hidx], fun y hy => ?_, hhi⟩
        rcases List.mem_cons.mp hy with rfl | hy
        · exact Int.not_lt.mp hlt
        · exact hlo y hy

/-- The place of a key is known from what stands around it. -/
theorem findIdx_cut {α : Type} (key : α → Int) {m : Int} {lo hi : List α}
    (hlo : ∀ x ∈ lo, key x ≤ m) (hhi : ∀ x, hi.head? = some x → m < key x) :
    ((lo ++ hi).findIdx fun x => decide (m < key x)) = lo.length := by
  induction lo with
  | nil =>
      cases hi with
      | nil => rfl
      | cons x hi => simp [List.findIdx_cons, hhi x rfl]
  | cons y lo ih =>
      have hy : ¬ m < key y := Int.not_lt.mpr (hlo y List.mem_cons_self)
      simp [List.findIdx_cons, hy, ih fun x hx => hlo x (List.mem_cons_of_mem y hx)]

theorem insertAt_append {α : Type} (lo hi : List α) (x : α) :
    BTreePage.insertAt (lo ++ hi) lo.length x = lo ++ x :: hi := by
  simp [BTreePage.insertAt]

/-- An item more, not at the front. -/
def InsertedIn {α : Type} (x : α) (xs ys : List α) : Prop :=
  ∃ lo hi, lo ≠ [] ∧ xs = lo ++ hi ∧ ys = lo ++ x :: hi

theorem InsertedIn.append {α : Type} {x : α} {xs ys : List α} (h : InsertedIn x xs ys)
    (front back : List α) : InsertedIn x (front ++ (xs ++ back)) (front ++ (ys ++ back)) := by
  obtain ⟨lo, hi, hne, rfl, rfl⟩ := h
  exact ⟨front ++ lo, hi ++ back, by simp [hne], by simp, by simp⟩

/-- The same pages, with the same page in front. -/
def SamePages (ps qs : List Nat) : Prop := ps.Perm qs ∧ ps.head? = qs.head?

theorem SamePages.refl (ps : List Nat) : SamePages ps ps := ⟨List.Perm.refl ps, rfl⟩

theorem head?_of_insertedIn {α : Type} {x : α} {xs ys : List α} (h : InsertedIn x xs ys) :
    ys.head? = xs.head? := by
  obtain ⟨lo, hi, hne, rfl, rfl⟩ := h
  cases lo with
  | nil => exact absurd rfl hne
  | cons y lo => rfl

theorem perm_of_insertedIn {α : Type} {x : α} {xs ys : List α} (h : InsertedIn x xs ys) :
    ys.Perm (x :: xs) := by
  obtain ⟨lo, hi, -, rfl, rfl⟩ := h
  exact List.perm_middle

/-- The same page more, on both sides. -/
theorem SamePages.inserted {p : Nat} {ps ps' qs qs' : List Nat} (h : SamePages ps qs)
    (hps : InsertedIn p ps ps') (hqs : InsertedIn p qs qs') : SamePages ps' qs' :=
  ⟨(perm_of_insertedIn hps).trans ((h.1.cons p).trans (perm_of_insertedIn hqs).symm),
    (head?_of_insertedIn hps).trans (h.2.trans (head?_of_insertedIn hqs).symm)⟩

/-! ## Nodes -/

/-- An inner node that is in order in itself. -/
structure NodeOk (node : InnerPage) : Prop where
  count : node.numKeys = node.keys.length
  linked : node.pointers.length = node.keys.length + 1
  sorted : node.keys.Pairwise (· ≤ ·)
  fits : ∀ k ∈ node.keys, formati.Fits k

/-- A leaf that is in order in itself. -/
structure LeafOk (leaf : Leaf) : Prop where
  sorted : leaf.keys.Pairwise (· ≤ ·)
  keys : ∀ k ∈ leaf.keys, formati.Fits k
  rids : ∀ e ∈ leaf.entries, RidFits e.2

section

variable {node : InnerPage} {m : Int} {q : Nat}

/-- Filing a node: its key and its pointer go to one place. -/
theorem filed_cases (h : NodeOk node) (m : Int) (q : Nat) :
    ∃ klo khi plo phi, node.keys = klo ++ khi ∧ node.pointers = plo ++ phi ∧
      plo.length = klo.length + 1 ∧ (∀ k ∈ klo, k ≤ m) ∧ (∀ k ∈ khi, m < k) ∧
      node.filed m q = ⟨node.pageId, node.numKeys + 1, klo ++ m :: khi, plo ++ q :: phi⟩ := by
  obtain ⟨klo, khi, hkeys, hidx, hlo, hhi⟩ := cut_at (fun k => k) m h.sorted
  have hlen : klo.length + 1 ≤ node.pointers.length := by
    rw [h.linked, hkeys, List.length_append]
    omega
  refine ⟨klo, khi, node.pointers.take (klo.length + 1), node.pointers.drop (klo.length + 1), hkeys,
    (List.take_append_drop _ _).symm, by simp [hlen], hlo, hhi, ?_⟩
  simp only [InnerPage.filed, hidx]
  congr 1
  rw [hkeys, insertAt_append]

theorem nodeOk_filed (h : NodeOk node) (hm : formati.Fits m) (q : Nat) : NodeOk (node.filed m q) := by
  obtain ⟨klo, khi, plo, phi, hkeys, hpointers, hlen, hlo, hhi, hfiled⟩ := filed_cases h m q
  have hsorted := h.sorted
  have hlinked := h.linked
  have hcount := h.count
  have hfits := h.fits
  rw [hkeys] at hsorted hlinked hcount hfits
  rw [hpointers] at hlinked
  rw [hfiled]
  obtain ⟨hslo, hshi, hcross⟩ := List.pairwise_append.mp hsorted
  refine ⟨?_, ?_, ?_, fun k hk => ?_⟩
  · simp only [List.length_append, List.length_cons] at hcount ⊢
    omega
  · simp only [List.length_append, List.length_cons] at hlinked ⊢
    omega
  · refine List.pairwise_append.mpr ⟨hslo, List.pairwise_cons.mpr ⟨fun k hk => ?_, hshi⟩, fun k hk l hl => ?_⟩
    · exact Int.le_of_lt (hhi k hk)
    · rcases List.mem_cons.mp hl with rfl | hl
      · exact hlo k hk
      · exact hcross k hk l hl
  · rcases List.mem_append.mp hk with hk | hk
    · exact hfits k (List.mem_append_left _ hk)
    · rcases List.mem_cons.mp hk with rfl | hk
      · exact hm
      · exact hfits k (List.mem_append_right _ hk)

theorem length_keys_filed (h : NodeOk node) : (node.filed m q).keys.length = node.keys.length + 1 := by
  obtain ⟨klo, khi, plo, phi, hkeys, hpointers, hlen, hlo, hhi, hfiled⟩ := filed_cases h m q
  rw [hfiled, hkeys]
  simp only [List.length_append, List.length_cons]
  omega

theorem insertedIn_filed (h : NodeOk node) : InsertedIn q node.pointers (node.filed m q).pointers := by
  obtain ⟨klo, khi, plo, phi, -, hpointers, hlen, -, -, hfiled⟩ := filed_cases h m q
  refine ⟨plo, phi, ?_, hpointers, by rw [hfiled]⟩
  rintro rfl
  simp at hlen

@[simp] theorem filed_pageId (node : InnerPage) (m : Int) (q : Nat) :
    (node.filed m q).pageId = node.pageId := rfl

/-- The halves of a node with a key between them. -/
theorem halves (h : NodeOk node) (hkeys : node.keys ≠ []) (newPageId : Nat) :
    node.keys = node.lowerHalf.keys ++ node.middle :: (node.upperHalf newPageId).keys ∧
      node.pointers = node.lowerHalf.pointers ++ (node.upperHalf newPageId).pointers ∧
      node.lowerHalf.keys.length = node.keys.length / 2 ∧
      node.lowerHalf.pointers.length = node.lowerHalf.keys.length + 1 := by
  have hpos : 0 < node.keys.length := List.length_pos_iff.mpr hkeys
  have hlt : node.keys.length / 2 < node.keys.length := Nat.div_lt_self hpos (by decide)
  have hlinked := h.linked
  refine ⟨?_, ?_, ?_, ?_⟩
  · simp only [InnerPage.lowerHalf, InnerPage.upperHalf, InnerPage.middle, h.count]
    rw [List.getD_eq_getElem?_getD, List.getElem?_eq_getElem hlt, Option.getD_some,
      ← List.drop_eq_getElem_cons hlt, List.take_append_drop]
  · simp only [InnerPage.lowerHalf, InnerPage.upperHalf, List.take_append_drop]
  · simp only [InnerPage.lowerHalf, h.count, List.length_take]
    omega
  · simp only [InnerPage.lowerHalf, h.count, List.length_take]
    omega

theorem splitKey_of_ok (h : NodeOk node) (hkeys : node.keys ≠ []) :
    node.splitKey = .ok node.middle := by
  have hpos : 0 < node.keys.length := List.length_pos_iff.mpr hkeys
  have hlt : node.numKeys / 2 < node.keys.length := by
    rw [h.count]
    exact Nat.div_lt_self hpos (by decide)
  rw [InnerPage.splitKey, InnerPage.middle, List.getD_eq_getElem?_getD, List.getElem?_eq_getElem hlt,
    Option.getD_some]

theorem nodeOk_halves (h : NodeOk node) (hkeys : node.keys ≠ []) (newPageId : Nat) :
    NodeOk node.lowerHalf ∧ NodeOk (node.upperHalf newPageId) ∧ formati.Fits node.middle := by
  obtain ⟨hsplit, hptrs, -, hlinkedLo⟩ := halves h hkeys newPageId
  have hsorted := h.sorted
  have hlinked := h.linked
  have hfits := h.fits
  rw [hsplit] at hsorted hlinked hfits
  rw [hptrs] at hlinked
  obtain ⟨hlo, hhi, -⟩ := List.pairwise_append.mp hsorted
  refine ⟨⟨rfl, hlinkedLo, hlo, fun k hk => hfits k (List.mem_append_left _ hk)⟩,
    ⟨rfl, ?_, (List.pairwise_cons.mp hhi).2,
      fun k hk => hfits k (List.mem_append_right _ (List.mem_cons_of_mem _ hk))⟩,
    hfits _ (List.mem_append_right _ List.mem_cons_self)⟩
  simp only [List.length_append, List.length_cons] at hlinked
  omega

end

/-! ## Levels -/

/-- The pages on which the nodes of a level are stored. -/
def idsOf (level : List InnerPage) : List Nat := level.map InnerPage.pageId

/-- The pages to which a level points. -/
def pointersOf (level : List InnerPage) : List Nat := level.flatMap InnerPage.pointers

/-- The levels point down to the pages `ps`, each level to the pages of the one
below it; `R` says how the two lists of pages compare. -/
def Linked (R : List Nat → List Nat → Prop) (root : Nat) :
    List Nat → List (List InnerPage) → Prop
  | ps, [] => R [root] ps
  | ps, level :: above => R (pointersOf level) ps ∧ Linked R root (idsOf level) above

/-- Every node of the levels is in order in itself and is not too full. -/
def NodesOk (levels : List (List InnerPage)) : Prop :=
  ∀ level ∈ levels, ∀ node ∈ level, NodeOk node ∧ node.keys.length ≤ BTreePage.maxKeys

/-- The pages of all levels. -/
def allIds (levels : List (List InnerPage)) : List Nat := levels.flatMap idsOf

section

variable {R : List Nat → List Nat → Prop} {levels : List (List InnerPage)} {level : List InnerPage}
  {node : InnerPage} {trail : List InnerPage} {key : Int} {root p q next : Nat} {ps ps' : List Nat}

theorem Linked.mono {S : List Nat → List Nat → Prop} (h : ∀ ps qs, R ps qs → S ps qs) :
    ∀ {ps levels}, Linked R root ps levels → Linked S root ps levels
  | _, [], hl => h _ _ hl
  | _, _ :: _, ⟨hptrs, hl⟩ => ⟨h _ _ hptrs, hl.mono h⟩

/-- A node has a child for every key. -/
theorem child_of_ok (h : NodeOk node) (key : Int) : ∃ c, node.child? key = some c ∧ c ∈ node.pointers := by
  have hcount : node.keys.countP (fun k => decide (k < key)) < node.pointers.length := by
    rw [h.linked]
    exact Nat.lt_succ_of_le List.countP_le_length
  exact ⟨_, List.getElem?_eq_getElem hcount, List.getElem_mem hcount⟩

/-- A page that one of the items has is found. -/
theorem find_of_mem_map {α : Type} (pageId : α → Nat) {xs : List α} (h : p ∈ xs.map pageId) :
    ∃ x, (xs.find? fun y => decide (pageId y = p)) = some x ∧ x ∈ xs ∧ pageId x = p := by
  obtain ⟨y, hy, hp⟩ := List.mem_map.mp h
  cases hfind : xs.find? fun y => decide (pageId y = p) with
  | none => exact absurd hp (by simpa using List.find?_eq_none.mp hfind y hy)
  | some x => exact ⟨x, rfl, List.mem_of_find?_eq_some hfind, by simpa using List.find?_some hfind⟩

/-- A step of a descent. -/
theorem descend_cons {level : List InnerPage} {above : List (List InnerPage)}
    (h : BTree.descend key root (level :: above) = some (p, trail)) :
    ∃ p' node rest, BTree.descend key root above = some (p', rest) ∧ trail = node :: rest ∧
      node ∈ level ∧ node.pageId = p' ∧ node.child? key = some p := by
  simp only [BTree.descend, Option.bind_eq_bind, Option.bind_eq_some_iff] at h
  obtain ⟨⟨p', rest⟩, habove, node, hfind, child, hchild, heq⟩ := h
  obtain ⟨rfl, rfl⟩ := Prod.mk.inj (Option.some.inj heq)
  exact ⟨p', node, rest, habove, rfl, List.mem_of_find?_eq_some hfind,
    by simpa using List.find?_some hfind, hchild⟩

/-- The way of a key leads down to one of the pages, through one node of each
level. -/
theorem descend_of_linked (key : Int) (hok : NodesOk levels)
    (hlinked : Linked (fun ps qs => ps.Perm qs) root ps levels) :
    ∃ p trail, BTree.descend key root levels = some (p, trail) ∧ p ∈ ps ∧
      List.Forall₂ (fun level node => node ∈ level) levels trail := by
  induction levels generalizing ps with
  | nil => exact ⟨root, [], rfl, hlinked.subset List.mem_cons_self, .nil⟩
  | cons level above ih =>
      obtain ⟨hptrs, habove⟩ := hlinked
      obtain ⟨p', trail, hdescend, hp', htrail⟩ :=
        ih (fun l hl => hok l (List.mem_cons_of_mem _ hl)) habove
      obtain ⟨node, hfind, hmem, hid⟩ := find_of_mem_map InnerPage.pageId hp'
      obtain ⟨c, hchild, hc⟩ := child_of_ok (hok level List.mem_cons_self node hmem).1 key
      refine ⟨c, node :: trail, ?_, hptrs.subset (List.mem_flatMap.mpr ⟨node, hmem, hc⟩),
        .cons hmem htrail⟩
      simp [BTree.descend, hdescend, hfind, hchild]

/-! ## Putting nodes in the place of one -/

/-- Putting items in the place of the only one with its page. -/
theorem flatMap_replace {α : Type} (pageId : α → Nat) {lo hi : List α} {x : α}
    (hnodup : ((lo ++ x :: hi).map pageId).Nodup) (ys : List α) :
    ((lo ++ x :: hi).flatMap fun y => if pageId y = pageId x then ys else [y]) = lo ++ (ys ++ hi) := by
  have hother : ∀ zs : List α, (∀ z ∈ zs, pageId z ≠ pageId x) →
      (zs.flatMap fun y => if pageId y = pageId x then ys else [y]) = zs := fun zs hzs => by
    induction zs with
    | nil => rfl
    | cons z zs ih =>
        rw [List.flatMap_cons, if_neg (hzs z List.mem_cons_self),
          ih fun y hy => hzs y (List.mem_cons_of_mem z hy)]
        rfl
  simp only [List.map_append, List.map_cons, List.nodup_append, List.nodup_cons, List.mem_map,
    List.mem_cons, not_exists, not_and] at hnodup
  obtain ⟨-, ⟨hhi, -⟩, hlo⟩ := hnodup
  rw [List.flatMap_append, List.flatMap_cons, if_pos rfl,
    hother lo fun z hz heq => hlo _ ⟨z, hz, rfl⟩ _ (Or.inl rfl) heq,
    hother hi fun z hz heq => hhi z hz heq]

/-- The node of a level on a page is the only one there. -/
theorem replaceNode_eq {lo hi : List InnerPage} (hnodup : (idsOf (lo ++ node :: hi)).Nodup)
    (nodes : List InnerPage) :
    BTree.replaceNode node.pageId nodes (lo ++ node :: hi) = lo ++ (nodes ++ hi) :=
  flatMap_replace InnerPage.pageId hnodup nodes

theorem pointersOf_append (lo hi : List InnerPage) (node : InnerPage) :
    pointersOf (lo ++ node :: hi) = pointersOf lo ++ (node.pointers ++ pointersOf hi) := by
  simp [pointersOf]

theorem idsOf_append (lo hi : List InnerPage) (node : InnerPage) :
    idsOf (lo ++ node :: hi) = idsOf lo ++ ([node.pageId] ++ idsOf hi) := by
  simp [idsOf]

/-- The level after a node was filed in one of its nodes. -/
theorem insertedIn_pointersOf {lo hi nodes : List InnerPage}
    (h : InsertedIn q node.pointers (pointersOf nodes)) :
    InsertedIn q (pointersOf (lo ++ node :: hi)) (pointersOf (lo ++ (nodes ++ hi))) := by
  have hnew : pointersOf (lo ++ (nodes ++ hi)) = pointersOf lo ++ (pointersOf nodes ++ pointersOf hi) := by
    simp [pointersOf]
  rw [pointersOf_append, hnew]
  exact h.append _ _

theorem fits_filedKey {splitKey : Int} (hkey : formati.Fits splitKey) (h : NodeOk node) :
    formati.Fits (BTree.filedKey splitKey node) := by
  unfold BTree.filedKey
  split
  · exact hkey
  · cases hkeys : node.keys with
    | nil => exact fits_formati.mpr (by simp)
    | cons k ks => exact h.fits k (by simp [hkeys])

/-! ## The cases of `raise` -/

theorem raise_room {m : Int} (above : List (List InnerPage))
    (hroom : (node.filed m q).isOverflow = false) :
    BTree.raise (level :: above) (node :: trail) m q next =
      ⟨BTree.replaceNode node.pageId [node.filed m q] level :: above, none, next⟩ := by
  simp [BTree.raise, hroom]

theorem raise_top {m : Int} (above : List (List InnerPage))
    (hover : (node.filed m q).isOverflow = true) :
    BTree.raise (level :: above) [node] m q next =
      ⟨[BTree.replaceNode node.pageId [(node.filed m q).lowerHalf, (node.filed m q).upperHalf next] level,
        [BTree.rootOver (next + 1) node.pageId (node.filed m q).middle next]],
        some (next + 1), next + 2⟩ := by
  rw [BTree.raise, if_pos hover]

theorem raise_up {m : Int} (above : List (List InnerPage)) (node' : InnerPage)
    (hover : (node.filed m q).isOverflow = true) {r : BTree.Raised}
    (hr : BTree.raise above (node' :: trail)
      (BTree.filedKey (node.filed m q).middle ((node.filed m q).upperHalf next)) next (next + 1) = r) :
    BTree.raise (level :: above) (node :: node' :: trail) m q next =
      ⟨BTree.replaceNode node.pageId [(node.filed m q).lowerHalf, (node.filed m q).upperHalf next] level ::
        r.levels, r.newRoot, r.next⟩ := by
  rw [BTree.raise, if_pos hover, ← hr]

/-- What filing a new page does to the levels: their shape is kept, the nodes
are those of before and the new ones. -/
structure RaisedOk (root : Nat) (ps' : List Nat) (levels : List (List InnerPage)) (next : Nat)
    (r : BTree.Raised) : Prop where
  linked : Linked SamePages (r.newRoot.getD root) ps' r.levels
  nodes : NodesOk r.levels
  ids : (allIds r.levels).Perm (allIds levels ++ List.range' next (r.next - next))
  more : next ≤ r.next
  few : r.next ≤ next + levels.length + 1

/-- One level of it, when the node has room. -/
theorem raisedOk_room {lo hi : List InnerPage} {above : List (List InnerPage)} {m : Int}
    (hok : NodesOk ((lo ++ node :: hi) :: above))
    (hlinked : Linked SamePages root ps ((lo ++ node :: hi) :: above))
    (hm : formati.Fits m) (hps : InsertedIn q ps ps')
    (hroom : (node.filed m q).keys.length ≤ BTreePage.maxKeys) :
    RaisedOk root ps' ((lo ++ node :: hi) :: above) next
      ⟨(lo ++ ([node.filed m q] ++ hi)) :: above, none, next⟩ := by
  have hnode := hok _ List.mem_cons_self
  have hfiled := nodeOk_filed (hnode node (by simp)).1 hm q
  have hids : idsOf (lo ++ ([node.filed m q] ++ hi)) = idsOf (lo ++ node :: hi) := by simp [idsOf]
  refine ⟨⟨?_, ?_⟩, fun level hlevel => ?_, ?_, Nat.le_refl _,
    Nat.le_succ_of_le (Nat.le_add_right next _)⟩
  · refine hlinked.1.inserted (insertedIn_pointersOf ?_) hps
    simpa [pointersOf] using insertedIn_filed (hnode node (by simp)).1
  · rw [hids]
    exact hlinked.2
  · rcases List.mem_cons.mp hlevel with rfl | hlevel
    · intro n hn
      rcases List.mem_append.mp hn with hn | hn
      · exact hnode n (by simp [hn])
      · rcases List.mem_append.mp hn with hn | hn
        · rw [List.mem_singleton.mp hn]
          exact ⟨hfiled, hroom⟩
        · exact hnode n (by simp [hn])
    · exact hok level (List.mem_cons_of_mem _ hlevel)
  · simp only [allIds, List.flatMap_cons, hids, Nat.sub_self, List.range'_zero, List.append_nil]
    exact List.Perm.refl _

variable (next node) in
/-- The two halves of a node that became too full. -/
theorem nodesOk_split {lo hi : List InnerPage} {filed : InnerPage} (hfiled : NodeOk filed)
    (hfull : filed.keys.length = BTreePage.maxKeys + 1)
    (hnodes : ∀ n ∈ lo ++ node :: hi, NodeOk n ∧ n.keys.length ≤ BTreePage.maxKeys) :
    ∀ n ∈ lo ++ ([filed.lowerHalf, filed.upperHalf next] ++ hi),
      NodeOk n ∧ n.keys.length ≤ BTreePage.maxKeys := by
  have hmax : BTreePage.maxKeys = 100 := rfl
  have hne : filed.keys ≠ [] := by
    intro hnil
    rw [hnil] at hfull
    simp at hfull
  obtain ⟨hkeys, -, hlen, -⟩ := halves hfiled hne next
  obtain ⟨hlower, hupper, -⟩ := nodeOk_halves hfiled hne next
  have htotal := congrArg List.length hkeys
  rw [List.length_append, List.length_cons] at htotal
  intro n hn
  rcases List.mem_append.mp hn with hn | hn
  · exact hnodes n (by simp [hn])
  · rcases List.mem_append.mp hn with hn | hn
    · rcases List.mem_cons.mp hn with rfl | hn
      · exact ⟨hlower, by omega⟩
      · rw [List.mem_singleton.mp hn]
        exact ⟨hupper, by omega⟩
    · exact hnodes n (by simp [hn])

theorem nodesOk_rootOver {rootId lower upper : Nat} {sep : Int} (hsep : formati.Fits sep) :
    NodeOk (BTree.rootOver rootId lower sep upper) := by
  refine ⟨rfl, rfl, List.pairwise_singleton _ _, fun k hk => ?_⟩
  rw [List.mem_singleton.mp hk]
  exact hsep

/-- Filing a page in the levels keeps their shape, whatever its key is. -/
theorem raise_ok {m : Int} (hok : NodesOk levels) (hlinked : Linked SamePages root ps levels)
    (htrail : List.Forall₂ (fun level node => node ∈ level) levels trail) (hne : trail ≠ [])
    (hnodup : (allIds levels).Nodup) (hm : formati.Fits m) (hps : InsertedIn q ps ps') (next : Nat) :
    RaisedOk root ps' levels next (BTree.raise levels trail m q next) := by
  induction htrail generalizing m q next ps ps' with
  | nil => exact absurd rfl hne
  | @cons level node above trail hmem htrail ih =>
      obtain ⟨lo, hi, rfl⟩ := List.append_of_mem hmem
      have hnodes := hok _ List.mem_cons_self
      have hnode := hnodes node (by simp)
      have hfiled := nodeOk_filed hnode.1 hm q
      have hlen := length_keys_filed (m := m) (q := q) hnode.1
      obtain ⟨hnodup₁, hnodup₂, -⟩ := List.nodup_append.mp
        (show (idsOf (lo ++ node :: hi) ++ allIds above).Nodup from hnodup)
      by_cases hroom : (node.filed m q).keys.length ≤ BTreePage.maxKeys
      · have hover : (node.filed m q).isOverflow = false := by
          simpa [InnerPage.isOverflow, hfiled.count] using hroom
        rw [raise_room above hover, replaceNode_eq hnodup₁]
        exact raisedOk_room hok hlinked hm hps hroom
      · have hover : (node.filed m q).isOverflow = true := by
          simpa [InnerPage.isOverflow, hfiled.count] using hroom
        have hfull : (node.filed m q).keys.length = BTreePage.maxKeys + 1 := by
          have := hnode.2
          omega
        have hne' : (node.filed m q).keys ≠ [] := by
          intro hnil
          simp [hnil] at hlen
        obtain ⟨-, hpointers, -, -⟩ := halves hfiled hne' next
        obtain ⟨-, hupper, hmiddle⟩ := nodeOk_halves hfiled hne' next
        have hlevel := nodesOk_split node next hfiled hfull hnodes
        have hpair : pointersOf [(node.filed m q).lowerHalf, (node.filed m q).upperHalf next] =
            (node.filed m q).pointers := by simp [pointersOf, hpointers]
        have hptrs : InsertedIn q (pointersOf (lo ++ node :: hi))
            (pointersOf (lo ++ ([(node.filed m q).lowerHalf, (node.filed m q).upperHalf next] ++ hi))) := by
          refine insertedIn_pointersOf ?_
          rw [hpair]
          exact insertedIn_filed hnode.1
        have hids : InsertedIn next (idsOf (lo ++ node :: hi))
            (idsOf (lo ++ ([(node.filed m q).lowerHalf, (node.filed m q).upperHalf next] ++ hi))) := by
          refine ⟨idsOf lo ++ [node.pageId], idsOf hi, by simp, by simp [idsOf], ?_⟩
          simp [idsOf, InnerPage.lowerHalf, InnerPage.upperHalf]
        have hbelow := hlinked.1.inserted hptrs hps
        cases htrail with
        | nil =>
            -- the node was the root
            have hroot : idsOf lo ++ ([node.pageId] ++ idsOf hi) = [root] := by
              rw [← idsOf_append]
              exact List.perm_singleton.mp hlinked.2.1.symm
            obtain ⟨rfl, rfl⟩ : lo = [] ∧ hi = [] := by
              have hlength := congrArg List.length hroot
              simp only [idsOf, List.length_append, List.length_map, List.length_singleton] at hlength
              exact ⟨List.length_eq_zero_iff.mp (by omega), List.length_eq_zero_iff.mp (by omega)⟩
            rw [raise_top [] hover, replaceNode_eq hnodup₁]
            refine ⟨⟨hbelow, ?_, SamePages.refl _⟩, fun level hmem => ?_, ?_, by simp, by simp⟩
            · simpa [pointersOf, idsOf, BTree.rootOver, InnerPage.lowerHalf, InnerPage.upperHalf]
                using SamePages.refl [node.pageId, next]
            · rcases List.mem_cons.mp hmem with rfl | hmem
              · exact hlevel
              · rw [List.mem_singleton.mp hmem]
                intro n hn
                rw [List.mem_singleton.mp hn]
                exact ⟨nodesOk_rootOver hmiddle, Nat.le_add_left 1 99⟩
            · simp [allIds, idsOf, BTree.rootOver, InnerPage.lowerHalf, InnerPage.upperHalf,
                List.range'_succ]
        | @cons level' node' above' trail' hmem' htrail' =>
            generalize hr : BTree.raise (level' :: above') (node' :: trail')
              (BTree.filedKey (node.filed m q).middle ((node.filed m q).upperHalf next)) next (next + 1) = r
            have hrest := ih (fun l hl => hok l (List.mem_cons_of_mem _ hl)) hlinked.2
              (List.cons_ne_nil _ _) hnodup₂ (fits_filedKey hmiddle hupper) hids (next + 1)
            rw [hr] at hrest
            rw [raise_up _ node' hover hr, replaceNode_eq hnodup₁]
            have hmore := hrest.more
            refine ⟨⟨hbelow, hrest.linked⟩, fun level hmem => ?_, ?_, Nat.le_of_succ_le hmore, ?_⟩
            · rcases List.mem_cons.mp hmem with rfl | hmem
              · exact hlevel
              · exact hrest.nodes level hmem
            · have hnew : List.range' next (r.next - next) =
                  next :: List.range' (next + 1) (r.next - (next + 1)) := by
                rw [show r.next - next = (r.next - (next + 1)) + 1 by omega, List.range'_succ]
              have hall : (idsOf (lo ++ ([(node.filed m q).lowerHalf, (node.filed m q).upperHalf next] ++ hi)) ++
                  allIds r.levels).Perm _ := (perm_of_insertedIn hids).append hrest.ids
              rw [hnew]
              refine hall.trans ?_
              rw [List.cons_append, ← List.append_assoc]
              exact List.perm_middle.symm
            · have hfew := hrest.few
              simp only [List.length_cons] at hfew ⊢
              omega

end

/-! ## Leaves -/

section

variable {leaf : Leaf} {key : Int} {rid : Rid}

/-- Where the entry goes in a leaf. -/
theorem leaf_insert_cases (h : LeafOk leaf) (key : Int) (rid : Rid) :
    ∃ lo hi, leaf.entries = lo ++ hi ∧ leaf.insert key rid = ⟨leaf.pageId, lo ++ (key, rid) :: hi⟩ ∧
      (∀ e ∈ lo, e.1 ≤ key) ∧ ∀ e ∈ hi, key < e.1 := by
  obtain ⟨lo, hi, hentries, hidx, hlo, hhi⟩ := cut_at Prod.fst key (List.pairwise_map.mp h.sorted)
  refine ⟨lo, hi, hentries, ?_, hlo, hhi⟩
  rw [Leaf.insert, hidx, hentries, insertAt_append]

theorem leafOk_insert (h : LeafOk leaf) (hkey : formati.Fits key) (hrid : RidFits rid) :
    LeafOk (leaf.insert key rid) := by
  obtain ⟨lo, hi, hentries, hinsert, hlo, hhi⟩ := leaf_insert_cases h key rid
  have hsorted := List.pairwise_map.mp h.sorted
  have hmem : ∀ e ∈ lo ++ (key, rid) :: hi, e = (key, rid) ∨ e ∈ leaf.entries := fun e he => by
    rw [hentries]
    rcases List.mem_append.mp he with he | he
    · exact Or.inr (List.mem_append_left _ he)
    · rcases List.mem_cons.mp he with rfl | he
      · exact Or.inl rfl
      · exact Or.inr (List.mem_append_right _ he)
  rw [hentries] at hsorted
  obtain ⟨hslo, hshi, hcross⟩ := List.pairwise_append.mp hsorted
  rw [hinsert]
  refine ⟨List.pairwise_map.mpr (List.pairwise_append.mpr ⟨hslo, List.pairwise_cons.mpr
    ⟨fun e he => Int.le_of_lt (hhi e he), hshi⟩, fun e he e' he' => ?_⟩), fun k hk => ?_, fun e he => ?_⟩
  · rcases List.mem_cons.mp he' with rfl | he'
    · exact hlo e he
    · exact hcross e he e' he'
  · obtain ⟨e, he, rfl⟩ := List.mem_map.mp hk
    rcases hmem e he with rfl | he
    · exact hkey
    · exact h.keys _ (List.mem_map_of_mem he)
  · rcases hmem e he with rfl | he
    · exact hrid
    · exact h.rids e he

/-- Part of a leaf that is in order is in order. -/
theorem LeafOk.of_sublist {leaf' : Leaf} (h : LeafOk leaf) (hsub : leaf'.entries.Sublist leaf.entries) :
    LeafOk leaf' :=
  ⟨h.sorted.sublist (hsub.map Prod.fst), fun k hk => h.keys k ((hsub.map Prod.fst).subset hk),
    fun e he => h.rids e (hsub.subset he)⟩

theorem leaf_halves (leaf : Leaf) (newPageId : Nat) :
    leaf.lower.entries ++ (leaf.upper newPageId).entries = leaf.entries :=
  List.take_append_drop _ _

theorem keys_halves (leaf : Leaf) (newPageId : Nat) :
    leaf.keys = leaf.lower.keys ++ (leaf.upper newPageId).keys := by
  rw [Leaf.keys, ← leaf_halves leaf newPageId, List.map_append]
  rfl

/-- The upper half of a leaf that became too full has keys. -/
theorem exists_upper (newPageId : Nat) (hfull : BTreePage.maxKeys < leaf.entries.length) :
    ∃ m rest, (leaf.upper newPageId).keys = m :: rest := by
  refine List.exists_cons_of_ne_nil (List.ne_nil_of_length_pos ?_)
  simp only [Leaf.upper, Leaf.keys, List.length_map, List.length_drop]
  omega

/-- The key that is filed for the upper half of a leaf. -/
theorem fits_upper (hok : LeafOk leaf) (newPageId : Nat) :
    formati.Fits ((leaf.upper newPageId).keys.headD 0) := by
  have hupperOk : LeafOk (leaf.upper newPageId) := hok.of_sublist (List.drop_sublist _ _)
  cases hkeys : (leaf.upper newPageId).keys with
  | nil => exact fits_formati.mpr (by simp)
  | cons k ks => exact hupperOk.keys k (by simp [hkeys])

variable (key rid) in
theorem perm_entries_insert (h : LeafOk leaf) :
    (leaf.insert key rid).entries.Perm ((key, rid) :: leaf.entries) := by
  obtain ⟨lo, hi, hentries, hinsert, -, -⟩ := leaf_insert_cases h key rid
  rw [hinsert, hentries]
  exact List.perm_middle

@[simp] theorem insert_pageId (leaf : Leaf) (key : Int) (rid : Rid) :
    (leaf.insert key rid).pageId = leaf.pageId := rfl

@[simp] theorem erase_pageId (leaf : Leaf) (key : Int) (rid : Rid) :
    (leaf.erase key rid).pageId = leaf.pageId := rfl

variable (key rid) in
theorem length_entries_insert (h : LeafOk leaf) :
    (leaf.insert key rid).entries.length = leaf.entries.length + 1 := by
  simpa using (perm_entries_insert key rid h).length_eq

end

/-! ## The shape of a tree -/

namespace BTree

/-- Every level points to the pages of the one below, every node is in order in
itself and not too full, and no page has two places. -/
structure Shape (t : BTree) : Prop where
  linked : Linked SamePages t.root (t.chain.map Leaf.pageId) t.levels
  nodes : NodesOk t.levels
  leaves : ∀ leaf ∈ t.chain, LeafOk leaf ∧ leaf.entries.length ≤ BTreePage.maxKeys
  nodup : (t.chain.map Leaf.pageId ++ allIds t.levels).Nodup
  pages : ∀ p ∈ t.chain.map Leaf.pageId ++ allIds t.levels, 0 < p ∧ p < t.next

variable {t : BTree} {key : Int} {rid : Rid}

theorem shape_empty : empty.Shape where
  linked := SamePages.refl _
  nodes := by simp [NodesOk, empty]
  leaves leaf h := by
    rw [List.mem_singleton.mp h]
    exact ⟨⟨List.Pairwise.nil, by simp [Leaf.keys], by simp⟩, Nat.zero_le _⟩
  nodup := List.nodup_singleton 1
  pages p h := by
    obtain rfl := List.mem_singleton.mp (show p ∈ [1] from h)
    exact ⟨Nat.one_pos, Nat.one_lt_two⟩

/-- The leaf of a key and the way to it. -/
structure Reaches (t : BTree) (key : Int) (leaf : Leaf) (trail : List InnerPage)
    (C₁ C₂ : List Leaf) : Prop where
  leafOf : t.leafOf key = some (leaf, trail)
  descend : descend key t.root t.levels = some (leaf.pageId, trail)
  trail : List.Forall₂ (fun level node => node ∈ level) t.levels trail
  chain : t.chain = C₁ ++ leaf :: C₂

/-- Every key has a leaf. -/
theorem Shape.reaches (h : t.Shape) (key : Int) : ∃ leaf trail C₁ C₂, t.Reaches key leaf trail C₁ C₂ := by
  obtain ⟨p, trail, hdescend, hp, htrail⟩ :=
    descend_of_linked key h.nodes (h.linked.mono fun _ _ hsame => hsame.1)
  obtain ⟨leaf, hfind, hleaf, rfl⟩ := find_of_mem_map Leaf.pageId hp
  obtain ⟨C₁, C₂, hchain⟩ := List.append_of_mem hleaf
  exact ⟨leaf, trail, C₁, C₂, by simp [BTree.leafOf, hdescend, hfind], hdescend, htrail, hchain⟩

theorem Shape.next_pos (h : t.Shape) : 0 < t.next := by
  obtain ⟨leaf, trail, C₁, C₂, hr⟩ := h.reaches 0
  exact Nat.zero_lt_of_lt (h.pages leaf.pageId (by simp [hr.chain])).2

/-- The root is one of the pages. -/
theorem root_mem {ps : List Nat} {root : Nat} {levels : List (List InnerPage)}
    (h : Linked SamePages root ps levels) : root ∈ ps ++ allIds levels := by
  induction levels generalizing ps with
  | nil => simpa [allIds] using h.1.subset List.mem_cons_self
  | cons level above ih =>
      refine List.mem_append_right _ ?_
      simpa [allIds] using ih h.2

/-- A pointer names one of the pages. -/
theorem pointer_mem {ps : List Nat} {root : Nat} {levels : List (List InnerPage)}
    (h : Linked SamePages root ps levels) {level : List InnerPage} (hlevel : level ∈ levels)
    {node : InnerPage} (hnode : node ∈ level) {p : Nat} (hp : p ∈ node.pointers) :
    p ∈ ps ++ allIds levels := by
  induction levels generalizing ps with
  | nil => simp at hlevel
  | cons level' above ih =>
      rcases List.mem_cons.mp hlevel with rfl | hlevel
      · exact List.mem_append_left _ (h.1.1.subset (List.mem_flatMap.mpr ⟨node, hnode, hp⟩))
      · refine List.mem_append_right _ ?_
        simpa [allIds] using ih h.2 hlevel

theorem Shape.root_lt (h : t.Shape) : t.root < t.next := (h.pages _ (root_mem h.linked)).2

/-- The shape does not depend on the numbers of keys. -/
theorem Shape.withStored (h : t.Shape) (stored : Int) : Shape { t with stored := stored } :=
  ⟨h.linked, h.nodes, h.leaves, h.nodup, h.pages⟩

theorem Shape.nodup_chain (h : t.Shape) : (t.chain.map Leaf.pageId).Nodup :=
  (List.nodup_append.mp h.nodup).1

theorem Shape.leafOk (h : t.Shape) {leaf : Leaf} (hleaf : leaf ∈ t.chain) : LeafOk leaf :=
  (h.leaves leaf hleaf).1

/-- A leaf is replaced in its place. -/
theorem Shape.replaceLeaf_eq (h : t.Shape) {leaf : Leaf} {C₁ C₂ : List Leaf}
    (hchain : t.chain = C₁ ++ leaf :: C₂) (leaves : List Leaf) :
    replaceLeaf leaf.pageId leaves t.chain = C₁ ++ (leaves ++ C₂) := by
  have hnodup := h.nodup_chain
  rw [hchain] at hnodup ⊢
  exact flatMap_replace Leaf.pageId hnodup leaves

/-- The chain from a leaf on. -/
theorem Shape.chainFrom_eq (h : t.Shape) {leaf : Leaf} {C₁ C₂ : List Leaf}
    (hchain : t.chain = C₁ ++ leaf :: C₂) : t.chainFrom leaf.pageId = leaf :: C₂ := by
  have hnodup := h.nodup_chain
  rw [hchain, List.map_append, List.nodup_append] at hnodup
  rw [chainFrom, hchain, List.dropWhile_append_of_pos]
  · simp
  · intro l hl
    have hne := hnodup.2.2 l.pageId (List.mem_map_of_mem hl) leaf.pageId (by simp)
    simpa using hne

/-- A leaf with other entries in the place of a leaf. -/
theorem Shape.withLeaf (h : t.Shape) {leaf leaf' : Leaf} {C₁ C₂ : List Leaf}
    (hchain : t.chain = C₁ ++ leaf :: C₂) (hok : LeafOk leaf')
    (hlen : leaf'.entries.length ≤ BTreePage.maxKeys) (hid : leaf'.pageId = leaf.pageId)
    (numKeys stored : Int) :
    Shape { t with chain := C₁ ++ leaf' :: C₂, numKeys := numKeys, stored := stored } := by
  have hids : (C₁ ++ leaf' :: C₂).map Leaf.pageId = t.chain.map Leaf.pageId := by simp [hchain, hid]
  refine ⟨?_, h.nodes, fun l hl => ?_, ?_, ?_⟩
  · simpa only [hids] using h.linked
  · rcases List.mem_append.mp hl with hl | hl
    · exact h.leaves l (by simp [hchain, hl])
    · rcases List.mem_cons.mp hl with rfl | hl
      · exact ⟨hok, hlen⟩
      · exact h.leaves l (by simp [hchain, hl])
  · simpa only [hids] using h.nodup
  · simpa only [hids] using h.pages

/-! ## Insert -/

theorem insert_room {leaf : Leaf} {trail : List InnerPage} {C₁ C₂ : List Leaf} (h : t.Shape)
    (hr : t.Reaches key leaf trail C₁ C₂)
    (hroom : (leaf.insert key rid).entries.length ≤ BTreePage.maxKeys) :
    t.insert key rid = { t with chain := C₁ ++ leaf.insert key rid :: C₂, numKeys := t.numKeys + 1 } := by
  simp only [insert, hr.leafOf, if_neg (Nat.not_lt.mpr hroom), h.replaceLeaf_eq hr.chain]
  rfl

theorem insert_split {leaf : Leaf} {trail : List InnerPage} {C₁ C₂ : List Leaf} (h : t.Shape)
    (hr : t.Reaches key leaf trail C₁ C₂)
    (hfull : BTreePage.maxKeys < (leaf.insert key rid).entries.length) :
    t.insert key rid =
      { levels := (t.raised (leaf.insert key rid) trail).levels
        chain := C₁ ++ (leaf.insert key rid).lower :: (leaf.insert key rid).upper t.next :: C₂
        root := (t.raised (leaf.insert key rid) trail).newRoot.getD t.root
        next := (t.raised (leaf.insert key rid) trail).next
        numKeys := t.numKeys + 1
        stored := if (t.raised (leaf.insert key rid) trail).newRoot.isSome then t.numKeys + 1
          else t.stored } := by
  have hchain := h.replaceLeaf_eq hr.chain [(leaf.insert key rid).lower, (leaf.insert key rid).upper t.next]
  simp only [insert, hr.leafOf, if_pos hfull, splitLeaf, insert_pageId, hchain]
  rfl

/-- The entries after an insert: one leaf has the entry more, and may be cut in two. -/
theorem insert_entries {leaf : Leaf} {trail : List InnerPage} {C₁ C₂ : List Leaf} (h : t.Shape)
    (hr : t.Reaches key leaf trail C₁ C₂) :
    (t.insert key rid).entries =
      C₁.flatMap Leaf.entries ++ ((leaf.insert key rid).entries ++ C₂.flatMap Leaf.entries) := by
  by_cases hroom : (leaf.insert key rid).entries.length ≤ BTreePage.maxKeys
  · rw [insert_room h hr hroom]
    simp [entries]
  · rw [insert_split h hr (by omega)]
    simp only [entries, List.flatMap_append, List.flatMap_cons]
    rw [← List.append_assoc (Leaf.entries _), leaf_halves]

/-- A page put behind that of the leaf. -/
theorem Reaches.insertedIn {leaf : Leaf} {trail : List InnerPage} {C₁ C₂ : List Leaf}
    (hr : t.Reaches key leaf trail C₁ C₂) {q : Nat} :
    InsertedIn q (t.chain.map Leaf.pageId)
      (C₁.map Leaf.pageId ++ leaf.pageId :: q :: C₂.map Leaf.pageId) :=
  ⟨C₁.map Leaf.pageId ++ [leaf.pageId], C₂.map Leaf.pageId, by simp, by simp [hr.chain], by simp⟩

/-- Filing the upper half of a leaf keeps the shape of the levels. -/
theorem raised_ok {leaf : Leaf} {trail : List InnerPage} {C₁ C₂ : List Leaf} (h : t.Shape)
    (hr : t.Reaches key leaf trail C₁ C₂) {leaf' : Leaf} (hid : leaf'.pageId = leaf.pageId)
    (hm : formati.Fits ((leaf'.upper t.next).keys.headD 0)) :
    RaisedOk t.root (C₁.map Leaf.pageId ++ leaf.pageId :: t.next :: C₂.map Leaf.pageId) t.levels
      (t.next + 1) (t.raised leaf' trail) := by
  have hids : t.chain.map Leaf.pageId = C₁.map Leaf.pageId ++ leaf.pageId :: C₂.map Leaf.pageId := by
    simp [hr.chain]
  have hlinked := h.linked
  have htrail := hr.trail
  cases trail with
  | nil =>
      -- the leaf was the root
      have hlevels : t.levels = [] := List.forall₂_nil_right_iff.mp htrail
      rw [hlevels, hids] at hlinked
      have hone : C₁.map Leaf.pageId ++ leaf.pageId :: C₂.map Leaf.pageId = [t.root] :=
        List.perm_singleton.mp hlinked.1.symm
      obtain ⟨rfl, rfl⟩ : C₁ = [] ∧ C₂ = [] := by
        have hlength := congrArg List.length hone
        simp only [List.length_append, List.length_cons, List.length_map, List.length_nil] at hlength
        exact ⟨List.length_eq_zero_iff.mp (by omega), List.length_eq_zero_iff.mp (by omega)⟩
      rw [hlevels]
      refine ⟨⟨?_, SamePages.refl _⟩, fun level hlevel node hnode => ?_, ?_, by simp [raised], by simp [raised]⟩
      · simpa [raised, pointersOf, rootOver, hid] using SamePages.refl [leaf.pageId, t.next]
      · rw [raised, List.mem_singleton] at hlevel
        rw [hlevel, List.mem_singleton] at hnode
        rw [hnode]
        exact ⟨nodesOk_rootOver hm, Nat.le_add_left 1 99⟩
      · simp [raised, allIds, idsOf, rootOver]
  | cons node trail =>
      have hnodup := (List.nodup_append.mp h.nodup).2.1
      exact raise_ok h.nodes hlinked htrail (List.cons_ne_nil _ _) hnodup hm hr.insertedIn _

/-- What an insert makes of a tree. -/
structure Inserted (t t' : BTree) (key : Int) (rid : Rid) : Prop where
  shape : t'.Shape
  entries : t'.entries.Perm ((key, rid) :: t.entries)
  more : t.next ≤ t'.next
  few : t'.next ≤ t.next + t.levels.length + 2

theorem perm_entries_of_leaf {C₁ C₂ : List Leaf} (leaves : List Leaf) {leaf leaf' : Leaf}
    (hleaf : (leaves.flatMap Leaf.entries).Perm leaf'.entries)
    (h : leaf'.entries.Perm ((key, rid) :: leaf.entries)) :
    ((C₁ ++ (leaves ++ C₂)).flatMap Leaf.entries).Perm
      ((key, rid) :: (C₁ ++ leaf :: C₂).flatMap Leaf.entries) := by
  simp only [List.flatMap_append, List.flatMap_cons]
  refine ((hleaf.trans h).append_right _).append_left _ |>.trans ?_
  rw [List.cons_append]
  exact List.perm_middle

/-- The same for an insert that splits its leaf. -/
theorem splitInserted {leaf leaf' : Leaf} {trail : List InnerPage} {C₁ C₂ : List Leaf} (h : t.Shape)
    (hr : t.Reaches key leaf trail C₁ C₂) (hid : leaf'.pageId = leaf.pageId) (hok : LeafOk leaf')
    (hperm : leaf'.entries.Perm ((key, rid) :: leaf.entries))
    (hfull : leaf'.entries.length = BTreePage.maxKeys + 1) (numKeys stored : Int) :
    t.Inserted
      { levels := (t.raised leaf' trail).levels
        chain := C₁ ++ leaf'.lower :: leaf'.upper t.next :: C₂
        root := (t.raised leaf' trail).newRoot.getD t.root
        next := (t.raised leaf' trail).next
        numKeys := numKeys
        stored := stored } key rid := by
  have hlower : leaf'.lower.entries.length ≤ BTreePage.maxKeys := by
    simp [Leaf.lower, hfull, BTreePage.maxKeys]
  have hupper : (leaf'.upper t.next).entries.length ≤ BTreePage.maxKeys := by
    simp [Leaf.upper, hfull, BTreePage.maxKeys]
  have hlowerOk : LeafOk leaf'.lower := hok.of_sublist (List.take_sublist _ _)
  have hupperOk : LeafOk (leaf'.upper t.next) := hok.of_sublist (List.drop_sublist _ _)
  have hm := fits_upper hok t.next
  have hraised := raised_ok h hr hid hm
  have hmore := hraised.more
  generalize t.raised leaf' trail = r at hraised hmore ⊢
  have hids : (C₁ ++ leaf'.lower :: leaf'.upper t.next :: C₂).map Leaf.pageId =
      C₁.map Leaf.pageId ++ leaf.pageId :: t.next :: C₂.map Leaf.pageId := by
    simp [Leaf.lower, Leaf.upper, hid]
  -- the pages in use are those of before and the ones from `next` on
  have hall : ((C₁.map Leaf.pageId ++ leaf.pageId :: t.next :: C₂.map Leaf.pageId) ++
      allIds r.levels).Perm ((t.chain.map Leaf.pageId ++ allIds t.levels) ++
        List.range' t.next (r.next - t.next)) := by
    have hrange : List.range' t.next (r.next - t.next) =
        t.next :: List.range' (t.next + 1) (r.next - (t.next + 1)) := by
      rw [show r.next - t.next = (r.next - (t.next + 1)) + 1 by omega, List.range'_succ]
    refine ((perm_of_insertedIn hr.insertedIn).append hraised.ids).trans ?_
    rw [hrange, List.cons_append, ← List.append_assoc]
    exact List.perm_middle.symm
  refine ⟨⟨?_, hraised.nodes, fun l hl => ?_, ?_, ?_⟩, ?_, Nat.le_of_succ_le hmore, ?_⟩
  · rw [hids]
    exact hraised.linked
  · rcases List.mem_append.mp hl with hl | hl
    · exact h.leaves l (by simp [hr.chain, hl])
    · rcases List.mem_cons.mp hl with rfl | hl
      · exact ⟨hlowerOk, hlower⟩
      · rcases List.mem_cons.mp hl with rfl | hl
        · exact ⟨hupperOk, hupper⟩
        · exact h.leaves l (by simp [hr.chain, hl])
  · rw [hids, hall.nodup_iff]
    refine List.nodup_append.mpr ⟨h.nodup, List.nodup_range', fun p hp q hq => ?_⟩
    have := (h.pages p hp).2
    have := List.mem_range'_1.mp hq
    omega
  · intro p hp
    rw [hids, hall.mem_iff] at hp
    rcases List.mem_append.mp hp with hp | hp
    · obtain ⟨hpos, hlt⟩ := h.pages p hp
      exact ⟨hpos, Nat.lt_of_lt_of_le hlt (Nat.le_of_succ_le hmore)⟩
    · have hrange := List.mem_range'_1.mp hp
      have hpos := h.next_pos
      exact ⟨by omega, show p < r.next by omega⟩
  · rw [entries, entries, hr.chain]
    exact perm_entries_of_leaf [leaf'.lower, leaf'.upper t.next]
      (by simp [leaf_halves]) hperm
  · have hfew := hraised.few
    change r.next ≤ t.next + t.levels.length + 2
    omega

/-- An insert keeps the shape and adds its entry. -/
theorem Shape.insert (h : t.Shape) (hkey : formati.Fits key) (hrid : RidFits rid) :
    t.Inserted (t.insert key rid) key rid := by
  obtain ⟨leaf, trail, C₁, C₂, hr⟩ := h.reaches key
  have hmem : leaf ∈ t.chain := by simp [hr.chain]
  have hok := leafOk_insert (h.leafOk hmem) hkey hrid
  have hperm := perm_entries_insert key rid (h.leafOk hmem)
  have hlen := length_entries_insert key rid (h.leafOk hmem)
  by_cases hroom : (leaf.insert key rid).entries.length ≤ BTreePage.maxKeys
  · rw [insert_room h hr hroom]
    refine ⟨h.withLeaf hr.chain hok hroom (insert_pageId leaf key rid) _ _, ?_, Nat.le_refl _,
      Nat.le_add_right t.next (t.levels.length + 2)⟩
    rw [entries, entries, hr.chain]
    exact perm_entries_of_leaf [leaf.insert key rid] (by simp) hperm
  · have hfull : (leaf.insert key rid).entries.length = BTreePage.maxKeys + 1 := by
      have := (h.leaves leaf hmem).2
      omega
    rw [insert_split h hr (by omega)]
    exact splitInserted h hr (insert_pageId leaf key rid) hok hperm hfull _ _

/-! ## Delete -/

/-- The walk of a delete ends at the first leaf of the walk that has the entry,
or finds none. -/
theorem deleteIn_cases (key : Int) (rid : Rid) (chain : List Leaf) :
    deleteIn key rid chain = none ∨
      ∃ C₁ leaf C₂, chain = C₁ ++ leaf :: C₂ ∧ (key, rid) ∈ leaf.entries ∧
        deleteIn key rid chain = some (leaf.erase key rid) := by
  induction chain with
  | nil => exact Or.inl rfl
  | cons leaf rest ih =>
      by_cases hmem : (key, rid) ∈ leaf.entries
      · exact Or.inr ⟨[], leaf, rest, rfl, hmem, by rw [deleteIn, if_pos hmem]⟩
      · by_cases hpassed : leaf.passed key = true
        · exact Or.inl (by rw [deleteIn, if_neg hmem, if_pos hpassed])
        · rcases ih with hnone | ⟨C₁, l, C₂, hchain, hl, hsome⟩
          · exact Or.inl (by rw [deleteIn, if_neg hmem, if_neg hpassed, hnone])
          · exact Or.inr ⟨leaf :: C₁, l, C₂, by rw [hchain]; rfl, hl,
              by rw [deleteIn, if_neg hmem, if_neg hpassed, hsome]⟩

/-- A delete finds nothing and leaves the tree, or it takes one entry out of one
leaf. -/
theorem Shape.delete_cases (h : t.Shape) (key : Int) (rid : Rid) :
    t.delete key rid = (false, t) ∨
      ∃ C₁ leaf C₂, t.chain = C₁ ++ leaf :: C₂ ∧ (key, rid) ∈ leaf.entries ∧
        t.delete key rid = (true, { t with
          chain := C₁ ++ leaf.erase key rid :: C₂
          numKeys := t.numKeys - 1
          stored := t.numKeys - 1 }) := by
  obtain ⟨first, trail, C₁, C₂, hr⟩ := h.reaches key
  have hwalk := h.chainFrom_eq hr.chain
  rcases deleteIn_cases key rid (first :: C₂) with hnone | ⟨D₁, leaf, D₂, hrest, hmem, hsome⟩
  · exact Or.inl (by simp only [delete, hr.leafOf, hwalk, hnone])
  · have hchain : t.chain = (C₁ ++ D₁) ++ leaf :: D₂ := by rw [hr.chain, hrest, List.append_assoc]
    have hreplace := h.replaceLeaf_eq hchain [leaf.erase key rid]
    refine Or.inr ⟨C₁ ++ D₁, leaf, D₂, hchain, hmem, ?_⟩
    simp only [delete, hr.leafOf, hwalk, hsome, erase_pageId, hreplace]
    rfl

/-- What a delete that returned `True` makes of a tree. -/
structure Deleted (t t' : BTree) (key : Int) (rid : Rid) : Prop where
  shape : t'.Shape
  entries : t.entries.Perm ((key, rid) :: t'.entries)
  next : t'.next = t.next
  levels : t'.levels = t.levels

/-- A delete keeps the shape and takes out its entry, or changes nothing. -/
theorem Shape.delete (h : t.Shape) (key : Int) (rid : Rid) :
    t.delete key rid = (false, t) ∨
      ∃ t', t.delete key rid = (true, t') ∧ t.Deleted t' key rid := by
  rcases h.delete_cases key rid with hnone | ⟨C₁, leaf, C₂, hchain, hmem, hsome⟩
  · exact Or.inl hnone
  · have hleaf : leaf ∈ t.chain := by simp [hchain]
    have hsub : (leaf.entries.erase (key, rid)).Sublist leaf.entries := List.erase_sublist
    have hok : LeafOk (leaf.erase key rid) := (h.leafOk hleaf).of_sublist hsub
    refine Or.inr ⟨_, hsome, h.withLeaf hchain hok
      (Nat.le_trans hsub.length_le (h.leaves leaf hleaf).2) rfl _ _, ?_, rfl, rfl⟩
    have hperm : leaf.entries.Perm ((key, rid) :: leaf.entries.erase (key, rid)) :=
      List.perm_cons_erase hmem
    rw [BTree.entries, BTree.entries, hchain]
    simp only [List.flatMap_append, List.flatMap_cons]
    refine ((hperm.append_right _).append_left _).trans ?_
    rw [List.cons_append]
    exact List.perm_middle

end BTree

end DBEngine
