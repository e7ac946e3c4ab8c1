import DBEngine.Index.BTreeSeparators
import DBEngine.Index.IndexHistory

/-!
# Search trees

A tree whose chain is the order of its leaves, whose separators differ and whose
leaves stay between their separators.  With different keys an insert makes a
search tree of a search tree unless it splits a node below the root at the key 0.

Every such tree, of whatever height, stands on the pages of some file.
-/

set_option autoImplicit false

namespace DBEngine

open ByteBuffer Paged

/-- Levels that are linked are over as many runs as there are pages below them. -/
theorem fitted_of_linked {levels : List (List InnerPage)} {root : Nat} {ps : List Nat}
    (hok : NodesOk levels) (h : Linked (fun ps qs => ps = qs) root ps levels) :
    Runs.Fitted ps.length (separatorsOf levels) := by
  induction levels generalizing ps with
  | nil =>
      obtain rfl : [root] = ps := h
      rfl
  | cons level above ih =>
      obtain ⟨rfl, habove⟩ := h
      have hrest := ih (fun l hl => hok l (List.mem_cons_of_mem _ hl)) habove
      refine ⟨(width_keys fun n hn => (hok level List.mem_cons_self n hn).1).symm, ?_⟩
      simpa [idsOf, separatorsOf] using hrest

namespace BTree

variable {t : BTree} {key : Int} {rid : Rid}

/-- The chain is the order of the leaves, the separators are strictly increasing,
every leaf holds keys between the separators on its two sides, and no key is
there twice. -/
structure SearchTree (t : BTree) : Prop where
  shape : t.Shape
  chain : Linked (fun ps qs => ps = qs) t.root (t.chain.map Leaf.pageId) t.levels
  separators : t.separators.Pairwise (· < ·)
  bounds : Runs.Between none (t.chain.map Leaf.keys) t.separators
  distinct : (t.entries.map Prod.fst).Nodup

/-- A tree with its separators in order is in order when each leaf is between its
separators. -/
theorem sorted_iff (h : t.Shape)
    (hlinked : Linked (fun ps qs => ps = qs) t.root (t.chain.map Leaf.pageId) t.levels) :
    t.inOrder.Pairwise (· ≤ ·) ↔
      t.separators.Pairwise (· ≤ ·) ∧ Runs.Between none (t.chain.map Leaf.keys) t.separators := by
  have hfitted := fitted_of_linked h.nodes hlinked
  rw [List.length_map] at hfitted
  obtain ⟨hlength, hread⟩ := Runs.read_eq_weave hfitted
  have hseparators : t.separators = Runs.read (separatorsOf t.levels) (List.replicate t.chain.length []) := by
    rw [BTree.separators, List.map_const']
  have hruns : ∀ run ∈ t.chain.map Leaf.keys, run.Pairwise (· ≤ ·) := fun run hrun => by
    obtain ⟨leaf, hleaf, rfl⟩ := List.mem_map.mp hrun
    exact (h.leafOk hleaf).sorted
  have hcount : (t.chain.map Leaf.keys).length = t.separators.length + 1 := by
    rw [List.length_map, hseparators]
    exact hlength
  have hweave := Runs.pairwise_weave_iff none hcount hruns
  rw [inOrder, hread _ (by simp), ← hseparators]
  exact hweave

theorem SearchTree.ordered (h : t.SearchTree) : t.Ordered where
  linked := h.chain
  sorted := (sorted_iff h.shape h.chain).mpr ⟨h.separators.imp Int.le_of_lt, h.bounds⟩

theorem SearchTree.fewEqual_insert (h : t.SearchTree) (hkey : formati.Fits key) (hrid : RidFits rid)
    (hnew : key ∉ t.entries.map Prod.fst) :
    ((t.insert key rid).entries.map Prod.fst).Nodup ∧ (t.insert key rid).FewEqual := by
  have hdistinct : ((t.insert key rid).entries.map Prod.fst).Nodup := by
    rw [((h.shape.insert hkey hrid).entries.map Prod.fst).nodup_iff]
    exact List.nodup_cons.mpr ⟨hnew, h.distinct⟩
  exact ⟨hdistinct, fun k => Nat.le_trans (List.nodup_iff_count_le_one.mp hdistinct k) (by decide)⟩

/-- An insert of a new key that splits no node below the root at 0 files its nodes
in order. -/
theorem SearchTree.insertsInOrder (h : t.SearchTree) (hkey : formati.Fits key) (hrid : RidFits rid)
    (hnew : key ∉ t.entries.map Prod.fst) (hzero : ¬ t.SplitsAtZero key rid) : t.InsertsInOrder key rid :=
  (h.ordered.insert_strict h.shape hkey hrid h.separators (h.fewEqual_insert hkey hrid hnew).2 hzero).1

/-- An insert of a new key makes a search tree again exactly when it splits no node
below the root at the key 0. -/
theorem SearchTree.insert_iff (h : t.SearchTree) (hkey : formati.Fits key) (hrid : RidFits rid)
    (hnew : key ∉ t.entries.map Prod.fst) :
    (t.insert key rid).SearchTree ↔ ¬ t.SplitsAtZero key rid := by
  obtain ⟨hdistinct, hfew⟩ := h.fewEqual_insert hkey hrid hnew
  constructor
  · intro hafter hzero
    exact h.ordered.insert_not_strict h.shape hkey hrid h.separators hfew hzero hafter.separators
  · intro hzero
    obtain ⟨hin, hstrict, -⟩ := h.ordered.insert_strict h.shape hkey hrid h.separators hfew hzero
    have hordered := h.ordered.insert h.shape hkey hrid hin
    have hshape := (h.shape.insert hkey hrid).shape
    exact ⟨hshape, hordered.linked, hstrict, ((sorted_iff hshape hordered.linked).mp hordered.sorted).2,
      hdistinct⟩

end BTree

/-! ## Trees on a disk -/

/-- Any pages can stand in a file. -/
theorem exists_disk (f : FileId) (n : Nat) (mem : Nat → Bytes) (hlen : ∀ p, (mem p).length = pageSize) :
    ∃ d : Disk, (∀ g, d.Whole g) ∧ d.numPages f = n ∧ ∀ p, p < n → d.page (f, p) = mem p := by
  induction n with
  | zero => exact ⟨Disk.empty, Disk.whole_empty, by simp [Disk.numPages, Disk.content, Disk.empty],
      fun p hp => absurd hp (Nat.not_lt_zero p)⟩
  | succ n ih =>
      obtain ⟨d, hwhole, hpages, hmem⟩ := ih
      have hwhole' := Disk.whole_allocatePage (hwhole f)
      have hpages' : (d.allocatePage f).2.numPages f = n + 1 := by
        rw [Disk.numPages, Disk.content_allocatePage (hwhole f), List.length_append, length_zeros,
          hwhole f, ← Nat.succ_mul, Nat.mul_div_cancel _ pageSize_pos, hpages]
      have hn : n < (d.allocatePage f).2.numPages f := by omega
      have hlength := Disk.length_writePage hwhole' hn (hlen n)
      have hnew : ((d.allocatePage f).2.writePage n f (mem n)).numPages f = n + 1 := by
        rw [Disk.numPages, hlength]
        exact hpages'
      refine ⟨(d.allocatePage f).2.writePage n f (mem n), fun g => ?_, hnew, fun p hp => ?_⟩
      · by_cases hg : g = f
        · subst hg
          rw [Disk.Whole, hlength, hnew, ← hpages']
          exact hwhole'
        · have hsame : ((d.allocatePage f).2.writePage n f (mem n)).content g = d.content g := by
            rw [Disk.content_writePage_of_ne hg, Disk.content_allocatePage_of_ne hg]
          rw [Disk.Whole, Disk.numPages, hsame]
          exact hwhole g
      · by_cases hp' : p = n
        · subst hp'
          exact Disk.page_writePage_self hwhole' hn (hlen p)
        · rw [Disk.page_writePage_of_ne hwhole' hn (hlen n) (by simp [hp']), Disk.page_allocatePage (hwhole f)]
          exact hmem p (by omega)

/-- The index on file `f`: its pages, through the pool, and the tree object are the
tree. -/
def Stands (f : FileId) (pool : BufferPoolManager) (tree : BPlusTree) (t : BTree) : Prop :=
  ∃ w, pool.Refines w ∧ TreeRep f w t tree

/-- What stands on a page of a tree. -/
structure PageOf (t : BTree) (p : Nat) (b : Bytes) : Prop where
  length : b.length = pageSize
  header : p = 0 → HeaderRep b t.root t.stored
  inner : ∀ level ∈ t.levels, ∀ node ∈ level, node.pageId = p → Holds b (.inner node)
  leaf : ∀ C₁ leaf C₂, t.chain = C₁ ++ leaf :: C₂ → leaf.pageId = p →
    Holds b (.leaf (leaf.node (lastId (-1) C₁) (firstId C₂ (-1))))

section

variable {t : BTree} {f : FileId} {w : Flat FileId Bytes} {p : Nat}

/-- A leaf that stands between its neighbours wherever it is in the chain. -/
theorem chainRep_of_holds {prev next : Int} {chain : List Leaf}
    (h : ∀ C₁ leaf C₂, chain = C₁ ++ leaf :: C₂ →
      Holds (w.mem (f, leaf.pageId)) (.leaf (leaf.node (lastId prev C₁) (firstId C₂ next)))) :
    ChainRep f w prev chain next := by
  induction chain generalizing prev with
  | nil => trivial
  | cons leaf rest ih =>
      refine ⟨h [] leaf rest rfl, ih fun C₁ l C₂ hrest => ?_⟩
      have hl := h (leaf :: C₁) l C₂ (by rw [hrest]; rfl)
      rwa [lastId_cons] at hl

/-- The pages of a tree differ, so each one has at most one place. -/
theorem exists_pageOf (h : t.Shape) (hformat : t.InFormat) (hstored : formatI.Fits t.stored) (p : Nat) :
    ∃ b, PageOf t p b := by
  have hzeros : (zeros pageSize).length = pageSize := length_zeros pageSize
  have hlt : ∀ q ∈ t.chain.map Leaf.pageId ++ allIds t.levels, q < 4294967296 := fun q hq =>
    Nat.lt_of_lt_of_le (h.pages q hq).2 hformat.next
  obtain ⟨hchain, hlevels, hdisjoint⟩ := List.nodup_append.mp h.nodup
  by_cases hleaf : p ∈ t.chain.map Leaf.pageId
  · obtain ⟨leaf, hmem, rfl⟩ := List.mem_map.mp hleaf
    obtain ⟨C₁, C₂, hsplit⟩ := List.append_of_mem hmem
    obtain ⟨hprev, hnext⟩ := links_fit hformat hsplit
    obtain ⟨b, -, hholds⟩ := serialize_of_fits (leafFits (h.leafOk hmem) (h.leaves leaf hmem).2
      (hlt _ (List.mem_append_left _ hleaf)) hprev hnext) hzeros
    refine ⟨b, hholds.length, fun hzero => ?_, fun level hlevel node hnode hid => ?_,
      fun D₁ l D₂ hsplit' hid => ?_⟩
    · have := (h.pages _ (List.mem_append_left _ hleaf)).1
      omega
    · exact absurd hid.symm (hdisjoint _ hleaf _ (mem_allIds hlevel hnode))
    · -- the leaf has one place in the chain
      obtain rfl : leaf = l := List.inj_on_of_nodup_map hchain hmem (by simp [hsplit']) hid.symm
      have hnodup := List.Nodup.of_map Leaf.pageId hchain
      rw [hsplit, List.nodup_append] at hnodup
      obtain ⟨rfl, -, rfl⟩ := (List.append_cons_inj_of_notMem
        (fun hin => hnodup.2.2 _ hin _ List.mem_cons_self rfl)
        (List.nodup_cons.mp hnodup.2.1).1).mp (hsplit.symm.trans hsplit')
      exact hholds
  · by_cases hinner : p ∈ allIds t.levels
    · obtain ⟨level, hlevel, hin⟩ := List.mem_flatMap.mp hinner
      obtain ⟨node, hnode, rfl⟩ := List.mem_map.mp hin
      obtain ⟨hok, hmost⟩ := h.nodes level hlevel node hnode
      obtain ⟨b, -, hholds⟩ := serialize_of_fits (innerFits hok hmost (hlt _ (List.mem_append_right _ hinner))
        fun q hq => hlt q (BTree.pointer_mem h.linked hlevel hnode hq)) hzeros
      have hnodup : (t.levels.flatten.map InnerPage.pageId).Nodup := by
        rw [List.map_flatten]
        exact hlevels
      refine ⟨b, hholds.length, fun hzero => ?_, fun level' hlevel' node' hnode' hid => ?_,
        fun D₁ l D₂ hsplit' hid => ?_⟩
      · have := (h.pages _ (List.mem_append_right _ hinner)).1
        omega
      · obtain rfl : node = node' := List.inj_on_of_nodup_map hnodup
          (List.mem_flatten.mpr ⟨level, hlevel, hnode⟩) (List.mem_flatten.mpr ⟨level', hlevel', hnode'⟩) hid.symm
        exact hholds
      · exact absurd (List.mem_map.mpr ⟨l, by simp [hsplit'], hid⟩) hleaf
    · have hroot : (⟨t.root, t.stored⟩ : BPlusTree).rootPageId < 4294967296 := hlt _ (BTree.root_mem h.linked)
      obtain ⟨b, -, hlength, hheader⟩ := packHeader_of_fits hzeros hroot hstored
      refine ⟨b, hlength, fun _ => hheader, fun level hlevel node hnode hid => ?_,
        fun D₁ l D₂ hsplit' hid => ?_⟩
      · exact absurd (hid ▸ mem_allIds hlevel hnode) hinner
      · exact absurd (List.mem_map.mpr ⟨l, by simp [hsplit'], hid⟩) hleaf

/-- Every shapely tree stands on the pages of a file. -/
theorem exists_stands (f : FileId) (h : t.Shape) (hformat : t.InFormat) (hstored : formatI.Fits t.stored) :
    ∃ pool, Stands f pool ⟨t.root, t.numKeys⟩ t := by
  choose mem hmem using exists_pageOf h hformat hstored
  obtain ⟨d, hwhole, hpages, hd⟩ := exists_disk f t.next mem fun p => (hmem p).length
  have hpage : ∀ p ∈ t.chain.map Leaf.pageId ++ allIds t.levels,
      (BufferPoolManager.flatOf d).mem (f, p) = mem p := fun p hp => hd p (h.pages p hp).2
  have hlength : ∀ p, ((BufferPoolManager.flatOf d).mem (f, p)).length = pageSize := fun p =>
    Disk.length_page (hwhole f) p
  refine ⟨BufferPoolManager.new d, BufferPoolManager.flatOf d, BufferPoolManager.refines_flatOf hwhole,
    ⟨by simp, rfl, rfl⟩, hpages, rfl, ?_, ?_, ?_, hlength, hformat⟩
  · rw [BufferPoolManager.flatOf_mem, hd 0 h.next_pos]
    exact (hmem 0).header rfl
  · intro level hlevel node hnode
    rw [hpage _ (List.mem_append_right _ (mem_allIds hlevel hnode))]
    exact (hmem _).inner level hlevel node hnode rfl
  · refine chainRep_of_holds fun C₁ leaf C₂ hchain => ?_
    rw [hpage _ (List.mem_append_left _ (List.mem_map_of_mem (show leaf ∈ t.chain by simp [hchain])))]
    exact (hmem _).leaf C₁ leaf C₂ hchain rfl

end

/-! ## One insert -/

section

variable {t : BTree} {f : FileId} {pool pool' : BufferPoolManager} {tree tree' : BPlusTree} {key : Int} {rid : Rid}

/-- An insert leaves the tree after the insert on the pages, or the file or the
count has reached its limit. -/
theorem Stands.insert (order : SetOrder) (hs : Stands f pool tree t) (h : t.Shape) (hkey : formati.Fits key)
    (hrid : RidFits rid) :
    (¬ t.CanGrow ∧
      ((BPlusTree.insert f key rid).run (BufferPoolManager.store order) tree pool).1 = .error .structError) ∨
      ∃ tree' pool', (BPlusTree.insert f key rid).run (BufferPoolManager.store order) tree pool =
        (.ok (), tree', pool') ∧ Stands f pool' tree' (t.insert key rid) := by
  obtain ⟨w, hr, hrep⟩ := hs
  rcases DBEngine.run_insert (c := flatPages) h hrep hkey hrid with ⟨hfull, tree', w', hflat⟩ | ⟨tree', w', hflat, hrep'⟩
  · obtain ⟨pool', hpool, -⟩ := BufferPoolManager.run_eq_flat order _ tree tree' hr hflat (by simp)
    exact Or.inl ⟨hfull, by rw [hpool]⟩
  · obtain ⟨pool', hpool, hr'⟩ := BufferPoolManager.run_eq_flat order _ tree tree' hr hflat (by simp)
    exact Or.inr ⟨tree', pool', hpool, w', hr', hrep'⟩

/-- A tree of three levels: the first node below the root is full, and its 51st key
is 0. -/
def zeroTree : BTree where
  levels := [[⟨104, 100, (List.range 100).map fun (i : Nat) => 10 * ((i : Int) - 50), (List.range 101).map (· + 1)⟩,
      ⟨105, 1, [2000], [102, 103]⟩], [⟨106, 1, [1000], [104, 105]⟩]]
  chain := ((List.range 100).map fun (i : Nat) => (⟨i + 1, [(10 * ((i : Int) - 50) - 5, (1, i))]⟩ : Leaf)) ++
    [⟨101, (List.range 100).map fun (i : Nat) => ((i : Int) + 501, (2, i))⟩, ⟨102, [(1500, (3, 0))]⟩,
      ⟨103, [(2500, (3, 1))]⟩]
  root := 106
  next := 107
  numKeys := 202
  stored := 202

instance (node : InnerPage) : Decidable (NodeOk node) :=
  decidable_of_iff (node.numKeys = node.keys.length ∧ node.pointers.length = node.keys.length + 1 ∧
    node.keys.Pairwise (· ≤ ·) ∧ ∀ k ∈ node.keys, formati.Fits k)
    ⟨fun h => ⟨h.1, h.2.1, h.2.2.1, h.2.2.2⟩, fun h => ⟨h.count, h.linked, h.sorted, h.fits⟩⟩

instance (rid : Rid) : Decidable (RidFits rid) := inferInstanceAs (Decidable (_ ∧ _))

instance (leaf : Leaf) : Decidable (LeafOk leaf) :=
  decidable_of_iff (leaf.keys.Pairwise (· ≤ ·) ∧ (∀ k ∈ leaf.keys, formati.Fits k) ∧
    ∀ e ∈ leaf.entries, RidFits e.2)
    ⟨fun h => ⟨h.1, h.2.1, h.2.2⟩, fun h => ⟨h.sorted, h.keys, h.rids⟩⟩

theorem shape_zeroTree : zeroTree.Shape where
  linked := ⟨SamePages.refl _, SamePages.refl _, SamePages.refl _⟩
  nodes := by
    have : ∀ level ∈ zeroTree.levels, ∀ node ∈ level, NodeOk node ∧ node.keys.length ≤ BTreePage.maxKeys := by
      decide +kernel
    exact this
  leaves := by decide +kernel
  nodup := by decide +kernel
  pages := by decide +kernel

theorem searchTree_zeroTree : zeroTree.SearchTree where
  shape := shape_zeroTree
  chain := ⟨rfl, rfl, rfl⟩
  separators := by decide +kernel
  bounds := ((BTree.sorted_iff shape_zeroTree ⟨rfl, rfl, rfl⟩).mp (by decide +kernel)).2
  distinct := by decide +kernel

end

end DBEngine
