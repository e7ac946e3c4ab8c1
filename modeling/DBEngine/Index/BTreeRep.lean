import DBEngine.Index.BTreeNodes
import Mathlib.Data.List.TakeWhile

/-!
# The tree on its pages

`TreeRep f w t tree` says that the file `f` of the flat store `w` and the tree
object `tree` are the tree `t`: its header, its nodes and its leaves with their
links stand on the pages that `t` names.  The methods of `BPlusTree` do to the
file what the operations of `BTree` do to `t`.
-/

set_option autoImplicit false

namespace DBEngine

open ByteBuffer Paged

/-- The flat store under the programs of the tree. -/
abbrev flatPages : Store FileId Bytes PyErr (Flat FileId Bytes) := Flat.store (poolLimits anyBlock)

variable {c : Store FileId Bytes PyErr (Flat FileId Bytes)} [Bpm.Serves c anyBlock]

/-! ## What stands on the pages -/

/-- The header names the root and counts the keys. -/
structure HeaderRep (b : Bytes) (root : Nat) (numKeys : Int) : Prop where
  root : unpackI 0 b = (.ok root, b)
  numKeys : ∃ n : Nat, unpackI 4 b = (.ok n, b) ∧ numKeys = n

/-- The nodes of the levels stand on their pages. -/
def LevelsRep (f : FileId) (w : Flat FileId Bytes) (levels : List (List InnerPage)) : Prop :=
  ∀ level ∈ levels, ∀ node ∈ level, Holds (w.mem (f, node.pageId)) (.inner node)

/-- The leaves of a piece of the chain stand on their pages, linked with each
other and with the neighbours of the piece. -/
def ChainRep (f : FileId) (w : Flat FileId Bytes) : Int → List Leaf → Int → Prop
  | _, [], _ => True
  | prev, leaf :: rest, next =>
      Holds (w.mem (f, leaf.pageId)) (.leaf (leaf.node prev (firstId rest next))) ∧
        ChainRep f w leaf.pageId rest next

/-- The pages have numbers that the links can hold. -/
structure BTree.InFormat (t : BTree) : Prop where
  next : t.next ≤ 4294967296
  leaves : ∀ leaf ∈ t.chain, leaf.pageId < 2147483648

/-- The file and the tree object are the tree. -/
structure TreeRep (f : FileId) (w : Flat FileId Bytes) (t : BTree) (tree : BPlusTree) : Prop where
  idle : w.Idle f
  size : w.size f = t.next
  tree : tree = ⟨t.root, t.numKeys⟩
  header : HeaderRep (w.mem (f, 0)) t.root t.stored
  levels : LevelsRep f w t.levels
  chain : ChainRep f w (-1) t.chain (-1)
  lengths : ∀ p, (w.mem (f, p)).length = pageSize
  format : t.InFormat

section

variable {f : FileId} {w w' : Flat FileId Bytes} {C₁ C₂ : List Leaf} {prev next : Int} {leaf : Leaf}

theorem firstId_append (C₁ C₂ : List Leaf) (next : Int) :
    firstId (C₁ ++ C₂) next = firstId C₁ (firstId C₂ next) := by
  cases C₁ <;> rfl

theorem lastId_cons (prev : Int) (leaf : Leaf) (rest : List Leaf) :
    lastId prev (leaf :: rest) = lastId leaf.pageId rest := by
  cases rest with
  | nil => rfl
  | cons l rest => simp [lastId, List.getLast?_cons]

theorem chainRep_append : ChainRep f w prev (C₁ ++ C₂) next ↔
    ChainRep f w prev C₁ (firstId C₂ next) ∧ ChainRep f w (lastId prev C₁) C₂ next := by
  induction C₁ generalizing prev with
  | nil => simp [ChainRep, lastId]
  | cons leaf rest ih => simp [ChainRep, ih, firstId_append, lastId_cons, and_assoc]

/-- A leaf of the chain between its neighbours. -/
theorem chainRep_at : ChainRep f w prev (C₁ ++ leaf :: C₂) next ↔
    ChainRep f w prev C₁ leaf.pageId ∧
      Holds (w.mem (f, leaf.pageId)) (.leaf (leaf.node (lastId prev C₁) (firstId C₂ next))) ∧
      ChainRep f w leaf.pageId C₂ next := by
  rw [chainRep_append]
  rfl

/-- Only the pages of the leaves matter. -/
theorem ChainRep.congr (h : ChainRep f w prev C₁ next)
    (hsame : ∀ p ∈ C₁.map Leaf.pageId, w'.mem (f, p) = w.mem (f, p)) : ChainRep f w' prev C₁ next := by
  induction C₁ generalizing prev with
  | nil => trivial
  | cons leaf rest ih =>
      refine ⟨?_, ih h.2 fun p hp => hsame p (List.mem_cons_of_mem _ hp)⟩
      rw [hsame leaf.pageId List.mem_cons_self]
      exact h.1

theorem LevelsRep.congr {levels : List (List InnerPage)} (h : LevelsRep f w levels)
    (hsame : ∀ p ∈ allIds levels, w'.mem (f, p) = w.mem (f, p)) : LevelsRep f w' levels := by
  intro level hlevel node hnode
  rw [hsame node.pageId (List.mem_flatMap.mpr ⟨level, hlevel, List.mem_map_of_mem hnode⟩)]
  exact h level hlevel node hnode

/-- Every link of a chain is the number of a page, or what stands at its ends. -/
theorem firstId_cases (C : List Leaf) (next : Int) :
    firstId C next = next ∨ ∃ leaf ∈ C, firstId C next = leaf.pageId := by
  cases C with
  | nil => exact Or.inl rfl
  | cons leaf rest => exact Or.inr ⟨leaf, List.mem_cons_self, rfl⟩

theorem lastId_cases (prev : Int) (C : List Leaf) :
    lastId prev C = prev ∨ ∃ leaf ∈ C, lastId prev C = leaf.pageId := by
  cases hC : C.getLast? with
  | none => exact Or.inl (by simp [lastId, hC])
  | some leaf => exact Or.inr ⟨leaf, List.mem_of_getLast? hC, by simp [lastId, hC]⟩

/-- A leaf of a shapely tree can be written to its page. -/
theorem leafFits (hok : LeafOk leaf) (hlen : leaf.entries.length ≤ BTreePage.maxKeys)
    (hid : leaf.pageId < 4294967296) (hprev : formati.Fits prev) (hnext : formati.Fits next) :
    PageFits (.leaf (leaf.node prev next)) where
  pageId := hid
  count := by simp [Leaf.node, Leaf.keys]
  paired := by simp [Leaf.node, Leaf.keys]
  most := by simpa [Leaf.node, Leaf.keys] using hlen
  keys := hok.keys
  rids rid hrid := by
    obtain ⟨e, he, rfl⟩ := List.mem_map.mp hrid
    exact hok.rids e he
  prev := hprev
  next := hnext

theorem innerFits {node : InnerPage} (hok : NodeOk node) (hlen : node.keys.length ≤ BTreePage.maxKeys)
    (hid : node.pageId < 4294967296) (hpointers : ∀ p ∈ node.pointers, p < 4294967296) :
    PageFits (.inner node) where
  pageId := hid
  count := hok.count
  linked := hok.linked
  most := hlen
  keys := hok.fits
  pointers := hpointers

theorem fits_formati_of_lt {p : Nat} (h : p < 2147483648) : formati.Fits (p : Int) :=
  fits_formati.mpr ⟨by omega, by omega⟩

end

/-! ## Steps -/

section

variable {σ : Type} {s : σ} {f : FileId} {w : Flat FileId Bytes} {p q : Nat} {page : BTreePage}

theorem run_fetchNode (hw : w.Fetchable (Bpm.clientLimits anyBlock) (f, p))
    (hpage : Holds (w.mem (f, p)) page) :
    (BPlusTree.fetchNode f p : PageProg σ BTreePage).run c s w = (.ok page, s, w.pin (f, p)) := by
  refine Prog.run_step (Bpm.run_fetchPage hw) ?_
  exact Bpm.run_reading hpage.read

/-- Writing a node over the frame of a pinned page. -/
theorem run_write (hf : f ∉ w.gone) (hpin : (f, p) ∈ w.pins) (hlen : (w.mem (f, p)).length = pageSize)
    (hfits : PageFits page) :
    ∃ b, Holds b page ∧ (BPlusTree.write f p page : PageProg σ Unit).run c s w =
      (.ok (), s, w.change (f, p) b) := by
  obtain ⟨b, hb, hholds⟩ := serialize_of_fits hfits hlen
  exact ⟨b, hholds, Bpm.run_onFrame hf hpin hb⟩

theorem run_release (hf : f ∉ w.gone) (hpin : (f, p) ∈ w.pins) :
    (Bpm.unpinPage p f false : PageProg σ Unit).run c s w =
      (.ok (), s, w.release (f, p) false) :=
  Bpm.run_unpinPage_clean hf hpin (show w.Good (poolLimits anyBlock) (f, p) from rfl)

theorem run_save (hf : f ∉ w.gone) (hpin : (f, p) ∈ w.pins) (hlen : (w.mem (f, p)).length = pageSize)
    (hsize : p < w.size f) :
    (Bpm.unpinPage p f true : PageProg σ Unit).run c s w = (.ok (), s, w.release (f, p) true) :=
  Bpm.run_unpinPage_dirty hf hpin (show w.Good (poolLimits anyBlock) (f, p) from rfl) ⟨hlen, hsize⟩

/-- A pinned node written back and released. -/
theorem run_write_save (hf : f ∉ w.gone) (hclean : (f, p) ∉ w.unsaved)
    (hlen : (w.mem (f, p)).length = pageSize) (hsize : p < w.size f) (hfits : PageFits page)
    (hid : page.pageId = p) :
    ∃ b, Holds b page ∧ (do
        BPlusTree.write f p page
        Bpm.unpinPage page.pageId f true : PageProg σ Unit).run c s (w.pin (f, p)) =
      (.ok (), s, w.setMem (f, p) b) := by
  obtain ⟨b, hholds, hwrite⟩ := run_write (c := c) (σ := σ) (s := s) (w := w.pin (f, p)) hf (by simp) hlen hfits
  refine ⟨b, hholds, Prog.run_step hwrite ?_⟩
  rw [hid, run_save (w := (w.pin (f, p)).change (f, p) b) (by simpa using hf) (by simp)
    (by simpa using hholds.length) (by simpa using hsize), Flat.release_change_pin hclean]

end

/-! ## Finding a leaf -/

section

variable {σ : Type} {s : σ} {f : FileId} {w : Flat FileId Bytes} {key : Int} {root p fuel : Nat}
  {levels : List (List InnerPage)} {trail : List InnerPage} {page : BTreePage}

/-- The path that `_find_leaf` collects: the nodes passed and the page reached. -/
def pathOf (trail : List InnerPage) (p : Nat) : List Nat := (trail.map InnerPage.pageId).reverse ++ [p]

variable (fuel) in
/-- `_find_leaf` goes the way of the key down to a page and goes on from there,
with that page pinned. -/
theorem run_descend (hidle : w.Idle f) (hok : NodesOk levels) (hlevels : LevelsRep f w levels)
    (hdescend : BTree.descend key root levels = some (p, trail)) (hpage : Holds (w.mem (f, p)) page)
    (hid : page.pageId = p) :
    (BPlusTree.fetchNode f root >>= fun node =>
      BPlusTree.findLeafFrom f key (fuel + levels.length) root node [root] :
        PageProg σ (Nat × LeafPage × List Nat)).run c s w =
      (BPlusTree.findLeafFrom f key fuel p page (pathOf trail p)).run c s (w.pin (f, p)) := by
  have hfetch : ∀ q, w.Fetchable (Bpm.clientLimits anyBlock) (f, q) := fun q =>
    Bpm.fetchable hidle.here (by simp [Flat.Held, hidle.unsaved]) (by simp [hidle.pins])
  induction levels generalizing p trail page fuel with
  | nil =>
      obtain ⟨rfl, rfl⟩ := Prod.mk.inj (Option.some.inj hdescend)
      exact Prog.run_bind_ok (run_fetchNode (hfetch _) hpage)
  | cons level above ih =>
      obtain ⟨p', node, rest, habove, rfl, hmem, rfl, hchild⟩ := descend_cons hdescend
      have hnode := (hok level List.mem_cons_self node hmem).1
      have hrest := ih (fuel + 1) (fun l hl => hok l (List.mem_cons_of_mem _ hl))
        (fun l hl => hlevels l (List.mem_cons_of_mem _ hl)) habove
        (hlevels level List.mem_cons_self node hmem) rfl
      rw [List.length_cons, Nat.add_comm above.length 1, ← Nat.add_assoc]
      refine hrest.trans ?_
      rw [BPlusTree.findLeafFrom, route_of_ok hnode hchild]
      refine Prog.run_step (Prog.run_ofExcept _ _ _) ?_
      refine Prog.run_step (run_release (w := w.pin (f, node.pageId)) hidle.here (by simp)) ?_
      rw [Flat.release_pin]
      refine Prog.run_step (run_fetchNode (hfetch _) hpage) ?_
      rw [hid]
      simp [pathOf]

variable {t : BTree} {tree : BPlusTree} {leaf : Leaf} {C₁ C₂ : List Leaf}

theorem length_le_allIds (h : List.Forall₂ (fun level node => node ∈ level) levels trail) :
    levels.length ≤ (allIds levels).length := by
  induction h with
  | nil => exact Nat.zero_le _
  | cons hmem _ ih =>
      simp only [allIds, List.flatMap_cons, List.length_append, List.length_cons, idsOf,
        List.length_map] at ih ⊢
      have := List.length_pos_of_mem hmem
      omega

/-- There are no more levels than pages. -/
theorem levels_le (h : t.Shape) : t.levels.length ≤ t.next := by
  obtain ⟨leaf, trail, C₁, C₂, hr⟩ := h.reaches 0
  have hnodup := (List.nodup_append.mp h.nodup).2.1
  have hbound := (hnodup.subperm fun p hp =>
    List.mem_range.mpr (h.pages p (List.mem_append_right _ hp)).2).length_le
  rw [List.length_range] at hbound
  exact Nat.le_trans (length_le_allIds hr.trail) hbound

/-- `_find_leaf` returns the leaf of the key, pinned, and the path to it. -/
theorem run_findLeaf (h : t.Shape) (hrep : TreeRep f w t tree)
    (hr : t.Reaches key leaf trail C₁ C₂) :
    (BPlusTree.findLeaf f key).run c tree w =
      (.ok (leaf.pageId, leaf.node (lastId (-1) C₁) (firstId C₂ (-1)), pathOf trail leaf.pageId), tree,
        w.pin (f, leaf.pageId)) := by
  have hchain := hrep.chain
  rw [hr.chain] at hchain
  obtain ⟨-, hleaf, -⟩ := chainRep_at.mp hchain
  have hfuel : (BPlusTree.walkLimit - t.levels.length) + t.levels.length = BPlusTree.walkLimit := by
    have hle := levels_le h
    have hnext := hrep.format.next
    simp only [BPlusTree.walkLimit]
    omega
  rw [BPlusTree.findLeaf]
  refine Prog.run_step (Prog.run_read tree w) ?_
  have hdescend := run_descend (c := c) (s := tree) (BPlusTree.walkLimit - t.levels.length) hrep.idle h.nodes
    hrep.levels hr.descend hleaf rfl
  rw [hfuel] at hdescend
  rw [hrep.tree] at hdescend ⊢
  refine hdescend.trans ?_
  generalize BPlusTree.walkLimit - t.levels.length = fuel
  cases fuel <;> rfl

end

/-! ## Walks along the chain -/

section

variable {σ α : Type} {s : σ} {f : FileId} {w : Flat FileId Bytes} {key prev : Int} {rid : Rid}
  {start stop : Option Int} {fuel : Nat} {leaf next : Leaf} {rest : List Leaf}

/-- What a walk over a piece of the chain finds: the leaves on their pages, each
in order in itself. -/
structure Walkable (f : FileId) (w : Flat FileId Bytes) (prev : Int) (chain : List Leaf) : Prop where
  idle : w.Idle f
  rep : ChainRep f w prev chain (-1)
  ok : ∀ l ∈ chain, LeafOk l ∧ 0 < l.pageId

theorem Walkable.tail (h : Walkable f w prev (leaf :: rest)) : Walkable f w leaf.pageId rest :=
  ⟨h.idle, h.rep.2, fun l hl => h.ok l (List.mem_cons_of_mem _ hl)⟩

theorem Walkable.next_pos (h : Walkable f w prev (leaf :: next :: rest)) :
    ¬ (leaf.node prev (firstId (next :: rest) (-1))).nextLeaf ≤ 0 := by
  have hpos := (h.ok next (by simp)).2
  change ¬ (next.pageId : Int) ≤ 0
  omega

/-- The last leaf has no next one. -/
theorem nextLeaf_last (leaf : Leaf) (prev : Int) : (leaf.node prev (firstId [] (-1))).nextLeaf ≤ 0 := by
  change (-1 : Int) ≤ 0
  decide

/-- Going on to the next leaf. -/
theorem run_nextLeaf (h : Walkable f w prev (next :: rest)) {k : LeafPage → PageProg σ α}
    {r : Except PyErr α × σ × Flat FileId Bytes}
    (hk : (k (next.node prev (firstId rest (-1)))).run c s (w.pin (f, next.pageId)) = r) :
    (do
      let page ← BPlusTree.fetchNode f (firstId (next :: rest) (-1)).toNat
      let next ← Prog.ofExcept (BPlusTree.asLeaf page)
      k next : PageProg σ α).run c s w = r := by
  have hid : (firstId (next :: rest) (-1)).toNat = next.pageId := rfl
  rw [hid]
  refine Prog.run_step (run_fetchNode (Bpm.fetchable h.idle.here (by simp [Flat.Held, h.idle.unsaved])
    (by simp [h.idle.pins])) h.rep.1) ?_
  exact Prog.run_step (Prog.run_ofExcept _ _ _) hk

/-- A leaf is released. -/
theorem run_releaseLeaf (hidle : w.Idle f) (p : Nat) :
    (Bpm.unpinPage p f false : PageProg σ Unit).run c s (w.pin (f, p)) = (.ok (), s, w) := by
  rw [run_release (w := w.pin (f, p)) hidle.here (by simp), Flat.release_pin]

theorem run_searchFrom (h : Walkable f w prev (leaf :: rest)) (hfuel : rest.length ≤ fuel)
    (rids : List Rid) :
    (BPlusTree.searchFrom f key fuel (leaf.node prev (firstId rest (-1))) rids : PageProg σ (List Rid)).run
        c s (w.pin (f, leaf.pageId)) =
      (.ok (rids ++ BTree.searchIn key (leaf :: rest)), s, w) := by
  induction rest generalizing fuel leaf prev rids with
  | nil =>
      rw [BPlusTree.searchFrom, lookup_node (h.ok leaf (by simp)).1]
      refine Prog.run_step (Prog.run_ofExcept _ _ _) (Prog.run_step (run_releaseLeaf h.idle _) ?_)
      rw [if_pos (Or.inr (nextLeaf_last leaf prev)), Prog.run_pure]
      simp [BTree.searchIn]
  | cons next rest ih =>
      rw [BPlusTree.searchFrom, lookup_node (h.ok leaf (by simp)).1]
      refine Prog.run_step (Prog.run_ofExcept _ _ _) (Prog.run_step (run_releaseLeaf h.idle _) ?_)
      rw [passed_node]
      by_cases hpassed : leaf.passed key = true
      · rw [if_pos (Or.inl hpassed), Prog.run_pure]
        simp [BTree.searchIn, hpassed]
      · rw [if_neg (not_or.mpr ⟨hpassed, h.next_pos⟩)]
        obtain ⟨fuel, rfl⟩ : ∃ n, fuel = n + 1 := ⟨fuel - 1, by simp at hfuel; omega⟩
        refine run_nextLeaf h.tail ?_
        have hin : BTree.searchIn key (leaf :: next :: rest) =
            leaf.lookup key ++ BTree.searchIn key (next :: rest) := by
          rw [BTree.searchIn, if_neg hpassed]
        rw [ih h.tail (by simpa using hfuel) (rids ++ leaf.lookup key), hin, List.append_assoc]

theorem run_rangeFrom (h : Walkable f w prev (leaf :: rest)) (hfuel : rest.length ≤ fuel)
    (rids : List Rid) :
    (BPlusTree.rangeFrom f start stop fuel (leaf.node prev (firstId rest (-1))) rids :
        PageProg σ (List Rid)).run c s (w.pin (f, leaf.pageId)) =
      (.ok (rids ++ BTree.rangeIn start stop (leaf :: rest)), s, w) := by
  have htake : ∀ (leaf : Leaf) (prev next : Int) (rids : List Rid), BPlusTree.takeRange start stop
      (leaf.node prev next).numKeys (leaf.node prev next).keys (leaf.node prev next).rids rids = _ :=
    fun leaf prev next rids => takeRange_eq start stop leaf.entries rids
  -- what is taken from one leaf, and whether the end was passed
  have hin : ∀ (leaf : Leaf) (rest : List Leaf), BTree.rangeIn start stop (leaf :: rest) =
      ((leaf.entries.filter fun e => !start.any fun s => decide (e.1 < s)).takeWhile
        fun e => !stop.any fun s => decide (s < e.1)).map Prod.snd ++
      if (leaf.entries.filter fun e => !start.any fun s => decide (e.1 < s)).any
        (fun e => stop.any fun s => decide (s < e.1)) = true then []
      else BTree.rangeIn start stop rest := fun leaf rest => by
    simp only [BTree.rangeIn]
    split
    · simp
    · rename_i hnot
      rw [List.takeWhile_eq_self_iff.mpr fun e he => ?_]
      simpa using fun hpast => hnot (List.any_eq_true.mpr ⟨e, he, hpast⟩)
  induction rest generalizing fuel leaf prev rids with
  | nil =>
      rw [BPlusTree.rangeFrom, htake]
      refine Prog.run_step (Prog.run_ofExcept _ _ _) (Prog.run_step (run_releaseLeaf h.idle _) ?_)
      rw [if_pos (Or.inr (nextLeaf_last leaf prev)), Prog.run_pure, hin]
      simp [BTree.rangeIn]
  | cons next rest ih =>
      rw [BPlusTree.rangeFrom, htake]
      refine Prog.run_step (Prog.run_ofExcept _ _ _) (Prog.run_step (run_releaseLeaf h.idle _) ?_)
      rw [hin]
      split
      · rename_i hstop
        rw [if_pos (hstop.resolve_right h.next_pos), Prog.run_pure, List.append_nil]
      · rename_i hgo
        rw [if_neg (not_or.mp hgo).1]
        obtain ⟨fuel, rfl⟩ : ∃ n, fuel = n + 1 := ⟨fuel - 1, by simp at hfuel; omega⟩
        refine run_nextLeaf h.tail ?_
        rw [ih h.tail (by simpa using hfuel), List.append_assoc]

end

/-! ## Searching and scanning -/

section

variable {σ : Type} {s : σ} {f : FileId} {w : Flat FileId Bytes} {t : BTree} {tree : BPlusTree}
  {key : Int} {root p fuel : Nat} {ps : List Nat} {levels : List (List InnerPage)} {page : BTreePage}
  {leaf : Leaf} {C₁ C₂ : List Leaf}

/-- The chain from a leaf on can be walked. -/
theorem walkable (h : t.Shape) (hrep : TreeRep f w t tree) (hchain : t.chain = C₁ ++ C₂) :
    Walkable f w (lastId (-1) C₁) C₂ where
  idle := hrep.idle
  rep := by
    have hrep := hrep.chain
    rw [hchain] at hrep
    exact (chainRep_append.mp hrep).2
  ok l hl := by
    have hmem : l ∈ t.chain := by
      rw [hchain]
      exact List.mem_append_right _ hl
    exact ⟨h.leafOk hmem, (h.pages l.pageId (List.mem_append_left _ (List.mem_map_of_mem hmem))).1⟩

/-- A walk along the chain comes to its end. -/
theorem chain_le (h : t.Shape) (hformat : t.InFormat) (hchain : t.chain = C₁ ++ leaf :: C₂) :
    C₂.length ≤ BPlusTree.walkLimit := by
  have hbound := (h.nodup_chain.subperm fun p hp =>
    List.mem_range.mpr (h.pages p (List.mem_append_left _ hp)).2).length_le
  have hnext := hformat.next
  simp only [hchain, List.length_map, List.length_append, List.length_cons, List.length_range] at hbound
  simp only [BPlusTree.walkLimit]
  omega

/-- `search` returns what the walk of the tree finds and changes nothing. -/
theorem run_search (h : t.Shape) (hrep : TreeRep f w t tree) (key : Int) :
    (BPlusTree.search f key).run c tree w = (.ok (t.search key), tree, w) := by
  obtain ⟨leaf, trail, C₁, C₂, hr⟩ := h.reaches key
  rw [BPlusTree.search]
  refine Prog.run_step (run_findLeaf h hrep hr) ?_
  refine (run_searchFrom (walkable h hrep hr.chain) (chain_le h hrep.format hr.chain) []).trans ?_
  simp only [BTree.search, hr.leafOf, h.chainFrom_eq hr.chain, List.nil_append]

variable (fuel) in
/-- The way of `_find_leftmost_leaft`. -/
theorem run_leftmost (hidle : w.Idle f) (hok : NodesOk levels) (hlevels : LevelsRep f w levels)
    (hlinked : Linked SamePages root ps levels) (hp : ps.head? = some p)
    (hpage : Holds (w.mem (f, p)) page) :
    (BPlusTree.fetchNode f root >>= fun node =>
      BPlusTree.findLeftmostFrom f (fuel + levels.length) root node : PageProg σ (Nat × LeafPage)).run
        c s w =
      (BPlusTree.findLeftmostFrom f fuel p page).run c s (w.pin (f, p)) := by
  have hfetch : ∀ q, w.Fetchable (Bpm.clientLimits anyBlock) (f, q) := fun q =>
    Bpm.fetchable hidle.here (by simp [Flat.Held, hidle.unsaved]) (by simp [hidle.pins])
  induction levels generalizing p ps page fuel with
  | nil =>
      have hroot := hlinked.2
      rw [hp] at hroot
      obtain rfl := Option.some.inj hroot
      exact Prog.run_bind_ok (run_fetchNode (hfetch _) hpage)
  | cons level above ih =>
      obtain ⟨hsame, habove⟩ := hlinked
      obtain ⟨node, nodes, rfl⟩ : ∃ node nodes, level = node :: nodes := by
        cases level with
        | nil => simp [SamePages, pointersOf, hp] at hsame
        | cons node nodes => exact ⟨node, nodes, rfl⟩
      have hnode := (hok _ List.mem_cons_self node List.mem_cons_self).1
      have hpointer : node.pointers[0]? = some p := by
        have hhead := hsame.2
        rw [hp] at hhead
        have hlinked := hnode.linked
        cases hpointers : node.pointers with
        | nil => simp [hpointers] at hlinked
        | cons q qs => simpa [pointersOf, hpointers] using hhead
      have hrest := ih (fuel + 1) (fun l hl => hok l (List.mem_cons_of_mem _ hl))
        (fun l hl => hlevels l (List.mem_cons_of_mem _ hl)) habove (p := node.pageId) rfl
        (hlevels _ List.mem_cons_self node List.mem_cons_self)
      rw [List.length_cons, Nat.add_comm above.length 1, ← Nat.add_assoc]
      refine hrest.trans ?_
      rw [BPlusTree.findLeftmostFrom, InnerPage.pointer, hpointer]
      refine Prog.run_step (Prog.run_ofExcept _ _ _) ?_
      refine Prog.run_step (run_releaseLeaf hidle _) ?_
      exact Prog.run_step (run_fetchNode (hfetch _) hpage) rfl

/-- `_find_leftmost_leaft` returns the first leaf of the chain, pinned. -/
theorem run_findLeftmost (h : t.Shape) (hrep : TreeRep f w t tree) (hchain : t.chain = leaf :: C₂) :
    (BPlusTree.findLeftmost f).run c tree w =
      (.ok (leaf.pageId, leaf.node (-1) (firstId C₂ (-1))), tree, w.pin (f, leaf.pageId)) := by
  have hleaf := hrep.chain
  have hlinked := h.linked
  rw [hchain] at hleaf hlinked
  have hfuel : (BPlusTree.walkLimit - t.levels.length) + t.levels.length = BPlusTree.walkLimit := by
    have hle := levels_le h
    have hnext := hrep.format.next
    simp only [BPlusTree.walkLimit]
    omega
  rw [BPlusTree.findLeftmost]
  refine Prog.run_step (Prog.run_read tree w) ?_
  have hleft := run_leftmost (c := c) (s := tree) (BPlusTree.walkLimit - t.levels.length) hrep.idle h.nodes
    hrep.levels hlinked rfl hleaf.1
  rw [hfuel] at hleft
  rw [hrep.tree] at hleft ⊢
  refine hleft.trans ?_
  generalize BPlusTree.walkLimit - t.levels.length = fuel
  cases fuel <;> rfl

/-- `range_scan` returns what the walk of the tree takes and changes nothing. -/
theorem run_rangeScan (h : t.Shape) (hrep : TreeRep f w t tree) (start stop : Option Int) :
    (BPlusTree.rangeScan f start stop).run c tree w =
      (.ok (t.rangeScan start stop), tree, w) := by
  cases start with
  | some key =>
      obtain ⟨leaf, trail, C₁, C₂, hr⟩ := h.reaches key
      rw [BPlusTree.rangeScan]
      refine Prog.run_step (run_findLeaf h hrep hr) ?_
      refine (run_rangeFrom (walkable h hrep hr.chain) (chain_le h hrep.format hr.chain) []).trans ?_
      simp only [BTree.rangeScan, hr.leafOf, h.chainFrom_eq hr.chain, List.nil_append]
  | none =>
      obtain ⟨leaf, trail, C₁, C₂, hr⟩ := h.reaches 0
      obtain ⟨first, rest, hchain⟩ : ∃ first rest, t.chain = first :: rest := by
        rw [hr.chain]
        cases C₁ <;> exact ⟨_, _, rfl⟩
      rw [BPlusTree.rangeScan]
      refine Prog.run_step (run_findLeftmost h hrep hchain) ?_
      have hwhole : t.chain = [] ++ first :: rest := hchain
      refine (run_rangeFrom (walkable h hrep hwhole) (chain_le h hrep.format hwhole) []).trans ?_
      simp only [BTree.rangeScan, hchain, List.nil_append]

end

end DBEngine
