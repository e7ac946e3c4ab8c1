import DBEngine.Index.BTreeWrites

/-!
# Inserting into the tree

An insert that overflows a leaf splits it and files the new leaf in what is
above, which may split nodes up to the root.  The pages follow `BTree.raise`
level by level.
-/

set_option autoImplicit false

namespace DBEngine

open ByteBuffer Paged

variable {c : Store FileId Bytes PyErr (Flat FileId Bytes)} [Bpm.Serves c anyBlock]

/-! ## Two nodes of a split -/

section

variable {σ : Type} {s : σ} {f : FileId} {w : Flat FileId Bytes} {p q : Nat} {page newPage : BTreePage}

/-- Both nodes of a split are written and released. -/
theorem run_writeHalves (hidle : w.Idle f) (hpq : p ≠ q) (hlen : ∀ p, (w.mem (f, p)).length = pageSize)
    (hp : p < w.size f) (hq : q < w.size f) (hpage : PageFits page) (hnew : PageFits newPage)
    (hid : page.pageId = p) (hnewId : newPage.pageId = q) :
    ∃ b₁ b₂, Holds b₁ page ∧ Holds b₂ newPage ∧
      (BPlusTree.writeHalves f p q page newPage : PageProg σ Unit).run c s
          ((w.pin (f, p)).pin (f, q)) =
        (.ok (), s, (w.setMem (f, p) b₁).setMem (f, q) b₂) := by
  have hne : (f, q) ≠ (f, p) := fun heq => hpq (Prod.mk.inj heq).2.symm
  obtain ⟨b₁, hb₁, hwrite₁⟩ := run_write (c := c) (s := s) (w := (w.pin (f, p)).pin (f, q)) (p := p) hidle.here
    (by simp) (hlen p) hpage
  obtain ⟨b₂, hb₂, hwrite₂⟩ := run_write (c := c) (s := s) (w := ((w.pin (f, p)).pin (f, q)).change (f, p) b₁)
    (p := q) (by simpa using hidle.here) (by simp) (by simpa [hpq.symm] using hlen q) hnew
  refine ⟨b₁, b₂, hb₁, hb₂, ?_⟩
  rw [BPlusTree.writeHalves, hid, hnewId]
  refine Prog.run_step hwrite₁ (Prog.run_step hwrite₂ ?_)
  refine Prog.run_step (run_save (by simpa using hidle.here) (by simp) ?_ (by simpa using hp)) ?_
  · simpa [hpq] using hb₁.length
  · have hpin : (f, q) ∈ (((((w.pin (f, p)).pin (f, q)).change (f, p) b₁).change (f, q) b₂).release
        (f, p) true).pins := by
      simp only [Flat.release_pins, Flat.change_pins, Flat.pin_pins]
      exact (Multiset.mem_erase_of_ne hne).mpr (Multiset.mem_cons_self _ _)
    rw [run_save (by simpa using hidle.here) hpin (by simpa using hb₂.length) (by simpa using hq),
      Flat.release_change_two (by simp [hidle.unsaved]) (by simp [hidle.unsaved])]

end

/-! ## A new root -/

section

variable {f : FileId} {w : Flat FileId Bytes} {tree : BPlusTree} {p q : Nat} {sep : Int}

variable (tree) in
/-- `_split_root` puts a new root over two nodes, unless the number of keys does
not fit the header. -/
theorem run_splitRoot (hidle : w.Idle f) (hlen : ∀ p, (w.mem (f, p)).length = pageSize)
    (hpos : 0 < w.size f) (hbound : w.size f < 4294967296) (hsep : formati.Fits sep)
    (hp : p < 4294967296) (hq : q < 4294967296) :
    (¬ formatI.Fits tree.numKeys ∧
      ∃ tree' w', (BPlusTree.splitRoot f p q sep).run c tree w = (.error .structError, tree', w')) ∨
    ∃ b bh, Holds b (.inner (BTree.rootOver (w.size f) p sep q)) ∧ bh.length = pageSize ∧
      HeaderRep bh (w.size f) tree.numKeys ∧
      (BPlusTree.splitRoot f p q sep).run c tree w =
        (.ok (), { tree with rootPageId := w.size f },
          ((w.extend f).setMem (f, w.size f) b).setMem (f, 0) bh) := by
  have hfits : PageFits (.inner (BTree.rootOver (w.size f) p sep q)) :=
    innerFits (nodesOk_rootOver hsep) (Nat.le_add_left 1 99) hbound fun r hr => by
      rcases List.mem_cons.mp hr with rfl | hr
      · exact hp
      · rw [List.mem_singleton.mp hr]
        exact hq
  obtain ⟨b, hb, hroot⟩ := run_write_save (c := c) (σ := BPlusTree) (s := { tree with rootPageId := w.size f })
    (w := w.extend f) (p := w.size f) hidle.here (by simp [hidle.unsaved]) (hlen _) (by simp) hfits rfl
  have hready : HeaderReady f ((w.extend f).setMem (f, w.size f) b) :=
    ⟨Bpm.fetchable hidle.here (by simp [Flat.Held, hidle.unsaved]) (by simp [hidle.pins]),
      by simp [hidle.unsaved], by simpa [Nat.ne_of_lt hpos] using hlen 0, by simp⟩
  -- what comes before the header is written
  have hstart : (BPlusTree.splitRoot f p q sep).run c tree w =
      (BPlusTree.writeMetadata f).run c { tree with rootPageId := w.size f }
        ((w.extend f).setMem (f, w.size f) b) := by
    rw [BPlusTree.splitRoot]
    refine Prog.run_step (Bpm.run_allocatePage hidle.here) (Prog.run_step (Prog.run_modify _ _ _) ?_)
    refine Prog.run_step (Bpm.run_fetchPage (Bpm.fetchable hidle.here
      (by simp [Flat.Held, hidle.unsaved]) (by simp [hidle.pins]))) ?_
    refine Prog.run_step (a := BTree.rootOver (w.size f) p sep q) (Prog.run_ofExcept _ _ _) ?_
    rw [← Prog.bind_assoc]
    exact Prog.run_step hroot rfl
  rw [hstart]
  by_cases hcount : formatI.Fits tree.numKeys
  · obtain ⟨bh, hlenh, hheader, hmeta⟩ := run_writeMetadata (c := c)
      { tree with rootPageId := w.size f } hready hbound hcount
    exact Or.inr ⟨b, bh, hb, hlenh, hheader, hmeta⟩
  · obtain ⟨w', hmeta⟩ := run_writeMetadata_error (c := c)
      { tree with rootPageId := w.size f } hready hbound hcount
    exact Or.inl ⟨hcount, _, w', hmeta⟩

end

/-! ## Filing a node -/

section

variable {f : FileId} {w : Flat FileId Bytes} {tree : BPlusTree} {node : InnerPage} {m : Int}
  {q idx : Nat} {path : List Nat} {newNode : BTreePage} {separator : Option Int}

/-- The pointers of a node after filing are its own and the new one. -/
theorem mem_pointers_filed (h : NodeOk node) {p : Nat} (hp : p ∈ (node.filed m q).pointers) :
    p = q ∨ p ∈ node.pointers := by
  have := (perm_of_insertedIn (insertedIn_filed (m := m) (q := q) h)).mem_iff.mp hp
  exact List.mem_cons.mp this

/-- What `_update_parent` finds: the node of the path on its page, and a file
whose numbers fit. -/
structure Filing (f : FileId) (w : Flat FileId Bytes) (path : List Nat) (idx : Nat) (node : InnerPage)
    (newNode : BTreePage) (separator : Option Int) (m : Int) : Prop where
  idle : w.Idle f
  lengths : ∀ p, (w.mem (f, p)).length = pageSize
  path : path[idx]? = some node.pageId
  page : Holds (w.mem (f, node.pageId)) (.inner node)
  ok : NodeOk node
  room : node.keys.length ≤ BTreePage.maxKeys
  size : node.pageId < w.size f
  bound : w.size f < 4294967296
  pointers : ∀ p ∈ node.pointers, p < 4294967296
  minKey : BPlusTree.minKey separator newNode = .ok m
  fits : formati.Fits m
  newId : newNode.pageId < 4294967296

/-- `_update_parent` up to the test for overflow. -/
theorem run_fileNode_start {above : InnerPage → InnerPage → Int → PageProg BPlusTree Unit}
    {r : Except PyErr Unit × BPlusTree × Flat FileId Bytes}
    (h : Filing f w path idx node newNode separator m)
    (hrest : (if !(node.filed m newNode.pageId).isOverflow then do
        BPlusTree.write f node.pageId (.inner (node.filed m newNode.pageId))
        Bpm.unpinPage (node.filed m newNode.pageId).pageId f true
      else
        BPlusTree.splitInternal f node.pageId (node.filed m newNode.pageId) above).run c tree
          (w.pin (f, node.pageId)) = r) :
    (BPlusTree.fileNode f path idx newNode separator above).run c tree w = r := by
  rw [BPlusTree.fileNode, h.path, h.minKey]
  refine Prog.run_step (Prog.run_ofExcept _ _ _) ?_
  refine Prog.run_step (run_fetchNode (Bpm.fetchable h.idle.here (by simp [Flat.Held, h.idle.unsaved])
    (by simp [h.idle.pins])) h.page) ?_
  refine Prog.run_step (Prog.run_ofExcept _ _ _) (Prog.run_step (Prog.run_ofExcept _ _ _) ?_)
  rw [insertPointer_of_ok h.ok]
  exact Prog.run_step (Prog.run_ofExcept _ _ _) hrest

variable (tree) in
/-- A node with room takes the new one. -/
theorem run_fileNode_room (above : InnerPage → InnerPage → Int → PageProg BPlusTree Unit)
    (h : Filing f w path idx node newNode separator m)
    (hroom : (node.filed m newNode.pageId).keys.length ≤ BTreePage.maxKeys) :
    ∃ b, Holds b (.inner (node.filed m newNode.pageId)) ∧
      (BPlusTree.fileNode f path idx newNode separator above).run c tree w =
        (.ok (), tree, w.setMem (f, node.pageId) b) := by
  have hfiled := nodeOk_filed h.ok h.fits newNode.pageId
  have hover : (node.filed m newNode.pageId).isOverflow = false := by
    simpa [InnerPage.isOverflow, hfiled.count] using hroom
  have hfits : PageFits (.inner (node.filed m newNode.pageId)) :=
    innerFits hfiled hroom (Nat.lt_trans h.size h.bound) fun p hp => by
      rcases mem_pointers_filed h.ok hp with rfl | hp
      · exact h.newId
      · exact h.pointers p hp
  obtain ⟨b, hb, hsave⟩ := run_write_save (c := c) (s := tree) h.idle.here (by simp [h.idle.unsaved])
    (h.lengths node.pageId) h.size hfits rfl
  refine ⟨b, hb, run_fileNode_start h ?_⟩
  rw [if_pos (by simp [hover])]
  exact hsave

variable (tree) in
/-- A full node is split, and its upper half is filed in what is above. -/
theorem run_fileNode_split (above : InnerPage → InnerPage → Int → PageProg BPlusTree Unit)
    (h : Filing f w path idx node newNode separator m)
    (hfull : (node.filed m newNode.pageId).keys.length = BTreePage.maxKeys + 1) :
    ∃ b₁ b₂, Holds b₁ (.inner (node.filed m newNode.pageId).lowerHalf) ∧
      Holds b₂ (.inner ((node.filed m newNode.pageId).upperHalf (w.size f))) ∧
      (BPlusTree.fileNode f path idx newNode separator above).run c tree w =
        (above (node.filed m newNode.pageId).lowerHalf ((node.filed m newNode.pageId).upperHalf (w.size f))
          (node.filed m newNode.pageId).middle).run c tree
          (((w.extend f).setMem (f, node.pageId) b₁).setMem (f, w.size f) b₂) := by
  have hmax : BTreePage.maxKeys = 100 := rfl
  have hfiled := nodeOk_filed h.ok h.fits newNode.pageId
  have hover : (node.filed m newNode.pageId).isOverflow = true := by
    simp [InnerPage.isOverflow, hfiled.count, hfull]
  have hne : (node.filed m newNode.pageId).keys ≠ [] := fun hnil => by simp [hnil] at hfull
  have hpointers : ∀ p ∈ (node.filed m newNode.pageId).pointers, p < 4294967296 := fun p hp => by
    rcases mem_pointers_filed h.ok hp with rfl | hp
    · exact h.newId
    · exact h.pointers p hp
  obtain ⟨hkeys, hptrs, hlowerLen, -⟩ := halves hfiled hne (w.size f)
  obtain ⟨hlower, hupper, -⟩ := nodeOk_halves hfiled hne (w.size f)
  have htotal := congrArg List.length hkeys
  rw [List.length_append, List.length_cons, hfull] at htotal
  rw [hfull] at hlowerLen
  have hlowerFits : PageFits (.inner (node.filed m newNode.pageId).lowerHalf) :=
    innerFits hlower (by omega) (Nat.lt_trans h.size h.bound)
      fun p hp => hpointers p (by rw [hptrs]; exact List.mem_append_left _ hp)
  have hupperFits : PageFits (.inner ((node.filed m newNode.pageId).upperHalf (w.size f))) :=
    innerFits hupper (by omega) h.bound
      fun p hp => hpointers p (by rw [hptrs]; exact List.mem_append_right _ hp)
  obtain ⟨b₁, b₂, hb₁, hb₂, hwrite⟩ := run_writeHalves (c := c) (s := tree) (w := w.extend f) (p := node.pageId)
    (q := w.size f) ⟨h.idle.here, h.idle.pins, h.idle.unsaved⟩ (Nat.ne_of_lt h.size) h.lengths
    (by simpa using Nat.lt_succ_of_lt h.size) (by simp) hlowerFits hupperFits rfl rfl
  refine ⟨b₁, b₂, hb₁, hb₂, run_fileNode_start h ?_⟩
  rw [if_neg (by simp [hover]), BPlusTree.splitInternal]
  refine Prog.run_step (Bpm.run_allocatePage (w := w.pin (f, node.pageId)) h.idle.here) ?_
  refine Prog.run_step (Bpm.run_fetchPage (w := (w.extend f).pin (f, node.pageId))
    (Bpm.fetchable h.idle.here (by simp [Flat.Held, h.idle.unsaved]) (by simp [h.idle.pins]))) ?_
  rw [splitKey_of_ok hfiled hne]
  refine Prog.run_step (Prog.run_ofExcept _ _ _) ?_
  exact Prog.run_step hwrite rfl

end

/-! ## Up the path -/

/-- The levels above a node that was split, as `_update_parent` finds them. -/
structure LevelsReady (f : FileId) (w : Flat FileId Bytes) (levels : List (List InnerPage)) : Prop where
  idle : w.Idle f
  lengths : ∀ p, (w.mem (f, p)).length = pageSize
  nodes : NodesOk levels
  rep : LevelsRep f w levels
  nodup : (allIds levels).Nodup
  ids : ∀ p ∈ allIds levels, 0 < p ∧ p < w.size f
  pointers : ∀ level ∈ levels, ∀ node ∈ level, ∀ p ∈ node.pointers, p < 4294967296
  pos : 0 < w.size f
  bound : w.size f + levels.length + 1 ≤ 4294967296

/-- The file after the levels were raised: the nodes of the levels on their
pages, the header when there is a new root, and every other page as it was. -/
structure RaisedRep (f : FileId) (w : Flat FileId Bytes) (levels : List (List InnerPage))
    (tree : BPlusTree) (r : BTree.Raised) (tree' : BPlusTree) (w' : Flat FileId Bytes) : Prop where
  idle : w'.Idle f
  size : w'.size f = r.next
  object : tree' = { tree with rootPageId := r.newRoot.getD tree.rootPageId }
  rep : LevelsRep f w' r.levels
  kept : r.newRoot = none → w'.mem (f, 0) = w.mem (f, 0)
  header : ∀ root, r.newRoot = some root → HeaderRep (w'.mem (f, 0)) root tree.numKeys
  same : ∀ p, 0 < p → p < w.size f → p ∉ allIds levels → w'.mem (f, p) = w.mem (f, p)
  lengths : ∀ p, (w'.mem (f, p)).length = pageSize

section

variable {f : FileId} {w w' : Flat FileId Bytes} {tree tree' : BPlusTree} {node : InnerPage} {m : Int}
  {q idx : Nat} {path tail : List Nat} {newNode : BTreePage} {separator : Option Int}
  {lo hi : List InnerPage} {above levels : List (List InnerPage)} {trail rest : List InnerPage}
  {b b₁ b₂ : Bytes}

theorem mem_allIds {level : List InnerPage} (hlevel : level ∈ levels) (hnode : node ∈ level) :
    node.pageId ∈ allIds levels :=
  List.mem_flatMap.mpr ⟨level, hlevel, List.mem_map_of_mem hnode⟩

theorem mem_here : node.pageId ∈ allIds ((lo ++ node :: hi) :: above) :=
  mem_allIds (show lo ++ node :: hi ∈ _ from List.mem_cons_self) (by simp)

/-- The node of the path is ready to take the new one. -/
theorem LevelsReady.filing (h : LevelsReady f w ((lo ++ node :: hi) :: above))
    (hpath : path[idx]? = some node.pageId) (hmin : BPlusTree.minKey separator newNode = .ok m)
    (hm : formati.Fits m) (hq : newNode.pageId < 4294967296) :
    Filing f w path idx node newNode separator m where
  idle := h.idle
  lengths := h.lengths
  path := hpath
  page := h.rep _ List.mem_cons_self node (by simp)
  ok := (h.nodes _ List.mem_cons_self node (by simp)).1
  room := (h.nodes _ List.mem_cons_self node (by simp)).2
  size := (h.ids node.pageId mem_here).2
  bound := by
    have := h.bound
    omega
  pointers := h.pointers _ List.mem_cons_self node (by simp)
  minKey := hmin
  fits := hm
  newId := hq

/-- The other nodes of the level and the levels above have other pages. -/
theorem LevelsReady.other (h : LevelsReady f w ((lo ++ node :: hi) :: above)) :
    (∀ n ∈ lo ++ hi, n.pageId ≠ node.pageId ∧ n.pageId ∉ allIds above) ∧
      node.pageId ∉ allIds above := by
  have hnodup : (idsOf (lo ++ node :: hi) ++ allIds above).Nodup := h.nodup
  obtain ⟨hlevel, -, hcross⟩ := List.nodup_append.mp hnodup
  simp only [idsOf, List.map_append, List.map_cons, List.nodup_append, List.nodup_cons] at hlevel
  obtain ⟨-, ⟨hhi, -⟩, hlo⟩ := hlevel
  have hmem : ∀ n ∈ lo ++ node :: hi, n.pageId ∉ allIds above := fun n hn habove =>
    hcross n.pageId (List.mem_map_of_mem hn) n.pageId habove rfl
  refine ⟨fun n hn => ⟨?_, hmem n ?_⟩, hmem node (by simp)⟩
  · rcases List.mem_append.mp hn with hn | hn
    · exact hlo n.pageId (List.mem_map_of_mem hn) node.pageId List.mem_cons_self
    · intro heq
      exact hhi (heq ▸ List.mem_map_of_mem hn)
  · rcases List.mem_append.mp hn with hn | hn
    · exact List.mem_append_left _ hn
    · exact List.mem_append_right _ (List.mem_cons_of_mem _ hn)

/-- After the split of a node the levels above are as they were. -/
theorem LevelsReady.afterSplit (h : LevelsReady f w ((lo ++ node :: hi) :: above))
    (hb₁ : b₁.length = pageSize) (hb₂ : b₂.length = pageSize) :
    LevelsReady f (((w.extend f).setMem (f, node.pageId) b₁).setMem (f, w.size f) b₂) above := by
  obtain ⟨-, hnode⟩ := h.other
  have hids : ∀ p ∈ allIds above, 0 < p ∧ p < w.size f := fun p hp =>
    h.ids p (List.mem_append_right _ hp)
  have hbound := h.bound
  rw [List.length_cons] at hbound
  refine ⟨⟨h.idle.here, h.idle.pins, h.idle.unsaved⟩, fun p => ?_,
    fun l hl => h.nodes l (List.mem_cons_of_mem _ hl), ?_,
    (List.nodup_append.mp (show (idsOf (lo ++ node :: hi) ++ allIds above).Nodup from h.nodup)).2.1,
    fun p hp => ⟨(hids p hp).1, by simpa using Nat.lt_succ_of_lt (hids p hp).2⟩,
    fun l hl => h.pointers l (List.mem_cons_of_mem _ hl), by simp, by simp; omega⟩
  · simp only [Flat.setMem_mem, Flat.extend_mem, Function.update_apply]
    split
    · exact hb₂
    · split
      · exact hb₁
      · exact h.lengths p
  · refine LevelsRep.congr (fun l hl => h.rep l (List.mem_cons_of_mem _ hl)) fun p hp => ?_
    have hne₁ : p ≠ node.pageId := fun heq => hnode (heq ▸ hp)
    have hne₂ : p ≠ w.size f := Nat.ne_of_lt (hids p hp).2
    simp [hne₁, hne₂]

/-- A level in which one node took the new one. -/
theorem raisedRep_room (h : LevelsReady f w ((lo ++ node :: hi) :: above)) {filed : InnerPage}
    (hid : filed.pageId = node.pageId) (hb : Holds b (.inner filed)) :
    RaisedRep f w ((lo ++ node :: hi) :: above) tree
      ⟨(lo ++ ([filed] ++ hi)) :: above, none, w.size f⟩ tree (w.setMem (f, node.pageId) b) := by
  obtain ⟨hother, hnode⟩ := h.other
  have hpos := (h.ids node.pageId mem_here).1
  have hsame : ∀ p, p ≠ node.pageId → (w.setMem (f, node.pageId) b).mem (f, p) = w.mem (f, p) :=
    fun p hp => Flat.setMem_mem_of_ne (fun heq => hp (Prod.mk.inj heq).2) b
  refine ⟨⟨h.idle.here, h.idle.pins, h.idle.unsaved⟩, rfl, rfl, fun l hl n hn => ?_,
    fun _ => hsame 0 (Nat.ne_of_lt hpos), by simp, fun p _ _ hp => hsame p ?_, fun p => ?_⟩
  · rcases List.mem_cons.mp hl with rfl | hl
    · have hcases : n = filed ∨ n ∈ lo ++ hi := by
        simp only [List.mem_append, List.mem_cons, List.not_mem_nil, or_false] at hn ⊢
        tauto
      rcases hcases with rfl | hn
      · simpa [hid] using hb
      · rw [hsame n.pageId (hother n hn).1]
        exact h.rep _ List.mem_cons_self n (by
          simp only [List.mem_append, List.mem_cons] at hn ⊢
          tauto)
    · rw [hsame n.pageId fun heq => hnode (heq ▸ mem_allIds hl hn)]
      exact h.rep l (List.mem_cons_of_mem _ hl) n hn
  · rintro rfl
    exact hp mem_here
  · by_cases hp : p = node.pageId
    · simpa [hp] using hb.length
    · rw [hsame p hp]
      exact h.lengths p

/-- A level in which one node was split, under levels that took the upper half. -/
theorem raisedRep_split (h : LevelsReady f w ((lo ++ node :: hi) :: above)) {lower upper : InnerPage}
    (hb₁ : Holds b₁ (.inner lower)) (hb₂ : Holds b₂ (.inner upper))
    (hlower : lower.pageId = node.pageId) (hupper : upper.pageId = w.size f) {r : BTree.Raised}
    (hr : RaisedRep f (((w.extend f).setMem (f, node.pageId) b₁).setMem (f, w.size f) b₂) above tree r
      tree' w') :
    RaisedRep f w ((lo ++ node :: hi) :: above) tree
      ⟨(lo ++ ([lower, upper] ++ hi)) :: r.levels, r.newRoot, r.next⟩ tree' w' := by
  obtain ⟨hother, hnode⟩ := h.other
  have hids := h.ids
  obtain ⟨hpos, hlt⟩ := hids node.pageId mem_here
  have hpos' := h.pos
  -- a page of the file that is not one of the levels above is as it was, but for the two halves
  have hsame : ∀ p, 0 < p → p < w.size f → p ≠ node.pageId → p ∉ allIds above →
      w'.mem (f, p) = w.mem (f, p) := fun p h0 hsize hne hnot => by
    rw [hr.same p h0 (by simpa using Nat.lt_succ_of_lt hsize) hnot]
    have hne' : p ≠ w.size f := Nat.ne_of_lt hsize
    simp [hne, hne']
  refine ⟨hr.idle, hr.size, hr.object, fun l hl n hn => ?_, fun hnone => ?_, hr.header,
    fun p h0 hsize hp => hsame p h0 hsize ?_ ?_, hr.lengths⟩
  · rcases List.mem_cons.mp hl with rfl | hl
    · have hcases : n = lower ∨ n = upper ∨ n ∈ lo ++ hi := by
        simp only [List.mem_append, List.mem_cons, List.not_mem_nil, or_false] at hn ⊢
        tauto
      rcases hcases with rfl | rfl | hn
      · rw [hlower, hr.same _ hpos (by simpa using Nat.lt_succ_of_lt hlt) hnode]
        simpa [Nat.ne_of_lt hlt] using hb₁
      · have hnew : w.size f ∉ allIds above := fun hmem =>
          Nat.lt_irrefl _ (hids _ (List.mem_append_right _ hmem)).2
        rw [hupper, hr.same _ hpos' (by simp) hnew]
        simpa using hb₂
      · have hmem : n ∈ lo ++ node :: hi := by
          simp only [List.mem_append, List.mem_cons] at hn ⊢
          tauto
        obtain ⟨h0, hsize⟩ := hids n.pageId (mem_allIds List.mem_cons_self hmem)
        rw [hsame n.pageId h0 hsize (hother n hn).1 (hother n hn).2]
        exact h.rep _ List.mem_cons_self n hmem
    · exact hr.rep l hl n hn
  · rw [hr.kept hnone]
    have hne' : 0 ≠ w.size f := Nat.ne_of_lt hpos'
    simp [Nat.ne_of_lt hpos, hne']
  · rintro rfl
    exact hp mem_here
  · exact fun hmem => hp (List.mem_append_right _ hmem)

variable (tree) in
/-- `_split_root`, as the levels see it. -/
theorem run_raiseRoot {p : Nat} {sep : Int} (h : LevelsReady f w []) (hsep : formati.Fits sep)
    (hp : p < 4294967296) (hq : q < 4294967296) :
    (¬ formatI.Fits tree.numKeys ∧
      ∃ tree' w', (BPlusTree.splitRoot f p q sep).run c tree w = (.error .structError, tree', w')) ∨
    ∃ tree' w', (BPlusTree.splitRoot f p q sep).run c tree w = (.ok (), tree', w') ∧
      RaisedRep f w [] tree
        ⟨[[BTree.rootOver (w.size f) p sep q]], some (w.size f), w.size f + 1⟩ tree' w' := by
  have hbound := h.bound
  have hpos := h.pos
  rcases run_splitRoot (c := c) tree h.idle h.lengths hpos (by simp at hbound; omega) hsep hp hq with
    herror | ⟨b, bh, hb, hlenh, hheader, hrun⟩
  · exact Or.inl herror
  · refine Or.inr ⟨_, _, hrun, ⟨h.idle.here, h.idle.pins, h.idle.unsaved⟩, by simp, rfl,
      fun l hl n hn => ?_, by simp, fun root hroot => ?_, fun p h0 hsize _ => ?_, fun p => ?_⟩
    · rw [List.mem_singleton.mp hl] at hn
      rw [List.mem_singleton.mp hn]
      simpa [BTree.rootOver, Nat.ne_of_gt hpos] using hb
    · obtain rfl := Option.some.inj hroot
      simpa using hheader
    · simp [Nat.ne_of_gt h0, Nat.ne_of_lt hsize]
    · simp only [Flat.setMem_mem, Flat.extend_mem, Function.update_apply]
      split
      · exact hlenh
      · split
        · exact hb.length
        · exact h.lengths p

/-- The key under which the upper half of an inner node is filed. -/
theorem minKey_upper {upper : InnerPage} (hne : upper.keys ≠ []) (splitKey : Int) :
    BPlusTree.minKey (some splitKey) (.inner upper) = .ok (BTree.filedKey splitKey upper) := by
  unfold BPlusTree.minKey BTree.filedKey
  by_cases hzero : splitKey = 0
  · cases hkeys : upper.keys with
    | nil => exact absurd hkeys hne
    | cons k ks => simp [hzero, BPlusTree.firstKey, BTreePage.keys, hkeys]
  · simp [hzero]

theorem updateParent_eq (f : FileId) (path : List Nat) (idx : Nat) (newNode : BTreePage)
    (separator : Option Int) : ∃ above, BPlusTree.updateParent f path idx newNode separator =
      BPlusTree.fileNode f path idx newNode separator above := by
  cases idx <;> exact ⟨_, rfl⟩

variable (tree tail) in
/-- `_update_parent` does to the pages what filing the new node does to the
levels, unless there is a new root and the number of keys does not fit the
header. -/
theorem run_updateParent (h : LevelsReady f w levels)
    (htrail : List.Forall₂ (fun level node => node ∈ level) levels trail) (hidx : idx + 1 = trail.length)
    (hpath : path = (trail.map InnerPage.pageId).reverse ++ tail)
    (hmin : BPlusTree.minKey separator newNode = .ok m) (hm : formati.Fits m)
    (hq : newNode.pageId < 4294967296) :
    (¬ formatI.Fits tree.numKeys ∧
      ∃ tree' w', (BPlusTree.updateParent f path idx newNode separator).run c tree w =
        (.error .structError, tree', w')) ∨
    ∃ tree' w', (BPlusTree.updateParent f path idx newNode separator).run c tree w =
        (.ok (), tree', w') ∧
      RaisedRep f w levels tree (BTree.raise levels trail m newNode.pageId (w.size f)) tree' w' := by
  induction htrail generalizing m w newNode separator idx tail with
  | nil => simp at hidx
  | @cons level node above rest hmem htrail ih =>
      obtain ⟨lo, hi, rfl⟩ := List.append_of_mem hmem
      have hidx' : idx = rest.length := by simpa using hidx
      have hsplitPath : path = (rest.map InnerPage.pageId).reverse ++ node.pageId :: tail := by
        rw [hpath]
        simp
      have hhere : path[idx]? = some node.pageId := by
        rw [hsplitPath, List.getElem?_append_right (by simp [hidx'])]
        simp [hidx']
      have hnodup := (List.nodup_append.mp
        (show (idsOf (lo ++ node :: hi) ++ allIds above).Nodup from h.nodup)).1
      have hfiling := h.filing hhere hmin hm hq
      have hfiled := nodeOk_filed hfiling.ok hm newNode.pageId
      have hlen := length_keys_filed (m := m) (q := newNode.pageId) hfiling.ok
      by_cases hroom : (node.filed m newNode.pageId).keys.length ≤ BTreePage.maxKeys
      · right
        obtain ⟨up, hup⟩ := updateParent_eq f path idx newNode separator
        obtain ⟨b, hb, hrun⟩ := run_fileNode_room (c := c) tree up hfiling hroom
        have hover : (node.filed m newNode.pageId).isOverflow = false := by
          simpa [InnerPage.isOverflow, hfiled.count] using hroom
        refine ⟨tree, _, by rw [hup, hrun], ?_⟩
        rw [raise_room above hover, replaceNode_eq hnodup]
        exact raisedRep_room h (filed_pageId node m newNode.pageId) hb
      · have hfull : (node.filed m newNode.pageId).keys.length = BTreePage.maxKeys + 1 := by
          have := hfiling.room
          omega
        have hover : (node.filed m newNode.pageId).isOverflow = true := by
          simpa [InnerPage.isOverflow, hfiled.count] using hroom
        have hne : (node.filed m newNode.pageId).keys ≠ [] := fun hnil => by simp [hnil] at hfull
        obtain ⟨hkeys, -, hlowerLen, -⟩ := halves hfiled hne (w.size f)
        obtain ⟨-, hupper, hmiddle⟩ := nodeOk_halves hfiled hne (w.size f)
        have hbound := h.bound
        rw [List.length_cons] at hbound
        cases htrail with
        | nil =>
            -- the node was the root
            obtain rfl : idx = 0 := hidx'
            obtain ⟨b₁, b₂, hb₁, hb₂, hrun⟩ := run_fileNode_split (c := c) tree
              (fun lower upper splitKey =>
                BPlusTree.splitRoot f lower.pageId upper.pageId splitKey) hfiling hfull
            have hready := h.afterSplit hb₁.length hb₂.length
            rcases run_raiseRoot (c := c) tree (p := node.pageId) (q := w.size f) hready hmiddle
              (Nat.lt_trans hfiling.size hfiling.bound) hfiling.bound with
              ⟨hcount, tree', w', herror⟩ | ⟨tree', w', hroot, hrep⟩
            · exact Or.inl ⟨hcount, tree', w', hrun.trans herror⟩
            · refine Or.inr ⟨tree', w', hrun.trans hroot, ?_⟩
              rw [raise_top [] hover, replaceNode_eq hnodup]
              simpa using raisedRep_split h hb₁ hb₂ rfl rfl hrep
        | @cons level' node' above' rest' hmem' htrail' =>
            obtain ⟨idx, rfl⟩ : ∃ n, idx = n + 1 := ⟨rest'.length, by simpa using hidx'⟩
            obtain ⟨b₁, b₂, hb₁, hb₂, hrun⟩ := run_fileNode_split (c := c) tree
              (fun _ upper splitKey =>
                BPlusTree.updateParent f path idx (.inner upper) (some splitKey)) hfiling hfull
            have hready := h.afterSplit hb₁.length hb₂.length
            have hupperNe : ((node.filed m newNode.pageId).upperHalf (w.size f)).keys ≠ [] := by
              intro hnil
              have htotal := congrArg List.length hkeys
              simp only [List.length_append, List.length_cons, hnil, List.length_nil, hfull, hlowerLen,
                BTreePage.maxKeys] at htotal
              omega
            have hrest := ih (node.pageId :: tail) hready (by simpa using hidx') hsplitPath
              (minKey_upper hupperNe (node.filed m newNode.pageId).middle)
              (fits_filedKey hmiddle hupper) hfiling.bound
            rcases hrest with ⟨hcount, tree', w', herror⟩ | ⟨tree', w', hok, hrep⟩
            · exact Or.inl ⟨hcount, tree', w', hrun.trans herror⟩
            · refine Or.inr ⟨tree', w', hrun.trans hok, ?_⟩
              have hsize : (((w.extend f).setMem (f, node.pageId) b₁).setMem (f, w.size f) b₂).size f =
                  w.size f + 1 := by simp
              rw [hsize] at hrep
              rw [raise_up _ node' hover rfl, replaceNode_eq hnodup]
              exact raisedRep_split h hb₁ hb₂ rfl rfl hrep

end

/-! ## Splitting a leaf -/

/-- The file after a leaf was split, before the new leaf is filed. -/
structure SplitRep (f : FileId) (w : Flat FileId Bytes) (t : BTree) (leaf : Leaf) (C₁ C₂ : List Leaf)
    (w' : Flat FileId Bytes) : Prop where
  idle : w'.Idle f
  size : w'.size f = t.next + 1
  lengths : ∀ p, (w'.mem (f, p)).length = pageSize
  same : ∀ p, p ∉ t.chain.map Leaf.pageId → p ≠ t.next → w'.mem (f, p) = w.mem (f, p)
  chain : ChainRep f w' (-1) (C₁ ++ leaf.lower :: leaf.upper t.next :: C₂) (-1)

section

variable {f : FileId} {w : Flat FileId Bytes} {t : BTree} {tree : BPlusTree} {leaf leaf' : Leaf}
  {C₁ C₂ : List Leaf} {key : Int} {rid : Rid} {path : List Nat}

/-- What a leaf that is split brings along. -/
structure Splitting (f : FileId) (w : Flat FileId Bytes) (t : BTree) (tree : BPlusTree)
    (leaf leaf' : Leaf) (C₁ C₂ : List Leaf) : Prop where
  shape : t.Shape
  rep : TreeRep f w t tree
  chain : t.chain = C₁ ++ leaf :: C₂
  id : leaf'.pageId = leaf.pageId
  ok : LeafOk leaf'
  full : leaf'.entries.length = BTreePage.maxKeys + 1

theorem Splitting.halves (h : Splitting f w t tree leaf leaf' C₁ C₂) :
    leaf'.lower.entries.length = 50 ∧ (leaf'.upper t.next).entries.length = 51 := by
  have hfull := h.full
  simp [Leaf.lower, Leaf.upper, hfull, BTreePage.maxKeys]

/-- The halves of the leaf can be written when the number of the new page can be
a link. -/
theorem Splitting.fits (h : Splitting f w t tree leaf leaf' C₁ C₂) (hnext : t.next < 2147483648) :
    PageFits (.leaf (leaf'.lower.node (lastId (-1) C₁) t.next)) ∧
      PageFits (.leaf ((leaf'.upper t.next).node leaf.pageId (firstId C₂ (-1)))) := by
  obtain ⟨hlower, hupper⟩ := h.halves
  obtain ⟨hprev, hlast⟩ := links_fit h.rep.format h.chain
  have hmax : BTreePage.maxKeys = 100 := rfl
  have hid := h.rep.format.leaves leaf (by simp [h.chain])
  constructor
  · refine leafFits (h.ok.of_sublist (List.take_sublist _ _)) (by omega) ?_ hprev
      (fits_formati_of_lt hnext)
    change leaf'.pageId < 4294967296
    rw [h.id]
    omega
  · refine leafFits (h.ok.of_sublist (List.drop_sublist _ _)) (by omega) ?_ (fits_formati_of_lt hid) hlast
    change t.next < 4294967296
    omega

/-- The leaf behind the new one is linked with it, when the number of the new
page can be a link. -/
theorem run_linkNext (hshape : t.Shape) (hrep : TreeRep f w t tree) (hat : t.chain = C₁ ++ leaf :: C₂)
    {newLeaf : LeafPage} (hlink : newLeaf.nextLeaf = firstId C₂ (-1)) (object : BPlusTree) :
    (¬ t.next < 2147483648 ∧ C₂ ≠ [] ∧
      ∃ w', (BPlusTree.linkNext f newLeaf t.next).run c object
        (((w.extend f).pin (f, leaf.pageId)).pin (f, t.next)) = (.error .structError, object, w')) ∨
    (t.next < 2147483648 ∨ C₂ = []) ∧
      ∃ w', w'.Idle f ∧ w'.size f = t.next + 1 ∧ (∀ p, (w'.mem (f, p)).length = pageSize) ∧
        (∀ p ∉ C₂.map Leaf.pageId, w'.mem (f, p) = w.mem (f, p)) ∧ ChainRep f w' t.next C₂ (-1) ∧
        (BPlusTree.linkNext f newLeaf t.next).run c object
            (((w.extend f).pin (f, leaf.pageId)).pin (f, t.next)) =
          (.ok (), object, (w'.pin (f, leaf.pageId)).pin (f, t.next)) := by
  have hidle := hrep.idle
  have hsize := hrep.size
  rw [BPlusTree.linkNext]
  cases C₂ with
  | nil =>
      refine Or.inr ⟨Or.inr rfl, w.extend f, ⟨hidle.here, hidle.pins, hidle.unsaved⟩, by simp [hsize],
        hrep.lengths, fun p _ => rfl, trivial, ?_⟩
      rw [if_neg (by rw [hlink]; change ¬ (0 : Int) < -1; decide), Prog.run_pure]
  | cons next rest =>
      have hmem : next ∈ t.chain := by simp [hat]
      obtain ⟨hpos, hlt⟩ := hshape.pages next.pageId
        (List.mem_append_left _ (List.mem_map_of_mem hmem))
      have hnextLeaf : newLeaf.nextLeaf = (next.pageId : Int) := hlink
      have hchain := hrep.chain
      rw [hat] at hchain
      obtain ⟨-, -, hnext, hrest⟩ := chainRep_at.mp hchain
      rw [if_pos (by rw [hnextLeaf]; omega), hnextLeaf, Int.toNat_natCast]
      have hbound := hrep.format.leaves next hmem
      have hlen := (hshape.leaves next hmem).2
      have hmax : BTreePage.maxKeys = 100 := rfl
      have hfetch := run_fetchNode (c := c) (σ := BPlusTree) (s := object) (p := next.pageId)
        (w := ((w.extend f).pin (f, leaf.pageId)).pin (f, t.next))
        (Bpm.fetchable hidle.here (by simp [Flat.Held, hidle.unsaved]) (by simp [hidle.pins])) hnext
      by_cases hsmall : t.next < 2147483648
      · have hfits := leafFits (hshape.leafOk hmem) hlen (by omega) (fits_formati_of_lt hsmall)
          (links_fit hrep.format (hat.trans (List.append_cons _ _ _))).2
        obtain ⟨b, hb, hsave⟩ := run_write_save (c := c) (s := object) (p := next.pageId)
          (w := ((w.extend f).pin (f, leaf.pageId)).pin (f, t.next)) hidle.here
          (by simp [hidle.unsaved]) (hrep.lengths _) (by simp [hsize]; omega) hfits rfl
        refine Or.inr ⟨Or.inl hsmall, (w.extend f).setMem (f, next.pageId) b,
          ⟨hidle.here, hidle.pins, hidle.unsaved⟩, by simp [hsize], fun p => ?_, fun p hp => ?_, ⟨?_, ?_⟩,
          Prog.run_step hfetch (Prog.run_step (Prog.run_ofExcept _ _ _) ?_)⟩
        · by_cases hp : p = next.pageId
          · simpa [hp] using hb.length
          · simpa [hp] using hrep.lengths p
        · have hne : p ≠ next.pageId := fun heq => hp (heq ▸ List.mem_cons_self)
          simp [hne]
        · simpa using hb
        · refine hrest.congr fun p hp => ?_
          have hnodup := hshape.nodup_chain
          rw [hat] at hnodup
          simp only [List.map_append, List.map_cons, List.nodup_append, List.nodup_cons] at hnodup
          have hne : p ≠ next.pageId := fun heq => hnodup.2.1.2.1 (heq ▸ hp)
          simp [hne]
        · exact hsave
      · obtain ⟨b, herror⟩ := serialize_leaf_error
          (next.node t.next (firstId rest (-1))) (b := w.mem (f, next.pageId))
          (by change next.pageId < 4294967296; omega)
          (by change next.entries.length < 65536; omega) (hrep.lengths _)
          (Or.inl fun hfit => hsmall (by have := (fits_formati.mp hfit).2; simpa [Leaf.node] using this))
        have hwrite : (BPlusTree.write f next.pageId (.leaf (next.node t.next (firstId rest (-1)))) :
            PageProg BPlusTree Unit).run c object
              ((((w.extend f).pin (f, leaf.pageId)).pin (f, t.next)).pin (f, next.pageId)) = _ :=
          Bpm.run_onFrame
            (w := (((w.extend f).pin (f, leaf.pageId)).pin (f, t.next)).pin (f, next.pageId)) hidle.here
            (Multiset.mem_cons_self _ _) herror
        exact Or.inl ⟨hsmall, List.cons_ne_nil _ _, _, Prog.run_step hfetch
          (Prog.run_step (Prog.run_ofExcept _ _ _) (Prog.run_bind_error hwrite))⟩

/-- The leaves of the chain after both halves were written. -/
theorem splitRep_of (h : Splitting f w t tree leaf leaf' C₁ C₂) {w' : Flat FileId Bytes} {b₁ b₂ : Bytes}
    (hidle : w'.Idle f) (hsize : w'.size f = t.next + 1) (hlen : ∀ p, (w'.mem (f, p)).length = pageSize)
    (hsame : ∀ p ∉ C₂.map Leaf.pageId, w'.mem (f, p) = w.mem (f, p))
    (hrest : ChainRep f w' t.next C₂ (-1))
    (hb₁ : Holds b₁ (.leaf (leaf'.lower.node (lastId (-1) C₁) t.next)))
    (hb₂ : Holds b₂ (.leaf ((leaf'.upper t.next).node leaf.pageId (firstId C₂ (-1))))) :
    SplitRep f w t leaf' C₁ C₂ ((w'.setMem (f, leaf.pageId) b₁).setMem (f, t.next) b₂) := by
  have hnodup := h.shape.nodup_chain
  have hpages : ∀ p ∈ t.chain.map Leaf.pageId, p < t.next := fun p hp =>
    (h.shape.pages p (List.mem_append_left _ hp)).2
  have hids : t.chain.map Leaf.pageId = C₁.map Leaf.pageId ++ leaf.pageId :: C₂.map Leaf.pageId := by
    simp [h.chain]
  have hchain := h.rep.chain
  rw [h.chain] at hchain
  obtain ⟨hfront, -, -⟩ := chainRep_at.mp hchain
  rw [hids] at hnodup hpages
  simp only [List.nodup_append, List.nodup_cons] at hnodup
  obtain ⟨-, ⟨hnot₂, -⟩, hcross⟩ := hnodup
  have hleaf : leaf.pageId ≠ t.next := Nat.ne_of_lt (hpages _ (by simp))
  refine ⟨⟨hidle.here, hidle.pins, hidle.unsaved⟩, by simpa using hsize, fun p => ?_,
    fun p hp hne => ?_, ?_⟩
  · simp only [Flat.setMem_mem, Function.update_apply]
    split
    · exact hb₂.length
    · split
      · exact hb₁.length
      · exact hlen p
  · rw [hids] at hp
    have hne' : p ≠ leaf.pageId := fun heq => hp (by simp [heq])
    rw [Flat.setMem_mem_of_ne (by simpa using hne), Flat.setMem_mem_of_ne (by simpa using hne')]
    exact hsame p fun hmem => hp (by simp [hmem])
  · refine chainRep_at.mpr ⟨?_, ?_, ?_, ?_⟩
    · have hlower : leaf'.lower.pageId = leaf.pageId := h.id
      rw [hlower]
      refine hfront.congr fun p hp => ?_
      have hne : p ≠ t.next := Nat.ne_of_lt (hpages p (by simp [hp]))
      have hne' : p ≠ leaf.pageId := hcross p hp leaf.pageId List.mem_cons_self
      rw [Flat.setMem_mem_of_ne (by simpa using hne), Flat.setMem_mem_of_ne (by simpa using hne')]
      exact hsame p fun hmem => hcross p hp p (List.mem_cons_of_mem _ hmem) rfl
    · have hlower : leaf'.lower.pageId = leaf.pageId := h.id
      rw [hlower]
      simpa [hleaf, firstId, Leaf.upper] using hb₁
    · have hupper : (leaf'.upper t.next).pageId = t.next := rfl
      have hlower : leaf'.lower.pageId = leaf.pageId := h.id
      rw [hupper, hlower]
      simpa using hb₂
    · refine hrest.congr fun p hp => ?_
      have hne : p ≠ t.next := Nat.ne_of_lt (hpages p (by simp [hp]))
      have hne' : p ≠ leaf.pageId := fun heq => hnot₂ (heq ▸ hp)
      rw [Flat.setMem_mem_of_ne (by simpa using hne), Flat.setMem_mem_of_ne (by simpa using hne')]

/-- `_split_leaf` up to the filing of the new leaf, unless the number of its page
cannot be a link. -/
theorem run_splitLeaf_start (h : Splitting f w t tree leaf leaf' C₁ C₂) (object : BPlusTree)
    (path : List Nat) :
    (¬ t.next < 2147483648 ∧
      ∃ tree' w', (BPlusTree.splitLeaf f leaf.pageId
          (leaf'.node (lastId (-1) C₁) (firstId C₂ (-1))) path).run c object
          (w.pin (f, leaf.pageId)) = (.error .structError, tree', w')) ∨
    t.next < 2147483648 ∧ ∃ w', SplitRep f w t leaf' C₁ C₂ w' ∧
      (BPlusTree.splitLeaf f leaf.pageId (leaf'.node (lastId (-1) C₁) (firstId C₂ (-1))) path).run
          c object (w.pin (f, leaf.pageId)) =
        (BPlusTree.fileLeaf f path (leaf'.lower.node (lastId (-1) C₁) t.next)
          ((leaf'.upper t.next).node leaf.pageId (firstId C₂ (-1)))).run c object w' := by
  have hidle := h.rep.idle
  have hsize := h.rep.size
  have hmem : leaf.pageId ∈ t.chain.map Leaf.pageId := by simp [h.chain]
  obtain ⟨-, hlt⟩ := h.shape.pages leaf.pageId (List.mem_append_left _ hmem)
  -- the new page is there and fetched
  have hstart : ∀ {r}, (do
        BPlusTree.linkNext f ((leaf'.upper t.next).node leaf.pageId (firstId C₂ (-1))) t.next
        BPlusTree.writeHalves f leaf.pageId t.next (.leaf (leaf'.lower.node (lastId (-1) C₁) t.next))
          (.leaf ((leaf'.upper t.next).node leaf.pageId (firstId C₂ (-1))))
        BPlusTree.fileLeaf f path (leaf'.lower.node (lastId (-1) C₁) t.next)
          ((leaf'.upper t.next).node leaf.pageId (firstId C₂ (-1))) :
          PageProg BPlusTree Unit).run c object
            (((w.extend f).pin (f, leaf.pageId)).pin (f, t.next)) = r →
      (BPlusTree.splitLeaf f leaf.pageId (leaf'.node (lastId (-1) C₁) (firstId C₂ (-1))) path).run
        c object (w.pin (f, leaf.pageId)) = r := fun hrest => by
    rw [BPlusTree.splitLeaf]
    refine Prog.run_step (Bpm.run_allocatePage (w := w.pin (f, leaf.pageId)) hidle.here) ?_
    refine Prog.run_step (Bpm.run_fetchPage (w := (w.extend f).pin (f, leaf.pageId))
      (Bpm.fetchable hidle.here (by simp [Flat.Held, hidle.unsaved]) (by simp [hidle.pins]))) ?_
    rw [Flat.pin_size, hsize, lowerHalf_node, upperHalf_node, h.id]
    exact hrest
  have hnewLeaf : ((leaf'.upper t.next).node leaf.pageId (firstId C₂ (-1))).nextLeaf = firstId C₂ (-1) := rfl
  rcases run_linkNext (c := c) h.shape h.rep h.chain hnewLeaf object with
    ⟨hbig, -, w', herror⟩ | ⟨hcases, w', hidle', hsize', hlen', hsame, hrest, hlink⟩
  · exact Or.inl ⟨hbig, object, w', hstart (Prog.run_bind_error herror)⟩
  · by_cases hsmall : t.next < 2147483648
    · right
      obtain ⟨hlower, hupper⟩ := h.fits hsmall
      obtain ⟨b₁, b₂, hb₁, hb₂, hhalves⟩ := run_writeHalves (c := c) (s := object) hidle' (Nat.ne_of_lt hlt) hlen'
        (by omega) (by omega) hlower hupper h.id rfl
      exact ⟨hsmall, _, splitRep_of h hidle' hsize' hlen' hsame hrest hb₁ hb₂,
        hstart (Prog.run_step hlink (Prog.run_step hhalves rfl))⟩
    · -- the leaf itself gets the new link
      have hlower := h.halves.1
      have hbound := h.rep.format.leaves leaf (by simp [h.chain])
      have hbad : ¬ formati.Fits (leaf'.lower.node (lastId (-1) C₁) t.next).nextLeaf := fun hfit =>
        hsmall (by simpa [Leaf.node] using (fits_formati.mp hfit).2)
      obtain ⟨b, herror⟩ := serialize_leaf_error (leaf'.lower.node (lastId (-1) C₁) t.next)
        (by change leaf'.pageId < 4294967296; rw [h.id]; omega)
        (by change leaf'.lower.entries.length < 65536; omega) (hlen' leaf.pageId) (Or.inr hbad)
      have hwrite : (BPlusTree.write f leaf.pageId (.leaf (leaf'.lower.node (lastId (-1) C₁) t.next)) :
          PageProg BPlusTree Unit).run c object ((w'.pin (f, leaf.pageId)).pin (f, t.next)) = _ :=
        Bpm.run_onFrame (w := (w'.pin (f, leaf.pageId)).pin (f, t.next)) hidle'.here (by simp) herror
      have hhalves : (BPlusTree.writeHalves f leaf.pageId t.next
          (.leaf (leaf'.lower.node (lastId (-1) C₁) t.next))
          (.leaf ((leaf'.upper t.next).node leaf.pageId (firstId C₂ (-1)))) : PageProg BPlusTree Unit).run
            c object ((w'.pin (f, leaf.pageId)).pin (f, t.next)) = _ := Prog.run_bind_error hwrite
      exact Or.inl ⟨hsmall, object, _, hstart (Prog.run_step hlink (Prog.run_bind_error hhalves))⟩

/-- The levels above a leaf that was split. -/
theorem levelsReady (h : Splitting f w t tree leaf leaf' C₁ C₂) (hsmall : t.next < 2147483648)
    {w' : Flat FileId Bytes} (hsplit : SplitRep f w t leaf' C₁ C₂ w') :
    LevelsReady f w' t.levels := by
  obtain ⟨-, hnodup, hcross⟩ := List.nodup_append.mp h.shape.nodup
  have hpages : ∀ p ∈ allIds t.levels, 0 < p ∧ p < t.next := fun p hp =>
    h.shape.pages p (List.mem_append_right _ hp)
  have hlevels := levels_le h.shape
  refine ⟨hsplit.idle, hsplit.lengths, h.shape.nodes, h.rep.levels.congr fun p hp => ?_, hnodup,
    fun p hp => ⟨(hpages p hp).1, by rw [hsplit.size]; exact Nat.lt_succ_of_lt (hpages p hp).2⟩,
    fun level hlevel node hnode p hp => ?_, by rw [hsplit.size]; exact Nat.succ_pos _, ?_⟩
  · exact hsplit.same p (fun hmem => hcross p hmem p hp rfl) (Nat.ne_of_lt (hpages p hp).2)
  · have hlt := (h.shape.pages p (BTree.pointer_mem h.shape.linked hlevel hnode hp)).2
    omega
  · rw [hsplit.size]
    omega

/-- The first key of the new leaf. -/
theorem firstKey_upper (h : Splitting f w t tree leaf leaf' C₁ C₂) :
    BPlusTree.firstKey (.leaf ((leaf'.upper t.next).node leaf.pageId (firstId C₂ (-1)))) =
      .ok ((leaf'.upper t.next).keys.headD 0) ∧ formati.Fits ((leaf'.upper t.next).keys.headD 0) := by
  have hlen : (leaf'.upper t.next).keys.length = 51 := by simpa [Leaf.keys] using h.halves.2
  have hok : LeafOk (leaf'.upper t.next) := h.ok.of_sublist (List.drop_sublist _ _)
  have hkeys : BTreePage.keys (.leaf ((leaf'.upper t.next).node leaf.pageId (firstId C₂ (-1)))) =
      (leaf'.upper t.next).keys := rfl
  rw [BPlusTree.firstKey, hkeys]
  cases hcase : (leaf'.upper t.next).keys with
  | nil => simp [hcase] at hlen
  | cons k ks => exact ⟨rfl, hok.keys k (by simp [hcase])⟩

/-- The new leaf is filed as `BTree.raised` says, unless there is a new root and
the number of keys does not fit the header. -/
theorem run_fileLeaf (h : Splitting f w t tree leaf leaf' C₁ C₂) (hsmall : t.next < 2147483648)
    {trail : List InnerPage} (hr : t.Reaches key leaf trail C₁ C₂) {w' : Flat FileId Bytes}
    (hsplit : SplitRep f w t leaf' C₁ C₂ w') (object : BPlusTree) :
    (¬ formatI.Fits object.numKeys ∧
      ∃ tree' v, (BPlusTree.fileLeaf f (pathOf trail leaf.pageId)
          (leaf'.lower.node (lastId (-1) C₁) t.next)
          ((leaf'.upper t.next).node leaf.pageId (firstId C₂ (-1)))).run c object w' =
        (.error .structError, tree', v)) ∨
    ∃ tree' v, (BPlusTree.fileLeaf f (pathOf trail leaf.pageId)
          (leaf'.lower.node (lastId (-1) C₁) t.next)
          ((leaf'.upper t.next).node leaf.pageId (firstId C₂ (-1)))).run c object w' =
        (.ok (), tree', v) ∧
      RaisedRep f w' t.levels object (t.raised leaf' trail) tree' v := by
  have hready := levelsReady h hsmall hsplit
  obtain ⟨hfirst, hfits⟩ := firstKey_upper h
  have hbound := h.rep.format.leaves leaf (by simp [h.chain])
  have htrail := hr.trail
  have hlower : (leaf'.lower.node (lastId (-1) C₁) t.next).pageId = leaf.pageId := h.id
  rw [BPlusTree.fileLeaf]
  cases trail with
  | nil =>
      -- the leaf was the root
      have hlevels : t.levels = [] := List.forall₂_nil_right_iff.mp htrail
      rw [hlevels] at hready ⊢
      rw [if_neg (by simp [pathOf]), hfirst, hlower]
      have hroot := run_raiseRoot (c := c) object (p := leaf.pageId) (q := t.next) hready hfits (by omega) (by omega)
      rw [hsplit.size] at hroot
      have hraised : t.raised leaf' [] = ⟨[[BTree.rootOver (t.next + 1) leaf.pageId
          ((leaf'.upper t.next).keys.headD 0) t.next]], some (t.next + 1), t.next + 1 + 1⟩ := by
        rw [BTree.raised, h.id]
      rw [hraised]
      rcases hroot with ⟨hcount, tree', v, herror⟩ | ⟨tree', v, hok, hrep⟩
      · exact Or.inl ⟨hcount, tree', v, Prog.run_step (Prog.run_ofExcept _ _ _) herror⟩
      · exact Or.inr ⟨tree', v, Prog.run_step (Prog.run_ofExcept _ _ _) hok, hrep⟩
  | cons node rest =>
      have hlen : (pathOf (node :: rest) leaf.pageId).length = rest.length + 2 := by simp [pathOf]
      rw [if_pos (by omega), hlen]
      have hparent := run_updateParent (c := c) object [leaf.pageId] hready htrail
        (show rest.length + 1 = _ from rfl) rfl
        (show BPlusTree.minKey none _ = _ from hfirst) hfits (show t.next < 4294967296 by omega)
      rw [hsplit.size] at hparent
      exact hparent

/-- The file has room for a split, and the header for one more key. -/
def BTree.CanGrow (t : BTree) : Prop := t.next < 2147483648 ∧ formatI.Fits (t.numKeys + 1)

instance (t : BTree) : Decidable t.CanGrow := inferInstanceAs (Decidable (_ ∧ _))

/-- The file after an insert that split its leaf. -/
theorem treeRep_split (h : Splitting f w t tree leaf leaf' C₁ C₂) (hsmall : t.next < 2147483648)
    {r : BTree.Raised} (hfew : r.next ≤ t.next + t.levels.length + 2) {w' v : Flat FileId Bytes}
    {tree' : BPlusTree} (hsplit : SplitRep f w t leaf' C₁ C₂ w')
    (hraised : RaisedRep f w' t.levels ⟨t.root, t.numKeys + 1⟩ r tree' v) :
    TreeRep f v
      { levels := r.levels
        chain := C₁ ++ leaf'.lower :: leaf'.upper t.next :: C₂
        root := r.newRoot.getD t.root
        next := r.next
        numKeys := t.numKeys + 1
        stored := if r.newRoot.isSome then t.numKeys + 1 else t.stored } tree' := by
  have hpages := h.shape.pages
  have hids : (C₁ ++ leaf'.lower :: leaf'.upper t.next :: C₂).map Leaf.pageId =
      C₁.map Leaf.pageId ++ leaf.pageId :: t.next :: C₂.map Leaf.pageId := by
    simp [Leaf.lower, Leaf.upper, h.id]
  have hold : ∀ p ∈ C₁.map Leaf.pageId ++ leaf.pageId :: t.next :: C₂.map Leaf.pageId,
      p = t.next ∨ p ∈ t.chain.map Leaf.pageId := fun p hp => by
    simp only [h.chain, List.map_append, List.map_cons, List.mem_append, List.mem_cons] at hp ⊢
    tauto
  have hcross := (List.nodup_append.mp h.shape.nodup).2.2
  have hpos := h.shape.next_pos
  refine ⟨hraised.idle, hraised.size, hraised.object, ?_, hraised.rep, ?_, hraised.lengths, ?_, ?_⟩
  · cases hroot : r.newRoot with
    | none =>
        have hzero : 0 ∉ t.chain.map Leaf.pageId := fun hmem =>
          Nat.lt_irrefl 0 (hpages 0 (List.mem_append_left _ hmem)).1
        rw [hraised.kept hroot, hsplit.same 0 hzero (Nat.ne_of_lt hpos)]
        simpa using h.rep.header
    | some root => simpa using hraised.header root hroot
  · refine hsplit.chain.congr fun p hp => ?_
    rw [hids] at hp
    rcases hold p hp with rfl | hp
    · exact hraised.same _ hpos (by rw [hsplit.size]; exact Nat.lt_succ_self _)
        fun hmem => Nat.lt_irrefl _ (hpages _ (List.mem_append_right _ hmem)).2
    · obtain ⟨h0, hlt⟩ := hpages p (List.mem_append_left _ hp)
      exact hraised.same p h0 (by rw [hsplit.size]; exact Nat.lt_succ_of_lt hlt)
        fun hmem => hcross p hp p hmem rfl
  · have hlevels := levels_le h.shape
    change r.next ≤ 4294967296
    omega
  · intro l hl
    have hmem : l.pageId ∈ C₁.map Leaf.pageId ++ leaf.pageId :: t.next :: C₂.map Leaf.pageId := by
      rw [← hids]
      exact List.mem_map_of_mem hl
    rcases hold _ hmem with heq | hmem
    · rw [heq]
      exact hsmall
    · obtain ⟨l', hl', heq⟩ := List.mem_map.mp hmem
      rw [← heq]
      exact h.rep.format.leaves l' hl'

/-- `insert` does what the operation of the tree does, unless the file or the
header has no room for it. -/
theorem run_insert (h : t.Shape) (hrep : TreeRep f w t tree) (hkey : formati.Fits key)
    (hrid : RidFits rid) :
    (¬ t.CanGrow ∧
      ∃ tree' w', (BPlusTree.insert f key rid).run c tree w = (.error .structError, tree', w')) ∨
    ∃ tree' w', (BPlusTree.insert f key rid).run c tree w = (.ok (), tree', w') ∧
      TreeRep f w' (t.insert key rid) tree' := by
  obtain ⟨leaf, trail, C₁, C₂, hr⟩ := h.reaches key
  have hmem : leaf ∈ t.chain := by simp [hr.chain]
  have hok := leafOk_insert (h.leafOk hmem) hkey hrid
  have hlen := length_entries_insert key rid (h.leafOk hmem)
  have hbound := hrep.format.leaves leaf hmem
  have hlt := (h.pages leaf.pageId (List.mem_append_left _ (List.mem_map_of_mem hmem))).2
  -- the entry is put into the leaf in memory
  have hstart : ∀ {r}, (if !((leaf.insert key rid).node (lastId (-1) C₁) (firstId C₂ (-1))).isOverflow then do
        BPlusTree.write f leaf.pageId
          (.leaf ((leaf.insert key rid).node (lastId (-1) C₁) (firstId C₂ (-1))))
        Bpm.unpinPage ((leaf.insert key rid).node (lastId (-1) C₁) (firstId C₂ (-1))).pageId f true
      else
        BPlusTree.splitLeaf f leaf.pageId
          ((leaf.insert key rid).node (lastId (-1) C₁) (firstId C₂ (-1))) (pathOf trail leaf.pageId) :
          PageProg BPlusTree Unit).run c ⟨t.root, t.numKeys + 1⟩ (w.pin (f, leaf.pageId)) = r →
      (BPlusTree.insert f key rid).run c tree w = r := fun hrest => by
    rw [BPlusTree.insert]
    refine Prog.run_step (run_findLeaf h hrep hr) ?_
    dsimp only
    rw [insert_node, hrep.tree]
    exact Prog.run_step (Prog.run_ofExcept _ _ _) (Prog.run_step (Prog.run_modify _ _ _) hrest)
  by_cases hroom : (leaf.insert key rid).entries.length ≤ BTreePage.maxKeys
  · right
    obtain ⟨hprev, hnext⟩ := links_fit hrep.format hr.chain
    have hfits := leafFits hok hroom (by rw [insert_pageId]; omega) hprev hnext
    obtain ⟨b, hb, hsave⟩ := run_write_save (c := c) (s := (⟨t.root, t.numKeys + 1⟩ : BPlusTree)) hrep.idle.here
      (by simp [hrep.idle.unsaved]) (hrep.lengths leaf.pageId) (by rw [hrep.size]; exact hlt) hfits rfl
    rw [BTree.insert_room h hr hroom]
    refine ⟨_, _, hstart ?_, hrep.withLeaf h hr.chain (insert_pageId leaf key rid) hb (t.numKeys + 1)⟩
    rw [isOverflow_node, if_pos (by simpa using hroom)]
    exact hsave
  · have hfull : (leaf.insert key rid).entries.length = BTreePage.maxKeys + 1 := by
      have := (h.leaves leaf hmem).2
      omega
    have hover : ¬ (!((leaf.insert key rid).node (lastId (-1) C₁) (firstId C₂ (-1))).isOverflow) = true := by
      rw [isOverflow_node]
      simp [hfull]
    have hsplitting : Splitting f w t tree leaf (leaf.insert key rid) C₁ C₂ :=
      ⟨h, hrep, hr.chain, rfl, hok, hfull⟩
    rw [if_neg hover] at hstart
    rw [BTree.insert_split h hr (by omega)]
    rcases run_splitLeaf_start (c := c) hsplitting ⟨t.root, t.numKeys + 1⟩ (pathOf trail leaf.pageId) with
      ⟨hbig, tree', w', herror⟩ | ⟨hsmall, w', hsplit, hrun⟩
    · exact Or.inl ⟨fun hgrow => hbig hgrow.1, tree', w', hstart herror⟩
    · rcases run_fileLeaf (c := c) hsplitting hsmall hr hsplit ⟨t.root, t.numKeys + 1⟩ with
        ⟨hcount, tree', v, herror⟩ | ⟨tree', v, hfiled, hraised⟩
      · exact Or.inl ⟨fun hgrow => hcount hgrow.2, tree', v, hstart (hrun.trans herror)⟩
      · have hfits := (firstKey_upper hsplitting).2
        have hfew := (BTree.raised_ok h hr (insert_pageId leaf key rid) hfits).few
        exact Or.inr ⟨tree', v, hstart (hrun.trans hfiled),
          treeRep_split hsplitting hsmall (by omega) hsplit hraised⟩

end

end DBEngine
