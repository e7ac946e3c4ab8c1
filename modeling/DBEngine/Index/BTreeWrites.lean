import DBEngine.Index.BTreeRep

/-!
# Writing the tree

`delete` and `insert` do to the pages what the operations of `BTree` do to the
tree.  They return unless a number does not fit its field any more: the pages of
a file whose leaves need a number from 2^31 on, and a count of keys that is
negative or takes more than 32 bits.
-/

set_option autoImplicit false

namespace DBEngine

open ByteBuffer Paged

variable {c : Store FileId Bytes PyErr (Flat FileId Bytes)} [Bpm.Serves c anyBlock]

/-! ## The header -/

section

variable {f : FileId} {w : Flat FileId Bytes} {b : Bytes} {root : Nat} {n : Int} {tree : BPlusTree}

theorem packHeader_of_fits (hlen : b.length = pageSize) (hroot : tree.rootPageId < 4294967296)
    (hn : formatI.Fits tree.numKeys) :
    ∃ b', tree.packHeader b = (.ok (), b') ∧ b'.length = pageSize ∧
      HeaderRep b' tree.rootPageId tree.numKeys := by
  rw [pageSize_eq] at hlen ⊢
  have hfits : formatI.Fits (tree.rootPageId : Int) := fits_formatI.mpr ⟨by omega, by omega⟩
  have h₀ : packInto formatI 0 tree.rootPageId b =
      (.ok (), ([] ++ formatI.encode tree.rootPageId) ++ b.drop 4) :=
    packInto_over (p := []) (b := b) (e := 4) rfl rfl (by omega) hfits
  have h₁ : packInto formatI 4 tree.numKeys (([] ++ formatI.encode tree.rootPageId) ++ b.drop 4) =
      (.ok (), (([] ++ formatI.encode tree.rootPageId) ++ formatI.encode tree.numKeys) ++ b.drop 8) :=
    packInto_over (b := b) (e := 8) (by simp) rfl (by omega) hn
  have hpack : tree.packHeader b = (.ok (),
      formatI.encode tree.rootPageId ++ (formatI.encode tree.numKeys ++ b.drop 8)) := by
    rw [BPlusTree.packHeader, Buf.bind_ok h₀, h₁, List.nil_append, List.append_assoc]
  obtain ⟨hnonneg, hlt⟩ := fits_formatI.mp hn
  obtain ⟨m, hm⟩ := Int.eq_ofNat_of_zero_le hnonneg
  rw [hm] at hlt hpack
  refine ⟨_, hpack, ?_, ?_, m, ?_, hm⟩
  · simp only [List.length_append, Format.length_encode, List.length_drop, formatI_width]
    omega
  · exact unpackI_at (p := []) rfl rfl hroot
  · exact unpackI_at (p := formatI.encode tree.rootPageId) (Format.length_encode _ _) rfl
      (by omega)

theorem packHeader_error (hlen : b.length = pageSize) (hroot : tree.rootPageId < 4294967296)
    (hn : ¬ formatI.Fits tree.numKeys) : ∃ b', tree.packHeader b = (.error .structError, b') := by
  rw [pageSize_eq] at hlen
  obtain ⟨root, n⟩ := tree
  have hfits : formatI.Fits (root : Int) := fits_formatI.mpr ⟨by omega, by simpa using hroot⟩
  have h₀ : packInto formatI 0 root b = (.ok (), ([] ++ formatI.encode root) ++ b.drop 4) :=
    packInto_over (p := []) (b := b) (e := 4) rfl rfl (by omega) hfits
  have h₁ : packInto formatI 4 n (([] ++ formatI.encode root) ++ b.drop 4) =
      (.error .structError, ([] ++ formatI.encode root) ++ b.drop 4) := by
    rw [packInto, Buf.pack_append (by simp) (by rw [List.length_drop, formatI_width]; omega), if_neg hn]
  exact ⟨_, by rw [BPlusTree.packHeader, Buf.bind_ok h₀, h₁]⟩

/-- What `_write_metadata` needs of the file. -/
structure HeaderReady (f : FileId) (w : Flat FileId Bytes) : Prop where
  fetchable : w.Fetchable (Bpm.clientLimits anyBlock) (f, 0)
  clean : (f, 0) ∉ w.unsaved
  length : (w.mem (f, 0)).length = pageSize
  size : 0 < w.size f

variable (tree) in
/-- `_write_metadata` writes the fields of the tree object into the header. -/
theorem run_writeMetadata (hw : HeaderReady f w) (hroot : tree.rootPageId < 4294967296)
    (hn : formatI.Fits tree.numKeys) :
    ∃ b, b.length = pageSize ∧ HeaderRep b tree.rootPageId tree.numKeys ∧
      (BPlusTree.writeMetadata f).run c tree w = (.ok (), tree, w.setMem (f, 0) b) := by
  obtain ⟨b, hpack, hlen, hheader⟩ := packHeader_of_fits hw.length hroot hn
  refine ⟨b, hlen, hheader, ?_⟩
  rw [BPlusTree.writeMetadata]
  refine Prog.run_step (Prog.run_read _ _) (Prog.run_step (Bpm.run_fetchPage hw.fetchable) ?_)
  refine Prog.run_step (Bpm.run_onFrame (w := w.pin (f, 0)) hw.fetchable.here (by simp) hpack) ?_
  rw [run_save (w := (w.pin (f, 0)).change (f, 0) b) (by simpa using hw.fetchable.here) (by simp)
    (by simpa using hlen) (by simpa using hw.size), Flat.release_change_pin hw.clean]

variable (tree) in
theorem run_writeMetadata_error (hw : HeaderReady f w) (hroot : tree.rootPageId < 4294967296)
    (hn : ¬ formatI.Fits tree.numKeys) :
    ∃ w', (BPlusTree.writeMetadata f).run c tree w = (.error .structError, tree, w') := by
  obtain ⟨b, hpack⟩ := packHeader_error hw.length hroot hn
  refine ⟨(w.pin (f, 0)).change (f, 0) b, ?_⟩
  rw [BPlusTree.writeMetadata]
  refine Prog.run_step (Prog.run_read _ _) (Prog.run_step (Bpm.run_fetchPage hw.fetchable) ?_)
  exact Prog.run_bind_error (Bpm.run_onFrame (w := w.pin (f, 0)) hw.fetchable.here (by simp) hpack)

end

/-! ## A new tree, and one opened again -/

section

variable {f : FileId} {w : Flat FileId Bytes} {t : BTree} {tree : BPlusTree}

variable (tree) in
/-- A new tree in a file without pages. -/
theorem run_create (hidle : w.Idle f) (hsize : w.size f = 0)
    (hlen : ∀ p, (w.mem (f, p)).length = pageSize) :
    ∃ w', (BPlusTree.create f).run c tree w = (.ok (), ⟨1, 0⟩, w') ∧
      TreeRep f w' BTree.empty ⟨1, 0⟩ := by
  have hready : HeaderReady f (w.extend f) :=
    ⟨Bpm.fetchable hidle.here (by simp [Flat.Held, hidle.unsaved]) (by simp [hidle.pins]),
      by simp [hidle.unsaved], hlen 0, by simp⟩
  obtain ⟨bh, hlenh, hheader, hmeta⟩ := run_writeMetadata (c := c) ⟨1, 0⟩ hready
    (show 1 < 4294967296 by decide) (by decide)
  have hleaf : LeafOk ⟨1, []⟩ := ⟨List.Pairwise.nil, by simp [Leaf.keys], by simp⟩
  have hfits : PageFits (.leaf (LeafPage.new 1)) :=
    leafFits hleaf (Nat.zero_le _) (show 1 < 4294967296 by decide) (by decide) (by decide)
  obtain ⟨b, hb, hsave⟩ := run_write_save (c := c) (s := (⟨1, 0⟩ : BPlusTree))
    (w := ((w.extend f).setMem (f, 0) bh).extend f) (p := 1) hidle.here (by simp [hidle.unsaved])
    (by simpa using hlen 1) (by simp) hfits rfl
  refine ⟨(((w.extend f).setMem (f, 0) bh).extend f).setMem (f, 1) b, ?_,
    ⟨hidle.here, hidle.pins, hidle.unsaved⟩, by simp [hsize, BTree.empty], rfl,
    by simpa [BTree.empty] using hheader, by simp [LevelsRep, BTree.empty],
    ⟨?_, trivial⟩, fun p => ?_, by simp [BTree.empty], by simp [BTree.empty]⟩
  · rw [BPlusTree.create]
    refine Prog.run_step (Bpm.run_allocatePage hidle.here) (Prog.run_step (Prog.run_modify _ _ _) ?_)
    refine Prog.run_step hmeta ?_
    refine Prog.run_step (Bpm.run_allocatePage (w := (w.extend f).setMem (f, 0) bh) hidle.here) ?_
    have hnew : ((w.extend f).setMem (f, 0) bh).size f = 1 := by simp [hsize]
    rw [hnew]
    refine Prog.run_step (Bpm.run_fetchPage (Bpm.fetchable hidle.here
      (by simp [Flat.Held, hidle.unsaved]) (by simp [hidle.pins]))) ?_
    exact hsave
  · have hpage : ((((w.extend f).setMem (f, 0) bh).extend f).setMem (f, 1) b).mem (f, 1) = b :=
      Flat.setMem_mem_self _ _ b
    rw [hpage]
    exact hb
  · simp only [Flat.setMem_mem, Flat.extend_mem, Function.update_apply]
    split
    · exact hb.length
    · split
      · exact hlenh
      · exact hlen p

/-- Opening a tree reads its root and the number of keys from the header. -/
theorem run_openIndex (hrep : TreeRep f w t tree) (object : BPlusTree) :
    (BPlusTree.openIndex f).run c object w = (.ok (), ⟨t.root, t.stored⟩, w) := by
  obtain ⟨hroot, n, hcount, hn⟩ := hrep.header
  rw [BPlusTree.openIndex, BPlusTree.readMetadata]
  refine Prog.run_step (Bpm.run_fetchPage (Bpm.fetchable hrep.idle.here
    (by simp [Flat.Held, hrep.idle.unsaved]) (by simp [hrep.idle.pins]))) ?_
  refine Prog.run_step (Bpm.run_reading hroot) (Prog.run_step (Bpm.run_reading hcount) ?_)
  refine Prog.run_step (Prog.run_modify _ _ _) ?_
  rw [run_releaseLeaf hrep.idle, hn]

/-- A tree opened again has the number of keys that the header has. -/
theorem TreeRep.reopened (hrep : TreeRep f w t tree) :
    TreeRep f w { t with numKeys := t.stored } ⟨t.root, t.stored⟩ :=
  ⟨hrep.idle, hrep.size, rfl, hrep.header, hrep.levels, hrep.chain, hrep.lengths,
    ⟨hrep.format.next, hrep.format.leaves⟩⟩

theorem BTree.Shape.reopened (h : t.Shape) : ({ t with numKeys := t.stored } : BTree).Shape :=
  ⟨h.linked, h.nodes, h.leaves, h.nodup, h.pages⟩

end

/-! ## One leaf changed -/

section

variable {f : FileId} {w : Flat FileId Bytes} {t : BTree} {tree : BPlusTree} {leaf leaf' : Leaf}
  {C₁ C₂ : List Leaf} {b : Bytes} {n : Int}

/-- The file after a leaf was written in its place. -/
theorem TreeRep.withLeaf (hrep : TreeRep f w t tree) (h : t.Shape) (hchain : t.chain = C₁ ++ leaf :: C₂)
    (hid : leaf'.pageId = leaf.pageId)
    (hb : Holds b (.leaf (leaf'.node (lastId (-1) C₁) (firstId C₂ (-1))))) (numKeys : Int) :
    TreeRep f (w.setMem (f, leaf.pageId) b)
      { t with chain := C₁ ++ leaf' :: C₂, numKeys := numKeys } ⟨t.root, numKeys⟩ := by
  obtain ⟨hchainNodup, -, hcross⟩ := List.nodup_append.mp h.nodup
  have hmem : leaf.pageId ∈ t.chain.map Leaf.pageId := by simp [hchain]
  have hpos := (h.pages leaf.pageId (List.mem_append_left _ hmem)).1
  have hrepChain := hrep.chain
  rw [hchain] at hrepChain hchainNodup
  obtain ⟨h₁, -, h₂⟩ := chainRep_at.mp hrepChain
  simp only [List.map_append, List.map_cons, List.nodup_append, List.nodup_cons] at hchainNodup
  obtain ⟨-, ⟨hnot₂, -⟩, hnot₁⟩ := hchainNodup
  refine ⟨⟨hrep.idle.here, hrep.idle.pins, hrep.idle.unsaved⟩, hrep.size, rfl, ?_, ?_, ?_, fun p => ?_,
    ⟨hrep.format.next, fun l hl => ?_⟩⟩
  · simpa [Nat.ne_of_lt hpos] using hrep.header
  · refine hrep.levels.congr fun p hp => Flat.setMem_mem_of_ne ?_ b
    intro heq
    exact hcross leaf.pageId hmem p hp (Prod.mk.inj heq).2.symm
  · refine chainRep_at.mpr ⟨?_, by simpa [hid] using hb, ?_⟩
    · rw [hid]
      refine h₁.congr fun p hp => Flat.setMem_mem_of_ne ?_ b
      intro heq
      exact hnot₁ p hp leaf.pageId List.mem_cons_self (Prod.mk.inj heq).2
    · rw [hid]
      refine h₂.congr fun p hp => Flat.setMem_mem_of_ne ?_ b
      intro heq
      exact hnot₂ ((Prod.mk.inj heq).2 ▸ hp)
  · by_cases hp : p = leaf.pageId
    · simpa [hp] using hb.length
    · simpa [hp] using hrep.lengths p
  · rcases List.mem_append.mp hl with hl | hl
    · exact hrep.format.leaves l (by simp [hchain, hl])
    · rcases List.mem_cons.mp hl with rfl | hl
      · rw [hid]
        exact hrep.format.leaves leaf (by simp [hchain])
      · exact hrep.format.leaves l (by simp [hchain, hl])

/-- The file after its header was written. -/
theorem TreeRep.withHeader (hrep : TreeRep f w t tree) (h : t.Shape) (hlen : b.length = pageSize)
    (hb : HeaderRep b t.root n) : TreeRep f (w.setMem (f, 0) b) { t with stored := n } tree := by
  have hne : ∀ p ∈ t.chain.map Leaf.pageId ++ allIds t.levels, (f, p) ≠ (f, 0) := fun p hp heq =>
    Nat.ne_of_gt (h.pages p hp).1 (Prod.mk.inj heq).2
  refine ⟨⟨hrep.idle.here, hrep.idle.pins, hrep.idle.unsaved⟩, hrep.size, hrep.tree, ?_, ?_, ?_,
    fun p => ?_, ⟨hrep.format.next, hrep.format.leaves⟩⟩
  · simpa using hb
  · exact hrep.levels.congr fun p hp => Flat.setMem_mem_of_ne (hne p (List.mem_append_right _ hp)) b
  · exact hrep.chain.congr fun p hp => Flat.setMem_mem_of_ne (hne p (List.mem_append_left _ hp)) b
  · by_cases hp : p = 0
    · simpa [hp] using hlen
    · simpa [hp] using hrep.lengths p

end

/-! ## Deleting -/

section

variable {f : FileId} {w : Flat FileId Bytes} {t : BTree} {tree : BPlusTree} {leaf leaf' : Leaf}
  {key prev : Int} {rid : Rid} {fuel : Nat} {rest C₁ C₂ : List Leaf}

/-- The end of a `delete` that found its entry. -/
def removed (f : FileId) (p : Nat) (leaf : LeafPage) : PageProg BPlusTree Bool := do
  BPlusTree.write f p (.leaf leaf)
  Prog.modify fun tree => { tree with numKeys := tree.numKeys - 1 }
  BPlusTree.writeMetadata f
  Bpm.unpinPage leaf.pageId f true
  pure true

omit [Bpm.Serves c anyBlock] in
/-- A leaf that has the entry. -/
theorem run_deleteFrom_here {node node' : LeafPage} {p : Nat}
    (hremove : node.removeKey key rid = .ok (some node')) :
    (BPlusTree.deleteFrom f key rid fuel p node).run c tree w =
      (removed f p node').run c tree w := by
  rw [BPlusTree.deleteFrom.eq_def]
  dsimp only
  rw [hremove]
  exact Prog.run_step (Prog.run_ofExcept _ _ _) rfl

/-- A leaf that has not ends the walk, or hands it on to the next one. -/
theorem run_deleteFrom_none (hidle : w.Idle f) (hok : LeafOk leaf) (hmem : (key, rid) ∉ leaf.entries)
    {next : Int} (hend : leaf.passed key = true ∨ (leaf.node prev next).nextLeaf ≤ 0) :
    (BPlusTree.deleteFrom f key rid fuel leaf.pageId (leaf.node prev next)).run c tree
      (w.pin (f, leaf.pageId)) = (.ok false, tree, w) := by
  rw [BPlusTree.deleteFrom.eq_def]
  dsimp only
  rw [removeKey_node hok, if_neg hmem]
  refine Prog.run_step (Prog.run_ofExcept _ _ _) (Prog.run_step (run_releaseLeaf hidle _) ?_)
  rw [passed_node, if_pos hend, Prog.run_pure]

theorem run_deleteFrom_next (h : Walkable f w prev (leaf :: leaf' :: rest))
    (hmem : (key, rid) ∉ leaf.entries) (hgo : ¬ leaf.passed key = true) :
    (BPlusTree.deleteFrom f key rid (fuel + 1) leaf.pageId
        (leaf.node prev (firstId (leaf' :: rest) (-1)))).run c tree (w.pin (f, leaf.pageId)) =
      (BPlusTree.deleteFrom f key rid fuel leaf'.pageId
        (leaf'.node leaf.pageId (firstId rest (-1)))).run c tree (w.pin (f, leaf'.pageId)) := by
  rw [BPlusTree.deleteFrom.eq_def]
  dsimp only
  rw [removeKey_node (h.ok leaf (by simp)).1, if_neg hmem]
  refine Prog.run_step (Prog.run_ofExcept _ _ _) (Prog.run_step (run_releaseLeaf h.idle _) ?_)
  rw [passed_node, if_neg (not_or.mpr ⟨hgo, h.next_pos⟩)]
  exact run_nextLeaf h.tail rfl

variable (tree key rid) in
/-- The walk of `delete` finds no entry and changes nothing, or ends in the leaf
that has it. -/
theorem run_deleteFrom (h : Walkable f w prev (leaf :: rest)) (hfuel : rest.length ≤ fuel) :
    (BTree.deleteIn key rid (leaf :: rest) = none ∧
      (BPlusTree.deleteFrom f key rid fuel leaf.pageId (leaf.node prev (firstId rest (-1)))).run
        c tree (w.pin (f, leaf.pageId)) = (.ok false, tree, w)) ∨
    ∃ C₁ l C₂, leaf :: rest = C₁ ++ l :: C₂ ∧
      BTree.deleteIn key rid (leaf :: rest) = some (l.erase key rid) ∧
      (BPlusTree.deleteFrom f key rid fuel leaf.pageId (leaf.node prev (firstId rest (-1)))).run
        c tree (w.pin (f, leaf.pageId)) =
      (removed f l.pageId ((l.erase key rid).node (lastId prev C₁) (firstId C₂ (-1)))).run
        c tree (w.pin (f, l.pageId)) := by
  induction rest generalizing fuel leaf prev with
  | nil =>
      have hok := (h.ok leaf (by simp)).1
      by_cases hmem : (key, rid) ∈ leaf.entries
      · exact Or.inr ⟨[], leaf, [], rfl, by rw [BTree.deleteIn, if_pos hmem],
          run_deleteFrom_here (by rw [removeKey_node hok, if_pos hmem]; rfl)⟩
      · exact Or.inl ⟨by simp [BTree.deleteIn, hmem],
          run_deleteFrom_none h.idle hok hmem (Or.inr (nextLeaf_last leaf prev))⟩
  | cons next rest ih =>
      have hok := (h.ok leaf (by simp)).1
      by_cases hmem : (key, rid) ∈ leaf.entries
      · exact Or.inr ⟨[], leaf, next :: rest, rfl, by rw [BTree.deleteIn, if_pos hmem],
          run_deleteFrom_here (by rw [removeKey_node hok, if_pos hmem]; rfl)⟩
      · by_cases hpassed : leaf.passed key = true
        · exact Or.inl ⟨by rw [BTree.deleteIn, if_neg hmem, if_pos hpassed],
            run_deleteFrom_none h.idle hok hmem (Or.inl hpassed)⟩
        · obtain ⟨fuel, rfl⟩ : ∃ n, fuel = n + 1 := ⟨fuel - 1, by simp at hfuel; omega⟩
          have hin : BTree.deleteIn key rid (leaf :: next :: rest) =
              BTree.deleteIn key rid (next :: rest) := by
            rw [BTree.deleteIn, if_neg hmem, if_neg hpassed]
          rw [run_deleteFrom_next h hmem hpassed, hin]
          rcases ih h.tail (by simpa using hfuel) with hnone | ⟨C₁, l, C₂, hsplit, hsome, hrun⟩
          · exact Or.inl hnone
          · refine Or.inr ⟨leaf :: C₁, l, C₂, by rw [hsplit]; rfl, hsome, ?_⟩
            rw [hrun, lastId_cons]

/-- A page that is pinned and may have been changed, and nothing else. -/
theorem headerReady (hrep : TreeRep f w t tree) (h : t.Shape) {p : Nat} (hp : 0 < p) (b : Bytes) :
    HeaderReady f ((w.pin (f, p)).change (f, p) b) := by
  have hunsaved : ((w.pin (f, p)).change (f, p) b).unsaved ⊆ {(f, p)} := by
    simpa [hrep.idle.unsaved] using Flat.change_unsaved_subset (w.pin (f, p)) (f, p) b
  refine ⟨Bpm.fetchable (by simpa using hrep.idle.here) (fun k hk => ?_) (by simp [hrep.idle.pins]),
    fun hmem => ?_, ?_, ?_⟩
  · rw [Finset.mem_singleton.mp (hunsaved hk)]
    simp
  · exact Nat.ne_of_lt hp (Prod.mk.inj (Finset.mem_singleton.mp (hunsaved hmem))).2
  · simpa [Nat.ne_of_lt hp] using hrep.lengths 0
  · simpa [hrep.size] using h.next_pos

/-- The links of a leaf fit their fields. -/
theorem links_fit (hformat : t.InFormat) (hchain : t.chain = C₁ ++ leaf :: C₂) :
    formati.Fits (lastId (-1) C₁) ∧ formati.Fits (firstId C₂ (-1)) := by
  constructor
  · rcases lastId_cases (-1) C₁ with hend | ⟨l, hl, hid⟩
    · rw [hend]
      decide
    · rw [hid]
      exact fits_formati_of_lt (hformat.leaves l (by simp [hchain, hl]))
  · rcases firstId_cases C₂ (-1) with hend | ⟨l, hl, hid⟩
    · rw [hend]
      decide
    · rw [hid]
      exact fits_formati_of_lt (hformat.leaves l (by simp [hchain, hl]))

/-- The end of a `delete`: the leaf and the header are written, unless the number
of keys does not fit the header. -/
theorem run_removed (h : t.Shape) (hrep : TreeRep f w t tree) (hchain : t.chain = C₁ ++ leaf :: C₂)
    (hok : LeafOk leaf') (hlen : leaf'.entries.length ≤ BTreePage.maxKeys)
    (hid : leaf'.pageId = leaf.pageId) :
    (¬ formatI.Fits (t.numKeys - 1) ∧
      ∃ tree' w', (removed f leaf.pageId (leaf'.node (lastId (-1) C₁) (firstId C₂ (-1)))).run c
        tree (w.pin (f, leaf.pageId)) = (.error .structError, tree', w')) ∨
    ∃ tree' w', (removed f leaf.pageId (leaf'.node (lastId (-1) C₁) (firstId C₂ (-1)))).run c
        tree (w.pin (f, leaf.pageId)) = (.ok true, tree', w') ∧
      TreeRep f w' { t with
        chain := C₁ ++ leaf' :: C₂
        numKeys := t.numKeys - 1
        stored := t.numKeys - 1 } tree' := by
  have hmem : leaf ∈ t.chain := by simp [hchain]
  obtain ⟨hpos, hlt⟩ := h.pages leaf.pageId (List.mem_append_left _ (List.mem_map_of_mem hmem))
  have hsmall := hrep.format.leaves leaf hmem
  obtain ⟨hprev, hnext⟩ := links_fit hrep.format hchain
  have hfits := leafFits hok hlen (by omega) hprev hnext
  have hclean : (f, leaf.pageId) ∉ w.unsaved := by simp [hrep.idle.unsaved]
  obtain ⟨b, hb, hwrite⟩ := run_write (c := c) (s := tree) (p := leaf.pageId)
    (w := w.pin (f, leaf.pageId)) hrep.idle.here (by simp) (hrep.lengths _) hfits
  have hready := headerReady hrep h hpos b
  have hroot : t.root < 4294967296 := Nat.lt_of_lt_of_le h.root_lt hrep.format.next
  by_cases hcount : formatI.Fits (t.numKeys - 1)
  · right
    obtain ⟨bh, hlenh, hheader, hmeta⟩ := run_writeMetadata (c := c) ⟨t.root, t.numKeys - 1⟩ hready
      hroot hcount
    refine ⟨_, _, ?_, ((hrep.withHeader h hlenh hheader).withLeaf (h.withStored _) hchain hid hb
      (t.numKeys - 1))⟩
    rw [removed]
    refine Prog.run_step hwrite (Prog.run_step (Prog.run_modify _ _ _) ?_)
    rw [hrep.tree]
    refine Prog.run_step hmeta ?_
    have hne : (f, 0) ≠ (f, leaf.pageId) := fun heq => Nat.ne_of_lt hpos (Prod.mk.inj heq).2
    rw [Flat.setMem_change_comm hne, Flat.setMem_pin]
    have hsave := run_save (c := c) (s := (⟨t.root, t.numKeys - 1⟩ : BPlusTree)) (p := leaf.pageId)
      (w := ((w.setMem (f, 0) bh).pin (f, leaf.pageId)).change (f, leaf.pageId) b)
      (by simpa using hrep.idle.here) (by simp) (by simpa using hb.length)
      (by simpa [hrep.size] using hlt)
    refine Prog.run_step (a := ()) (by simpa [Leaf.node, hid] using hsave) ?_
    rw [Flat.release_change_pin (by simpa using hclean), Prog.run_pure]
  · left
    obtain ⟨w', hmeta⟩ := run_writeMetadata_error (c := c) ⟨t.root, t.numKeys - 1⟩ hready hroot hcount
    refine ⟨hcount, ⟨t.root, t.numKeys - 1⟩, w', ?_⟩
    rw [removed]
    refine Prog.run_step hwrite (Prog.run_step (Prog.run_modify _ _ _) ?_)
    rw [hrep.tree]
    exact Prog.run_bind_error hmeta

/-- `delete` does what the operation of the tree does, unless the number of keys
does not fit the header. -/
theorem run_delete (h : t.Shape) (hrep : TreeRep f w t tree) (key : Int) (rid : Rid) :
    (¬ formatI.Fits (t.numKeys - 1) ∧ (t.delete key rid).1 = true ∧
      ∃ tree' w', (BPlusTree.delete f key rid).run c tree w = (.error .structError, tree', w')) ∨
    ∃ tree' w', (BPlusTree.delete f key rid).run c tree w =
        (.ok (t.delete key rid).1, tree', w') ∧ TreeRep f w' (t.delete key rid).2 tree' := by
  obtain ⟨first, trail, C₁, C₂, hr⟩ := h.reaches key
  have hwalk := h.chainFrom_eq hr.chain
  have hfind : (BPlusTree.delete f key rid).run c tree w =
      (BPlusTree.deleteFrom f key rid BPlusTree.walkLimit first.pageId
        (first.node (lastId (-1) C₁) (firstId C₂ (-1)))).run c tree (w.pin (f, first.pageId)) := by
    rw [BPlusTree.delete]
    exact Prog.run_step (run_findLeaf h hrep hr) rfl
  rw [hfind]
  rcases run_deleteFrom (c := c) tree key rid (walkable h hrep hr.chain)
      (chain_le h hrep.format hr.chain) with ⟨hnone, hrun⟩ | ⟨D₁, leaf, D₂, hrest, hsome, hrun⟩
  · have hdelete : t.delete key rid = (false, t) := by simp only [BTree.delete, hr.leafOf, hwalk, hnone]
    refine Or.inr ⟨tree, w, ?_, ?_⟩
    · rw [hrun, hdelete]
    · rw [hdelete]
      exact hrep
  · have hchain : t.chain = (C₁ ++ D₁) ++ leaf :: D₂ := by rw [hr.chain, hrest, List.append_assoc]
    have hmem : leaf ∈ t.chain := by simp [hchain]
    have hsub : (leaf.erase key rid).entries.Sublist leaf.entries := List.erase_sublist
    have hdelete : t.delete key rid = (true, { t with
        chain := (C₁ ++ D₁) ++ leaf.erase key rid :: D₂
        numKeys := t.numKeys - 1
        stored := t.numKeys - 1 }) := by
      simp only [BTree.delete, hr.leafOf, hwalk, hsome, erase_pageId, h.replaceLeaf_eq hchain]
      rfl
    have hlast : lastId (lastId (-1) C₁) D₁ = lastId (-1) (C₁ ++ D₁) := by
      simp only [lastId, List.getLast?_append]
      cases D₁.getLast? <;> simp
    rw [hrun, hdelete, hlast]
    rcases run_removed (c := c) h hrep hchain ((h.leafOk hmem).of_sublist hsub)
        (Nat.le_trans hsub.length_le (h.leaves leaf hmem).2) rfl with ⟨hfull, herror⟩ | hok
    · exact Or.inl ⟨hfull, rfl, herror⟩
    · exact Or.inr hok

end

end DBEngine
