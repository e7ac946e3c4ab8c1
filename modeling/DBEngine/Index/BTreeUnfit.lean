import DBEngine.Index.BTreeInsert

/-!
# Entries that do not fit

A key or a record id outside the range of its field is put into the leaf in
memory, and the leaf cannot be written: the insert ends with the error of
`struct`, whether the leaf is split first or not.
-/

set_option autoImplicit false

namespace DBEngine

open ByteBuffer Paged

variable {c : Store FileId Bytes PyErr (Flat FileId Bytes)} [Bpm.Serves c anyBlock]

/-! ## Writing a leaf -/

section

variable {fmt : Format} {off n : Nat} {items : List Int}

theorem raisesOnly_packItems (fmt : Format) (off : Nat) (hn : items.length = n) :
    Buf.RaisesOnly .structError (packItems fmt off n items) := by
  subst hn
  rw [packItems, if_neg (Nat.lt_irrefl _)]
  exact (Buf.raisesOnly_packAll _ _ _ _).bind fun _ => Buf.raisesOnly_pure _ _

theorem alwaysRaises_packItems (hn : items.length = n) (hitems : ∃ v ∈ items, ¬ fmt.Fits v) :
    Buf.AlwaysRaises .structError (packItems fmt off n items) := by
  subst hn
  have hall : Buf.AlwaysRaises PyErr.structError
      (Buf.packAll .structError fmt off (items.take items.length)) := fun buf =>
    Buf.packAll_error (by rwa [List.take_length])
  rw [packItems]
  exact hall.bind _

/-- The key and the record id fit into their fields. -/
def EntryFits (e : Int × Rid) : Prop := formati.Fits e.1 ∧ RidFits e.2

variable {leaf : Leaf} {prev next : Int}

theorem length_keys (leaf : Leaf) : leaf.keys.length = leaf.entries.length := by simp [Leaf.keys]

theorem length_ridFields_entries (leaf : Leaf) :
    (BTreePage.ridFields (leaf.entries.map Prod.snd)).length = 2 * leaf.entries.length := by
  rw [length_ridFields, List.length_map]

theorem raisesOnly_serialize (leaf : Leaf) (prev next : Int) :
    Buf.RaisesOnly .structError (BTreePage.leaf (leaf.node prev next)).serialize := by
  rw [BTreePage.serialize]
  refine (raisesOnly_packInto _ _ _).bind fun _ => (raisesOnly_packInto _ _ _).bind fun _ => ?_
  refine (raisesOnly_packInto _ _ _).bind fun _ => (raisesOnly_packInto _ _ _).bind fun _ => ?_
  refine (raisesOnly_packInto _ _ _).bind fun _ => ?_
  refine (raisesOnly_packItems _ _ (length_keys leaf)).bind fun _ => ?_
  exact raisesOnly_packItems _ _ (length_ridFields_entries leaf)

/-- A leaf with an entry that does not fit is not written. -/
theorem alwaysRaises_serialize {e : Int × Rid} (he : e ∈ leaf.entries) (hunfit : ¬ EntryFits e)
    (prev next : Int) :
    Buf.AlwaysRaises .structError (BTreePage.leaf (leaf.node prev next)).serialize := by
  rw [BTreePage.serialize]
  refine (raisesOnly_packInto _ _ _).alwaysRaises_bind fun _ => ?_
  refine (raisesOnly_packInto _ _ _).alwaysRaises_bind fun _ => ?_
  refine (raisesOnly_packInto _ _ _).alwaysRaises_bind fun _ => ?_
  refine (raisesOnly_packInto _ _ _).alwaysRaises_bind fun _ => ?_
  refine (raisesOnly_packInto _ _ _).alwaysRaises_bind fun _ => ?_
  by_cases hkey : formati.Fits e.1
  · have hrid : ¬ RidFits e.2 := fun hrid => hunfit ⟨hkey, hrid⟩
    refine (raisesOnly_packItems _ _ (length_keys leaf)).alwaysRaises_bind fun _ =>
      alwaysRaises_packItems (length_ridFields_entries leaf) ?_
    have hfields : ∀ v ∈ [(e.2.1 : Int), (e.2.2 : Int)],
        v ∈ BTreePage.ridFields (leaf.entries.map Prod.snd) := fun v hv =>
      List.mem_flatMap.mpr ⟨e.2, List.mem_map_of_mem he, hv⟩
    by_cases hpage : e.2.1 < 4294967296
    · have hslot : ¬ e.2.2 < 4294967296 := fun hslot => hrid ⟨hpage, hslot⟩
      refine ⟨e.2.2, hfields _ (by simp), fun hfit => hslot ?_⟩
      have := (fits_formatI.mp hfit).2
      omega
    · refine ⟨e.2.1, hfields _ (by simp), fun hfit => hpage ?_⟩
      have := (fits_formatI.mp hfit).2
      omega
  · exact (alwaysRaises_packItems (length_keys leaf) ⟨e.1, List.mem_map_of_mem he, hkey⟩).bind _

end

/-! ## Inserting -/

section

variable {f : FileId} {w : Flat FileId Bytes} {t : BTree} {tree : BPlusTree} {leaf leaf' : Leaf}
  {C₁ C₂ : List Leaf} {key : Int} {rid : Rid} {e : Int × Rid} {p q : Nat} {prev next : Int}

/-- Writing the frame of a pinned page fails when the code always does. -/
theorem run_write_raises {σ : Type} (s : σ) (hf : f ∉ w.gone) (hpin : (f, p) ∈ w.pins) {page : BTreePage}
    (hpage : Buf.AlwaysRaises .structError page.serialize) :
    ∃ w', (BPlusTree.write f p page : PageProg σ Unit).run c s w = (.error .structError, s, w') := by
  obtain ⟨b, hb⟩ := hpage (w.mem (f, p))
  exact ⟨_, Bpm.run_onFrame hf hpin hb⟩

/-- One of the halves cannot be written. -/
theorem run_writeHalves_raises {σ : Type} (s : σ) (hf : f ∉ w.gone) (hp : (f, p) ∈ w.pins)
    (hq : (f, q) ∈ w.pins) {page newPage : BTreePage} (honly : Buf.RaisesOnly .structError page.serialize)
    (hraises : Buf.AlwaysRaises .structError page.serialize ∨
      Buf.AlwaysRaises .structError newPage.serialize) :
    ∃ w', (BPlusTree.writeHalves f p q page newPage : PageProg σ Unit).run c s w =
      (.error .structError, s, w') := by
  rw [BPlusTree.writeHalves]
  rcases hfirst : page.serialize (w.mem (f, p)) with ⟨_ | _, b⟩
  · obtain rfl := honly hfirst
    exact ⟨_, Prog.run_bind_error (Bpm.run_onFrame (s := s) hf hp hfirst)⟩
  · have hnew : Buf.AlwaysRaises .structError newPage.serialize := by
      refine hraises.resolve_left fun hbad => ?_
      obtain ⟨b', hb'⟩ := hbad (w.mem (f, p))
      rw [hfirst] at hb'
      simp at hb'
    obtain ⟨w', hw'⟩ := run_write_raises (c := c) (w := w.change (f, p) b) s (by simpa using hf)
      (by simpa using hq) hnew
    exact ⟨w', Prog.run_step (Bpm.run_onFrame (s := s) hf hp hfirst) (Prog.run_bind_error hw')⟩

/-- A leaf with an entry that does not fit is not split. -/
theorem run_splitLeaf_raises (h : t.Shape) (hrep : TreeRep f w t tree) (hchain : t.chain = C₁ ++ leaf :: C₂)
    (he : e ∈ leaf'.entries) (hunfit : ¬ EntryFits e) (object : BPlusTree) (path : List Nat) :
    ∃ tree' w', (BPlusTree.splitLeaf f leaf.pageId (leaf'.node (lastId (-1) C₁) (firstId C₂ (-1))) path).run
      c object (w.pin (f, leaf.pageId)) = (.error .structError, tree', w') := by
  have hidle := hrep.idle
  have hnewLeaf : ((leaf'.upper t.next).node leaf'.pageId (firstId C₂ (-1))).nextLeaf = firstId C₂ (-1) := rfl
  have hstart : ∀ {r}, (do
        BPlusTree.linkNext f ((leaf'.upper t.next).node leaf'.pageId (firstId C₂ (-1))) t.next
        BPlusTree.writeHalves f leaf.pageId t.next (.leaf (leaf'.lower.node (lastId (-1) C₁) t.next))
          (.leaf ((leaf'.upper t.next).node leaf'.pageId (firstId C₂ (-1))))
        BPlusTree.fileLeaf f path (leaf'.lower.node (lastId (-1) C₁) t.next)
          ((leaf'.upper t.next).node leaf'.pageId (firstId C₂ (-1))) : PageProg BPlusTree Unit).run c object
            (((w.extend f).pin (f, leaf.pageId)).pin (f, t.next)) = r →
      (BPlusTree.splitLeaf f leaf.pageId (leaf'.node (lastId (-1) C₁) (firstId C₂ (-1))) path).run c object
        (w.pin (f, leaf.pageId)) = r := fun hrest => by
    rw [BPlusTree.splitLeaf]
    refine Prog.run_step (Bpm.run_allocatePage (w := w.pin (f, leaf.pageId)) hidle.here) ?_
    refine Prog.run_step (Bpm.run_fetchPage (w := (w.extend f).pin (f, leaf.pageId))
      (Bpm.fetchable hidle.here (by simp [Flat.Held, hidle.unsaved]) (by simp [hidle.pins]))) ?_
    rw [Flat.pin_size, hrep.size, lowerHalf_node, upperHalf_node]
    exact hrest
  rcases run_linkNext (c := c) h hrep hchain hnewLeaf object with
    ⟨-, -, w', herror⟩ | ⟨-, w', hidle', -, -, -, -, hlink⟩
  · exact ⟨object, w', hstart (Prog.run_bind_error herror)⟩
  · -- the entry is in one of the halves
    have hhalves : e ∈ leaf'.lower.entries ∨ e ∈ (leaf'.upper t.next).entries := by
      rw [← List.mem_append]
      simpa [Leaf.lower, Leaf.upper] using he
    obtain ⟨w'', hraises⟩ := run_writeHalves_raises (c := c) (w := (w'.pin (f, leaf.pageId)).pin (f, t.next))
      (p := leaf.pageId) (q := t.next) object hidle'.here (by simp) (by simp) (raisesOnly_serialize leaf'.lower (lastId (-1) C₁) t.next)
      (hhalves.imp (alwaysRaises_serialize · hunfit _ _) (alwaysRaises_serialize · hunfit _ _))
    exact ⟨object, w'', hstart (Prog.run_step hlink (Prog.run_bind_error hraises))⟩

/-- `insert` does not return for an entry that does not fit. -/
theorem run_insert_raises (h : t.Shape) (hrep : TreeRep f w t tree) (hunfit : ¬ EntryFits (key, rid)) :
    ∃ tree' w', (BPlusTree.insert f key rid).run c tree w = (.error .structError, tree', w') := by
  obtain ⟨leaf, trail, C₁, C₂, hr⟩ := h.reaches key
  have hmem : leaf ∈ t.chain := by simp [hr.chain]
  have hentry : (key, rid) ∈ (leaf.insert key rid).entries :=
    (perm_entries_insert key rid (h.leafOk hmem)).mem_iff.mpr List.mem_cons_self
  obtain ⟨tree', w', hrest⟩ : ∃ tree' w',
      (if !((leaf.insert key rid).node (lastId (-1) C₁) (firstId C₂ (-1))).isOverflow then do
          BPlusTree.write f leaf.pageId
            (.leaf ((leaf.insert key rid).node (lastId (-1) C₁) (firstId C₂ (-1))))
          Bpm.unpinPage ((leaf.insert key rid).node (lastId (-1) C₁) (firstId C₂ (-1))).pageId f true
        else
          BPlusTree.splitLeaf f leaf.pageId
            ((leaf.insert key rid).node (lastId (-1) C₁) (firstId C₂ (-1))) (pathOf trail leaf.pageId) :
            PageProg BPlusTree Unit).run c ⟨t.root, t.numKeys + 1⟩ (w.pin (f, leaf.pageId)) =
          (.error .structError, tree', w') := by
    split
    · obtain ⟨w', hwrite⟩ := run_write_raises (c := c) (w := w.pin (f, leaf.pageId)) (p := leaf.pageId)
        (⟨t.root, t.numKeys + 1⟩ : BPlusTree) hrep.idle.here (by simp)
        (alwaysRaises_serialize hentry hunfit (lastId (-1) C₁) (firstId C₂ (-1)))
      exact ⟨_, w', Prog.run_bind_error hwrite⟩
    · exact run_splitLeaf_raises h hrep hr.chain hentry hunfit _ _
  refine ⟨tree', w', ?_⟩
  rw [BPlusTree.insert]
  refine Prog.run_step (run_findLeaf h hrep hr) ?_
  dsimp only
  rw [insert_node, hrep.tree]
  exact Prog.run_step (Prog.run_ofExcept _ _ _) (Prog.run_step (Prog.run_modify _ _ _) hrest)

end

end DBEngine
