import DBEngine.Index.BTreePage

/-!
# The layout of a tree node

`Holds b page` says that reading the buffer `b` gives the node `page`.  A node
whose fields are in range is written over any page and read back as it was.
-/

set_option autoImplicit false

namespace DBEngine

open ByteBuffer

/-! ## Fields behind a known prefix -/

section

variable {p rest : Bytes} {off n : Nat} {fmt : Format}

/-- One field written over a page whose front is written already. -/
theorem packInto_over {b : Bytes} {e : Nat} (hoff : p.length = off) (he : off + fmt.width = e)
    (hend : e ≤ b.length) {v : Int} (hv : fmt.Fits v) :
    packInto fmt off v (p ++ b.drop off) = (.ok (), (p ++ fmt.encode v) ++ b.drop e) := by
  subst he
  rw [packInto, Buf.pack_append hoff.symm (by rw [List.length_drop]; omega), if_pos hv,
    List.append_assoc, List.drop_drop]

/-- A list of fields written over a page whose front is written already. -/
theorem packItems_over {b : Bytes} {e : Nat} (hoff : p.length = off) {vs : List Int}
    (hn : vs.length = n) (he : off + fmt.width * n = e) (hend : e ≤ b.length)
    (hvs : ∀ v ∈ vs, fmt.Fits v) :
    packItems fmt off n vs (p ++ b.drop off) =
      (.ok (), (p ++ Buf.encodeAll fmt vs) ++ b.drop e) := by
  subst hn he
  have hall : Buf.packAll PyErr.structError fmt off vs (p ++ b.drop off) = _ :=
    Buf.packAll_append hoff.symm (by rw [List.length_drop]; omega) hvs
  rw [packItems, List.take_length, Buf.bind_ok hall, if_neg (Nat.lt_irrefl _), List.append_assoc,
    List.drop_drop]
  rfl

/-- A field that stands behind `off` bytes is read. -/
theorem unpackFrom_at {b : Bytes} {v : Int} (hoff : p.length = off)
    (hb : b = p ++ (fmt.encode v ++ rest)) (hv : fmt.Fits v) : unpackFrom fmt off b = (.ok v, b) := by
  rw [hb]
  exact Buf.unpack_append hoff.symm hv

theorem unpackH_at {b : Bytes} (hoff : p.length = off) (hb : b = p ++ (formatH.encode n ++ rest))
    (hn : n < 65536) : unpackH off b = (.ok n, b) :=
  unpackH_of_unpack (unpackFrom_at hoff hb (fits_formatH.mpr (by omega)))

theorem unpackI_at {b : Bytes} (hoff : p.length = off) (hb : b = p ++ (formatI.encode n ++ rest))
    (hn : n < 4294967296) : unpackI off b = (.ok n, b) := by
  rw [unpackI, Buf.bind_ok (unpackFrom_at hoff hb (fits_formatI.mpr (by omega)))]
  simp

theorem unpackAll_at {b : Bytes} {vs : List Int} (hoff : p.length = off) (hn : vs.length = n)
    (hb : b = p ++ (Buf.encodeAll fmt vs ++ rest)) (hvs : ∀ v ∈ vs, fmt.Fits v) :
    Buf.unpackAll PyErr.structError fmt off n b = (.ok vs, b) := by
  rw [hb]
  exact Buf.unpackAll_append hoff.symm hn.symm hvs

end

/-! ## Record ids -/

theorem length_ridFields (rids : List Rid) : (BTreePage.ridFields rids).length = 2 * rids.length := by
  induction rids with
  | nil => rfl
  | cons rid rids ih =>
      simp only [BTreePage.ridFields, List.flatMap_cons, List.length_append, List.length_cons,
        List.length_nil] at ih ⊢
      omega

theorem ridsOf_ridFields (rids : List Rid) : BTreePage.ridsOf (BTreePage.ridFields rids) = rids := by
  induction rids with
  | nil => rfl
  | cons rid rids ih =>
      have hrest : BTreePage.ridFields (rid :: rids) =
          (rid.1 : Int) :: (rid.2 : Int) :: BTreePage.ridFields rids := rfl
      rw [hrest, BTreePage.ridsOf, ih]
      simp

theorem map_toNat_ofNat (ps : List Nat) : (ps.map Int.ofNat).map Int.toNat = ps := by
  simp [List.map_map, Function.comp_def]

/-! ## What fits into a page -/

/-- A record id whose parts are 32-bit. -/
def RidFits (rid : Rid) : Prop := rid.1 < 4294967296 ∧ rid.2 < 4294967296

/-- The fields of a leaf are in range, and it has as many keys as it says. -/
structure LeafFits (node : LeafPage) : Prop where
  pageId : node.pageId < 4294967296
  count : node.numKeys = node.keys.length
  paired : node.rids.length = node.keys.length
  most : node.keys.length ≤ BTreePage.maxKeys
  keys : ∀ k ∈ node.keys, formati.Fits k
  rids : ∀ rid ∈ node.rids, RidFits rid
  prev : formati.Fits node.prevLeaf
  next : formati.Fits node.nextLeaf

/-- The fields of an inner node are in range, and it has one pointer more than
keys. -/
structure InnerFits (node : InnerPage) : Prop where
  pageId : node.pageId < 4294967296
  count : node.numKeys = node.keys.length
  linked : node.pointers.length = node.keys.length + 1
  most : node.keys.length ≤ BTreePage.maxKeys
  keys : ∀ k ∈ node.keys, formati.Fits k
  pointers : ∀ p ∈ node.pointers, p < 4294967296

/-- The node can be written to a page. -/
def PageFits : BTreePage → Prop
  | .leaf node => LeafFits node
  | .inner node => InnerFits node

/-- The buffer of a page holds this node. -/
structure Holds (b : Bytes) (page : BTreePage) : Prop where
  length : b.length = pageSize
  read : BTreePage.deserialize b = (.ok page, b)

theorem fits_ridFields {rids : List Rid} (h : ∀ rid ∈ rids, RidFits rid) :
    ∀ v ∈ BTreePage.ridFields rids, formatI.Fits v := by
  intro v hv
  simp only [BTreePage.ridFields, List.mem_flatMap, List.mem_cons, List.not_mem_nil, or_false] at hv
  obtain ⟨rid, hrid, rfl | rfl⟩ := hv
  · exact fits_formatI.mpr ⟨Int.natCast_nonneg _, by have := (h rid hrid).1; omega⟩
  · exact fits_formatI.mpr ⟨Int.natCast_nonneg _, by have := (h rid hrid).2; omega⟩

theorem fits_pointers {node : InnerPage} (h : InnerFits node) :
    ∀ v ∈ node.pointers.map Int.ofNat, formatI.Fits v := by
  intro v hv
  obtain ⟨p, hp, rfl⟩ := List.mem_map.mp hv
  have hlt := h.pointers p hp
  refine fits_formatI.mpr ⟨Int.natCast_nonneg p, ?_⟩
  change (p : Int) < 4294967296
  omega

/-- The bytes of a leaf. -/
def leafBytes (node : LeafPage) : Bytes :=
  formatBool.encode 1 ++ (formatI.encode node.pageId ++ (formatH.encode node.numKeys ++
    (formati.encode node.prevLeaf ++ (formati.encode node.nextLeaf ++
      (Buf.encodeAll formati node.keys ++ Buf.encodeAll formatI (BTreePage.ridFields node.rids))))))

/-- The bytes of an inner node. -/
def innerBytes (node : InnerPage) : Bytes :=
  formatBool.encode 0 ++ (formatI.encode node.pageId ++ (formatH.encode node.numKeys ++
    (Buf.encodeAll formatI (node.pointers.map Int.ofNat) ++ Buf.encodeAll formati node.keys)))

theorem length_leafBytes {node : LeafPage} (h : LeafFits node) :
    (leafBytes node).length = 15 + 12 * node.keys.length := by
  simp [leafBytes, length_ridFields, h.paired]
  omega

theorem length_innerBytes {node : InnerPage} (h : InnerFits node) :
    (innerBytes node).length = 11 + 8 * node.keys.length := by
  simp [innerBytes, h.linked]
  omega

/-! ## Writing and reading a node -/

section

variable {b rest : Bytes}

/-- A leaf is written at the front of its page and leaves the rest as it was. -/
theorem serialize_leaf {node : LeafPage} (h : LeafFits node) (hlen : b.length = pageSize) :
    (BTreePage.leaf node).serialize b =
      (.ok (), leafBytes node ++ b.drop (15 + 12 * node.keys.length)) := by
  have hmost : node.keys.length ≤ 100 := h.most
  rw [pageSize_eq] at hlen
  have hrids := length_ridFields node.rids
  rw [h.paired] at hrids
  have hpage := fits_formatI.mpr ⟨Int.natCast_nonneg node.pageId, by have := h.pageId; omega⟩
  have hcount := fits_formatH.mpr ⟨Int.natCast_nonneg node.numKeys, by rw [h.count]; omega⟩
  have hn := h.count
  have h₀ : packInto formatBool 0 1 b = (.ok (), ([] ++ formatBool.encode 1) ++ b.drop 1) :=
    packInto_over (p := []) (b := b) (e := 1) rfl rfl (by omega) (by decide)
  rw [BTreePage.serialize, Buf.bind_ok h₀,
    Buf.bind_ok (packInto_over (e := 5) (by simp) rfl (by omega) hpage),
    Buf.bind_ok (packInto_over (e := 7) (by simp) rfl (by omega) hcount),
    Buf.bind_ok (packInto_over (e := 11) (by simp) rfl (by omega) h.prev),
    Buf.bind_ok (packInto_over (e := 15) (by simp) rfl (by omega) h.next),
    Buf.bind_ok (packItems_over (e := 15 + 4 * node.numKeys) (by simp) hn.symm rfl (by omega) h.keys),
    packItems_over (e := 15 + 12 * node.keys.length) (by simp [hn]; omega) (by rw [hrids, hn])
      (by rw [formatI_width]; omega) (by omega) (fits_ridFields h.rids)]
  simp [leafBytes]

/-- A leaf with a link that does not fit its field is not written. -/
theorem serialize_leaf_error (node : LeafPage) (hpageId : node.pageId < 4294967296)
    (hnumKeys : node.numKeys < 65536) (hlen : b.length = pageSize)
    (hbad : ¬ formati.Fits node.prevLeaf ∨ ¬ formati.Fits node.nextLeaf) :
    ∃ b', (BTreePage.leaf node).serialize b = (.error .structError, b') := by
  rw [pageSize_eq] at hlen
  have hpage := fits_formatI.mpr ⟨Int.natCast_nonneg node.pageId, by omega⟩
  have hcount := fits_formatH.mpr ⟨Int.natCast_nonneg node.numKeys, by omega⟩
  have h₀ : packInto formatBool 0 1 b = (.ok (), ([] ++ formatBool.encode 1) ++ b.drop 1) :=
    packInto_over (p := []) (b := b) (e := 1) rfl rfl (by omega) (by decide)
  rw [BTreePage.serialize, Buf.bind_ok h₀,
    Buf.bind_ok (packInto_over (e := 5) (by simp) rfl (by omega) hpage),
    Buf.bind_ok (packInto_over (e := 7) (by simp) rfl (by omega) hcount)]
  -- a field that does not fit stops the method
  have hstop : ∀ {p : Bytes} {off : Nat} {v : Int}, p.length = off → off + 4 ≤ b.length →
      ¬ formati.Fits v → packInto formati off v (p ++ b.drop off) =
        (.error .structError, p ++ b.drop off) := fun hoff hend hv => by
    rw [packInto, Buf.pack_append hoff.symm (by rw [List.length_drop, formati_width]; omega), if_neg hv]
  by_cases hprev : formati.Fits node.prevLeaf
  · rw [Buf.bind_ok (packInto_over (e := 11) (by simp) rfl (by omega) hprev),
      Buf.bind_error (hstop (by simp) (by omega) (hbad.resolve_left (not_not.mpr hprev)))]
    exact ⟨_, rfl⟩
  · rw [Buf.bind_error (hstop (by simp) (by omega) hprev)]
    exact ⟨_, rfl⟩

/-- An inner node is written in the same way. -/
theorem serialize_inner {node : InnerPage} (h : InnerFits node) (hlen : b.length = pageSize) :
    (BTreePage.inner node).serialize b =
      (.ok (), innerBytes node ++ b.drop (11 + 8 * node.keys.length)) := by
  have hmost : node.keys.length ≤ 100 := h.most
  rw [pageSize_eq] at hlen
  have hn := h.count
  have hlinked := h.linked
  have hpage := fits_formatI.mpr ⟨Int.natCast_nonneg node.pageId, by have := h.pageId; omega⟩
  have hcount := fits_formatH.mpr ⟨Int.natCast_nonneg node.numKeys, by omega⟩
  have h₀ : packInto formatBool 0 0 b = (.ok (), ([] ++ formatBool.encode 0) ++ b.drop 1) :=
    packInto_over (p := []) (b := b) (e := 1) rfl rfl (by omega) (by decide)
  rw [BTreePage.serialize, Buf.bind_ok h₀,
    Buf.bind_ok (packInto_over (e := 5) (by simp) rfl (by omega) hpage),
    Buf.bind_ok (packInto_over (e := 7) (by simp) rfl (by omega) hcount),
    Buf.bind_ok (packItems_over (e := 7 + 4 * (node.numKeys + 1)) (by simp) (by simp; omega) rfl
      (by omega) (fits_pointers h)),
    packItems_over (e := 11 + 8 * node.keys.length) (by simp [hn, hlinked]; omega) hn.symm
      (by rw [formati_width]; omega) (by omega) h.keys]
  simp [innerBytes]

/-- The bytes of a leaf are read back, whatever stands behind them. -/
theorem deserialize_leaf {node : LeafPage} (h : LeafFits node) (hb : b = leafBytes node ++ rest) :
    BTreePage.deserialize b = (.ok (.leaf node), b) := by
  have hmost : node.keys.length ≤ 100 := h.most
  have hn := h.count
  have hrids := length_ridFields node.rids
  rw [h.paired] at hrids
  have hkind : unpackFrom formatBool 0 b = (.ok 1, b) :=
    unpackFrom_at (p := []) rfl (by rw [hb, leafBytes]; simp; rfl) (by decide)
  have hpage : unpackI 1 b = (.ok node.pageId, b) :=
    unpackI_at (p := formatBool.encode 1) (by simp) (by rw [hb, leafBytes]; simp; rfl) h.pageId
  have hcount : unpackH 5 b = (.ok node.numKeys, b) :=
    unpackH_at (p := formatBool.encode 1 ++ formatI.encode node.pageId) (by simp)
      (by rw [hb, leafBytes]; simp; rfl) (by omega)
  have hprev : unpackFrom formati 7 b = (.ok node.prevLeaf, b) :=
    unpackFrom_at (p := formatBool.encode 1 ++ formatI.encode node.pageId ++
      formatH.encode node.numKeys) (by simp) (by rw [hb, leafBytes]; simp; rfl) h.prev
  have hnext : unpackFrom formati 11 b = (.ok node.nextLeaf, b) :=
    unpackFrom_at (p := formatBool.encode 1 ++ formatI.encode node.pageId ++
      formatH.encode node.numKeys ++ formati.encode node.prevLeaf) (by simp)
      (by rw [hb, leafBytes]; simp; rfl) h.next
  have hkeys : Buf.unpackAll PyErr.structError formati 15 node.numKeys b = (.ok node.keys, b) :=
    unpackAll_at (p := formatBool.encode 1 ++ formatI.encode node.pageId ++
      formatH.encode node.numKeys ++ formati.encode node.prevLeaf ++ formati.encode node.nextLeaf)
      (by simp) hn.symm (by rw [hb, leafBytes]; simp; rfl) h.keys
  have hfields : Buf.unpackAll PyErr.structError formatI (15 + 4 * node.numKeys) (2 * node.numKeys) b =
      (.ok (BTreePage.ridFields node.rids), b) :=
    unpackAll_at (p := formatBool.encode 1 ++ formatI.encode node.pageId ++
      formatH.encode node.numKeys ++ formati.encode node.prevLeaf ++ formati.encode node.nextLeaf ++
      Buf.encodeAll formati node.keys) (by simp [hn]; omega) (by rw [hrids, hn])
      (by rw [hb, leafBytes]; simp; rfl) (fits_ridFields h.rids)
  rw [BTreePage.deserialize, Buf.bind_ok hkind, Buf.bind_ok hpage, Buf.bind_ok hcount,
    if_pos (by decide), Buf.bind_ok hprev, Buf.bind_ok hnext, Buf.bind_ok hkeys,
    Buf.bind_ok hfields, ridsOf_ridFields]
  rfl

/-- The bytes of an inner node are read back, whatever stands behind them. -/
theorem deserialize_inner {node : InnerPage} (h : InnerFits node) (hb : b = innerBytes node ++ rest) :
    BTreePage.deserialize b = (.ok (.inner node), b) := by
  have hmost : node.keys.length ≤ 100 := h.most
  have hn := h.count
  have hlinked := h.linked
  have hkind : unpackFrom formatBool 0 b = (.ok 0, b) :=
    unpackFrom_at (p := []) rfl (by rw [hb, innerBytes]; simp; rfl) (by decide)
  have hpage : unpackI 1 b = (.ok node.pageId, b) :=
    unpackI_at (p := formatBool.encode 0) (by simp) (by rw [hb, innerBytes]; simp; rfl) h.pageId
  have hcount : unpackH 5 b = (.ok node.numKeys, b) :=
    unpackH_at (p := formatBool.encode 0 ++ formatI.encode node.pageId) (by simp)
      (by rw [hb, innerBytes]; simp; rfl) (by omega)
  have hpointers : Buf.unpackAll PyErr.structError formatI 7 (node.numKeys + 1) b =
      (.ok (node.pointers.map Int.ofNat), b) :=
    unpackAll_at (p := formatBool.encode 0 ++ formatI.encode node.pageId ++
      formatH.encode node.numKeys) (by simp) (by simp; omega) (by rw [hb, innerBytes]; simp; rfl)
      (fits_pointers h)
  have hkeys : Buf.unpackAll PyErr.structError formati (7 + 4 * (node.numKeys + 1)) node.numKeys b =
      (.ok node.keys, b) :=
    unpackAll_at (p := formatBool.encode 0 ++ formatI.encode node.pageId ++
      formatH.encode node.numKeys ++ Buf.encodeAll formatI (node.pointers.map Int.ofNat))
      (by simp; omega) hn.symm (by rw [hb, innerBytes]; simp; rfl) h.keys
  rw [BTreePage.deserialize, Buf.bind_ok hkind, Buf.bind_ok hpage, Buf.bind_ok hcount,
    if_neg (by decide), Buf.bind_ok hpointers, Buf.bind_ok hkeys, map_toNat_ofNat]
  rfl

/-- A node whose fields are in range is written over any page and read back. -/
theorem serialize_of_fits {page : BTreePage} (h : PageFits page) (hlen : b.length = pageSize) :
    ∃ b', page.serialize b = (.ok (), b') ∧ Holds b' page := by
  have hend := hlen
  rw [pageSize_eq] at hend
  cases page with
  | leaf node =>
      have hmost : node.keys.length ≤ 100 := LeafFits.most h
      refine ⟨_, serialize_leaf h hlen, ?_, deserialize_leaf h rfl⟩
      rw [List.length_append, length_leafBytes h, List.length_drop, hlen, pageSize_eq]
      omega
  | inner node =>
      have hmost : node.keys.length ≤ 100 := InnerFits.most h
      refine ⟨_, serialize_inner h hlen, ?_, deserialize_inner h rfl⟩
      rw [List.length_append, length_innerBytes h, List.length_drop, hlen, pageSize_eq]
      omega

/-- The bytes a node takes at the front of its page. -/
def BTreePage.extent : BTreePage → Nat
  | .leaf node => 15 + 12 * node.keys.length
  | .inner node => 11 + 8 * node.keys.length

theorem BTreePage.extent_le {page : BTreePage} (h : PageFits page) : page.extent ≤ pageSize := by
  rw [pageSize_eq]
  cases page with
  | leaf node =>
      have hmost : node.keys.length ≤ 100 := LeafFits.most h
      simp only [BTreePage.extent]
      omega
  | inner node =>
      have hmost : node.keys.length ≤ 100 := InnerFits.most h
      simp only [BTreePage.extent]
      omega

/-- A node is written within its page, the bytes behind it stay, and the page is read
back as the same node, whatever was on it before. -/
theorem BTreePage.serialized_reads_back {page : BTreePage} (h : PageFits page) {b : Bytes}
    (hlen : b.length = pageSize) : ∃ b', page.serialize b = (.ok (), b') ∧ b'.length = pageSize ∧
      page.extent ≤ pageSize ∧ b'.drop page.extent = b.drop page.extent ∧
      BTreePage.deserialize b' = (.ok page, b') := by
  obtain ⟨b', hwrite, hholds⟩ := serialize_of_fits h hlen
  refine ⟨b', hwrite, hholds.length, BTreePage.extent_le h, ?_, hholds.read⟩
  cases page with
  | leaf node =>
      obtain rfl := (Prod.mk.inj ((serialize_leaf h hlen).symm.trans hwrite)).2
      rw [BTreePage.extent, ← length_leafBytes h, List.drop_left]
  | inner node =>
      obtain rfl := (Prod.mk.inj ((serialize_inner h hlen).symm.trans hwrite)).2
      rw [BTreePage.extent, ← length_innerBytes h, List.drop_left]

/-- An inner node over the bytes of an older page. -/
theorem BTreePage.serialized_reads_back_stale :
    ∃ b', (BTreePage.inner ⟨7, 1, [-5], [3, 4]⟩).serialize (List.replicate pageSize 255) = (.ok (), b') ∧
      b'.length = pageSize ∧ (BTreePage.inner ⟨7, 1, [-5], [3, 4]⟩).extent ≤ pageSize ∧
      b'.drop (BTreePage.inner ⟨7, 1, [-5], [3, 4]⟩).extent =
        (List.replicate pageSize 255).drop (BTreePage.inner ⟨7, 1, [-5], [3, 4]⟩).extent ∧
      BTreePage.deserialize b' = (.ok (.inner ⟨7, 1, [-5], [3, 4]⟩), b') :=
  BTreePage.serialized_reads_back (show PageFits (.inner ⟨7, 1, [-5], [3, 4]⟩) from
    ⟨by decide, rfl, rfl, by decide, by decide, by decide⟩) List.length_replicate

end

end DBEngine
