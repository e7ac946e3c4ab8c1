import DBEngine.Storage.Page

/-!
# The layout of a slotted page

`PageRep b rows` says that the buffer `b` holds the rows `rows`, in the order
in which they were inserted; a deleted row keeps its slot.  Each method of
`Page` has one lemma here, and nothing else looks inside a page.
-/

set_option autoImplicit false

namespace DBEngine

open ByteBuffer

/-! ## Three fields of two bytes -/

/-- Three `H` fields in a row are read back one by one. -/
theorem unpackH_triple {b : Bytes} {off x y z : Nat}
    (h : slice b off 6 = Buf.encodeAll formatH [(x : Int), y, z]) (hend : off + 6 ≤ b.length)
    (hx : x < 65536) (hy : y < 65536) (hz : z < 65536) :
    unpackH off b = (.ok x, b) ∧ unpackH (off + 2) b = (.ok y, b) ∧
      unpackH (off + 4) b = (.ok z, b) := by
  have hread : ∀ i (hi : i < 3), formatH.Fits ([(x : Int), y, z][i]) →
      unpackFrom formatH (off + 2 * i) b = (.ok ([(x : Int), y, z][i]), b) :=
    fun i hi hv => Buf.unpack_of_slice h hend hi hv
  refine ⟨unpackH_of_unpack ?_, unpackH_of_unpack ?_, unpackH_of_unpack ?_⟩
  · exact hread 0 (by decide) (fits_formatH.mpr ⟨by simp, by simp; omega⟩)
  · exact hread 1 (by decide) (fits_formatH.mpr ⟨by simp, by simp; omega⟩)
  · exact hread 2 (by decide) (fits_formatH.mpr ⟨by simp, by simp; omega⟩)

/-- Three `H` fields in a row are written one by one. -/
theorem packInto_triple {b : Bytes} {off : Nat} {x y z : Int} (hend : off + 6 ≤ b.length)
    (hx : formatH.Fits x) (hy : formatH.Fits y) (hz : formatH.Fits z) :
    ∃ b₁ b₂, packInto formatH off x b = (.ok (), b₁) ∧
      packInto formatH (off + 2) y b₁ = (.ok (), b₂) ∧
      packInto formatH (off + 4) z b₂ =
        (.ok (), overwrite b off (Buf.encodeAll formatH [x, y, z])) := by
  have hlen₁ : (overwrite b off (formatH.encode x)).length = b.length :=
    length_overwrite (by simp; omega)
  have hlen₂ : (overwrite b off (formatH.encode x ++ formatH.encode y)).length = b.length :=
    length_overwrite (by simp; omega)
  have hjoin₁ : overwrite (overwrite b off (formatH.encode x)) (off + 2) (formatH.encode y) =
      overwrite b off (formatH.encode x ++ formatH.encode y) := by
    have h : overwrite (overwrite b off (formatH.encode x)) (off + (formatH.encode x).length)
        (formatH.encode y) = _ := overwrite_overwrite (by omega)
    rwa [Format.length_encode] at h
  have hjoin₂ : overwrite (overwrite b off (formatH.encode x ++ formatH.encode y)) (off + 4)
      (formatH.encode z) = overwrite b off (Buf.encodeAll formatH [x, y, z]) := by
    have h : overwrite (overwrite b off (formatH.encode x ++ formatH.encode y))
        (off + (formatH.encode x ++ formatH.encode y).length) (formatH.encode z) = _ :=
      overwrite_overwrite (by omega)
    rw [List.length_append, Format.length_encode, Format.length_encode] at h
    simpa using h
  refine ⟨_, _, Buf.pack_ok hx (by simp; omega), Buf.pack_ok hy (by simp [hlen₁]; omega), ?_⟩
  rw [hjoin₁, packInto, Buf.pack_ok hz (by simp [hlen₂]; omega), hjoin₂]

/-! ## The representation -/

/-- A slot with its tuple: the bytes inserted, and whether they are still there. -/
structure Row where
  data : Bytes
  live : Bool
  deriving DecidableEq, Repr

/-- The bytes that the tuples take. -/
def usedBy (rows : List Row) : Nat := (rows.map (·.data.length)).sum

/-- Where the tuples start; the free-space pointer. -/
def bottom (rows : List Row) : Nat := pageSize - usedBy rows

/-- The free space between the slots and the tuples. -/
def freeOf (rows : List Row) : Nat := bottom rows - Page.slotOffset rows.length

/-- The page object of a page with these rows. -/
def pageOf (rows : List Row) : Page := ⟨rows.length, bottom rows, freeOf rows⟩

/-- The slots and the tuples of a page. -/
structure PageBody (b : Bytes) (rows : List Row) : Prop where
  length : b.length = pageSize
  room : Page.slotOffset rows.length + usedBy rows ≤ pageSize
  slot : ∀ i row, rows[i]? = some row → slice b (Page.slotOffset i) 6 =
    Buf.encodeAll formatH
      [(bottom (rows.take (i + 1)) : Int), row.data.length, if row.live then 1 else 0]
  tuple : ∀ i row, rows[i]? = some row →
    slice b (bottom (rows.take (i + 1))) row.data.length = row.data

/-- A page with its header. -/
structure PageRep (b : Bytes) (rows : List Row) : Prop extends PageBody b rows where
  header : slice b 0 6 =
    Buf.encodeAll formatH [(rows.length : Int), bottom rows, freeOf rows]

@[simp] theorem usedBy_nil : usedBy [] = 0 := rfl

theorem usedBy_append (rows more : List Row) : usedBy (rows ++ more) = usedBy rows + usedBy more := by
  simp [usedBy]

@[simp] theorem usedBy_singleton (row : Row) : usedBy [row] = row.data.length := by
  simp [usedBy]

theorem slotOffset_eq (slotId : Nat) : Page.slotOffset slotId = 6 + 6 * slotId := by
  simp [Page.slotOffset, Page.headerSize, Page.slotSize, Nat.mul_comm]

theorem freeOf_le (rs : List Row) : freeOf rs ≤ 4090 := by
  simp only [freeOf, bottom, pageSize_eq, slotOffset_eq]
  omega

/-- A row takes its bytes and a slot. -/
theorem freeOf_append (rows : List Row) (row : Row) :
    freeOf (rows ++ [row]) = freeOf rows - (row.data.length + Page.slotSize) := by
  have hused : usedBy [row] = row.data.length := by simp [usedBy]
  simp only [freeOf, bottom, usedBy_append, hused, slotOffset_eq, List.length_append,
    List.length_singleton, Page.slotSize]
  omega

/-- The tuples up to a slot take at most what all of them take. -/
theorem usedBy_take_le (rows : List Row) (i : Nat) : usedBy (rows.take i) ≤ usedBy rows := by
  have h := usedBy_append (rows.take i) (rows.drop i)
  rw [List.take_append_drop] at h
  omega

/-- A tuple is one of those up to its slot. -/
theorem length_le_usedBy_take {rows : List Row} {i : Nat} {row : Row} (h : rows[i]? = some row) :
    usedBy (rows.take i) + row.data.length = usedBy (rows.take (i + 1)) := by
  obtain ⟨hi, rfl⟩ := List.getElem?_eq_some_iff.mp h
  rw [List.take_succ_eq_append_getElem hi, usedBy_append, usedBy_singleton]

section

variable {b : Bytes} {rows : List Row} {row : Row} {i : Nat}

/-- Where a tuple lies: behind the slots and before the end of the page. -/
theorem PageBody.bounds (h : PageBody b rows) (hrow : rows[i]? = some row) :
    i < rows.length ∧ bottom rows ≤ bottom (rows.take (i + 1)) ∧
      bottom (rows.take (i + 1)) + row.data.length ≤ pageSize := by
  obtain ⟨hi, -⟩ := List.getElem?_eq_some_iff.mp hrow
  have hroom := h.room
  have htake := usedBy_take_le rows (i + 1)
  have hlen := length_le_usedBy_take hrow
  simp only [bottom]
  omega

theorem pageBody_nil (hlen : b.length = pageSize) : PageBody b [] where
  length := hlen
  room := by decide
  slot i row hrow := by simp at hrow
  tuple i row hrow := by simp at hrow

/-! ## Opening a page -/

theorem init_of_rep (h : PageRep b rows) : Page.init false b = (.ok (pageOf rows), b) := by
  have hroom := h.room
  have hlen := h.length
  rw [slotOffset_eq, pageSize_eq] at hroom
  rw [pageSize_eq] at hlen
  have hbottom : bottom rows ≤ 4096 := Nat.sub_le _ _
  have hfree : freeOf rows ≤ 4096 := Nat.le_trans (Nat.sub_le _ _) hbottom
  obtain ⟨h₀, h₂, h₄⟩ := unpackH_triple (by simpa using h.header) (by omega)
    (show rows.length < 65536 by omega) (show bottom rows < 65536 by omega)
    (show freeOf rows < 65536 by omega)
  simp only [Page.init, Bool.false_eq_true, if_false]
  rw [Buf.bind_ok h₀, Buf.bind_ok h₂, Buf.bind_ok h₄]
  rfl

/-- A new page object over any buffer of the length of a page. -/
theorem init_new (hlen : b.length = pageSize) :
    ∃ b', Page.init true b = (.ok (pageOf []), b') ∧ PageBody b' [] := by
  rw [pageSize_eq] at hlen
  let b₁ := overwrite b 2 (formatH.encode pageSize)
  let b₂ := overwrite b₁ 4 (formatH.encode (pageSize - Page.headerSize))
  have hlen₁ : b₁.length = pageSize := by
    rw [length_overwrite (by rw [Format.length_encode, hlen]; decide), hlen]
    rfl
  have hlen₂ : b₂.length = pageSize := by
    rw [length_overwrite (by rw [Format.length_encode, hlen₁]; decide), hlen₁]
  have hpack₁ : packInto formatH 2 pageSize b = (.ok (), b₁) :=
    Buf.pack_ok (by decide) (by rw [hlen]; decide)
  have hpack₂ : packInto formatH 4 (pageSize - Page.headerSize) b₁ = (.ok (), b₂) :=
    Buf.pack_ok (by decide) (by rw [hlen₁]; decide)
  refine ⟨b₂, ?_, pageBody_nil hlen₂⟩
  simp only [Page.init, if_true]
  rw [Buf.bind_ok hpack₁, Buf.bind_ok hpack₂]
  rfl

/-! ## Inserting -/

/-- The header written. -/
theorem packHeader_ok (page : Page) (hlen : 6 ≤ b.length) (hslots : page.numSlots < 65536)
    (hptr : formatH.Fits page.freeSpacePointer) (hfree : formatH.Fits page.freeSpace) :
    page.packHeader b = (.ok (), overwrite b 0 (Buf.encodeAll formatH
      [(page.numSlots : Int), page.freeSpacePointer, page.freeSpace])) := by
  obtain ⟨b₁, b₂, h₁, h₂, h₃⟩ := packInto_triple (show 0 + 6 ≤ b.length by omega)
    (show formatH.Fits (page.numSlots : Int) from fits_formatH.mpr (by omega)) hptr hfree
  rw [Page.packHeader, Buf.bind_ok h₁, Buf.bind_ok h₂, h₃]

/-- What `insert_tuple` writes when the tuple goes to a place above the slots:
the tuple, its slot and the header. -/
theorem insertTuple_ok (page : Page) {data : Bytes} {off : Nat} (hlen : b.length = pageSize)
    (hoff : page.freeSpacePointer - data.length = off)
    (hslots : Page.slotOffset page.numSlots + 6 ≤ off) (hend : off + data.length ≤ pageSize)
    (hfree : formatH.Fits (page.grow data.length).freeSpace) :
    page.insertTuple data b = (.ok (page.numSlots, page.grow data.length),
      overwrite (overwrite (overwrite b off data) (Page.slotOffset page.numSlots)
        (Buf.encodeAll formatH [(off : Int), data.length, 1])) 0
        (Buf.encodeAll formatH [((page.numSlots + 1 : Nat) : Int), off,
          (page.grow data.length).freeSpace])) := by
  rw [slotOffset_eq] at hslots
  rw [pageSize_eq] at hlen hend
  have hset : setSlice off (off + data.length) data b = (.ok (), overwrite b off data) :=
    setSlice_of_le (by omega)
  have hlen₁ : (overwrite b off data).length = 4096 := by
    rw [length_overwrite (by omega), hlen]
  obtain ⟨b₁, b₂, h₁, h₂, h₃⟩ := packInto_triple
    (show Page.slotOffset page.numSlots + 6 ≤ (overwrite b off data).length by
      rw [hlen₁, slotOffset_eq]
      omega)
    (show formatH.Fits (off : Int) from fits_formatH.mpr (by omega))
    (show formatH.Fits (data.length : Int) from fits_formatH.mpr (by omega))
    (show formatH.Fits 1 by decide)
  have hptr : (page.grow data.length).freeSpacePointer = off := hoff
  have hhead := packHeader_ok (page.grow data.length)
    (b := overwrite (overwrite b off data) (Page.slotOffset page.numSlots)
      (Buf.encodeAll formatH [(off : Int), data.length, 1]))
    (by rw [length_overwrite (by simp [hlen₁, slotOffset_eq]; omega), hlen₁]; omega)
    (show page.numSlots + 1 < 65536 by omega)
    (fits_formatH.mpr (by rw [hptr]; omega)) hfree
  rw [hptr] at hhead
  simp only [Page.insertTuple, hoff]
  rw [Buf.bind_ok hset, Buf.bind_ok h₁, Buf.bind_ok h₂, Buf.bind_ok h₃, Buf.bind_ok hhead]
  rfl

/-- The rows of a page after a tuple was written right below the others. -/
theorem pageRep_append (h : PageBody b rows) {data : Bytes} {off : Nat}
    (hdown : bottom rows = off + data.length)
    (hgap : Page.slotOffset rows.length + 6 ≤ off) :
    PageRep (overwrite (overwrite (overwrite b off data) (Page.slotOffset rows.length)
        (Buf.encodeAll formatH [(off : Int), data.length, 1])) 0
        (Buf.encodeAll formatH [((rows.length + 1 : Nat) : Int), off,
          freeOf (rows ++ [⟨data, true⟩])])) (rows ++ [⟨data, true⟩]) := by
  have hlen := h.length
  have hroom := h.room
  have hused : usedBy (rows ++ [⟨data, true⟩]) = usedBy rows + data.length := by
    rw [usedBy_append, usedBy_singleton]
  have hbottom : bottom (rows ++ [⟨data, true⟩]) = off := by
    simp only [bottom, hused] at hdown ⊢
    omega
  have hend : off + data.length ≤ b.length := by
    rw [hlen, ← hdown]
    exact Nat.sub_le _ _
  generalize hslotBytes : Buf.encodeAll formatH [(off : Int), data.length, 1] = slotBytes
  generalize hheadBytes : Buf.encodeAll formatH [((rows.length + 1 : Nat) : Int), off,
    freeOf (rows ++ [⟨data, true⟩])] = headBytes
  have hslotLen : slotBytes.length = 6 := by simp [← hslotBytes]
  have hheadLen : headBytes.length = 6 := by simp [← hheadBytes]
  generalize hb₁ : overwrite b off data = b₁
  have hlen₁ : b₁.length = b.length := by rw [← hb₁, length_overwrite hend]
  generalize hb₂ : overwrite b₁ (Page.slotOffset rows.length) slotBytes = b₂
  have hlen₂ : b₂.length = b.length := by rw [← hb₂, length_overwrite (by omega), hlen₁]
  -- each of the three pieces is read back, and the rest is as before
  have hhead : slice (overwrite b₂ 0 headBytes) 0 6 = headBytes := by
    rw [← hheadLen]
    exact slice_overwrite_self (by omega)
  have hpast : ∀ i len, 6 ≤ i → slice (overwrite b₂ 0 headBytes) i len = slice b₂ i len :=
    fun i len hi => slice_overwrite_of_disjoint (by omega) (by omega)
  have hslot : slice b₂ (Page.slotOffset rows.length) 6 = slotBytes := by
    rw [← hb₂, ← hslotLen]
    exact slice_overwrite_self (by omega)
  have htuple : slice b₂ off data.length = data := by
    rw [← hb₂, slice_overwrite_of_disjoint (by omega) (by omega), ← hb₁]
    exact slice_overwrite_self (by omega)
  have hkeep : ∀ i len, i + len ≤ Page.slotOffset rows.length ∨ off + data.length ≤ i →
      slice b₂ i len = slice b i len := fun i len hi => by
    rw [← hb₂, slice_overwrite_of_disjoint (by omega) (by omega), ← hb₁]
    exact slice_overwrite_of_disjoint (by omega) (by omega)
  have htake : ∀ i, i < rows.length →
      (rows ++ [Row.mk data true]).take (i + 1) = rows.take (i + 1) := fun i hi =>
    List.take_append_of_le_length (by omega)
  have hall : (rows ++ [Row.mk data true]).take (rows.length + 1) = rows ++ [⟨data, true⟩] :=
    List.take_of_length_le (by simp)
  have hcase : ∀ (i : Nat) (row : Row), (rows ++ [⟨data, true⟩])[i]? = some row →
      rows[i]? = some row ∨ (i = rows.length ∧ row = ⟨data, true⟩) := fun i row hrow => by
    rcases Nat.lt_or_ge i rows.length with hi | hi
    · exact Or.inl (by rwa [List.getElem?_append_left hi] at hrow)
    · rw [List.getElem?_append_right hi, List.getElem?_singleton] at hrow
      split at hrow
      · exact Or.inr ⟨by omega, (Option.some.inj hrow).symm⟩
      · simp at hrow
  exact
    { length := by rw [length_overwrite (by omega), hlen₂, hlen]
      room := by
        simp only [hused, List.length_append, List.length_singleton, slotOffset_eq] at hgap hdown ⊢
        simp only [bottom] at hdown
        omega
      slot := fun i row hrow => by
        rcases hcase i row hrow with hold | ⟨rfl, rfl⟩
        · obtain ⟨hi, -⟩ := h.bounds hold
          rw [hpast _ _ (by rw [slotOffset_eq]; omega),
            hkeep _ _ (Or.inl (by simp only [slotOffset_eq]; omega)), h.slot i row hold, htake i hi]
        · rw [hpast _ _ (by rw [slotOffset_eq]; omega), hslot, hall, hbottom, ← hslotBytes]
          rfl
      tuple := fun i row hrow => by
        rcases hcase i row hrow with hold | ⟨rfl, rfl⟩
        · obtain ⟨hi, hlow, -⟩ := h.bounds hold
          rw [htake i hi, hpast _ _ (by omega), hkeep _ _ (Or.inr (by omega)), h.tuple i row hold]
        · rw [hall, hbottom, hpast _ _ (by rw [slotOffset_eq] at hgap; omega), htuple]
      header := by
        rw [hhead, ← hheadBytes, hbottom, List.length_append, List.length_singleton] }

/-- A tuple that fits is stored under the next slot, and the rows before it are
left as they were. -/
theorem insertTuple_of_body (h : PageBody b rows) (data : Bytes)
    (hfit : data.length + Page.slotSize ≤ freeOf rows) :
    ∃ b', (pageOf rows).insertTuple data b =
        (.ok (rows.length, pageOf (rows ++ [⟨data, true⟩])), b') ∧
      PageRep b' (rows ++ [⟨data, true⟩]) := by
  have hroom := h.room
  have hlen := h.length
  have hused : usedBy (rows ++ [⟨data, true⟩]) = usedBy rows + data.length := by
    rw [usedBy_append, usedBy_singleton]
  simp only [freeOf, bottom, slotOffset_eq, Page.slotSize, pageSize_eq] at hfit hroom
  -- the tuple goes right below the others, its slot right behind the others
  have hbottom : bottom (rows ++ [⟨data, true⟩]) = bottom rows - data.length := by
    simp only [bottom, hused, pageSize_eq]
    omega
  obtain ⟨off, hoff⟩ : ∃ off, off = bottom rows - data.length := ⟨_, rfl⟩
  rw [← hoff] at hbottom
  have hdown : bottom rows = off + data.length ∧ off + data.length + usedBy rows = 4096 := by
    simp only [bottom, pageSize_eq] at hoff ⊢
    omega
  have hfree : freeOf rows = freeOf (rows ++ [⟨data, true⟩]) + (data.length + Page.slotSize) := by
    simp only [freeOf, hbottom, slotOffset_eq, List.length_append, List.length_singleton,
      Page.slotSize]
    omega
  have hgrow : (pageOf rows).grow data.length = pageOf (rows ++ [⟨data, true⟩]) := by
    simp only [Page.grow, pageOf, List.length_append, List.length_singleton, hbottom,
      Page.mk.injEq, true_and]
    omega
  have hfreeLe : freeOf (rows ++ [⟨data, true⟩]) ≤ 4096 :=
    Nat.le_trans (Nat.sub_le _ _) (Nat.sub_le _ _)
  have hrun := insertTuple_ok (pageOf rows) hlen (show ((bottom rows : Int) - data.length = off) by
      omega) (show Page.slotOffset rows.length + 6 ≤ off by rw [slotOffset_eq]; omega)
    (show off + data.length ≤ pageSize by rw [pageSize_eq]; omega)
    (by rw [hgrow]; exact fits_formatH.mpr ⟨Int.natCast_nonneg _, by simp only [pageOf]; omega⟩)
  rw [hgrow] at hrun
  exact ⟨_, hrun, pageRep_append h hdown.1 (by rw [slotOffset_eq]; omega)⟩

/-! ## Reading -/

/-- The bytes of a row that was not deleted. -/
def Row.tuple? (row : Row) : Option Bytes := if row.live then some row.data else none

/-- The tuple under a slot. -/
def tupleAt (rows : List Row) (slotId : Nat) : Option Bytes := rows[slotId]?.bind Row.tuple?

/-- The tuples of a page, with their slots, in the order of the slots. -/
def tuplesOf (rows : List Row) : List (Nat × Bytes) :=
  (List.range rows.length).filterMap fun slotId => (tupleAt rows slotId).map (Prod.mk slotId)

/-- The three fields of a slot. -/
theorem unpackH_slot (h : PageBody b rows) (hrow : rows[i]? = some row) :
    unpackH (Page.slotOffset i) b = (.ok (bottom (rows.take (i + 1))), b) ∧
      unpackH (Page.slotOffset i + 2) b = (.ok row.data.length, b) ∧
      unpackH (Page.slotOffset i + 4) b = (.ok (if row.live then 1 else 0), b) := by
  obtain ⟨hi, hlow, hhigh⟩ := h.bounds hrow
  have hroom := h.room
  have hlen := h.length
  rw [slotOffset_eq, pageSize_eq] at hroom
  rw [pageSize_eq] at hlen hhigh
  have hslot := h.slot i row hrow
  have hvalid : ((if row.live then 1 else 0 : Int)) = ((if row.live then 1 else 0 : Nat) : Int) := by
    split <;> rfl
  rw [hvalid] at hslot
  exact unpackH_triple hslot (by rw [slotOffset_eq]; omega) (by omega) (by omega) (by split <;> omega)

theorem getTuple_of_body (h : PageBody b rows) (slotId : Nat) :
    (pageOf rows).getTuple slotId b = (.ok (tupleAt rows slotId), b) := by
  unfold Page.getTuple
  cases hrow : rows[slotId]? with
  | none =>
      have hge : (pageOf rows).numSlots ≤ slotId := List.getElem?_eq_none_iff.mp hrow
      simp [hge, tupleAt, hrow]
  | some row =>
      obtain ⟨hi, -⟩ := List.getElem?_eq_some_iff.mp hrow
      have hlt : ¬ (pageOf rows).numSlots ≤ slotId := Nat.not_le.mpr hi
      obtain ⟨hoff, hlength, hvalid⟩ := unpackH_slot h hrow
      rw [if_neg hlt, Buf.bind_ok hoff, Buf.bind_ok hlength, Buf.bind_ok hvalid]
      cases hlive : row.live with
      | false => simp [tupleAt, hrow, Row.tuple?, hlive]
      | true => simp [tupleAt, hrow, Row.tuple?, hlive, h.tuple slotId row hrow]

/-! ## Deleting -/

/-- The rows after the row of a slot was deleted. -/
def kill (rows : List Row) (slotId : Nat) : List Row :=
  rows.modify slotId fun row => { row with live := false }

@[simp] theorem length_kill (rows : List Row) (slotId : Nat) :
    (kill rows slotId).length = rows.length := by
  simp [kill]

theorem getElem?_kill (rows : List Row) (slotId j : Nat) :
    (kill rows slotId)[j]? =
      if slotId = j then rows[j]?.map fun row => { row with live := false } else rows[j]? := by
  rw [kill, List.getElem?_modify]
  split <;> simp

theorem tupleAt_kill (rs : List Row) (slotId j : Nat) :
    tupleAt (kill rs slotId) j = if slotId = j then none else tupleAt rs j := by
  rw [tupleAt, getElem?_kill, tupleAt]
  split
  · cases rs[j]? <;> simp [Row.tuple?]
  · rfl

/-- Deleting moves no tuple. -/
theorem usedBy_take_kill (rows : List Row) (slotId n : Nat) :
    usedBy ((kill rows slotId).take n) = usedBy (rows.take n) := by
  have hlengths : (kill rows slotId).map (·.data.length) = rows.map (·.data.length) := by
    refine List.ext_getElem? fun j => ?_
    rw [List.getElem?_map, getElem?_kill, List.getElem?_map]
    split <;> cases rows[j]? <;> rfl
  rw [usedBy, List.map_take, hlengths, ← List.map_take]
  rfl

theorem usedBy_kill (rows : List Row) (slotId : Nat) : usedBy (kill rows slotId) = usedBy rows := by
  have h := usedBy_take_kill rows slotId rows.length
  rwa [List.take_length, List.take_of_length_le (by simp)] at h

@[simp] theorem pageOf_kill (rows : List Row) (slotId : Nat) :
    pageOf (kill rows slotId) = pageOf rows := by
  simp [pageOf, freeOf, bottom, usedBy_kill]

/-- The page after the last field of a slot was cleared. -/
theorem pageRep_kill (h : PageRep b rows) (hrow : rows[i]? = some row) :
    PageRep (overwrite b (Page.slotOffset i + 4) (formatH.encode 0)) (kill rows i) := by
  obtain ⟨hi, hlow, hhigh⟩ := h.bounds hrow
  have hroom := h.room
  have hlen := h.length
  have hend : Page.slotOffset i + 6 ≤ b.length := by
    simp only [slotOffset_eq] at hroom ⊢
    omega
  have hclear : slice (overwrite b (Page.slotOffset i + 4) (formatH.encode 0))
      (Page.slotOffset i + 4) 2 = formatH.encode 0 :=
    slice_overwrite_self (by omega)
  have hkeep : ∀ j len, j + len ≤ Page.slotOffset i + 4 ∨ Page.slotOffset i + 6 ≤ j →
      slice (overwrite b (Page.slotOffset i + 4) (formatH.encode 0)) j len = slice b j len :=
    fun j len hj => slice_overwrite_of_disjoint (by omega) (by simp; omega)
  have hbottom : ∀ n, bottom ((kill rows i).take n) = bottom (rows.take n) := fun n => by
    simp only [bottom, usedBy_take_kill]
  have hdata : ∀ j row', (kill rows i)[j]? = some row' → ∃ row, rows[j]? = some row ∧
      row'.data = row.data ∧ row'.live = (row.live && !decide (i = j)) := fun j row' hj => by
    rw [getElem?_kill] at hj
    split at hj
    · obtain ⟨row, hrow, rfl⟩ := Option.map_eq_some_iff.mp hj
      exact ⟨row, hrow, rfl, by simp [*]⟩
    · exact ⟨row', hj, rfl, by simp [*]⟩
  exact
    { length := by rw [length_overwrite (by simp; omega), hlen]
      room := by rw [length_kill, usedBy_kill]; exact hroom
      slot := fun j row' hj => by
        obtain ⟨old, hold, hsame, hlive⟩ := hdata j row' hj
        have hslot := h.slot j old hold
        rw [hbottom, hsame, hlive]
        by_cases hij : i = j
        · subst hij
          -- the first two fields are kept, the third is cleared
          rw [slice_add b _ 4 2] at hslot
          rw [slice_add _ _ 4 2, hclear, hkeep _ _ (Or.inl (Nat.le_refl _))]
          have hsplit : ∀ x y z : Int, Buf.encodeAll formatH [x, y, z] =
              (formatH.encode x ++ formatH.encode y) ++ formatH.encode z := by simp
          rw [hsplit] at hslot ⊢
          obtain ⟨hfirst, -⟩ := List.append_inj hslot (by
            rw [length_slice (by omega)]
            simp)
          simp [hfirst]
        · have hne : Page.slotOffset j + 6 ≤ Page.slotOffset i ∨
              Page.slotOffset i + 6 ≤ Page.slotOffset j := by
            simp only [slotOffset_eq]
            omega
          rw [hkeep _ _ (by omega), hslot]
          simp [hij]
      tuple := fun j row' hj => by
        obtain ⟨old, hold, hsame, -⟩ := hdata j row' hj
        obtain ⟨-, hlow', -⟩ := h.bounds hold
        have habove : Page.slotOffset i + 6 ≤ bottom rows := by
          simp only [bottom, slotOffset_eq] at hroom ⊢
          omega
        rw [hbottom, hsame, hkeep _ _ (Or.inr (by omega))]
        exact h.tuple j old hold
      header := by
        have hfree : freeOf (kill rows i) = freeOf rows := by
          simp [freeOf, bottom, usedBy_kill]
        rw [length_kill, hfree, bottom, usedBy_kill, hkeep _ _ (Or.inl (by
          rw [slotOffset_eq]
          omega))]
        exact h.header }

/-- Deleting a slot of the page: true, and the tuple is gone, exactly when it
was there. -/
theorem deleteTuple_of_rep (h : PageRep b rows) (hrow : rows[i]? = some row) :
    ∃ b', Page.deleteTuple i b = (.ok row.live, b') ∧ PageRep b' (kill rows i) ∧
      (row.live = false → b' = b) := by
  obtain ⟨hi, -⟩ := h.bounds hrow
  obtain ⟨-, -, hvalid⟩ := unpackH_slot h.toPageBody hrow
  have hroom := h.room
  have hlen := h.length
  unfold Page.deleteTuple
  rw [Buf.bind_ok hvalid]
  cases hlive : row.live with
  | false =>
      have hsame : kill rows i = rows := by
        refine List.ext_getElem? fun j => ?_
        rw [getElem?_kill]
        split
        · rename_i hij
          subst hij
          rw [hrow]
          cases row
          simp_all
        · rfl
      exact ⟨b, by simp, by rwa [hsame], fun _ => rfl⟩
  | true =>
      have hpack : packInto formatH (Page.slotOffset i + 4) 0 b =
          (.ok (), overwrite b (Page.slotOffset i + 4) (formatH.encode 0)) :=
        Buf.pack_ok (by decide) (by
          simp only [slotOffset_eq, formatH_width] at hroom ⊢
          omega)
      refine ⟨_, ?_, pageRep_kill h hrow, by simp⟩
      simp only [if_true, ne_eq, one_ne_zero, not_false_eq_true]
      rw [Buf.bind_ok hpack]
      rfl

end

end DBEngine
