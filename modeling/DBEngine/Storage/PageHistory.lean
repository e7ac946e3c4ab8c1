import DBEngine.Storage.PageLayout

/-!
# Histories of a page

What becomes of a page from a new one on zero bytes on: tuples are inserted as long
as they fit, slots in use are deleted, and a new object is made over the same bytes.
The slots grow upwards and the tuples downwards, and what is between them was never
written.
-/

set_option autoImplicit false

namespace DBEngine

open ByteBuffer

/-- A call of a page object, or a new object over the bytes of the page. -/
inductive PageCall where
  | insert (data : Bytes)
  | delete (slotId : Nat)
  | reload
  deriving DecidableEq, Repr

/-- The rows of a page after a call. -/
def PageCall.rowsAfter : PageCall → List Row → List Row
  | .insert data, rows => rows ++ [⟨data, true⟩]
  | .delete slotId, rows => kill rows slotId
  | .reload, rows => rows

/-- The rows of a page after calls from a new page on. -/
def insertedBy (calls : List PageCall) : List Row :=
  calls.foldl (fun rows call => call.rowsAfter rows) []

namespace Page

/-- The page object after a call. -/
def perform (page : Page) : PageCall → Buf PyErr Page
  | .insert data => do
      let (_, page) ← page.insertTuple data
      pure page
  | .delete slotId => do
      let _ ← deleteTuple slotId
      pure page
  | .reload => init false

/-- The calls the users of a page make: a tuple has room with its slot, and a slot is in use. -/
def Allows (page : Page) : PageCall → Prop
  | .insert data => ((data.length + slotSize : Nat) : Int) ≤ page.freeSpace
  | .delete slotId => slotId < page.numSlots
  | .reload => True

/-- The page object and the bytes after calls that the page allowed. -/
inductive Reached : List PageCall → Page → Bytes → Prop
  | new {page : Page} {b : Bytes} (h : init true (zeros pageSize) = (.ok page, b)) : Reached [] page b
  | call {calls : List PageCall} {page page' : Page} {b b' : Bytes} {call : PageCall}
      (h : Reached calls page b) (hallowed : page.Allows call)
      (hcall : page.perform call b = (.ok page', b')) : Reached (calls ++ [call]) page' b'

end Page

/-! ## What is never written -/

/-- Nothing was written between the slots and the tuples. -/
def GapClear (b : Bytes) (rows : List Row) : Prop :=
  ∀ i len, Page.slotOffset rows.length ≤ i → i + len ≤ bottom rows → slice b i len = zeros len

theorem slice_zeros {n i len : Nat} (h : i + len ≤ n) : slice (zeros n) i len = zeros len := by
  rw [slice, zeros, List.drop_replicate, List.take_replicate, zeros, min_eq_left (by omega)]

section

variable {b : Bytes} {rows : List Row}

/-- The first page object over zero bytes. -/
theorem init_new_zeros : ∃ b, Page.init true (zeros pageSize) = (.ok (pageOf []), b) ∧
    PageRep b [] ∧ GapClear b [] := by
  have hlen : (zeros pageSize).length = 4096 := length_zeros _
  obtain ⟨b₁, hb₁⟩ : ∃ b₁, b₁ = overwrite (zeros pageSize) 2 (formatH.encode (pageSize : Int)) := ⟨_, rfl⟩
  obtain ⟨b₂, hb₂⟩ : ∃ b₂, b₂ = overwrite b₁ 4 (formatH.encode (pageSize - Page.headerSize : Int)) := ⟨_, rfl⟩
  have hlen₁ : b₁.length = 4096 := by rw [hb₁, length_overwrite (by rw [hlen]; decide), hlen]
  have hlen₂ : b₂.length = 4096 := by rw [hb₂, length_overwrite (by rw [hlen₁]; decide), hlen₁]
  have hpack₁ : packInto formatH 2 (pageSize : Int) (zeros pageSize) = (.ok (), b₁) := by
    rw [hb₁]
    exact Buf.pack_ok (by decide) (by rw [hlen]; decide)
  have hpack₂ : packInto formatH 4 (pageSize - Page.headerSize : Int) b₁ = (.ok (), b₂) := by
    rw [hb₂]
    exact Buf.pack_ok (by decide) (by rw [hlen₁]; decide)
  -- the count is not written, and is zero already
  have hcount : slice b₂ 0 2 = [0, 0] := by
    rw [hb₂, slice_overwrite_of_le (by omega) (by omega), hb₁,
      slice_overwrite_of_le (by omega) (by omega), slice_zeros (by rw [pageSize_eq]; omega)]
    rfl
  have hpointer : slice b₂ 2 2 = formatH.encode pageSize := by
    rw [hb₂, slice_overwrite_of_le (by omega) (by omega), hb₁]
    exact slice_overwrite_self (by omega)
  have hfree : slice b₂ 4 2 = formatH.encode (pageSize - Page.headerSize) := by
    rw [hb₂]
    exact slice_overwrite_self (by omega)
  have hrest : ∀ i len, 6 ≤ i → i + len ≤ 4096 → slice b₂ i len = zeros len := by
    intro i len hi hend
    rw [hb₂, slice_overwrite_of_ge (by omega) (by simpa using hi), hb₁,
      slice_overwrite_of_ge (by omega) (by simp; omega), slice_zeros (by rw [pageSize_eq]; omega)]
  refine ⟨b₂, ?_, { toPageBody := pageBody_nil (hlen₂.trans pageSize_eq.symm), header := ?_ }, ?_⟩
  · simp only [Page.init, if_true]
    rw [Buf.bind_ok hpack₁, Buf.bind_ok hpack₂]
    rfl
  · rw [slice_add b₂ 0 2 4, slice_add b₂ (0 + 2) 2 2, hcount, hpointer, hfree]
    rfl
  · intro i len hi hend
    simp only [slotOffset_eq, List.length_nil, bottom, usedBy_nil, pageSize_eq] at hi hend
    exact hrest i len (by omega) (by omega)

/-- An insert writes the header, its slot and its tuple, and nothing else. -/
theorem gapClear_insertTuple (h : PageBody b rows) (hgap : GapClear b rows) {data : Bytes}
    (hfit : data.length + Page.slotSize ≤ freeOf rows) {taken : Nat × Page} {b' : Bytes}
    (hrun : (pageOf rows).insertTuple data b = (.ok taken, b')) :
    GapClear b' (rows ++ [⟨data, true⟩]) := by
  have hroom := h.room
  have hlen := h.length
  simp only [freeOf, bottom, slotOffset_eq, Page.slotSize, pageSize_eq] at hfit hroom
  have hused : usedBy (rows ++ [⟨data, true⟩]) = usedBy rows + data.length := by
    rw [usedBy_append, usedBy_singleton]
  obtain ⟨off, hoff⟩ : ∃ off, bottom rows = off + data.length ∧ off + data.length + usedBy rows = 4096 :=
    ⟨bottom rows - data.length, by simp only [bottom, pageSize_eq]; omega⟩
  have hfree : formatH.Fits ((pageOf rows).grow data.length).freeSpace := by
    refine fits_formatH.mpr ?_
    simp only [Page.grow, pageOf, freeOf, slotOffset_eq, Page.slotSize, hoff.1]
    omega
  rw [insertTuple_ok (pageOf rows) hlen (show ((bottom rows : Int) - data.length = off) by omega)
    (show Page.slotOffset rows.length + 6 ≤ off by rw [slotOffset_eq]; omega)
    (show off + data.length ≤ pageSize by rw [pageSize_eq]; omega) hfree] at hrun
  rw [← (Prod.mk.inj hrun).2]
  intro i len hi hend
  simp only [List.length_append, List.length_singleton, slotOffset_eq] at hi
  have hbottom : bottom (rows ++ [⟨data, true⟩]) = off := by
    simp only [bottom, hused, pageSize_eq]
    omega
  rw [hbottom] at hend
  rw [pageSize_eq] at hlen
  have hlen₁ : (overwrite b off data).length = 4096 := by rw [length_overwrite (by omega), hlen]
  have hlen₂ : (overwrite (overwrite b off data) (Page.slotOffset (pageOf rows).numSlots)
      (Buf.encodeAll formatH [(off : Int), data.length, 1])).length = 4096 := by
    rw [length_overwrite (by simp [hlen₁, slotOffset_eq, pageOf]; omega), hlen₁]
  rw [slice_overwrite_of_ge (by omega) (by simp; omega),
    slice_overwrite_of_ge (by simp [hlen₁, slotOffset_eq, pageOf]; omega)
      (by simp [slotOffset_eq, pageOf]; omega),
    slice_overwrite_of_le (by omega) hend]
  exact hgap i len (by rw [slotOffset_eq]; omega) (by omega)

/-- The last field of a slot's entry, read off the page. -/
theorem unpackH_valid {off : Nat} (hend : off + 2 ≤ b.length) :
    ∃ valid, unpackH off b = (.ok valid, b) ∧ (valid = 0 ↔ slice b off 2 = [0, 0]) := by
  have hlt : decodeLE (slice b off 2) < 65536 := by
    have hbound := decodeLE_lt (slice b off 2)
    rwa [length_slice hend] at hbound
  refine ⟨decodeLE (slice b off 2), ?_, ?_⟩
  · have hread : unpackFrom formatH off b = (.ok (formatH.decode (slice b off 2)), b) :=
      Buf.unpack_ok hend
    have hdecode : formatH.decode (slice b off 2) = decodeLE (slice b off 2) := by
      unfold Format.decode
      exact if_pos (by simp only [formatH]; norm_num; omega)
    rw [hdecode] at hread
    exact unpackH_of_unpack hread
  · rw [decodeLE_eq_zero_iff, length_slice hend]
    rfl

/-- `delete_tuple` reads two bytes, and clears them unless they are zero already, whatever
they belong to. -/
theorem deleteTuple_eq {slotId : Nat} (hend : Page.slotOffset slotId + Page.slotSize ≤ b.length) :
    (slice b (Page.slotOffset slotId + 4) 2 = [0, 0] → Page.deleteTuple slotId b = (.ok false, b)) ∧
    (slice b (Page.slotOffset slotId + 4) 2 ≠ [0, 0] → Page.deleteTuple slotId b =
      (.ok true, overwrite b (Page.slotOffset slotId + 4) (formatH.encode 0))) := by
  simp only [Page.slotSize] at hend
  obtain ⟨valid, hread, hzero⟩ := unpackH_valid
    (show Page.slotOffset slotId + 4 + 2 ≤ b.length by omega)
  unfold Page.deleteTuple
  rw [Buf.bind_ok hread]
  refine ⟨fun hvalid => ?_, fun hvalid => ?_⟩
  · rw [hzero.mpr hvalid]
    rfl
  · have hpack : packInto formatH (Page.slotOffset slotId + 4) 0 b =
        (.ok (), overwrite b (Page.slotOffset slotId + 4) (formatH.encode 0)) :=
      Buf.pack_ok (by decide) (by simp only [formatH_width]; omega)
    rw [if_pos (mt hzero.mp hvalid)]
    exact (Buf.bind_ok hpack).trans rfl

/-- Beside those two bytes nothing changes. -/
theorem slice_deleteTuple {slotId : Nat} (hend : Page.slotOffset slotId + Page.slotSize ≤ b.length)
    {deleted : Bool} {b' : Bytes} (hrun : Page.deleteTuple slotId b = (.ok deleted, b')) {j len : Nat}
    (hj : j + len ≤ Page.slotOffset slotId + 4 ∨ Page.slotOffset slotId + 6 ≤ j) :
    slice b' j len = slice b j len := by
  obtain ⟨hclear, hset⟩ := deleteTuple_eq hend
  simp only [Page.slotSize] at hend
  by_cases hvalid : slice b (Page.slotOffset slotId + 4) 2 = [0, 0]
  · rw [← (Prod.mk.inj ((hclear hvalid).symm.trans hrun)).2]
  · rw [← (Prod.mk.inj ((hset hvalid).symm.trans hrun)).2]
    exact slice_overwrite_of_disjoint (by omega) (by simpa using hj)

/-- A slot in use is cleared in its own entry. -/
theorem gapClear_deleteTuple (h : PageRep b rows) (hgap : GapClear b rows) {i : Nat} (hi : i < rows.length)
    {deleted : Bool} {b' : Bytes} (hrun : Page.deleteTuple i b = (.ok deleted, b')) :
    GapClear b' (kill rows i) := by
  have hroom := h.room
  have hlen := h.length
  simp only [slotOffset_eq] at hroom
  have hbottom : bottom (kill rows i) = bottom rows := by simp only [bottom, usedBy_kill]
  intro j len hj hend
  rw [length_kill] at hj
  rw [hbottom] at hend
  rw [slice_deleteTuple (by simp only [slotOffset_eq, Page.slotSize]; omega) hrun
    (.inr (by simp only [slotOffset_eq] at hj ⊢; omega))]
  exact hgap j len hj hend

/-! ## Calls -/

/-- A call that the page allows returns, and the page holds the rows it should. -/
theorem perform_of_rep (h : PageRep b rows) (hgap : GapClear b rows) {call : PageCall}
    (hallowed : (pageOf rows).Allows call) : ∃ b', (pageOf rows).perform call b =
      (.ok (pageOf (call.rowsAfter rows)), b') ∧
      PageRep b' (call.rowsAfter rows) ∧ GapClear b' (call.rowsAfter rows) := by
  cases call with
  | insert data =>
      have hfit : data.length + Page.slotSize ≤ freeOf rows := Int.ofNat_le.mp hallowed
      obtain ⟨b', hrun, hrep⟩ := insertTuple_of_body h.toPageBody data hfit
      exact ⟨b', Buf.bind_ok hrun, hrep, gapClear_insertTuple h.toPageBody hgap hfit hrun⟩
  | delete slotId =>
      have hslot : slotId < rows.length := hallowed
      obtain ⟨b', hrun, hrep, -⟩ := deleteTuple_of_rep h (List.getElem?_eq_getElem hslot)
      refine ⟨b', ?_, hrep, gapClear_deleteTuple h hgap hslot hrun⟩
      rw [Page.perform, Buf.bind_ok hrun, PageCall.rowsAfter, pageOf_kill]
      rfl
  | reload => exact ⟨b, init_of_rep h, h, hgap⟩

end

namespace Page

section

variable {calls : List PageCall} {page : Page} {b : Bytes}

theorem insertedBy_append (calls : List PageCall) (call : PageCall) :
    insertedBy (calls ++ [call]) = call.rowsAfter (insertedBy calls) := by
  simp [insertedBy]

/-- At every moment the page holds the tuples inserted, and the object agrees with it. -/
theorem Reached.rep (h : Reached calls page b) :
    page = pageOf (insertedBy calls) ∧ PageRep b (insertedBy calls) ∧ GapClear b (insertedBy calls) := by
  induction h with
  | new h =>
      obtain ⟨b', hrun, hrep, hgap⟩ := init_new_zeros
      obtain ⟨hpage, rfl⟩ := Prod.mk.inj (h.symm.trans hrun)
      exact ⟨Except.ok.inj hpage, hrep, hgap⟩
  | @call calls page page' b b' call _ hallowed hcall ih =>
      obtain ⟨rfl, hrep, hgap⟩ := ih
      obtain ⟨b'', hrun, hrep', hgap'⟩ := perform_of_rep hrep hgap hallowed
      obtain ⟨hpage, rfl⟩ := Prod.mk.inj (hcall.symm.trans hrun)
      rw [insertedBy_append]
      exact ⟨Except.ok.inj hpage, hrep', hgap'⟩

theorem exists_reached_new : ∃ b, Reached [] (pageOf []) b := by
  obtain ⟨b, hrun, -, -⟩ := init_new_zeros
  exact ⟨b, .new hrun⟩

/-- No call that a page allows raises. -/
theorem Reached.perform_ok (h : Reached calls page b) {call : PageCall} (hallowed : page.Allows call) :
    ∃ b', page.perform call b = (.ok (pageOf (insertedBy (calls ++ [call]))), b') ∧
      Reached (calls ++ [call]) (pageOf (insertedBy (calls ++ [call]))) b' := by
  obtain ⟨rfl, hrep, hgap⟩ := h.rep
  obtain ⟨b', hrun, -, -⟩ := perform_of_rep hrep hgap hallowed
  rw [← insertedBy_append] at hrun
  exact ⟨b', hrun, .call h hallowed hrun⟩

end

/-! ## The layout -/

/-- Where the tuples of a page lie: `offset` says where each was put.  Header and slots end
before the first of them, no two overlap, and the page object has counted every byte. -/
structure LaidOut (page : Page) (b : Bytes) (rows : List Row) (offset : Nat → Nat) : Prop where
  slots : page.numSlots = rows.length
  counted : page.freeSpace = page.freeSpacePointer - headerSize - slotSize * page.numSlots
  nonneg : 0 ≤ page.freeSpace
  header : init false b = (.ok page, b)
  entry : ∀ i row, rows[i]? = some row → unpackH (slotOffset i) b = (.ok (offset i), b) ∧
    unpackH (slotOffset i + 2) b = (.ok row.data.length, b)
  stored : ∀ i row, rows[i]? = some row → slice b (offset i) row.data.length = row.data
  behind : ∀ i < rows.length, headerSize + slotSize * page.numSlots ≤ offset i
  inside : ∀ i row, rows[i]? = some row → offset i + row.data.length ≤ pageSize
  apart : ∀ i j row row', i ≠ j → rows[i]? = some row → rows[j]? = some row' →
    offset i + row.data.length ≤ offset j ∨ offset j + row'.data.length ≤ offset i
  read : ∀ i row, rows[i]? = some row → row.live = true → page.getTuple i b = (.ok (some row.data), b)

end Page

/-- A later tuple lies below an earlier one. -/
theorem PageBody.below {b : Bytes} {rows : List Row} (h : PageBody b rows) {i j : Nat} {row : Row}
    (hij : i < j) (hrow : rows[j]? = some row) :
    bottom (rows.take (j + 1)) + row.data.length ≤ bottom (rows.take (i + 1)) := by
  have hroom := h.room
  have hlen := length_le_usedBy_take hrow
  have hall := usedBy_take_le rows (j + 1)
  have hfirst := usedBy_take_le (rows.take j) (i + 1)
  rw [List.take_take, min_eq_left (show i + 1 ≤ j by omega)] at hfirst
  simp only [bottom]
  omega

namespace Page

section

variable {calls : List PageCall} {page : Page} {b : Bytes}

theorem laidOut_of_rep {rows : List Row} (h : PageRep b rows) :
    (pageOf rows).LaidOut b rows fun i => bottom (rows.take (i + 1)) where
  slots := rfl
  counted := by
    have hroom := h.room
    simp only [pageOf, freeOf, bottom, slotOffset_eq, headerSize, slotSize, pageSize_eq] at hroom ⊢
    omega
  nonneg := Int.natCast_nonneg _
  header := init_of_rep h
  entry i row hrow := ⟨(unpackH_slot h.toPageBody hrow).1, (unpackH_slot h.toPageBody hrow).2.1⟩
  stored := h.tuple
  behind i hi := by
    obtain ⟨-, hlow, -⟩ := h.bounds (List.getElem?_eq_getElem hi)
    have hroom := h.room
    simp only [slotOffset_eq] at hroom
    simp only [bottom, pageOf, headerSize, slotSize] at hlow ⊢
    omega
  inside i row hrow := (h.bounds hrow).2.2
  apart i j row row' hij hi hj := by
    rcases Nat.lt_or_gt_of_ne hij with hlt | hgt
    · exact .inr (h.below hlt hj)
    · exact .inl (h.below hgt hi)
  read i row hrow hlive := by
    rw [getTuple_of_body h.toPageBody i, tupleAt, hrow, Option.bind_some, Row.tuple?, if_pos hlive]

/-- However the calls come, slots and tuples never overlap, the object and the header
account for every byte, every tuple that was not deleted is there, and no call that the
page allows raises. -/
theorem Reached.laidOut (h : Reached calls page b) :
    (∃ offset, page.LaidOut b (insertedBy calls) offset) ∧
    ∀ call, page.Allows call → ∃ page' b', page.perform call b = (.ok page', b') := by
  refine ⟨?_, fun call hallowed => ?_⟩
  · obtain ⟨rfl, hrep, -⟩ := h.rep
    exact ⟨_, laidOut_of_rep hrep⟩
  · obtain ⟨b', hrun, -⟩ := h.perform_ok hallowed
    exact ⟨_, b', hrun⟩

/-- A tuple, an empty one, and the first deleted. -/
theorem laidOut_three : ∃ (page : Page) (b : Bytes),
    (∃ offset, page.LaidOut b (insertedBy [.insert [7, 8], .insert [], .delete 0]) offset) ∧
    ∀ call, page.Allows call → ∃ page' b', page.perform call b = (.ok page', b') := by
  obtain ⟨b₀, h₀⟩ := exists_reached_new
  obtain ⟨b₁, -, h₁⟩ := h₀.perform_ok (show Allows _ (.insert [7, 8]) by unfold Allows; decide)
  obtain ⟨b₂, -, h₂⟩ := h₁.perform_ok (show Allows _ (.insert []) by unfold Allows; decide)
  obtain ⟨b₃, -, h₃⟩ := h₂.perform_ok (show Allows _ (.delete 0) by unfold Allows; decide)
  exact ⟨_, b₃, Reached.laidOut h₃⟩

/-! ## Deleting any slot -/

/-- Deleting a slot touches only that slot: it says whether there was a tuple, there is none
afterwards, and every other slot reads as before, as does the header. -/
def DeletesOnly (page : Page) (b : Bytes) (slotId : Nat) : Prop :=
  ∃ deleted b', deleteTuple slotId b = (.ok deleted, b') ∧
    (deleted = true ↔ ∃ data, (page.getTuple slotId b).1 = .ok (some data)) ∧
    page.getTuple slotId b' = (.ok none, b') ∧
    (∀ other, other ≠ slotId → (page.getTuple other b').1 = (page.getTuple other b).1) ∧
    slice b' 0 headerSize = slice b 0 headerSize

/-- A slot in use. -/
theorem deletesOnly_used {rows : List Row} (h : PageRep b rows) {slotId : Nat} (hslot : slotId < rows.length) :
    (pageOf rows).DeletesOnly b slotId := by
  have hrow := List.getElem?_eq_getElem hslot
  obtain ⟨b', hrun, hrep, -⟩ := deleteTuple_of_rep h hrow
  have hlen := h.length
  have hroom := h.room
  have hread : ∀ j, (pageOf rows).getTuple j b' = (.ok (tupleAt (kill rows slotId) j), b') := fun j =>
    pageOf_kill rows slotId ▸ getTuple_of_body hrep.toPageBody j
  refine ⟨rows[slotId].live, b', hrun, ?_, ?_, fun other hne => ?_, ?_⟩
  · rw [getTuple_of_body h.toPageBody slotId, tupleAt, hrow, Option.bind_some, Row.tuple?]
    cases rows[slotId].live with
    | false => simp
    | true => simp
  · rw [hread, tupleAt_kill, if_pos rfl]
  · rw [hread, getTuple_of_body h.toPageBody other, tupleAt_kill, if_neg hne.symm]
  · simp only [slotOffset_eq] at hroom
    exact slice_deleteTuple (by simp only [slotOffset_eq, slotSize]; omega) hrun
      (.inl (by simp only [slotOffset_eq, headerSize]; omega))

/-- A slot that is not in use has no tuple. -/
theorem getTuple_unused {page : Page} {slotId : Nat} (hslot : page.numSlots ≤ slotId) (b : Bytes) :
    page.getTuple slotId b = (.ok none, b) := by
  unfold getTuple
  rw [if_pos hslot]
  rfl

/-- A slot that is not in use: `delete_tuple` does not look whether it is, and leaves the
page alone only if it finds zeros there. -/
theorem deletesOnly_unused_iff {page : Page} {slotId : Nat} (hslot : page.numSlots ≤ slotId)
    (hend : slotOffset slotId + slotSize ≤ b.length) :
    page.DeletesOnly b slotId ↔ slice b (slotOffset slotId + 4) 2 = [0, 0] := by
  obtain ⟨hclear, hset⟩ := deleteTuple_eq hend
  constructor
  · rintro ⟨deleted, b', hrun, hdeleted, -⟩
    by_contra hvalid
    obtain ⟨htrue, -⟩ := Prod.mk.inj ((hset hvalid).symm.trans hrun)
    obtain ⟨data, hdata⟩ := hdeleted.mp (Except.ok.inj htrue).symm
    rw [getTuple_unused hslot] at hdata
    simp at hdata
  · intro hvalid
    refine ⟨false, b, hclear hvalid, ?_, getTuple_unused hslot b, fun other _ => rfl, rfl⟩
    rw [getTuple_unused hslot]
    simp

/-- In free space there are zeros: a slot that would lie between the slots and the tuples
is never deleted. -/
theorem Reached.deletesOnly_free (h : Reached calls page b) {slotId : Nat} (hslot : page.numSlots ≤ slotId)
    (hend : (slotOffset slotId + slotSize : Nat) ≤ page.freeSpacePointer) : page.DeletesOnly b slotId := by
  obtain ⟨rfl, hrep, hgap⟩ := h.rep
  have hfree : slotOffset slotId + slotSize ≤ bottom (insertedBy calls) := Int.ofNat_le.mp hend
  have hbottom : bottom (insertedBy calls) ≤ b.length := hrep.length.symm ▸ Nat.sub_le _ _
  have hunused : (insertedBy calls).length ≤ slotId := hslot
  refine (deletesOnly_unused_iff hslot (hfree.trans hbottom)).mpr ?_
  exact hgap _ 2 (by simp only [slotOffset_eq]; omega) (by simp only [slotSize] at hfree; omega)

end

end Page

end DBEngine
