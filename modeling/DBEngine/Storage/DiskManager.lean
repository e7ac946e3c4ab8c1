import DBEngine.Python

/-!
# The disk manager

Files are byte strings, pages are their `pageSize`-byte pieces.  Every call
opens the file anew, which creates it when it is missing, and closes it again.
-/

set_option autoImplicit false

namespace DBEngine

open ByteBuffer

/-- `PAGE_SIZE`. -/
def pageSize : Nat := 4096

theorem pageSize_eq : pageSize = 4096 := rfl

theorem pageSize_pos : 0 < pageSize := by decide

/-- Files are named by their number. -/
abbrev FileId : Type := Nat

/-- A page: its file and its number in the file. -/
abbrev PageKey : Type := FileId × Nat

/-- A record id: a page and a slot. -/
abbrev Rid : Type := Nat × Nat

/-- The directory `data/`: the content of every file that exists. -/
structure Disk where
  files : FileId → Option Bytes

namespace Disk

/-- A directory without files. -/
def empty : Disk := ⟨fun _ => none⟩

/-- The bytes of a file; none when it does not exist. -/
def content (d : Disk) (fileId : FileId) : Bytes := (d.files fileId).getD []

/-- `file.seek(pos); file.write(data)`: a gap before `pos` is filled with zeros. -/
def writeAt (bytes : Bytes) (pos : Nat) (data : Bytes) : Bytes :=
  overwrite (bytes ++ zeros (pos - bytes.length)) pos data

/-- Replace the content of a file, creating it when it is missing. -/
def setContent (d : Disk) (fileId : FileId) (bytes : Bytes) : Disk :=
  ⟨Function.update d.files fileId (some bytes)⟩

/-- The number of whole pages of a file, as `DiskManager.open` counts them. -/
def numPages (d : Disk) (fileId : FileId) : Nat := (d.content fileId).length / pageSize

/-- `DiskManager.write_page`. -/
def writePage (pageId : Nat) (fileId : FileId) (data : Bytes) (d : Disk) : Disk :=
  d.setContent fileId (writeAt (d.content fileId) (pageId * pageSize) data)

/-- The page `DiskManager.read_page` returns: a page of zeros past the end of
the file. -/
def page (d : Disk) (k : PageKey) : Bytes :=
  let raw := slice (d.content k.1) (k.2 * pageSize) pageSize
  if raw = [] then zeros pageSize else raw

/-- `DiskManager.read_page`. -/
def readPage (pageId : Nat) (fileId : FileId) (d : Disk) : Bytes × Disk :=
  (d.page (fileId, pageId), d.setContent fileId (d.content fileId))

/-- `DiskManager.allocate_page`. -/
def allocatePage (fileId : FileId) (d : Disk) : Nat × Disk :=
  (d.numPages fileId,
    d.setContent fileId
      (writeAt (d.content fileId) (d.numPages fileId * pageSize) (zeros pageSize)))

/-- `os.remove(f'data/{file_id}.db')`. -/
def remove (fileId : FileId) (d : Disk) : Except PyErr Unit × Disk :=
  match d.files fileId with
  | none => (.error .fileNotFound, d)
  | some _ => (.ok (), ⟨Function.update d.files fileId none⟩)

@[simp] theorem content_setContent_self (d : Disk) (fileId : FileId) (bytes : Bytes) :
    (d.setContent fileId bytes).content fileId = bytes := by
  simp [setContent, content]

@[simp] theorem content_setContent_of_ne (d : Disk) {fileId g : FileId} (h : g ≠ fileId)
    (bytes : Bytes) : (d.setContent fileId bytes).content g = d.content g := by
  simp [setContent, content, h]

@[simp] theorem content_readPage (d : Disk) (pageId : Nat) (fileId g : FileId) :
    (d.readPage pageId fileId).2.content g = d.content g := by
  by_cases h : g = fileId
  · subst h
    simp [readPage]
  · simp [readPage, h]

theorem page_congr {d d' : Disk} {k : PageKey} (h : d'.content k.1 = d.content k.1) :
    d'.page k = d.page k := by
  simp only [page, h]

/-- The file consists of whole pages. -/
def Whole (d : Disk) (fileId : FileId) : Prop :=
  (d.content fileId).length = d.numPages fileId * pageSize

theorem whole_empty (fileId : FileId) : empty.Whole fileId := by
  simp [Whole, numPages, content, empty]

/-! ## Writing a page that exists -/

section

variable {d : Disk} {fileId : FileId} {pageId : Nat} {data : Bytes}

/-- Inside the file, writing at a position overwrites. -/
theorem writeAt_of_le {bytes : Bytes} {pos : Nat} (h : pos ≤ bytes.length) (data : Bytes) :
    writeAt bytes pos data = overwrite bytes pos data := by
  simp [writeAt, Nat.sub_eq_zero_of_le h, zeros]

theorem page_end_le (hw : d.Whole fileId) (hp : pageId < d.numPages fileId) :
    pageId * pageSize + pageSize ≤ (d.content fileId).length := by
  rw [hw, ← Nat.succ_mul]
  exact Nat.mul_le_mul_right _ hp

theorem content_writePage (hw : d.Whole fileId) (hp : pageId < d.numPages fileId) :
    (d.writePage pageId fileId data).content fileId =
      overwrite (d.content fileId) (pageId * pageSize) data := by
  have hend := page_end_le hw hp
  rw [writePage, content_setContent_self, writeAt_of_le (by omega)]

theorem content_writePage_of_ne {g : FileId} (h : g ≠ fileId) :
    (d.writePage pageId fileId data).content g = d.content g := by
  rw [writePage, content_setContent_of_ne _ h]

theorem length_writePage (hw : d.Whole fileId) (hp : pageId < d.numPages fileId)
    (hdata : data.length = pageSize) :
    ((d.writePage pageId fileId data).content fileId).length = (d.content fileId).length := by
  have hend := page_end_le hw hp
  rw [content_writePage hw hp, length_overwrite (by omega)]

theorem page_writePage_self (hw : d.Whole fileId) (hp : pageId < d.numPages fileId)
    (hdata : data.length = pageSize) :
    (d.writePage pageId fileId data).page (fileId, pageId) = data := by
  have hend := page_end_le hw hp
  have hslice : slice (overwrite (d.content fileId) (pageId * pageSize) data)
      (pageId * pageSize) data.length = data := slice_overwrite_self (by omega)
  rw [hdata] at hslice
  have hne : data ≠ [] := by
    intro h
    rw [h] at hdata
    exact absurd hdata (by decide)
  simp only [page, content_writePage hw hp, hslice, if_neg hne]

theorem page_writePage_of_ne (hw : d.Whole fileId) (hp : pageId < d.numPages fileId)
    (hdata : data.length = pageSize) {k : PageKey} (hk : k ≠ (fileId, pageId)) :
    (d.writePage pageId fileId data).page k = d.page k := by
  obtain ⟨g, q⟩ := k
  by_cases hg : g = fileId
  · subst hg
    have hend := page_end_le hw hp
    have hq : q ≠ pageId := fun h => hk (by rw [h])
    have hslice : slice (overwrite (d.content g) (pageId * pageSize) data) (q * pageSize) pageSize =
        slice (d.content g) (q * pageSize) pageSize := by
      rcases Nat.lt_or_gt_of_ne hq with hlt | hgt
      · refine slice_overwrite_of_le (by omega) ?_
        rw [← Nat.succ_mul]
        exact Nat.mul_le_mul_right _ hlt
      · refine slice_overwrite_of_ge (by omega) ?_
        rw [hdata, ← Nat.succ_mul]
        exact Nat.mul_le_mul_right _ hgt
    simp only [page, content_writePage hw hp, hslice]
  · exact page_congr (content_writePage_of_ne hg)

/-- Every page of a file of whole pages has the length of a page. -/
theorem length_page (hw : d.Whole fileId) (pageId : Nat) :
    (d.page (fileId, pageId)).length = pageSize := by
  simp only [page]
  rcases Nat.lt_or_ge pageId (d.numPages fileId) with hp | hp
  · have hlen := length_slice (page_end_le hw hp)
    split
    · simp
    · exact hlen
  · have hend : (d.content fileId).length ≤ pageId * pageSize := by
      rw [hw]
      exact Nat.mul_le_mul_right _ hp
    simp [slice, List.drop_eq_nil_of_le hend]

/-- Past the end of the file every page is zeros. -/
theorem page_of_ge (hw : d.Whole fileId) (hp : d.numPages fileId ≤ pageId) :
    d.page (fileId, pageId) = zeros pageSize := by
  have hend : (d.content fileId).length ≤ pageId * pageSize := by
    rw [hw]
    exact Nat.mul_le_mul_right _ hp
  simp [page, slice, List.drop_eq_nil_of_le hend]

/-! ## Allocating a page -/

theorem content_allocatePage (hw : d.Whole fileId) :
    (d.allocatePage fileId).2.content fileId = d.content fileId ++ zeros pageSize := by
  have hlen : d.numPages fileId * pageSize = (d.content fileId).length := hw.symm
  rw [allocatePage, content_setContent_self, hlen, writeAt_of_le (Nat.le_refl _)]
  simp [overwrite]

theorem content_allocatePage_of_ne {g : FileId} (h : g ≠ fileId) :
    (d.allocatePage fileId).2.content g = d.content g := by
  rw [allocatePage, content_setContent_of_ne _ h]

theorem whole_allocatePage (hw : d.Whole fileId) : (d.allocatePage fileId).2.Whole fileId := by
  have hlen : ((d.allocatePage fileId).2.content fileId).length =
      (d.numPages fileId + 1) * pageSize := by
    rw [content_allocatePage hw, List.length_append, length_zeros, hw, Nat.succ_mul]
  rw [Whole, numPages, hlen, Nat.mul_div_cancel _ pageSize_pos]

/-- Allocation changes no page a client can read: the new page reads as zeros,
as it did past the end. -/
theorem page_allocatePage (hw : d.Whole fileId) (k : PageKey) :
    (d.allocatePage fileId).2.page k = d.page k := by
  obtain ⟨g, q⟩ := k
  by_cases hg : g = fileId
  · subst hg
    rcases Nat.lt_or_ge q (d.numPages g) with hq | hq
    · have hend := page_end_le hw hq
      have hslice : slice (d.content g ++ zeros pageSize) (q * pageSize) pageSize =
          slice (d.content g) (q * pageSize) pageSize := by
        unfold slice
        rw [List.drop_append_of_le_length (by omega), List.take_append_of_le_length]
        rw [List.length_drop]
        omega
      simp only [page, content_allocatePage hw, hslice]
    · have hlen : (d.content g).length ≤ q * pageSize := by
        rw [hw]
        exact Nat.mul_le_mul_right _ hq
      have hold : slice (d.content g) (q * pageSize) pageSize = [] := by
        simp [slice, List.drop_eq_nil_of_le hlen]
      -- past the old end the new slice is empty or the page of zeros just written
      have hnew : slice (d.content g ++ zeros pageSize) (q * pageSize) pageSize = [] ∨
          slice (d.content g ++ zeros pageSize) (q * pageSize) pageSize = zeros pageSize := by
        rcases Nat.eq_or_lt_of_le hq with heq | hlt
        · right
          have hpos : (d.content g).length = q * pageSize := by rw [hw, heq]
          have hmid := slice_append_mid (d.content g) (zeros pageSize) []
          rw [List.append_nil, length_zeros, hpos] at hmid
          exact hmid
        · left
          have hend : (d.content g).length + pageSize ≤ q * pageSize := by
            rw [hw, ← Nat.succ_mul]
            exact Nat.mul_le_mul_right _ hlt
          unfold slice
          rw [List.drop_eq_nil_of_le (by simpa using hend)]
          rfl
      simp only [page, content_allocatePage hw, hold, if_true]
      rcases hnew with h | h
      · rw [if_pos h]
      · rw [h, ite_self]
  · exact page_congr (content_allocatePage_of_ne hg)

end

end Disk

end DBEngine
