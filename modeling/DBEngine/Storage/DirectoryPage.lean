import DBEngine.Storage.PageLayout

/-!
# The directory of a heap file

Page 0 of a heap file counts the pages of the file and lists, for each data
page, its number, its free space and its number of slots.  `DirRep b entries`
says that the buffer `b` lists the data pages `1, 2, ..` with these entries.
-/

set_option autoImplicit false

namespace DBEngine

open ByteBuffer

/-- A `DirectoryPage` without its buffer, which its methods work on in place. -/
structure DirectoryPage where
  pageCount : Nat
  freeSpace : Dict Nat Int
  deriving DecidableEq, Repr

namespace DirectoryPage

/-- The loop of `deserialize`. -/
def readEntries : Nat → Nat → Dict Nat Int → Buf PyErr (Dict Nat Int)
  | 0, _, freeSpace => pure freeSpace
  | n + 1, offset, freeSpace => do
      let pageId ← unpackH offset
      let free ← unpackH (offset + 2)
      readEntries n (offset + 6) (freeSpace.set pageId free)

/-- `deserialize`. -/
def deserialize : Buf PyErr DirectoryPage := do
  let pageCount ← unpackH 0
  let freeSpace ← readEntries (pageCount - 1) 2 [(0, 0)]
  pure ⟨pageCount, freeSpace⟩

/-- `DirectoryPage(dir_raw, new_directory)`. -/
def init (newDirectory : Bool) : Buf PyErr DirectoryPage :=
  if newDirectory then do
    packInto formatH 0 1
    pure ⟨1, [(0, 0)]⟩
  else deserialize

/-- `update_directory`: false when the arguments are rejected. -/
def updateDirectory (dir : DirectoryPage) (pageId : Nat) (freeSpace tupleCount : Int) :
    Buf PyErr (Option Bool × DirectoryPage) :=
  if pageId = 0 ∨ dir.pageCount ≤ pageId ∨ freeSpace < 0 ∨ tupleCount < 0 then
    pure (some false, dir)
  else do
    packInto formatH (6 * pageId - 4) pageId
    packInto formatH (6 * pageId - 4 + 2) freeSpace
    packInto formatH (6 * pageId - 4 + 4) tupleCount
    pure (none, { dir with freeSpace := dir.freeSpace.set pageId freeSpace })

/-- `increase_page_count`. -/
def increasePageCount (dir : DirectoryPage) (pageId : Nat) : Buf PyErr DirectoryPage := do
  packInto formatH 0 (dir.pageCount + 1 : Nat)
  let (_, dir) ← updateDirectory { dir with pageCount := dir.pageCount + 1 } pageId pageSize 0
  pure dir

/-- `find_page_with_enough_space`. -/
def findPageWithEnoughSpace (dir : DirectoryPage) (freeSpace : Int) : Option Nat :=
  (dir.freeSpace.find? fun item => decide (freeSpace ≤ item.2)).map Prod.fst

end DirectoryPage

/-! ## The representation -/

/-- What the directory says of a data page: its free space and its slots. -/
structure DirEntry where
  free : Nat
  slots : Nat
  deriving DecidableEq, Repr

/-- A buffer that lists the data pages `1, 2, ..` with the given entries. -/
structure DirRep (b : Bytes) (entries : List DirEntry) : Prop where
  length : b.length = pageSize
  room : 2 + 6 * entries.length ≤ pageSize
  count : slice b 0 2 = formatH.encode (entries.length + 1 : Nat)
  entry : ∀ p e, entries[p]? = some e → slice b (2 + 6 * p) 6 =
    Buf.encodeAll formatH [((p + 1 : Nat) : Int), e.free, e.slots]
  fits : ∀ e ∈ entries, e.free < 65536 ∧ e.slots < 65536

/-- The items of the dictionary, from page `p` on. -/
def freeFrom : Nat → List DirEntry → Dict Nat Int
  | _, [] => []
  | p, e :: es => (p, (e.free : Int)) :: freeFrom (p + 1) es

/-- The directory object with these entries. -/
def directoryOf (entries : List DirEntry) : DirectoryPage :=
  ⟨entries.length + 1, (0, 0) :: freeFrom 1 entries⟩

/-- The first page with enough space, as the entries have it. -/
def firstFit (entries : List DirEntry) (size : Nat) : Option Nat :=
  (entries.findIdx? fun e => decide (size ≤ e.free)).map (· + 1)

section

variable {b : Bytes} {entries : List DirEntry} {e : DirEntry} {p : Nat}

theorem freeFrom_append (es : List DirEntry) (e : DirEntry) :
    ∀ p, freeFrom p (es ++ [e]) = freeFrom p es ++ [(p + es.length, (e.free : Int))] := by
  induction es with
  | nil => intro p; simp [freeFrom]
  | cons e' es ih =>
      intro p
      simp only [List.cons_append, freeFrom, ih, List.length_cons]
      rw [show p + 1 + es.length = p + (es.length + 1) by omega]

/-- A page that is not listed yet is appended. -/
theorem set_freeFrom_end (es : List DirEntry) (v : Int) :
    ∀ p q, p + es.length ≤ q → (freeFrom p es).set q v = freeFrom p es ++ [(q, v)] := by
  induction es with
  | nil => intro p q _; rfl
  | cons e' es ih =>
      intro p q hq
      rw [List.length_cons] at hq
      simp only [freeFrom, Dict.set, if_neg (show ¬ p = q by omega), List.cons_append]
      rw [ih (p + 1) q (by omega)]

/-- A page that is listed is changed in place. -/
theorem set_freeFrom (es : List DirEntry) (e : DirEntry) :
    ∀ p i, i < es.length →
      (freeFrom p es).set (p + i) (e.free : Int) = freeFrom p (es.set i e) := by
  induction es with
  | nil => intro p i hi; simp at hi
  | cons e' es ih =>
      intro p i hi
      cases i with
      | zero => simp [freeFrom, Dict.set]
      | succ i =>
          simp only [freeFrom, Dict.set, if_neg (show ¬ p = p + (i + 1) by omega), List.set_cons_succ]
          rw [show p + (i + 1) = p + 1 + i by omega, ih (p + 1) i (by simpa using hi)]

/-! ## Opening the directory -/

/-- The loop reads the entries it has not read yet. -/
theorem readEntries_of_rep (h : DirRep b entries) :
    ∀ n done, done + n = entries.length →
      DirectoryPage.readEntries n (2 + 6 * done) ((0, 0) :: freeFrom 1 (entries.take done)) b =
        (.ok ((0, 0) :: freeFrom 1 entries), b) := by
  intro n
  induction n with
  | zero =>
      intro done hdone
      rw [List.take_of_length_le (by omega)]
      rfl
  | succ n ih =>
      intro done hdone
      have hlt : done < entries.length := by omega
      have he : entries[done]? = some entries[done] := List.getElem?_eq_getElem hlt
      have hroom := h.room
      have hlen := h.length
      rw [pageSize_eq] at hroom hlen
      obtain ⟨hfree, hslots⟩ := h.fits _ (List.getElem_mem hlt)
      obtain ⟨h₀, h₂, -⟩ := unpackH_triple (h.entry done _ he) (by omega) (by omega) hfree hslots
      have hset : Dict.set ((0, 0) :: freeFrom 1 (entries.take done)) (done + 1)
          (entries[done].free : Int) = (0, 0) :: freeFrom 1 (entries.take (done + 1)) := by
        rw [Dict.set, if_neg (by simp), set_freeFrom_end _ _ _ _ (by simp; omega),
          List.take_succ_eq_append_getElem hlt, freeFrom_append, List.length_take]
        congr 4
        omega
      rw [DirectoryPage.readEntries, Buf.bind_ok h₀, Buf.bind_ok h₂, hset]
      exact ih (done + 1) (by omega)

theorem count_of_rep (h : DirRep b entries) : unpackH 0 b = (.ok (entries.length + 1), b) := by
  have hroom := h.room
  have hlen := h.length
  rw [pageSize_eq] at hroom hlen
  have hfits : formatH.Fits ((entries.length + 1 : Nat) : Int) := fits_formatH.mpr (by omega)
  refine unpackH_of_unpack ?_
  rw [unpackFrom, Buf.unpack_ok (by simp; omega), formatH_width, h.count,
    Format.decode_encode hfits]

theorem deserialize_of_rep (h : DirRep b entries) :
    DirectoryPage.init false b = (.ok (directoryOf entries), b) := by
  have hloop : DirectoryPage.readEntries entries.length 2 [(0, 0)] b = _ :=
    readEntries_of_rep h entries.length 0 (by omega)
  simp only [DirectoryPage.init, Bool.false_eq_true, if_false, DirectoryPage.deserialize]
  rw [Buf.bind_ok (count_of_rep h), Nat.add_sub_cancel, Buf.bind_ok hloop]
  rfl

/-- Any two bytes are read as some number. -/
theorem unpackH_total (off : Nat) (hend : off + 2 ≤ b.length) : ∃ n, unpackH off b = (.ok n, b) := by
  refine ⟨(formatH.decode (slice b off 2)).toNat, ?_⟩
  have hread : unpackFrom formatH off b = (.ok (formatH.decode (slice b off 2)), b) :=
    Buf.unpack_ok (by simpa using hend)
  exact Buf.bind_ok hread

theorem readEntries_total (n offset : Nat) (freeSpace : Dict Nat Int)
    (hend : offset + 6 * n ≤ b.length) :
    ∃ d, DirectoryPage.readEntries n offset freeSpace b = (.ok d, b) := by
  induction n generalizing offset freeSpace with
  | zero => exact ⟨freeSpace, rfl⟩
  | succ n ih =>
      obtain ⟨pageId, hpage⟩ := unpackH_total (b := b) offset (by omega)
      obtain ⟨free, hfree⟩ := unpackH_total (b := b) (offset + 2) (by omega)
      rw [DirectoryPage.readEntries, Buf.bind_ok hpage, Buf.bind_ok hfree]
      exact ih (offset + 6) _ (by omega)

/-- A directory opens with the count that stands in its header, whatever its
entries say. -/
theorem deserialize_of_count {count : Nat} (hlen : b.length = pageSize)
    (hcount : slice b 0 2 = formatH.encode count) (hmax : count ≤ 683) :
    ∃ d, DirectoryPage.init false b = (.ok ⟨count, d⟩, b) := by
  have hread : unpackH 0 b = (.ok count, b) := by
    refine unpackH_of_unpack ?_
    rw [unpackFrom, Buf.unpack_ok (by rw [hlen]; decide), formatH_width, hcount,
      Format.decode_encode (fits_formatH.mpr (by omega))]
  obtain ⟨d, hloop⟩ := readEntries_total (b := b) (count - 1) 2 [(0, 0)] (by
    rw [hlen, pageSize_eq]
    omega)
  refine ⟨d, ?_⟩
  simp only [DirectoryPage.init, Bool.false_eq_true, if_false, DirectoryPage.deserialize]
  rw [Buf.bind_ok hread, Buf.bind_ok hloop]
  rfl

/-- A new directory over any buffer of the length of a page. -/
theorem init_newDirectory (hlen : b.length = pageSize) :
    ∃ b', DirectoryPage.init true b = (.ok (directoryOf []), b') ∧ DirRep b' [] := by
  have hpack : packInto formatH 0 1 b = (.ok (), overwrite b 0 (formatH.encode 1)) :=
    Buf.pack_ok (by decide) (by rw [hlen]; decide)
  refine ⟨overwrite b 0 (formatH.encode 1), ?_, ?_⟩
  · simp only [DirectoryPage.init, if_true]
    rw [Buf.bind_ok hpack]
    rfl
  · exact
      { length := by rw [length_overwrite (by rw [hlen]; decide), hlen]
        room := by decide
        count := slice_overwrite_self (Nat.zero_le _)
        entry := fun p e he => by simp at he
        fits := fun e he => by simp at he }

/-! ## Looking for space -/

theorem find_freeFrom (es : List DirEntry) (size : Nat) :
    ∀ p, ((freeFrom p es).find? fun item => decide ((size : Int) ≤ item.2)).map Prod.fst =
      (es.findIdx? fun e => decide (size ≤ e.free)).map (p + ·) := by
  induction es with
  | nil => intro p; rfl
  | cons e es ih =>
      intro p
      simp only [freeFrom, List.find?_cons, List.findIdx?_cons, Nat.cast_le]
      cases hfit : decide (size ≤ e.free) with
      | true => simp
      | false =>
          simp only [ih (p + 1), Bool.false_eq_true, if_false, Option.map_map]
          congr 1
          funext i
          simp
          omega

/-- Page 0 has no space, so the first fit is the first data page with enough. -/
theorem find_directoryOf (entries : List DirEntry) {size : Nat} (hsize : 0 < size) :
    (directoryOf entries).findPageWithEnoughSpace size = firstFit entries size := by
  have hzero : decide ((size : Int) ≤ 0) = false := by simp; omega
  simp only [directoryOf, DirectoryPage.findPageWithEnoughSpace, List.find?_cons, hzero,
    find_freeFrom, firstFit]
  congr 1
  funext i
  omega

theorem firstFit_some {size q : Nat} (h : firstFit entries size = some q) :
    ∃ p e, q = p + 1 ∧ entries[p]? = some e ∧ size ≤ e.free := by
  obtain ⟨p, hp, rfl⟩ := Option.map_eq_some_iff.mp h
  obtain ⟨hlt, hfit, -⟩ := List.findIdx?_eq_some_iff_getElem.mp hp
  exact ⟨p, entries[p], rfl, List.getElem?_eq_getElem hlt, by simpa using hfit⟩

/-! ## Updating -/

/-- Arguments out of range are rejected and change nothing. -/
theorem updateDirectory_rejected (dir : DirectoryPage) {pageId : Nat} (hcount : dir.pageCount ≤ pageId)
    (freeSpace tupleCount : Int) :
    dir.updateDirectory pageId freeSpace tupleCount b = (.ok (some false, dir), b) := by
  rw [DirectoryPage.updateDirectory, if_pos (Or.inr (Or.inl hcount))]
  rfl

/-- The entry of a page inside the count is written, whatever stood there. -/
theorem updateDirectory_ok (dir : DirectoryPage) {pageId free slots : Nat} (hpage : pageId ≠ 0)
    (hcount : pageId < dir.pageCount) (hend : 6 * pageId + 2 ≤ b.length) (hid : pageId < 65536)
    (hfree : free < 65536) (hslots : slots < 65536) :
    dir.updateDirectory pageId free slots b =
      (.ok (none, { dir with freeSpace := dir.freeSpace.set pageId free }),
        overwrite b (6 * pageId - 4) (Buf.encodeAll formatH [(pageId : Int), free, slots])) := by
  obtain ⟨b₁, b₂, h₁, h₂, h₃⟩ := packInto_triple
    (show 6 * pageId - 4 + 6 ≤ b.length by omega)
    (show formatH.Fits (pageId : Int) from fits_formatH.mpr (by omega))
    (show formatH.Fits (free : Int) from fits_formatH.mpr (by omega))
    (show formatH.Fits (slots : Int) from fits_formatH.mpr (by omega))
  rw [DirectoryPage.updateDirectory, if_neg (by omega), Buf.bind_ok h₁, Buf.bind_ok h₂,
    Buf.bind_ok h₃]
  rfl

/-- An entry written over another one. -/
theorem dirRep_set (h : DirRep b entries) (hp : p < entries.length)
    (hfits : e.free < 65536 ∧ e.slots < 65536) :
    DirRep (overwrite b (2 + 6 * p) (Buf.encodeAll formatH
      [((p + 1 : Nat) : Int), e.free, e.slots])) (entries.set p e) := by
  have hroom := h.room
  have hlen := h.length
  generalize hbytes : Buf.encodeAll formatH [((p + 1 : Nat) : Int), e.free, e.slots] = bytes
  have hsix : bytes.length = 6 := by simp [← hbytes]
  have hself : slice (overwrite b (2 + 6 * p) bytes) (2 + 6 * p) bytes.length = bytes :=
    slice_overwrite_self (by omega)
  rw [hsix] at hself
  exact
    { length := by rw [length_overwrite (by omega), hlen]
      room := by rw [List.length_set]; exact hroom
      count := by
        rw [slice_overwrite_of_disjoint (by omega) (by omega), List.length_set]
        exact h.count
      entry := fun q e' hq => by
        by_cases hpq : p = q
        · subst hpq
          have he : e = e' := by simpa [List.getElem?_set_self hp] using hq
          rw [hself, ← hbytes, he]
        · rw [List.getElem?_set_ne hpq] at hq
          rw [slice_overwrite_of_disjoint (by omega) (by omega), h.entry q e' hq]
      fits := fun e' he' => by
        rcases List.mem_or_eq_of_mem_set he' with hold | rfl
        · exact h.fits e' hold
        · exact hfits }

theorem updateDirectory_of_rep (h : DirRep b entries) (hp : p < entries.length)
    (hfits : e.free < 65536 ∧ e.slots < 65536) :
    ∃ b', (directoryOf entries).updateDirectory (p + 1) e.free e.slots b =
        (.ok (none, directoryOf (entries.set p e)), b') ∧ DirRep b' (entries.set p e) := by
  have hroom := h.room
  have hlen := h.length
  rw [pageSize_eq] at hroom hlen
  have hrun := updateDirectory_ok (b := b) (directoryOf entries) (Nat.succ_ne_zero p)
    (show p + 1 < entries.length + 1 by omega) (by omega) (by omega) hfits.1 hfits.2
  have hset : Dict.set ((0, 0) :: freeFrom 1 entries) (p + 1) (e.free : Int) =
      (0, 0) :: freeFrom 1 (entries.set p e) := by
    rw [Dict.set, if_neg (by simp), Nat.add_comm p 1, set_freeFrom entries e 1 p hp]
  have hdir : (⟨entries.length + 1, Dict.set ((0, 0) :: freeFrom 1 entries) (p + 1) e.free⟩ :
      DirectoryPage) = directoryOf (entries.set p e) := by
    rw [hset, directoryOf, List.length_set]
  rw [show 6 * (p + 1) - 4 = 2 + 6 * p by omega] at hrun
  exact ⟨_, hrun.trans (congrArg (fun d => (Except.ok (none, d), _)) hdir), dirRep_set h hp hfits⟩

/-! ## One more page -/

/-- A page past the next one raises the count and is not listed. -/
theorem increasePageCount_rejected (h : DirRep b entries) {pageId : Nat}
    (hpage : entries.length + 2 ≤ pageId) :
    (directoryOf entries).increasePageCount pageId b =
      (.ok ⟨entries.length + 2, (directoryOf entries).freeSpace⟩,
        overwrite b 0 (formatH.encode (entries.length + 2 : Nat))) := by
  have hroom := h.room
  rw [pageSize_eq] at hroom
  have hpack : packInto formatH 0 (entries.length + 1 + 1 : Nat) b =
      (.ok (), overwrite b 0 (formatH.encode (entries.length + 1 + 1 : Nat))) :=
    Buf.pack_ok (fits_formatH.mpr (by omega)) (by rw [h.length]; decide)
  have hcount : (directoryOf entries).pageCount = entries.length + 1 := rfl
  rw [DirectoryPage.increasePageCount, hcount, Buf.bind_ok hpack,
    Buf.bind_ok (updateDirectory_rejected _ hpage _ _)]
  rfl

/-- The buffer after the page count was raised: the entries are as before, and
what stands behind them counts as one more. -/
theorem slice_raised {n : Nat} (i len : Nat) (hi : 2 ≤ i) :
    slice (overwrite b 0 (formatH.encode n)) i len = slice b i len :=
  slice_overwrite_of_disjoint (by omega) (by simp; omega)

/-- The next page is listed as empty. -/
theorem increasePageCount_of_rep (h : DirRep b entries)
    (hroom : 2 + 6 * (entries.length + 1) ≤ pageSize) :
    ∃ b', (directoryOf entries).increasePageCount (entries.length + 1) b =
        (.ok (directoryOf (entries ++ [⟨pageSize, 0⟩])), b') ∧
      DirRep b' (entries ++ [⟨pageSize, 0⟩]) := by
  have hlen := h.length
  rw [pageSize_eq] at hroom
  generalize hb₁ : overwrite b 0 (formatH.encode (entries.length + 1 + 1 : Nat)) = b₁
  have hlen₁ : b₁.length = pageSize := by
    rw [← hb₁, length_overwrite (by rw [hlen]; simp [pageSize_eq]), hlen]
  have hpack : packInto formatH 0 (entries.length + 1 + 1 : Nat) b = (.ok (), b₁) := by
    rw [← hb₁]
    exact Buf.pack_ok (fits_formatH.mpr (by omega)) (by rw [hlen]; decide)
  have hupdate := updateDirectory_ok (b := b₁) ⟨entries.length + 1 + 1, (directoryOf entries).freeSpace⟩
    (Nat.succ_ne_zero entries.length) (show entries.length + 1 < entries.length + 1 + 1 by omega)
    (by rw [hlen₁, pageSize_eq]; omega) (by omega) (show pageSize < 65536 by decide)
    (show 0 < 65536 by decide)
  have hset : Dict.set ((0, 0) :: freeFrom 1 entries) (entries.length + 1) (pageSize : Int) =
      (0, 0) :: freeFrom 1 (entries ++ [⟨pageSize, 0⟩]) := by
    rw [Dict.set, if_neg (by simp), set_freeFrom_end _ _ _ _ (by omega), freeFrom_append,
      Nat.add_comm 1]
  have hdir : (⟨entries.length + 1 + 1, Dict.set ((0, 0) :: freeFrom 1 entries)
      (entries.length + 1) pageSize⟩ : DirectoryPage) = directoryOf (entries ++ [⟨pageSize, 0⟩]) := by
    rw [hset, directoryOf, List.length_append, List.length_singleton]
  rw [show 6 * (entries.length + 1) - 4 = 2 + 6 * entries.length by omega] at hupdate
  generalize hbytes : Buf.encodeAll formatH
    [((entries.length + 1 : Nat) : Int), (pageSize : Nat), (0 : Nat)] = bytes at hupdate
  have hsix : bytes.length = 6 := by simp [← hbytes]
  refine ⟨overwrite b₁ (2 + 6 * entries.length) bytes, ?_, ?_⟩
  · have hcount : (directoryOf entries).pageCount = entries.length + 1 := rfl
    have hupdate' : DirectoryPage.updateDirectory ⟨entries.length + 1 + 1,
        (directoryOf entries).freeSpace⟩ (entries.length + 1) pageSize 0 b₁ = _ := hupdate
    rw [DirectoryPage.increasePageCount, hcount, Buf.bind_ok hpack, Buf.bind_ok hupdate']
    exact congrArg (fun d => (Except.ok d, _)) hdir
  · have hold : ∀ i len, i + len ≤ 2 + 6 * entries.length →
        slice (overwrite b₁ (2 + 6 * entries.length) bytes) i len = slice b₁ i len :=
      fun i len hi => slice_overwrite_of_disjoint (by rw [hlen₁, pageSize_eq]; omega) (Or.inl hi)
    exact
      { length := by rw [length_overwrite (by rw [hlen₁, pageSize_eq]; omega), hlen₁]
        room := by simpa [pageSize_eq] using hroom
        count := by
          rw [hold _ _ (by omega), ← hb₁, List.length_append, List.length_singleton]
          exact slice_overwrite_self (Nat.zero_le _)
        entry := fun q e' hq => by
          rcases Nat.lt_or_ge q entries.length with hlt | hge
          · rw [List.getElem?_append_left hlt] at hq
            rw [hold _ _ (by omega), ← hb₁, slice_raised _ _ (by omega), h.entry q e' hq]
          · rw [List.getElem?_append_right hge, List.getElem?_singleton] at hq
            split at hq
            · have hq' : q = entries.length := by omega
              obtain rfl := Option.some.inj hq
              have hself : slice (overwrite b₁ (2 + 6 * entries.length) bytes)
                  (2 + 6 * entries.length) bytes.length = bytes :=
                slice_overwrite_self (by rw [hlen₁, pageSize_eq]; omega)
              rw [hsix] at hself
              rw [hq', hself, ← hbytes]
            · simp at hq
        fits := fun e' he' => by
          rcases List.mem_append.mp he' with hold | hnew
          · exact h.fits e' hold
          · rw [List.mem_singleton.mp hnew]
            exact ⟨by decide, by decide⟩ }

end

/-! ## Finding room -/

namespace DirectoryPage

/-- The directory object after a tuple of `n` bytes: its page has less space, or there is
a page more; `none` when the tuple finds no room. -/
def take (dir : DirectoryPage) (n : Nat) : Option DirectoryPage :=
  match dir.findPageWithEnoughSpace (n + Page.headerSize : Nat) with
  | some pageId =>
      some { dir with freeSpace :=
        dir.freeSpace.set pageId ((dir.freeSpace.get? pageId).getD 0 - (n + Page.slotSize : Nat)) }
  | none =>
      if dir.pageCount < 683 ∧ n ≤ 4084 then
        some ⟨dir.pageCount + 1, dir.freeSpace.set dir.pageCount ((4084 - n : Nat) : Int)⟩
      else none

/-- Tuples of these lengths find room one after the other. -/
def TakesAll : DirectoryPage → List Nat → Prop
  | _, [] => True
  | dir, n :: rest =>
      match dir.take n with
      | some dir => dir.TakesAll rest
      | none => False

end DirectoryPage

section

variable {entries : List DirEntry} {n : Nat}

theorem get?_freeFrom (es : List DirEntry) :
    ∀ p i, (freeFrom p es).get? (p + i) = es[i]?.map fun e => (e.free : Int) := by
  induction es with
  | nil => intro p i; rfl
  | cons e es ih =>
      intro p i
      rw [freeFrom, Dict.get?_cons]
      cases i with
      | zero => simp
      | succ i =>
          rw [if_neg (show ¬ p = p + (i + 1) by omega), show p + (i + 1) = p + 1 + i by omega, ih (p + 1) i]
          simp

theorem set_directoryOf (entries : List DirEntry) {q : Nat} (hq : q ≠ 0) (v : Int) :
    (directoryOf entries).freeSpace.set q v = (0, 0) :: (freeFrom 1 entries).set q v := by
  rw [directoryOf, Dict.set, if_neg (Ne.symm hq)]

theorem pageCount_directoryOf (entries : List DirEntry) :
    (directoryOf entries).pageCount = entries.length + 1 := rfl

theorem find_take (entries : List DirEntry) (n : Nat) :
    (directoryOf entries).findPageWithEnoughSpace (n + Page.headerSize : Nat) =
      firstFit entries (n + Page.headerSize) :=
  find_directoryOf entries (by simp [Page.headerSize])

/-- The page that the directory lists has less space. -/
theorem take_listed {p : Nat} {e : DirEntry} (hfit : firstFit entries (n + Page.headerSize) = some (p + 1))
    (he : entries[p]? = some e) (slots : Nat) :
    (directoryOf entries).take n =
      some (directoryOf (entries.set p ⟨e.free - (n + Page.slotSize), slots⟩)) := by
  obtain ⟨p', e', hp', he', hfree⟩ := firstFit_some hfit
  obtain rfl : p = p' := Nat.succ.inj hp'
  obtain rfl : e = e' := Option.some.inj (he.symm.trans he')
  obtain ⟨hp, -⟩ := List.getElem?_eq_some_iff.mp he
  have hread : (directoryOf entries).freeSpace.get? (p + 1) = some (e.free : Int) := by
    rw [directoryOf, Dict.get?_cons, if_neg (show ¬ (0 = p + 1) by omega), Nat.add_comm p 1,
      get?_freeFrom, he]
    rfl
  have hspace : ((e.free : Int) - (n + Page.slotSize : Nat)) = ((e.free - (n + Page.slotSize) : Nat) : Int) :=
    (Int.ofNat_sub hfree).symm
  have hset := set_freeFrom entries ⟨e.free - (n + Page.slotSize), slots⟩ 1 p hp
  rw [Nat.add_comm 1 p] at hset
  rw [DirectoryPage.take, find_take, hfit]
  simp only [hread, Option.getD_some, hspace, set_directoryOf entries (Nat.succ_ne_zero p), hset]
  simp only [directoryOf, List.length_set]

/-- There is a page more. -/
theorem take_new (hfit : firstFit entries (n + Page.headerSize) = none) (hroom : entries.length < 682)
    (hn : n ≤ 4084) (slots : Nat) :
    (directoryOf entries).take n = some (directoryOf (entries ++ [⟨4084 - n, slots⟩])) := by
  have hcount : (directoryOf entries).pageCount < 683 ∧ n ≤ 4084 :=
    ⟨by rw [pageCount_directoryOf]; omega, hn⟩
  have hset := set_freeFrom_end entries ((4084 - n : Nat) : Int) 1 (entries.length + 1) (by omega)
  rw [DirectoryPage.take, find_take, hfit]
  dsimp only
  rw [if_pos hcount]
  simp only [pageCount_directoryOf, set_directoryOf entries (Nat.succ_ne_zero _), hset]
  simp only [directoryOf, freeFrom_append, List.length_append, List.length_singleton,
    Nat.add_comm 1 entries.length]

/-- No page has the space, and there is no page more. -/
theorem take_eq_none : (directoryOf entries).take n = none ↔
    firstFit entries (n + Page.headerSize) = none ∧ ¬ (entries.length < 682 ∧ n ≤ 4084) := by
  rw [DirectoryPage.take, find_take]
  cases hfit : firstFit entries (n + Page.headerSize) with
  | some q => simp
  | none =>
      have hcount : (directoryOf entries).pageCount < 683 ∧ n ≤ 4084 ↔ entries.length < 682 ∧ n ≤ 4084 := by
        rw [pageCount_directoryOf]
        omega
      simp only [ite_eq_right_iff, reduceCtorEq, imp_false, true_and, hcount]

end

end DBEngine
