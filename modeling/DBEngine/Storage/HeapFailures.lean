import DBEngine.Storage.HeapMap

/-!
# Inserts that raise

A tuple of more than 4084 bytes does not fit an empty page, and the directory has
no room for a 683rd data page.  Either is noticed only after the page was
allocated and counted in the directory, and what was written stays written.
-/

set_option autoImplicit false

namespace DBEngine

open ByteBuffer Paged

/-! ## A tuple too long for a page -/

section Pages

variable {b b' : Bytes}

theorem raisesOnly_setSlice (i j : Int) (data : Bytes) : Buf.RaisesOnly .structError (setSlice i j data) := by
  intro buf buf' e h
  simp [setSlice] at h

theorem keepsLength_packInto (n : Nat) (fmt : Format) (off : Nat) (v : Int) :
    Buf.KeepsLength n (packInto fmt off v) := Buf.keepsLength_pack _ _ _ _ _

theorem fits_of_packInto {fmt : Format} {off : Nat} {v : Int} {b b' : Bytes}
    (h : packInto fmt off v b = (.ok (), b')) : fmt.Fits v := Buf.fits_of_pack h

theorem Page.raisesOnly_packHeader (page : Page) : Buf.RaisesOnly .structError page.packHeader := by
  unfold packHeader
  exact (raisesOnly_packInto _ _ _).bind fun _ =>
    (raisesOnly_packInto _ _ _).bind fun _ => raisesOnly_packInto _ _ _

theorem Page.raisesOnly_insertTuple (page : Page) (data : Bytes) :
    Buf.RaisesOnly .structError (page.insertTuple data) := by
  unfold insertTuple
  refine (raisesOnly_setSlice _ _ _).bind fun _ => ?_
  refine (raisesOnly_packInto _ _ _).bind fun _ => ?_
  refine (raisesOnly_packInto _ _ _).bind fun _ => ?_
  refine (raisesOnly_packInto _ _ _).bind fun _ => ?_
  refine (raisesOnly_packHeader _).bind fun _ => ?_
  exact Buf.raisesOnly_pure PyErr.structError
    ((page.grow data.length).numSlots - 1, page.grow data.length)

/-- An insert that returned has left a free space that can be written. -/
theorem Page.fits_of_insertTuple {page : Page} {data : Bytes} {r : Nat × Page}
    (h : page.insertTuple data b = (.ok r, b')) : formatH.Fits (page.grow data.length).freeSpace := by
  rw [insertTuple] at h
  obtain ⟨_, _, -, h⟩ := Buf.of_bind_ok h
  obtain ⟨_, _, -, h⟩ := Buf.of_bind_ok h
  obtain ⟨_, _, -, h⟩ := Buf.of_bind_ok h
  obtain ⟨_, _, -, h⟩ := Buf.of_bind_ok h
  obtain ⟨_, _, hheader, -⟩ := Buf.of_bind_ok h
  rw [packHeader] at hheader
  obtain ⟨_, _, -, hheader⟩ := Buf.of_bind_ok hheader
  obtain ⟨_, _, -, hheader⟩ := Buf.of_bind_ok hheader
  exact fits_of_packInto hheader

theorem Page.keepsLength_packHeader (n : Nat) (page : Page) : Buf.KeepsLength n page.packHeader := by
  unfold packHeader
  exact (keepsLength_packInto _ _ _ _).bind fun _ =>
    (keepsLength_packInto _ _ _ _).bind fun _ => keepsLength_packInto _ _ _ _

/-- A page does not get shorter than the tuple that is put into it. -/
theorem Page.keepsLength_insertTuple {n : Nat} (page : Page) {data : Bytes} (hdata : n ≤ data.length) :
    Buf.KeepsLength n (page.insertTuple data) := by
  have hset : ∀ i j, Buf.KeepsLength n (setSlice i j data) := fun i j buf _ => by
    simp only [setSlice, List.length_append]
    omega
  unfold insertTuple
  refine (hset _ _).bind fun _ => ?_
  refine (keepsLength_packInto _ _ _ _).bind fun _ => ?_
  refine (keepsLength_packInto _ _ _ _).bind fun _ => ?_
  refine (keepsLength_packInto _ _ _ _).bind fun _ => ?_
  exact (keepsLength_packHeader n _).bind fun _ =>
    Buf.keepsLength_pure n ((page.grow data.length).numSlots - 1, page.grow data.length)

theorem Page.keepsLength_init (n : Nat) : Buf.KeepsLength n (Page.init true) := by
  unfold init
  rw [if_pos rfl]
  refine (keepsLength_packInto _ _ _ _).bind fun _ => (keepsLength_packInto _ _ _ _).bind fun _ => ?_
  exact Buf.keepsLength_pure n (⟨0, pageSize, pageSize - headerSize⟩ : Page)

theorem raisesOnly_unpackH (off : Nat) : Buf.RaisesOnly .structError (unpackH off) :=
  (Buf.raisesOnly_unpack _ _ _).bind fun _ => Buf.raisesOnly_pure _ _

theorem Page.raisesOnly_init : Buf.RaisesOnly .structError (Page.init false) := by
  unfold init
  rw [if_neg Bool.false_ne_true]
  exact (raisesOnly_unpackH _).bind fun _ => (raisesOnly_unpackH _).bind fun _ =>
    (raisesOnly_unpackH _).bind fun _ => Buf.raisesOnly_pure _ _

theorem Page.raisesOnly_getTuple (page : Page) (slotId : Nat) :
    Buf.RaisesOnly .structError (page.getTuple slotId) := by
  unfold getTuple
  split
  · exact Buf.raisesOnly_pure _ _
  · refine (raisesOnly_unpackH _).bind fun _ => (raisesOnly_unpackH _).bind fun _ =>
      (raisesOnly_unpackH _).bind fun isValid => ?_
    intro buf buf' e h
    by_cases hvalid : isValid = 0
    · have hnone := (congrFun (if_pos hvalid) buf).symm.trans h
      exact nomatch (Prod.mk.inj hnone).1
    · have hsome := (congrFun (if_neg hvalid) buf).symm.trans h
      exact nomatch (Prod.mk.inj hsome).1

/-- A tuple of more than 4084 bytes does not go into a new page. -/
theorem insertTuple_long (hlen : b.length = pageSize) {data : Bytes} (hlong : 4084 < data.length) :
    ∃ b', (Page.init true >>= fun page => page.insertTuple data) b = (.error .structError, b') := by
  obtain ⟨raw, hinit, -⟩ := init_new hlen
  rw [Buf.bind_ok hinit]
  rcases hres : (pageOf []).insertTuple data raw with ⟨e | r, b'⟩
  · rw [Page.raisesOnly_insertTuple _ _ hres]
    exact ⟨b', rfl⟩
  · have hfits := fits_formatH.mp (Page.fits_of_insertTuple hres)
    have hempty : (pageOf []).freeSpace = 4090 := rfl
    simp only [Page.grow, hempty, Page.slotSize] at hfits
    omega

end Pages

/-! ## A directory without room -/

section Directories

variable {b : Bytes} {entries : List DirEntry}

theorem unpackH_error {off : Nat} (h : b.length < off + 2) :
    unpackH off b = (.error .structError, b) := by
  have hread : unpackFrom formatH off b = (.error .structError, b) := if_neg (by simpa using h)
  exact Buf.bind_error hread

/-- An entry that reaches over the end of the buffer cannot be read. -/
theorem readEntries_error : ∀ (n offset : Nat) (freeSpace : Dict Nat Int),
    b.length < offset + 6 * n + 4 →
    (DirectoryPage.readEntries (n + 1) offset freeSpace b).1 = .error .structError := by
  intro n
  induction n with
  | zero =>
      intro offset freeSpace hend
      rw [DirectoryPage.readEntries]
      by_cases hpage : offset + 2 ≤ b.length
      · obtain ⟨pageId, hread⟩ := unpackH_total offset hpage
        rw [Buf.bind_ok hread, Buf.bind_error (unpackH_error (by omega))]
      · rw [Buf.bind_error (unpackH_error (by omega))]
  | succ n ih =>
      intro offset freeSpace hend
      rw [DirectoryPage.readEntries]
      by_cases hentry : offset + 4 ≤ b.length
      · obtain ⟨pageId, hread⟩ := unpackH_total offset (show offset + 2 ≤ b.length by omega)
        obtain ⟨free, hfree⟩ := unpackH_total (offset + 2) (show offset + 2 + 2 ≤ b.length by omega)
        rw [Buf.bind_ok hread, Buf.bind_ok hfree]
        exact ih (offset + 6) _ (by omega)
      · by_cases hpage : offset + 2 ≤ b.length
        · obtain ⟨pageId, hread⟩ := unpackH_total offset hpage
          rw [Buf.bind_ok hread, Buf.bind_error (unpackH_error (by omega))]
        · rw [Buf.bind_error (unpackH_error (by omega))]

/-- The count of a full directory is raised, and its entry for the new page fails
half way: the directory cannot be opened any more. -/
theorem increasePageCount_full (h : DirRep b entries) (hfull : entries.length = 682) :
    ∃ b', (directoryOf entries).increasePageCount 683 b = (.error .structError, b') ∧
      (DirectoryPage.init false b').1 = .error .structError := by
  have hlen : b.length = 4096 := h.length
  have hcount : (directoryOf entries).pageCount = 683 := by rw [directoryOf, hfull]
  have h₁ : packInto formatH 0 ((683 + 1 : Nat) : Int) b =
      (.ok (), overwrite b 0 (formatH.encode ((683 + 1 : Nat) : Int))) :=
    Buf.pack_ok (by decide) (by rw [hlen]; decide)
  generalize hb₁ : overwrite b 0 (formatH.encode ((683 + 1 : Nat) : Int)) = b₁ at h₁
  have hlen₁ : b₁.length = 4096 := by
    rw [← hb₁, length_overwrite (by rw [hlen, Format.length_encode]; decide), hlen]
  have h₂ : packInto formatH (6 * 683 - 4) ((683 : Nat) : Int) b₁ =
      (.ok (), overwrite b₁ 4094 (formatH.encode ((683 : Nat) : Int))) :=
    Buf.pack_ok (by decide) (by rw [hlen₁]; decide)
  generalize hb₂ : overwrite b₁ 4094 (formatH.encode ((683 : Nat) : Int)) = b₂ at h₂
  have hlen₂ : b₂.length = 4096 := by
    rw [← hb₂, length_overwrite (by rw [hlen₁, Format.length_encode]; decide), hlen₁]
  have h₃ : packInto formatH (6 * 683 - 4 + 2) (pageSize : Int) b₂ = (.error .structError, b₂) :=
    Buf.pack_error (by rw [hlen₂]; decide)
  refine ⟨b₂, ?_, ?_⟩
  · have hupdate : DirectoryPage.updateDirectory ⟨683 + 1, (directoryOf entries).freeSpace⟩ 683 pageSize 0
        b₁ = (.error .structError, b₂) := by
      rw [DirectoryPage.updateDirectory, if_neg (by simp), Buf.bind_ok h₂, Buf.bind_error h₃]
    rw [DirectoryPage.increasePageCount, hcount, Buf.bind_ok h₁, Buf.bind_error hupdate]
  · have hslice : slice b₂ 0 2 = formatH.encode ((684 : Nat) : Int) := by
      rw [← hb₂, slice_overwrite_of_disjoint (by rw [hlen₁]; decide) (by decide), ← hb₁]
      exact slice_overwrite_self (Nat.zero_le _)
    have hread : unpackH 0 b₂ = (.ok 684, b₂) := by
      refine unpackH_of_unpack ?_
      rw [unpackFrom, Buf.unpack_ok (by rw [hlen₂]; decide), formatH_width, hslice,
        Format.decode_encode (by decide)]
    have hloop := readEntries_error (b := b₂) 682 2 [(0, 0)] (by rw [hlen₂]; decide)
    simp only [DirectoryPage.init, Bool.false_eq_true, if_false, DirectoryPage.deserialize]
    rw [Buf.bind_ok hread]
    rcases hres : DirectoryPage.readEntries (684 - 1) 2 [(0, 0)] b₂ with ⟨e | d, b₃⟩
    · rw [Buf.bind_error hres]
      rw [hres] at hloop
      exact congrArg Except.error (Except.error.inj hloop)
    · rw [hres] at hloop
      simp at hloop

end Directories

namespace HeapFile

variable {σ : Type} {good : PageKey → Bytes → Bool}
  {c : Store FileId Bytes PyErr (Flat FileId Bytes)} {w : Flat FileId Bytes} {s : σ} {f : FileId}
  {entries : List DirEntry} {rows : Nat → List Row} {data : Bytes}

/-- What the insert of a tuple that is too long leaves of a new page. -/
def leftBy (data : Bytes) : Bytes :=
  ((Page.init true >>= fun page => page.insertTuple data) (zeros pageSize)).2

/-- The header of that page can still be read. -/
theorem readable_leftBy {data : Bytes} (hlong : 4084 < data.length) : Readable (leftBy data) := by
  have hlength : 6 ≤ (leftBy data).length := by
    have hkeeps : Buf.KeepsLength 6 (Page.init true >>= fun page => page.insertTuple data) :=
      (Page.keepsLength_init 6).bind fun page => page.keepsLength_insertTuple (by omega)
    rw [leftBy]
    exact hkeeps _ (by rw [length_zeros]; decide)
  obtain ⟨numSlots, h₀⟩ := unpackH_total (b := leftBy data) 0 (by omega)
  obtain ⟨pointer, h₂⟩ := unpackH_total (b := leftBy data) 2 (by omega)
  obtain ⟨free, h₄⟩ := unpackH_total (b := leftBy data) 4 (by omega)
  refine ⟨⟨numSlots, pointer, free⟩, ?_⟩
  rw [Page.init, if_neg Bool.false_ne_true, Buf.bind_ok h₀, Buf.bind_ok h₂, Buf.bind_ok h₄]
  rfl

/-- The file after an insert that broke off on a new page: the page is in the directory,
and both pages stay pinned. -/
structure BrokenOff (f : FileId) (w w' : Flat FileId Bytes) (entries : List DirEntry) (data : Bytes) :
    Prop where
  gone : w'.gone = w.gone
  held : w'.Held
  pins : Multiset.card w'.pins = 2
  unsaved : ∀ k ∈ w'.unsaved, k = (f, 0) ∨ k = (f, w.size f)
  size : w'.size f = w.size f + 1
  dir : DirRep (w'.mem (f, 0)) (entries ++ [⟨pageSize, 0⟩])
  page : w'.mem (f, w.size f) = leftBy data
  same : ∀ p, p ≠ 0 → p ≠ w.size f → w'.mem (f, p) = w.mem (f, p)

variable (c s) in
/-- A tuple of more than 4084 bytes that no listed page takes. -/
theorem run_insertTuple_long [Bpm.Serves c good] (h : HeapOpen f w entries rows)
    (hfit : firstFit entries (data.length + Page.headerSize) = none)
    (hsize : w.size f = entries.length + 1) (hroom : entries.length < 682)
    (hlong : 4084 < data.length) :
    ∃ w', (insertTuple f data : PageProg σ Rid).run c s w = (.error .structError, s, w') ∧
      BrokenOff f w w' entries data := by
  have hf := h.idle.here
  have hne : (f, w.size f) ≠ ((f, 0) : PageKey) := by simp [hsize]
  have hzeros : w.mem (f, w.size f) = zeros pageSize := (h.beyond _ (by omega) le_rfl).1
  obtain ⟨b₀, hincrease, hdir⟩ := increasePageCount_of_rep h.dir (by rw [pageSize_eq]; omega)
  obtain ⟨b₁, hinsert⟩ := insertTuple_long (by simp : (zeros pageSize).length = pageSize) hlong
  have hleft : leftBy data = b₁ := by rw [leftBy, hinsert]
  rw [← hsize] at hincrease
  -- the directory is pinned and changed when the new page is fetched
  generalize hX : ((w.pin (f, 0)).extend f).change (f, 0) b₀ = X
  have hpins : X.pins = {(f, 0)} := by simp [← hX, h.idle.pins]
  have hheld : X.Held := by
    rw [← hX]
    exact Flat.Held.change (w := (w.pin (f, 0)).extend f) (h.held.pin _) (by simp) _
  have hgone : f ∉ X.gone := by simpa [← hX] using hf
  have hpage : X.mem (f, w.size f) = zeros pageSize := by simp [← hX, hne, hzeros]
  rw [← hpage] at hinsert
  refine ⟨(X.pin (f, w.size f)).change (f, w.size f) b₁, ?_, ?_⟩
  · simp only [insertTuple, directoryId]
    refine Prog.run_step (Bpm.run_fetch hf h.held h.room) ?_
    refine Prog.run_step (Bpm.run_reading (w := w.pin (f, 0)) (deserialize_of_rep h.dir)) ?_
    rw [find_directoryOf entries (by simp [Page.headerSize]), hfit]
    refine Prog.run_step (Bpm.run_allocatePage (w := w.pin (f, 0)) hf) ?_
    refine Prog.run_step (Bpm.run_onFrame (w := (w.pin (f, 0)).extend f) hf (by simp) hincrease) ?_
    rw [hX]
    refine Prog.run_step (Bpm.run_fetch hgone hheld (by simp [hpins])) ?_
    exact Prog.run_bind_error (Bpm.run_onFrame (w := X.pin (f, w.size f)) hgone (by simp) hinsert)
  · have hdirX : X.mem (f, 0) = b₀ := by simp [← hX]
    exact
      { gone := by simp [← hX]
        held := (hheld.pin _).change (by simp) _
        pins := by simp [hpins]
        unsaved := fun k hk => by
          rcases Finset.mem_insert.mp (Flat.change_unsaved_subset _ _ _ hk) with hnew | hk
          · exact Or.inr hnew
          · exact Or.inl (by simpa [hpins] using hheld k hk)
        size := by simp [← hX]
        dir := by simpa [hne.symm, hdirX] using hdir
        page := by simp [hleft]
        same := fun p hp hnew => by simp [← hX, hp, hnew] }

variable (c s) in
/-- A tuple that needs a 683rd data page: the directory cannot be opened any more. -/
theorem run_insertTuple_full [Bpm.Serves c good] (h : HeapOpen f w entries rows)
    (hfit : firstFit entries (data.length + Page.headerSize) = none)
    (hsize : w.size f = entries.length + 1) (hfull : entries.length = 682) :
    ∃ w', (insertTuple f data : PageProg σ Rid).run c s w = (.error .structError, s, w') ∧
      w'.gone = w.gone ∧ w'.Held ∧ Multiset.card w'.pins = 1 ∧
      (DirectoryPage.init false (w'.mem (f, 0))).1 = .error .structError := by
  have hf := h.idle.here
  obtain ⟨b₀, hincrease, hbroken⟩ := increasePageCount_full h.dir hfull
  have hsize' : w.size f = 683 := by omega
  rw [← hsize'] at hincrease
  refine ⟨((w.pin (f, 0)).extend f).change (f, 0) b₀, ?_, by simp, ?_, by simp [h.idle.pins],
    by simpa using hbroken⟩
  · simp only [insertTuple, directoryId]
    refine Prog.run_step (Bpm.run_fetch hf h.held h.room) ?_
    refine Prog.run_step (Bpm.run_reading (w := w.pin (f, 0)) (deserialize_of_rep h.dir)) ?_
    rw [find_directoryOf entries (by simp [Page.headerSize]), hfit]
    refine Prog.run_step (Bpm.run_allocatePage (w := w.pin (f, 0)) hf) ?_
    exact Prog.run_bind_error
      (Bpm.run_onFrame (w := (w.pin (f, 0)).extend f) hf (by simp) hincrease)
  · exact Flat.Held.change (w := (w.pin (f, 0)).extend f) (h.held.pin _) (by simp) _

end HeapFile

namespace HeapSession

variable {order : SetOrder} {f : FileId} {later : BufferPoolManager → HeapCall → Prop}
  {s : HeapSession} {w : Flat FileId Bytes} {entries : List DirEntry} {rows : Nat → List Row}
  {data : Bytes}

/-! ## Tuples of any length -/

/-- An insert that returns a record id under which the tuple is found, or raises and
leaves the scan, the directory, the pins and the length of every frame as they were. -/
def SurvivesInsert (order : SetOrder) (f : FileId) (pool : BufferPoolManager) (data : Bytes) : Prop :=
  match run order (HeapFile.insertTuple f data) pool with
  | (.ok rid, pool') => (run order (HeapFile.getTuple f rid) pool').1 = .ok (some data)
  | (.error _, pool') =>
      (run order (HeapFile.scan f) pool').1 = (run order (HeapFile.scan f) pool).1 ∧
        directory f pool' = directory f pool ∧ pool'.pinCount = pool.pinCount ∧
        ∀ frameId, (pool'.frames frameId).length = pageSize

/-- No listed page has space for a tuple of more than 4084 bytes. -/
theorem firstFit_long (h : HeapOpen f w entries rows) (hplace : HeapFile.Placeable f w entries data)
    (hlong : 4084 < data.length) : firstFit entries (data.length + Page.headerSize) = none ∧
      w.size f = entries.length + 1 ∧ entries.length < 682 := by
  unfold HeapFile.Placeable at hplace
  cases hfit : firstFit entries (data.length + Page.headerSize) with
  | none =>
      rw [hfit] at hplace
      exact ⟨rfl, hplace⟩
  | some q =>
      rw [hfit] at hplace
      obtain ⟨page, hinit, hspace⟩ := hplace
      obtain ⟨p, e, rfl, -, -⟩ := firstFit_some hfit
      obtain ⟨-, rfl⟩ := rep_of_state (h.page _ (Nat.succ_ne_zero p)) hinit
        (Int.lt_of_lt_of_le (by simp [Page.headerSize]; omega) hspace)
      have hfree := Int.ofNat_le.mp hspace
      have hmost := freeOf_le (rows p.succ)
      rw [Page.headerSize] at hfree
      omega

theorem survivesInsert_of_short (h : Kept f s w entries rows)
    (hplace : HeapFile.Placeable f w entries data) (hdata : data.length ≤ 4084) :
    SurvivesInsert order f s.pool data := by
  obtain ⟨rid, pool, entries', w', hrun, -, hkept⟩ := kept_insertTuple order h hdata hplace
  have hpool : (s.step order f (.insertTuple data)).pool = pool := by simp only [step, hrun]
  have hlive : (s.step order f (.insertTuple data)).live rid = some data := by
    simp only [step, hrun, Function.update_self]
  obtain ⟨hne, -, htuple⟩ := hkept.live rid data hlive
  have hget := result_of_flat order hkept
    (HeapFile.run_getTuple (s := ()) hkept.heap (accepts_heapGood f) hne)
  rw [hpool, htuple] at hget
  unfold SurvivesInsert
  rw [hrun]
  exact hget

/-- After a tuple too long the directory counts one page more. -/
theorem not_survivesInsert_of_long (h : Kept f s w entries rows)
    (hplace : HeapFile.Placeable f w entries data) (hlong : 4084 < data.length) :
    ¬ SurvivesInsert order f s.pool data := by
  obtain ⟨hfit, hsize, hroom⟩ := firstFit_long h.heap hplace hlong
  obtain ⟨w', hrun, hbroken⟩ := HeapFile.run_insertTuple_long (heapStore f) () h.heap
    hfit hsize hroom hlong
  obtain ⟨pool, hpool, hkeeps⟩ := run_of_flat order h.keeps hrun (by simp)
  unfold SurvivesInsert
  rw [hpool]
  rintro ⟨-, hsame, -, -⟩
  have hgone : f ∉ w'.gone := by simp [hbroken.gone, h.gone]
  rw [h.directory_eq, directory, BufferPoolManager.current_eq hkeeps.refines hgone,
    deserialize_of_rep hbroken.dir] at hsame
  have hcount := congrArg DirectoryPage.pageCount (Except.ok.inj hsame)
  simp [directoryOf] at hcount

/-- An insert that does not raise, or leaves a directory that can be opened and the
answers of `scan` and `get_tuple`. -/
def KeepsTuples (order : SetOrder) (f : FileId) (pool : BufferPoolManager) (data : Bytes) : Prop :=
  ∀ e pool', run order (HeapFile.insertTuple f data) pool = (.error e, pool') →
    (∃ dir, directory f pool' = .ok dir) ∧
      (run order (HeapFile.scan f) pool').1 = (run order (HeapFile.scan f) pool).1 ∧
      ∀ rid, (run order (HeapFile.getTuple f rid) pool').1 = (run order (HeapFile.getTuple f rid) pool).1

/-- Behind 682 data pages, a tuple for a new page. -/
theorem not_keepsTuples_of_full (h : Kept f s w entries rows) (hex : Exact f w entries rows)
    (hfull : ¬ Roomy f data s.pool) : ¬ KeepsTuples order f s.pool data := by
  rw [Roomy, h.numPages_eq, h.chosen_eq, Classical.not_imp, not_not, hex.size] at hfull
  obtain ⟨hsize, hfit⟩ := hfull
  obtain ⟨w', hrun, hsame, -, -, hbroken⟩ := HeapFile.run_insertTuple_full (heapStore f) ()
    h.heap hfit hex.size (by omega)
  obtain ⟨pool, hpool, hkeeps⟩ := run_of_flat order h.keeps hrun (by simp)
  have hgone : f ∉ w'.gone := by simp [hsame, h.gone]
  intro hkeep
  obtain ⟨⟨dir, hdir⟩, -⟩ := hkeep _ _ hpool
  rw [directory, BufferPoolManager.current_eq hkeeps.refines hgone, hbroken] at hdir
  simp at hdir

/-- A new file and inserts that each fill a page. -/
def filled (order : SetOrder) (f : FileId) (disk : Disk) : Nat → HeapSession
  | 0 => create order f disk
  | n + 1 => (filled order f disk n).step order f (.insertTuple (zeros 4084))

/-- Full pages take no tuple. -/
theorem firstFit_full (n size : Nat) (hsize : 0 < size) :
    firstFit (List.replicate n ⟨0, 1⟩) size = none := by
  rw [firstFit, Option.map_eq_none_iff, List.findIdx?_eq_none_iff]
  intro e he
  rw [(List.mem_replicate.mp he).2]
  simp
  omega

theorem length_eq_of_directoryOf {es es' : List DirEntry} (h : directoryOf es = directoryOf es') :
    es.length = es'.length :=
  Nat.succ.inj (congrArg DirectoryPage.pageCount h)

/-- Such a file lists one full page for every insert. -/
theorem filled_full (order : SetOrder) {disk : Disk} (hdisk : ∀ g, disk.Whole g)
    (hempty : disk.numPages f = 0) : ∀ n, n ≤ 682 →
    Reachable order f (InStep f) (filled order f disk n) ∧ (filled order f disk n).stopped = false ∧
      directory f (filled order f disk n).pool = .ok (directoryOf (List.replicate n ⟨0, 1⟩)) := by
  intro n
  induction n with
  | zero =>
      intro _
      obtain ⟨w, h, -⟩ := kept_create (f := f) order hdisk hempty
      exact ⟨Reachable.create disk hdisk hempty, rfl, h.directory_eq⟩
  | succ n ih =>
      intro hn
      obtain ⟨hs, hopen, hdirectory⟩ := ih (by omega)
      obtain ⟨w, entries, rows, h⟩ := kept_of_reachable hs
      have hex := (h.unbroken hopen).exact_
      have hsame : directoryOf entries = directoryOf (List.replicate n ⟨0, 1⟩) :=
        Except.ok.inj (h.directory_eq.symm.trans hdirectory)
      have hlength : entries.length = n := by
        rw [length_eq_of_directoryOf hsame, List.length_replicate]
      have hfit : ∀ size, 0 < size → firstFit entries size = none := by
        intro size hsize
        rw [← find_directoryOf entries hsize, hsame, find_directoryOf _ hsize, firstFit_full n size hsize]
      have hnone := hfit ((zeros 4084).length + Page.headerSize) (by simp [Page.headerSize])
      have hroomy : Roomy f (zeros 4084) (filled order f disk n).pool := by
        intro hfull
        rw [h.numPages_eq, hex.size] at hfull
        omega
      have hlong : (zeros 4084).length ≤ 4084 := by simp
      obtain ⟨b₁, b₂, hrun, -, hdir⟩ := HeapFile.run_insertTuple_new (c := heapStore f) (s := ()) h.heap (accepts_heapGood f)
        hnone hex.size (by omega) hlong
      obtain ⟨pool, hpool, hkeeps⟩ := run_of_flat order h.keeps hrun (by simp)
      have hstep : filled order f disk (n + 1) =
          (filled order f disk n).step order f (.insertTuple (zeros 4084)) := rfl
      have hcall : (filled order f disk n).Allowed f (InStep f) (.insertTuple (zeros 4084)) :=
        ⟨by simp, hroomy, fun hstop => by simp [hopen] at hstop⟩
      refine ⟨Reachable.step _ hs hcall, by rw [hstep]; simp only [step, hpool, hopen], ?_⟩
      have hentry : (entryOf [⟨zeros 4084, true⟩]).free = 0 := by
        simp [entryOf, freeOf, bottom, slotOffset_eq, pageSize_eq]
      have hnew : directoryOf (entries ++ [entryOf [⟨zeros 4084, true⟩]]) =
          directoryOf (List.replicate (n + 1) ⟨0, 1⟩) := by
        have hfree := congrArg DirectoryPage.freeSpace hsame
        simp only [directoryOf, List.cons.injEq, true_and] at hfree
        rw [List.replicate_succ']
        simp only [directoryOf, freeFrom_append, hfree, hlength, hentry, List.length_append,
          List.length_singleton, List.length_replicate]
      rw [hstep, ← hnew]
      simp only [step, hpool]
      rw [directory, BufferPoolManager.current_eq hkeeps.refines (by simp [h.gone])]
      simp only [Flat.setMem_mem, Function.update_self]
      rw [deserialize_of_rep hdir]

end HeapSession

end DBEngine
