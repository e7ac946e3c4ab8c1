import DBEngine.Catalog.StoredTable
import DBEngine.Catalog.TableRows
import DBEngine.Lib.FlatFrames
import DBEngine.Lib.ProgramTriples
import DBEngine.Storage.HeapFailures
import DBEngine.Storage.HeapPins

/-!
# Heap files of rows

The heap file of a table between two calls, next to any other files: its directory agrees
with its pages and its tuples are rows of the schema.  A row goes in and is then one
record more, or the call raises; the record ids of the records are pairwise different.
-/

set_option autoImplicit false

namespace DBEngine

open ByteBuffer Paged

/-! ## A loop over the tuples of a heap file -/

namespace HeapFile

variable {σ β : Type} {good : PageKey → Bytes → Bool} {c : Store FileId Bytes PyErr (Flat FileId Bytes)}
  {fails : PyErr → Prop} {f : FileId} {entries : List DirEntry} {rows : Nat → List Row}
  {visit : β → Rid → Bytes → PageProg σ β} {J : List (Rid × Bytes) → β → σ → Flat FileId Bytes → Prop}

/-- The slots of a page, whose bytes were read before the first of them is visited. -/
theorem ends_scanSlots {page : Page} {raw : Bytes} {rs : List Row} {p : Nat}
    (hget : ∀ slotId, page.getTuple slotId raw = (.ok (tupleAt rs slotId), raw))
    (hstep : ∀ seen slotId data acc s w, tupleAt rs slotId = some data → J seen acc s w →
      (visit acc (p, slotId) data).Ends c fails s w (J (seen ++ [((p, slotId), data)])))
    (slots : List Nat) : ∀ seen acc s w, J seen acc s w →
      (page.scanSlots raw (fun acc slotId data => visit acc (p, slotId) data) slots acc).Ends c fails s w
        (J (seen ++ slots.filterMap fun slotId => (tupleAt rs slotId).map fun data => ((p, slotId), data))) := by
  induction slots with
  | nil =>
      intro seen acc s w hJ
      rw [List.filterMap_nil, List.append_nil]
      exact Prog.ends_pure hJ
  | cons slotId rest ih =>
      intro seen acc s w hJ
      rw [Page.scanSlots]
      have hread : (Bpm.reading raw (page.getTuple slotId) : PageProg σ (Option Bytes)).run c s w =
          (.ok (tupleAt rs slotId), s, w) := Bpm.run_reading (hget slotId)
      cases htuple : tupleAt rs slotId with
      | none =>
          rw [htuple] at hread
          rw [List.filterMap_cons_none (by rw [htuple]; rfl)]
          exact Prog.ends_step hread (ih seen acc s w hJ)
      | some data =>
          rw [htuple] at hread
          rw [List.filterMap_cons_some (b := ((p, slotId), data)) (by rw [htuple]; rfl)]
          refine Prog.ends_step hread ((hstep seen slotId data acc s w htuple hJ).bind fun acc₁ s₁ w₁ hJ₁ => ?_)
          have hrest := ih _ acc₁ s₁ w₁ hJ₁
          rwa [List.append_assoc, List.singleton_append] at hrest

/-- What the body of the loop keeps from tuple to tuple, with the heap file as it was, holds at
the end for all of them. -/
theorem ends_forEach [Bpm.Serves c good] (ha : Accepts good f)
    (hopen : ∀ {seen acc s w}, J seen acc s w → HeapOpen f w entries rows)
    (hstep : ∀ seen item acc s w, item ∈ tuplesIn entries.length rows → J seen acc s w →
      (visit acc item.1 item.2).Ends c fails s w (J (seen ++ [item])))
    {acc : β} {s : σ} {w : Flat FileId Bytes} (hJ : J [] acc s w) :
    (forEach f visit acc).Ends c fails s w (J (tuplesIn entries.length rows)) := by
  have hpages (pages : List Nat) (hall : ∀ p ∈ pages, p ≠ 0 ∧ p ≤ entries.length) : ∀ seen acc s w,
      J seen acc s w → (scanPages f visit pages acc).Ends c fails s w
        (J (seen ++ pages.flatMap (tuplesAt rows))) := by
    induction pages with
    | nil =>
        intro seen acc s w hJ
        rw [List.flatMap_nil, List.append_nil]
        exact Prog.ends_pure hJ
    | cons p rest ih =>
        intro seen acc s w hJ
        obtain ⟨hp, hle⟩ := hall p List.mem_cons_self
        have h := hopen hJ
        obtain ⟨page, hinit, hslots, hget⟩ := init_of_state (h.page p hp)
        have hscan := ends_scanSlots hget (fun seen slotId data acc s w htuple =>
          hstep seen ((p, slotId), data) acc s w (mem_tuplesIn.mpr ⟨hp, hle, htuple⟩))
          (List.range page.numSlots) seen acc s w hJ
        have htuples : (List.range page.numSlots).filterMap (fun slotId =>
            (tupleAt (rows p) slotId).map fun data => ((p, slotId), data)) = tuplesAt rows p := by
          rw [tuplesAt, tuplesOf, List.map_filterMap, hslots]
          simp only [Option.map_map, Function.comp_def]
        rw [htuples] at hscan
        have hrest := hscan.bind fun acc₁ s₁ w₁ hJ₁ =>
          ih (fun q hq => hall q (List.mem_cons_of_mem p hq)) _ acc₁ s₁ w₁ hJ₁
        rw [List.append_assoc, ← List.flatMap_cons] at hrest
        rw [scanPages]
        exact Prog.ends_of_eq
          (run_fetch_release h.idle.here h.held h.room (ha.page _ _ _ hp (h.page p hp)) hinit rfl) hrest
  have h := hopen hJ
  have hloop := hpages (List.range' 1 entries.length)
    (fun p hp => by have := List.mem_range'_1.mp hp; omega) [] acc s w hJ
  rw [List.nil_append] at hloop
  rw [forEach]
  exact Prog.ends_of_eq
    (run_fetch_release h.idle.here h.held h.room (ha.dir _ _ h.dir) (deserialize_of_rep h.dir) rfl) hloop

end HeapFile

/-! ## Files that stay as they are -/

section

variable {f : FileId} {keep : FileId → Prop} {w w' : Flat FileId Bytes} {entries : List DirEntry}
  {rows : Nat → List Row}

theorem idle_of_sameOn (h : w.Idle f) (hsame : Flat.SameOn keep w w') (hf : keep f) (hpins : w'.pins = 0)
    (hun : w'.unsaved = ∅) : w'.Idle f := ⟨fun hgone => h.here ((hsame.gone f hf).mp hgone), hpins, hun⟩

theorem HeapOpen.of_sameOn (h : HeapOpen f w entries rows) (hsame : Flat.SameOn keep w w') (hf : keep f)
    (hpins : w'.pins = 0) (hun : w'.unsaved = ∅) : HeapOpen f w' entries rows where
  idle := idle_of_sameOn h.idle hsame hf hpins hun
  nonempty := (hsame.size f hf).symm ▸ h.nonempty
  dir := (hsame.mem (f, 0) hf).symm ▸ h.dir
  page p hp := (hsame.mem (f, p) hf).symm ▸ h.page p hp
  beyond p hp hsize := by
    rw [hsame.mem (f, p) hf]
    exact h.beyond p hp (hsame.size f hf ▸ hsize)

theorem Exact.of_sameOn (h : Exact f w entries rows) (hsame : Flat.SameOn keep w w') (hf : keep f) :
    Exact f w' entries rows where
  size := (hsame.size f hf).trans h.size
  entry p e he := by
    rw [hsame.mem (f, p + 1) hf]
    exact h.entry p e he

end

/-! ## Rows -/

/-- A heap file whose directory agrees with its pages and whose tuples are rows. -/
structure RowsFile (schema : Schema) (f : FileId) (w : Flat FileId Bytes) (entries : List DirEntry)
    (rows : Nat → List Row) : Prop where
  heap : HeapOpen f w entries rows
  exact_ : Exact f w entries rows
  stored : ∀ item ∈ tuplesIn entries.length rows,
    ∃ values, schema.serialize values = .ok (some item.2)

namespace RowsFile

variable {σ : Type} {schema : Schema} {f : FileId} {c : Store FileId Bytes PyErr (Flat FileId Bytes)}
  [Bpm.Serves c anyBlock] {w : Flat FileId Bytes} {entries : List DirEntry} {rows : Nat → List Row}

omit [Bpm.Serves c anyBlock] in
theorem beyond (h : RowsFile schema f w entries rows) (p : Nat) (hp : entries.length < p) : rows p = [] :=
  (h.heap.beyond p (by omega) (by rw [h.exact_.size]; omega)).2

omit [Bpm.Serves c anyBlock] in
/-- The tuples decode. -/
theorem exists_records (h : RowsFile schema f w entries rows) :
    ∃ records, (tuplesIn entries.length rows).mapM (fun item => schema.deserialize item.2 item.1) =
      .ok records := by
  refine exists_mapM_eq_ok.mpr fun item hitem => ?_
  obtain ⟨values, hvalues⟩ := h.stored item hitem
  have hread := Schema.deserialize_of_serialize (Schema.distinct_of_serialize hvalues) hvalues [] item.1
  rw [List.append_nil] at hread
  exact ⟨_, hread⟩

/-- A scan yields the tuples decoded. -/
theorem run_scan {table : StoredTable} (h : RowsFile table.schema table.fileId w entries rows) (s : σ) :
    (table.scan : PageProg σ (List Record)).run c s w =
      ((tuplesIn entries.length rows).mapM (fun item => table.schema.deserialize item.2 item.1), s, w) := by
  have hvisit := HeapFile.run_forEach (c := c) (s := s) h.heap (accepts_anyBlock _)
    (StoredTable.collect table.schema) []
  refine hvisit.trans (Prod.ext ?_ rfl)
  refine (foldlM_collect_eq (f := fun item : Rid × Bytes => table.schema.deserialize item.2 item.1)
    (tuplesIn entries.length rows) []).trans ?_
  cases (tuplesIn entries.length rows).mapM fun item => table.schema.deserialize item.2 item.1 <;> rfl

omit [Bpm.Serves c anyBlock] in
/-- The directory has room for a tuple exactly if it can be placed. -/
theorem placeable (h : RowsFile schema f w entries rows) {raw : Bytes} {dir : DirectoryPage}
    (htake : (directoryOf entries).take raw.length = some dir) :
    raw.length ≤ 4084 ∧ HeapFile.Placeable f w entries raw := by
  have hroom : firstFit entries (raw.length + Page.headerSize) = none →
      entries.length < 682 ∧ raw.length ≤ 4084 := fun hfit => by
    by_contra hfull
    rw [take_eq_none.mpr ⟨hfit, hfull⟩] at htake
    exact absurd htake (by simp)
  refine ⟨?_, HeapFile.placeable_of_exact h.exact_ fun hfit => (hroom hfit).1⟩
  cases hfit : firstFit entries (raw.length + Page.headerSize) with
  | none => exact (hroom hfit).2
  | some q =>
      obtain ⟨p, e, -, he, hfree⟩ := firstFit_some hfit
      have hmost := freeOf_le (rows (p + 1))
      rw [(h.exact_.entry p e he).1, Page.headerSize] at hfree
      exact Nat.le_of_add_le_add_right (b := 6) (Nat.le_trans hfree hmost)

/-- A row that finds room is one more tuple. -/
theorem run_insertTuple (h : RowsFile schema f w entries rows) {values : List Value} {raw : Bytes}
    (hraw : schema.serialize values = .ok (some raw)) {dir : DirectoryPage}
    (htake : (directoryOf entries).take raw.length = some dir) (s : σ) :
    ∃ rid w' entries' rows',
      (HeapFile.insertTuple f raw : PageProg σ Rid).run c s w = (.ok rid, s, w') ∧ w'.gone = w.gone ∧
      RowsFile schema f w' entries' rows' ∧ dir = directoryOf entries' ∧
      (tuplesIn entries'.length rows').Perm (tuplesIn entries.length rows ++ [(rid, raw)]) := by
  obtain ⟨hshort, hplace⟩ := h.placeable htake
  obtain ⟨q, entries', w', hrun, hq, hlisted, hmore, hgone, hopen, hexact⟩ :=
    HeapFile.run_insertTuple (c := c) (s := s) h.heap (accepts_anyBlock f) hshort hplace
  obtain ⟨hexact', htake'⟩ := hexact h.exact_
  have hperm := perm_tuplesIn_append hq hlisted hmore h.beyond raw
  refine ⟨_, w', entries', _, hrun, hgone, ⟨hopen, hexact', fun item hitem => ?_⟩,
    Option.some.inj (htake.symm.trans htake'), hperm⟩
  rcases List.mem_append.mp (hperm.subset hitem) with hold | hnew
  · exact h.stored item hold
  · rw [List.mem_singleton.mp hnew]
    exact ⟨values, hraw⟩

/-- A row goes in, or there is no room for it. -/
theorem ends_insertTuple (h : RowsFile schema f w entries rows) {values : List Value} {raw : Bytes}
    (hraw : schema.serialize values = .ok (some raw)) (s : σ) :
    (HeapFile.insertTuple f raw : PageProg σ Rid).Ends c (· = .structError) s w fun rid s' w' =>
      s' = s ∧ ∃ entries' rows', RowsFile schema f w' entries' rows' ∧
        (tuplesIn entries'.length rows').Perm (tuplesIn entries.length rows ++ [(rid, raw)]) := by
  cases htake : (directoryOf entries).take raw.length with
  | some dir =>
      obtain ⟨rid, w', entries', rows', hrun, -, hfile, -, hperm⟩ := h.run_insertTuple (c := c) hraw htake s
      exact Prog.ends_of_run hrun ⟨rfl, entries', rows', hfile, hperm⟩
  | none =>
      obtain ⟨hfit, hfull⟩ := take_eq_none.mp htake
      by_cases hroom : entries.length < 682
      · have hlong : 4084 < raw.length := by
          by_contra hshort
          exact hfull ⟨hroom, Nat.not_lt.mp hshort⟩
        obtain ⟨w', hrun, -⟩ := HeapFile.run_insertTuple_long c s h.heap hfit h.exact_.size hroom hlong
        exact Prog.ends_of_error hrun rfl
      · have hmost := h.heap.dir.room
        rw [pageSize_eq] at hmost
        obtain ⟨w', hrun, -⟩ := HeapFile.run_insertTuple_full c s h.heap hfit h.exact_.size (by omega)
        exact Prog.ends_of_error hrun rfl

/-- A row of the table is deleted. -/
theorem run_deleteTuple (h : RowsFile schema f w entries rows) {rid : Rid} {raw : Bytes}
    (hmem : (rid, raw) ∈ tuplesIn entries.length rows) (s : σ) :
    ∃ w' rows',
      (HeapFile.deleteTuple f rid : PageProg σ Bool).run c s w = (.ok true, s, w') ∧ w'.gone = w.gone ∧
      RowsFile schema f w' entries rows' ∧
      (tuplesIn entries.length rows).Perm ((rid, raw) :: tuplesIn entries.length rows') := by
  obtain ⟨hrid, -, htuple⟩ := mem_tuplesIn.mp hmem
  obtain ⟨row, hrow, hlive⟩ := exists_row_of_tupleAt htuple
  obtain ⟨w', hrun, -, hgone, hopen, hexact⟩ :=
    HeapFile.run_deleteTuple (c := c) (s := s) h.heap (accepts_anyBlock f) hrid hrow
  have hperm := perm_tuplesIn_kill hmem
  rw [hlive] at hrun
  exact ⟨w', _, hrun, hgone, ⟨hopen, hexact h.exact_, fun item hitem =>
    h.stored item (hperm.symm.subset (List.mem_cons_of_mem _ hitem))⟩, hperm⟩

/-- A row of the table is read. -/
theorem run_get {table : StoredTable} (h : RowsFile table.schema table.fileId w entries rows) {rid : Rid}
    {raw : Bytes} (hmem : (rid, raw) ∈ tuplesIn entries.length rows) (s : σ) :
    (table.get rid : PageProg σ Record).run c s w = (table.schema.deserialize raw rid, s, w) := by
  obtain ⟨hrid, -, htuple⟩ := mem_tuplesIn.mp hmem
  have hread := HeapFile.run_getTuple (c := c) (s := s) h.heap (accepts_anyBlock _) hrid
  rw [htuple] at hread
  exact Prog.run_step hread (Prog.run_ofExcept _ _ _)

end RowsFile

end DBEngine
