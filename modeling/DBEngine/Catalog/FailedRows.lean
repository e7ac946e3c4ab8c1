import DBEngine.Catalog.TableHistory
import DBEngine.Storage.SpilledPages

/-!
# A table after a row that failed

A row that cannot be serialized does not reach the file, and one with a text too long only
pins the directory.  A tuple without room is noticed too late: the directory cannot be
opened any more, or it counts a page with whatever was left of the tuple.  The rows of a
table are still there exactly if a scan finds nothing on that page.
-/

set_option autoImplicit false

namespace DBEngine

open ByteBuffer Paged

/-! ## The errors of a scan -/

namespace Schema

theorem ne_misuse_unpackAt (fmt : Format) (raw : Bytes) (offset : Nat) :
    unpackAt fmt raw offset ≠ .error .misuse :=
  ne_misuse_of_raisesOnly (Buf.raisesOnly_unpack _ _ _) raw

theorem ne_misuse_unpackField (type : DataType) (raw : Bytes) (offset : Nat) :
    unpackField type raw offset ≠ .error .misuse := by
  cases type with
  | int => exact ne_misuse_bind (ne_misuse_unpackAt _ _ _) fun _ => by simp [pure, Except.pure]
  | float => exact ne_misuse_bind (ne_misuse_unpackAt _ _ _) fun _ => by simp [pure, Except.pure]
  | bool => exact ne_misuse_bind (ne_misuse_unpackAt _ _ _) fun _ => by simp [pure, Except.pure]
  | varchar => simp [unpackField]

theorem ne_misuse_deserializeColumns (schema : Schema) (raw : Bytes) (columns : List Column)
    (lengths : List Nat) (offset : Nat) (values : List Value) :
    deserializeColumns schema raw columns lengths offset values ≠ .error .misuse := by
  induction columns generalizing lengths offset values with
  | nil => simp [deserializeColumns, pure, Except.pure]
  | cons column rest ih =>
      have hindex : schema.getIndex column.name ≠ .error .misuse := by
        rw [getIndex]
        split <;> simp
      have htext (bytes : Bytes) : decodeText bytes ≠ .error .misuse := by
        rw [decodeText]
        split <;> simp
      rw [deserializeColumns]
      refine ne_misuse_bind hindex fun colIndex => ?_
      split
      · cases lengths with
        | nil => simp
        | cons length lengths => exact ne_misuse_bind (htext _) fun text => ih _ _ _
      · exact ne_misuse_bind (ne_misuse_unpackField _ _ _) fun value => ih _ _ _

/-- Reading a tuple raises what Python raises. -/
theorem ne_misuse_deserialize (schema : Schema) (raw : Bytes) (rid : Rid) :
    schema.deserialize raw rid ≠ .error .misuse :=
  ne_misuse_bind (ne_misuse_mapM _ fun _ => ne_misuse_unpackAt _ _ _) fun _ =>
    ne_misuse_bind (ne_misuse_deserializeColumns _ _ _ _ _ _) fun _ => by simp [pure, Except.pure]

end Schema

/-! ## A page that shows nothing -/

section Slots

variable {γ : Type} {page : Page} {raw : Bytes} {step : List γ → Nat → Bytes → Except PyErr (List γ)}

theorem ne_misuse_visitSlots (hstep : ∀ acc slotId data, step acc slotId data ≠ .error .misuse)
    (slots : List Nat) (acc : List γ) : page.visitSlots raw step slots acc ≠ .error .misuse := by
  induction slots generalizing acc with
  | nil => simp [Page.visitSlots]
  | cons slotId rest ih =>
      rw [Page.visitSlots]
      refine ne_misuse_bind (ne_misuse_of_raisesOnly (Page.raisesOnly_getTuple page slotId) raw) fun tuple => ?_
      cases tuple with
      | none => exact ih acc
      | some data => exact ne_misuse_bind (hstep acc slotId data) ih

/-- A loop that collects a result for every tuple it sees. -/
def Collects (step : List γ → Nat → Bytes → Except PyErr (List γ)) : Prop :=
  ∀ acc slotId data acc', step acc slotId data = .ok acc' → ∃ last, acc' = acc ++ [last]

theorem prefix_visitSlots (hstep : Collects step) {slots : List Nat} {acc acc' : List γ}
    (h : page.visitSlots raw step slots acc = .ok acc') : acc <+: acc' := by
  induction slots generalizing acc with
  | nil =>
      obtain rfl := Except.ok.inj h
      exact List.prefix_refl acc
  | cons slotId rest ih =>
      rw [Page.visitSlots] at h
      obtain ⟨tuple, -, h⟩ := bind_eq_ok.mp h
      cases tuple with
      | none => exact ih h
      | some data =>
          obtain ⟨more, hmore, h⟩ := bind_eq_ok.mp h
          obtain ⟨last, rfl⟩ := hstep acc slotId data more hmore
          exact (List.prefix_append acc [last]).trans (ih h)

/-- Nothing is collected exactly if no slot has a tuple. -/
theorem visitSlots_eq_self_iff (hstep : Collects step) (slots : List Nat) (acc : List γ) :
    page.visitSlots raw step slots acc = .ok acc ↔
      ∀ slotId ∈ slots, (page.getTuple slotId raw).1 = .ok none := by
  induction slots with
  | nil => simp [Page.visitSlots]
  | cons slotId rest ih =>
      rw [Page.visitSlots, List.forall_mem_cons, ← ih]
      rcases htuple : (page.getTuple slotId raw).1 with e | tuple
      · exact iff_of_false (by simp [bind, Except.bind]) (by simp)
      · cases tuple with
        | none => exact (and_iff_right rfl).symm
        | some data =>
            refine iff_of_false (fun h => ?_) (by simp)
            obtain ⟨more, hmore, h⟩ := bind_eq_ok.mp (show step acc slotId data >>= _ = _ from h)
            obtain ⟨last, rfl⟩ := hstep acc slotId data more hmore
            have hshort := (prefix_visitSlots hstep h).length_le
            rw [List.length_append, List.length_singleton] at hshort
            omega

end Slots

/-- Collecting the records of a page. -/
theorem collects_collect (schema : Schema) (p : Nat) :
    Collects fun records slotId raw => StoredTable.collect schema records (p, slotId) raw := by
  intro records slotId raw records' h
  obtain ⟨record, -, h⟩ := bind_eq_ok.mp h
  exact ⟨record, (Except.ok.inj h).symm⟩

namespace HeapOfRows

variable {σ : Type} {table : StoredTable} {w w' : Flat FileId Bytes} {entries : List DirEntry}
  {rows : Nat → List Row} {raw : Bytes} {records : List Record}

variable (table rows) in
/-- A scan that finds a page behind those with the rows. -/
theorem run_scan_behind (n : Nat) {entries : List DirEntry} {page : Page} (hgone : table.fileId ∉ w.gone)
    (hheld : w.Held) (hpins : Multiset.card w.pins < 8) (hdir : DirRep (w.mem (table.fileId, 0)) entries)
    (hcount : entries.length = n + 1)
    (hpages : ∀ p, 1 ≤ p → p ≤ n → PageState (w.mem (table.fileId, p)) (rows p))
    (hinit : Page.init false (w.mem (table.fileId, n + 1)) = (.ok page, w.mem (table.fileId, n + 1)))
    (hrecords : (tuplesIn n rows).mapM (fun item => table.schema.deserialize item.2 item.1) = .ok records)
    (s : σ) :
    ∃ r, (table.scan : PageProg σ (List Record)).run carefulStore s w = (r, s, w) ∧
      r ≠ .error .misuse ∧ (r = .ok records ↔ ShowsNothing (w.mem (table.fileId, n + 1))) ∧
      ∀ records', r = .ok records' → records <+: records' := by
  -- the pages are visited as they were, and then the new one
  have hvisit := HeapFile.run_forEach_of_count (c := carefulStore) (s := s) hgone hheld hpins
    (deserialize_of_rep hdir) (n := n + 1) (by rw [directoryOf, hcount]) rfl
    (fun p hlow hhigh => ⟨rfl, ?_⟩) (StoredTable.collect table.schema) []
  · let collect := fun records slotId raw => StoredTable.collect table.schema records (n + 1, slotId) raw
    let last := page.visitSlots (w.mem (table.fileId, n + 1)) collect (List.range page.numSlots) records
    have hfront : visitPages (fun p => w.mem (table.fileId, p)) (StoredTable.collect table.schema)
        (List.range' 1 n) [] = .ok records := by
      have hstate : ∀ p ∈ List.range' 1 n, PageState (w.mem (table.fileId, p)) (rows p) := fun p hp => by
        obtain ⟨hlow, hhigh⟩ := List.mem_range'_1.mp hp
        exact hpages p hlow (by omega)
      have hcollect := foldlM_collect_eq
        (f := fun item : Rid × Bytes => table.schema.deserialize item.2 item.1) (tuplesIn n rows) []
      rw [visitPages_of_state hstate]
      refine hcollect.trans ?_
      rw [hrecords]
      rfl
    have hall : visitPages (fun p => w.mem (table.fileId, p)) (StoredTable.collect table.schema)
        (List.range' 1 (n + 1)) [] = last := by
      rw [List.range'_1_concat, visitPages_append, hfront, Nat.add_comm 1]
      simp only [visitPages, hinit]
      exact bind_pure last
    refine ⟨last, hvisit.trans (by rw [hall]), ?_, ?_, ?_⟩
    · refine ne_misuse_visitSlots (fun acc slotId data => ?_) _ _
      exact ne_misuse_bind (Schema.ne_misuse_deserialize _ _ _) fun _ => by simp [pure, Except.pure]
    · rw [visitSlots_eq_self_iff (collects_collect table.schema _)]
      constructor
      · intro hnone page' hpage' slotId hslot
        obtain rfl : page = page' := Except.ok.inj ((congrArg Prod.fst hinit).symm.trans hpage')
        exact hnone slotId (List.mem_range.mpr hslot)
      · intro hnothing slotId hslot
        exact hnothing page (by rw [hinit]) slotId (List.mem_range.mp hslot)
    · exact fun records' hok => prefix_visitSlots (collects_collect table.schema _) hok
  · by_cases hlast : p = n + 1
    · exact hlast ▸ ⟨page, hinit⟩
    · exact readable_of_state (hpages p hlow (by omega))

/-- A scan after a tuple too long was left on a new page. -/
theorem run_scan_brokenOff (h : HeapOfRows table.schema table.fileId w entries rows)
    (hlong : 4084 < raw.length) (hbroken : HeapFile.BrokenOff table.fileId w w' entries raw)
    (hrecords : (tuplesIn entries.length rows).mapM
      (fun item => table.schema.deserialize item.2 item.1) = .ok records) (s : σ) :
    ∃ r, (table.scan : PageProg σ (List Record)).run carefulStore s w' = (r, s, w') ∧
      r ≠ .error .misuse ∧ (r = .ok records ↔ ShowsNothing (HeapFile.leftBy raw)) ∧
      ∀ records', r = .ok records' → records <+: records' := by
  have hsize := h.exact_.size
  have hnew : w'.mem (table.fileId, entries.length + 1) = HeapFile.leftBy raw := by
    rw [← hsize, hbroken.page]
  obtain ⟨page, hinit⟩ := HeapFile.readable_leftBy hlong
  have hgone : table.fileId ∉ w'.gone := by simp [hbroken.gone, h.gone]
  have hscan := run_scan_behind table rows entries.length hgone hbroken.held
    (by rw [hbroken.pins]; decide) hbroken.dir (by simp) (fun p hlow hhigh => ?_) (by rw [hnew]; exact hinit) hrecords s
  · rwa [hnew] at hscan
  · rw [hbroken.same p (by omega) (by omega)]
    exact h.heap.page p (by omega)

/-- A tuple without room, and the scan afterwards. -/
theorem run_insertTuple_unplaced (h : HeapOfRows table.schema table.fileId w entries rows)
    (htake : (directoryOf entries).take raw.length = none)
    (hrecords : (tuplesIn entries.length rows).mapM
      (fun item => table.schema.deserialize item.2 item.1) = .ok records) (s : σ) :
    ∃ w' w'' r, (HeapFile.insertTuple table.fileId raw : PageProg σ Rid).run carefulStore s w =
        (.error .structError, s, w') ∧
      (table.scan : PageProg σ (List Record)).run carefulStore s w' = (r, s, w'') ∧ r ≠ .error .misuse ∧
      (r = .ok records ↔
        4096 < raw.length ∧ entries.length < 682 ∧ ShowsNothing (zeros (8192 - raw.length) ++ raw)) ∧
      ∀ records', r = .ok records' → records <+: records' := by
  obtain ⟨hfit, hfull⟩ := take_eq_none.mp htake
  by_cases hroom : entries.length < 682
  · have hlong : 4084 < raw.length := by
      by_contra hshort
      exact hfull ⟨hroom, Nat.not_lt.mp hshort⟩
    obtain ⟨w', hinsert, hbroken⟩ := HeapFile.run_insertTuple_long carefulStore s h.heap hfit
      h.exact_.size hroom hlong
    obtain ⟨r, hscan, hok, hiff, hmore⟩ := h.run_scan_brokenOff hlong hbroken hrecords s
    refine ⟨w', w', r, hinsert, hscan, hok, ?_, hmore⟩
    rw [hiff, showsNothing_leftBy hlong, and_iff_right hroom]
  · have hmost := h.heap.dir.room
    rw [pageSize_eq] at hmost
    obtain ⟨w', hinsert, hgone, hheld, hpins, hbroken⟩ := HeapFile.run_insertTuple_full carefulStore s
      h.heap hfit h.exact_.size (by omega)
    have hfetch : (Bpm.fetchPage HeapFile.directoryId table.fileId : PageProg σ Bytes).run carefulStore s w' =
        (.ok (w'.mem (table.fileId, 0)), s, w'.pin (table.fileId, 0)) :=
      Bpm.run_fetch (by simp [hgone, h.gone]) hheld (by rw [hpins]; decide)
    have hscan : (table.scan : PageProg σ (List Record)).run carefulStore s w' =
        (.error .structError, s, w'.pin (table.fileId, 0)) := by
      refine Prog.run_step hfetch (Prog.run_bind_error ?_)
      exact Bpm.run_reading (w := w'.pin (table.fileId, 0)) (Prod.ext hbroken rfl)
    refine ⟨w', _, _, hinsert, hscan, by simp, ?_, fun records' hok => nomatch hok⟩
    exact iff_of_false (fun h => nomatch h) fun h => hroom h.2.1

end HeapOfRows

namespace TableSession

variable {τ : Type} [IndexFile τ] {order : SetOrder} {s : TableSession τ} {w : Flat FileId Bytes}
  {lost : Multiset PageKey} {entries : List DirEntry} {rows : Nat → List Row} {row : List Value}
  {raw : Bytes} {records : List Record}

/-- A row that finds room, in a table without indexes. -/
theorem Kept.insert_placed (h : Kept s w lost entries rows) (order : SetOrder)
    (hindices : s.table.indices = []) (hraw : s.table.schema.serialize row = .ok (some raw))
    {dir : DirectoryPage} (htake : (directoryOf entries).take raw.length = some dir) :
    ∃ rid pool w' entries' rows', s.run order (s.table.insert row) = (.ok rid, s.trees, pool) ∧
      Kept { s with pool := pool } w' lost entries' rows' ∧ dir = directoryOf entries' ∧
      (tuplesIn entries'.length rows').Perm (tuplesIn entries.length rows ++ [(rid, raw)]) := by
  obtain ⟨rid, pool, w', entries', rows', hrun, hkept, hdir, hperm⟩ := h.insertTuple_placed order hraw htake
  have hentries : (StoredTable.insertEntries s.table.schema row rid s.table.indices).run
      (BufferPoolManager.store order) s.trees pool = (.ok (), s.trees, pool) := by
    rw [hindices]
    rfl
  exact ⟨rid, pool, w', entries', rows', run_insert hraw hrun hentries, hkept, hdir, hperm⟩

/-- A row without room. -/
theorem Kept.insert_unplaced (h : Kept s w lost entries rows) (hscan : s.scan order = .ok records)
    (hraw : s.table.schema.serialize row = .ok (some raw))
    (htake : (directoryOf entries).take raw.length = none) :
    ∃ pool, s.run order (s.table.insert row) = (.error .structError, s.trees, pool) ∧
      (scan order { s with pool := pool } = .ok records ↔ 4096 < raw.length ∧
        s.pool.disk.numPages s.table.fileId < 683 ∧ ShowsNothing (zeros (8192 - raw.length) ++ raw)) ∧
      ∀ records', scan order { s with pool := pool } = .ok records' → records <+: records' := by
  rw [h.scan_eq] at hscan
  obtain ⟨w', w'', r, hinsert, hrun, hok, hiff, hmore⟩ := h.file.run_insertTuple_unplaced htake hscan s.trees
  obtain ⟨pool, hpool, hr⟩ := h.run_eq order hinsert (by simp)
  obtain ⟨pool', hpool', -⟩ := Bpm.run_of_careful order hr h.few_lost hrun hok
  have hafter : scan order { s with pool := pool } = r := congrArg Prod.fst hpool'
  refine ⟨pool, ?_, ?_, by rwa [hafter]⟩
  · rw [run, StoredTable.insert, hraw]
    exact Prog.run_step (Prog.run_ofExcept _ _ _) (Prog.run_bind_error hpool)
  · have hpages : s.pool.disk.numPages s.table.fileId < 683 ↔ entries.length < 682 := by
      rw [h.numPages_eq, h.file.exact_.size]
      omega
    rw [hafter, hiff, hpages]

/-- What a table without indexes keeps in every call that is allowed. -/
theorem kept_of_reachable_unindexed (hs : Reachable order (fun _ _ => False) s) :
    s.table.indices = [] ∧ ∃ w lost entries rows, Kept s w lost entries rows := by
  induction hs with
  | create f tableName schema trees disk hdisk hempty =>
      obtain ⟨w, h⟩ := kept_create order f tableName schema trees hdisk hempty
      exact ⟨rfl, w, 0, [], _, h⟩
  | @step s call _ hcall ih =>
      obtain ⟨hindices, w, lost, entries, rows, h⟩ := ih
      cases call with
      | insert row =>
          refine ⟨hindices, ?_⟩
          rcases hraw : s.table.schema.serialize row with e | raw
          · rw [step, insert_unserialized order s hraw]
            exact ⟨w, lost, entries, rows, h⟩
          · cases raw with
            | none =>
                obtain ⟨e, pool, hrun, hkept⟩ := h.insert_rejected order hraw
                rw [step, hrun]
                exact ⟨w, _, entries, rows, hkept⟩
            | some raw =>
                have hroom := h.roomFor_iff.mp (hcall raw hraw)
                rcases htake : (directoryOf entries).take raw.length with _ | dir
                · simp [DirectoryPage.TakesAll, htake] at hroom
                · obtain ⟨rid, pool, w', entries', rows', hrun, hkept, -, -⟩ :=
                    h.insert_placed order hindices hraw htake
                  rw [step, hrun]
                  exact ⟨w', lost, entries', rows', hkept⟩
      | delete rid =>
          refine ⟨hindices, ?_⟩
          obtain ⟨records, record, hscan, hmem, rfl⟩ := hcall
          obtain ⟨raw, htuple, hread⟩ := h.exists_tuple hscan hmem
          obtain ⟨pool, w', rows', hrun, hkept, -⟩ := h.deleteTuple_row order htuple hread
          have hdelete := hrun s.trees pool (.ok ()) (by rw [hindices]; rfl)
          rw [step, hdelete]
          exact ⟨w', lost, entries, rows', hkept⟩
      | createIndex indexName colName => exact hcall.elim
      | touch k =>
          obtain ⟨pool, hstep, hkept⟩ := kept_touch h order k
          exact hstep ▸ ⟨hindices, w, lost, entries, rows, hkept⟩
      | flushPage k =>
          obtain ⟨pool, hstep, hkept⟩ := kept_flushPage h order hcall
          exact hstep ▸ ⟨hindices, w, lost, entries, rows, hkept⟩
      | flushAll =>
          obtain ⟨pool, hstep, hkept⟩ := kept_flushAll h order
          exact hstep ▸ ⟨hindices, w, lost, entries, rows, hkept⟩
      | restart =>
          obtain ⟨pool, hstep, hkept⟩ := kept_restart h order
          exact hstep ▸ ⟨hindices, w, 0, entries, rows, hkept⟩

end TableSession

end DBEngine
