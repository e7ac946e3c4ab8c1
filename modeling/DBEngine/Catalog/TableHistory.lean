import DBEngine.Catalog.RowsFile

/-!
# Histories of a table

A table in use: calls of `insert`, `delete` and `create_index` that return or raise,
other traffic of the pool between them, and new starts of the process after everything
was flushed.  As long as every tuple finds room, the heap file holds the rows inserted
and not deleted; all that a call that raised leaves behind are pins on the directory.
-/

set_option autoImplicit false

namespace DBEngine

open ByteBuffer Paged

/-- What happens to a table and its pool. -/
inductive TableCall where
  | insert (row : List Value)
  | delete (rid : Rid)
  | createIndex (indexName colName : String)
  /-- somebody fetches and releases a page, of this file or another -/
  | touch (k : PageKey)
  | flushPage (k : PageKey)
  | flushAll
  /-- everything is flushed, and the table is loaded with a new pool; for a table without
  indexes -/
  | restart

/-- A table in use: the pool, the table and its tree objects, and the next file id. -/
structure TableSession (τ : Type) where
  pool : BufferPoolManager
  table : StoredTable
  trees : String → τ
  nextFileId : FileId

namespace TableSession

variable {τ α : Type}

/-- A program on the table. -/
def run (order : SetOrder) (p : PageProg (String → τ) α) (s : TableSession τ) :
    Except PyErr α × (String → τ) × BufferPoolManager :=
  p.run (BufferPoolManager.store order) s.trees s.pool

/-- The session after a call. -/
def after (s : TableSession τ) (r : Except PyErr α × (String → τ) × BufferPoolManager) :
    TableSession τ :=
  { s with trees := r.2.1, pool := r.2.2 }

/-- `create_table` with a new pool over the files of `disk`. -/
def create (order : SetOrder) (f : FileId) (tableName : String) (schema : Schema) (trees : String → τ)
    (disk : Disk) : TableSession τ :=
  let s : TableSession τ := ⟨BufferPoolManager.new disk, ⟨tableName, schema, f, []⟩, trees, f + 1⟩
  s.after (s.run order s.table.create)

variable [IndexFile τ]

/-- One call. -/
def step (order : SetOrder) (s : TableSession τ) : TableCall → TableSession τ
  | .insert row => s.after (s.run order (s.table.insert row))
  | .delete rid => s.after (s.run order (s.table.delete rid))
  | .createIndex indexName colName =>
      match s.run order (s.table.createIndex indexName colName s.nextFileId) with
      | (.ok table, trees, pool) => ⟨pool, table, trees, s.nextFileId + 1⟩
      | (.error _, trees, pool) => ⟨pool, s.table, trees, s.nextFileId + 1⟩
  | .touch k =>
      s.after (s.run order (do
        let _ ← Bpm.fetchPage k.2 k.1
        Bpm.unpinPage k.2 k.1 false))
  | .flushPage k => s.after (s.run order (Bpm.flushPage k))
  | .flushAll => { s with pool := s.pool.flushAll.2 }
  | .restart => { s with pool := BufferPoolManager.new s.pool.flushAll.2.disk }

/-- `list(table.scan())` -/
def scan (order : SetOrder) (s : TableSession τ) : Except PyErr (List Record) :=
  (s.run order s.table.scan).1

/-- Tuples of these lengths find room, one after the other. -/
def RoomFor (f : FileId) (lengths : List Nat) (pool : BufferPoolManager) : Prop :=
  ∃ dir, HeapSession.directory f pool = .ok dir ∧ dir.TakesAll lengths

/-- The calls considered: a row that can be serialized finds room, and the record ids
deleted are those of rows.  `indexing` is what is asked of `create_index`. -/
def Allowed (order : SetOrder) (indexing : TableSession τ → String → Prop) (s : TableSession τ) :
    TableCall → Prop
  | .insert row => ∀ raw, s.table.schema.serialize row = .ok (some raw) →
      RoomFor s.table.fileId [raw.length] s.pool
  | .delete rid => ∃ records record, s.scan order = .ok records ∧ record ∈ records ∧ record.rid = rid
  | .createIndex _ colName => indexing s colName
  | .flushPage k => k.2 < s.pool.disk.numPages k.1
  | .restart => s.table.indices = []
  | _ => True

/-- The states reached from `create_table` on an empty file. -/
inductive Reachable (order : SetOrder) (indexing : TableSession τ → String → Prop) :
    TableSession τ → Prop
  | create (f : FileId) (tableName : String) (schema : Schema) (trees : String → τ) (disk : Disk)
      (hdisk : ∀ g, disk.Whole g) (hempty : disk.numPages f = 0) :
      Reachable order indexing (create order f tableName schema trees disk)
  | step {s : TableSession τ} (call : TableCall) (hs : Reachable order indexing s)
      (hcall : s.Allowed order indexing call) : Reachable order indexing (s.step order call)

end TableSession

/-- The heap file of a table between two calls: its directory agrees with its pages, and
its tuples are rows. -/
structure HeapOfRows (schema : Schema) (f : FileId) (w : Flat FileId Bytes) (entries : List DirEntry)
    (rows : Nat → List Row) : Prop where
  gone : w.gone = ∅
  heap : HeapOpen f w entries rows
  exact_ : Exact f w entries rows
  stored : ∀ item ∈ tuplesIn entries.length rows,
    ∃ values, schema.serialize values = .ok (some item.2)

/-- The store a table works on, whatever pins were lost before. -/
abbrev carefulStore : Store FileId Bytes PyErr (Flat FileId Bytes) := Flat.careful (Bpm.clientLimits anyBlock)

/-- What is kept along every run: the heap file is that of rows, and the pins that were
lost are on its directory. -/
structure TableSession.Kept {τ : Type} (s : TableSession τ) (w : Flat FileId Bytes)
    (lost : Multiset PageKey) (entries : List DirEntry) (rows : Nat → List Row) : Prop where
  refines : s.pool.Refines (w.leak lost)
  lost : ∀ k ∈ lost, k = (s.table.fileId, 0)
  file : HeapOfRows s.table.schema s.table.fileId w entries rows

/-! ## Calls on the heap file -/

namespace HeapOfRows

variable {σ : Type} {schema : Schema} {f : FileId} {w : Flat FileId Bytes} {entries : List DirEntry}
  {rows : Nat → List Row}

/-- The heap file, whatever files were removed. -/
theorem rowsFile (h : HeapOfRows schema f w entries rows) : RowsFile schema f w entries rows :=
  ⟨h.heap, h.exact_, h.stored⟩

theorem beyond (h : HeapOfRows schema f w entries rows) (p : Nat) (hp : entries.length < p) : rows p = [] :=
  h.rowsFile.beyond p hp

/-- The tuples decode. -/
theorem exists_records (h : HeapOfRows schema f w entries rows) :
    ∃ records, (tuplesIn entries.length rows).mapM (fun item => schema.deserialize item.2 item.1) =
      .ok records := h.rowsFile.exists_records

/-- A scan yields the tuples decoded. -/
theorem run_scan {table : StoredTable} (h : HeapOfRows table.schema table.fileId w entries rows) (s : σ) :
    (table.scan : PageProg σ (List Record)).run carefulStore s w =
      ((tuplesIn entries.length rows).mapM (fun item => table.schema.deserialize item.2 item.1), s, w) :=
  h.rowsFile.run_scan s

/-- The directory has room for a tuple exactly if it can be placed. -/
theorem placeable (h : HeapOfRows schema f w entries rows) {raw : Bytes} {dir : DirectoryPage}
    (htake : (directoryOf entries).take raw.length = some dir) :
    raw.length ≤ 4084 ∧ HeapFile.Placeable f w entries raw := h.rowsFile.placeable htake

/-- A row that finds room is one more tuple. -/
theorem run_insertTuple (h : HeapOfRows schema f w entries rows) {values : List Value} {raw : Bytes}
    (hraw : schema.serialize values = .ok (some raw)) {dir : DirectoryPage}
    (htake : (directoryOf entries).take raw.length = some dir) (s : σ) :
    ∃ rid w' entries' rows',
      (HeapFile.insertTuple f raw : PageProg σ Rid).run carefulStore s w = (.ok rid, s, w') ∧
      HeapOfRows schema f w' entries' rows' ∧ dir = directoryOf entries' ∧
      (tuplesIn entries'.length rows').Perm (tuplesIn entries.length rows ++ [(rid, raw)]) := by
  obtain ⟨rid, w', entries', rows', hrun, hgone, hfile, hdir, hperm⟩ :=
    h.rowsFile.run_insertTuple (c := carefulStore) hraw htake s
  exact ⟨rid, w', entries', rows', hrun, ⟨hgone.trans h.gone, hfile.heap, hfile.exact_, hfile.stored⟩, hdir, hperm⟩

/-- A row of the table is deleted. -/
theorem run_deleteTuple (h : HeapOfRows schema f w entries rows) {rid : Rid} {raw : Bytes}
    (hmem : (rid, raw) ∈ tuplesIn entries.length rows) (s : σ) :
    ∃ w' rows',
      (HeapFile.deleteTuple f rid : PageProg σ Bool).run carefulStore s w = (.ok true, s, w') ∧
      HeapOfRows schema f w' entries rows' ∧
      (tuplesIn entries.length rows).Perm ((rid, raw) :: tuplesIn entries.length rows') := by
  obtain ⟨w', rows', hrun, hgone, hfile, hperm⟩ := h.rowsFile.run_deleteTuple (c := carefulStore) hmem s
  exact ⟨w', rows', hrun, ⟨hgone.trans h.gone, hfile.heap, hfile.exact_, hfile.stored⟩, hperm⟩

/-- A row of the table is read. -/
theorem run_get {table : StoredTable} (h : HeapOfRows table.schema table.fileId w entries rows) {rid : Rid}
    {raw : Bytes} (hmem : (rid, raw) ∈ tuplesIn entries.length rows) (s : σ) :
    (table.get rid : PageProg σ Record).run carefulStore s w = (table.schema.deserialize raw rid, s, w) :=
  h.rowsFile.run_get hmem s

end HeapOfRows

namespace TableSession

variable {τ α : Type} {order : SetOrder} {s : TableSession τ} {w w' : Flat FileId Bytes}
  {lost : Multiset PageKey} {entries entries' : List DirEntry} {rows rows' : Nat → List Row}

/-! ## From the careful store to the pool -/

theorem Kept.few_lost (h : Kept s w lost entries rows) : lost.toFinset.card ≤ 2 := by
  have hsub : lost.toFinset ⊆ {(s.table.fileId, 0)} := fun k hk =>
    Finset.mem_singleton.mpr (h.lost k (Multiset.mem_toFinset.mp hk))
  exact Nat.le_trans (Finset.card_le_card hsub) (by simp)

theorem Kept.run_eq (h : Kept s w lost entries rows) (order : SetOrder) {p : PageProg (String → τ) α}
    {trees : String → τ} {r : Except PyErr α} (hrun : p.run carefulStore s.trees w = (r, trees, w'))
    (hok : r ≠ .error .misuse) :
    ∃ pool, s.run order p = (r, trees, pool) ∧ pool.Refines (w'.leak lost) :=
  Bpm.run_of_careful order h.refines h.few_lost hrun hok

/-- The table with another pool that holds the same rows or others. -/
theorem Kept.of_pool (h : Kept s w lost entries rows) {pool : BufferPoolManager} (trees : String → τ)
    (hr : pool.Refines (w'.leak lost)) (hfile : HeapOfRows s.table.schema s.table.fileId w' entries' rows') :
    Kept { s with trees := trees, pool := pool } w' lost entries' rows' :=
  ⟨hr, h.lost, hfile⟩

theorem Kept.here (h : Kept s w lost entries rows) (g : FileId) : g ∉ (w.leak lost).gone := by
  simp [Flat.leak, h.file.gone]

theorem Kept.directory_eq (h : Kept s w lost entries rows) :
    HeapSession.directory s.table.fileId s.pool = .ok (directoryOf entries) := by
  have hmem : (w.leak lost).mem = w.mem := rfl
  have hcurrent := BufferPoolManager.current_eq (k := (s.table.fileId, 0)) h.refines (h.here _)
  rw [HeapSession.directory, hcurrent, hmem, deserialize_of_rep h.file.heap.dir]

theorem Kept.roomFor_iff (h : Kept s w lost entries rows) {lengths : List Nat} :
    RoomFor s.table.fileId lengths s.pool ↔ (directoryOf entries).TakesAll lengths := by
  rw [RoomFor, h.directory_eq]
  constructor
  · rintro ⟨dir, hdir, htakes⟩
    rwa [Except.ok.inj hdir]
  · exact fun htakes => ⟨_, rfl, htakes⟩

theorem Kept.numPages_eq (h : Kept s w lost entries rows) (g : FileId) :
    s.pool.disk.numPages g = w.size g :=
  BufferPoolManager.numPages_eq h.refines (h.here g)

/-- `list(scan())` yields the tuples decoded. -/
theorem Kept.scan_eq (h : Kept s w lost entries rows) : s.scan order =
    (tuplesIn entries.length rows).mapM (fun item => s.table.schema.deserialize item.2 item.1) := by
  obtain ⟨records, hrecords⟩ := h.file.exists_records
  have hrun := h.file.run_scan s.trees
  rw [hrecords] at hrun ⊢
  obtain ⟨pool, hpool, -⟩ := h.run_eq order hrun (by simp)
  rw [scan, hpool]

theorem Kept.exists_records (h : Kept s w lost entries rows) (order : SetOrder) : ∃ records, s.scan order = .ok records := by
  rw [h.scan_eq]
  exact h.file.exists_records

/-- A record that a scan yields is a tuple of the heap file. -/
theorem Kept.exists_tuple (h : Kept s w lost entries rows) {records : List Record} {record : Record}
    (hscan : s.scan order = .ok records) (hmem : record ∈ records) :
    ∃ raw, (record.rid, raw) ∈ tuplesIn entries.length rows ∧
      s.table.schema.deserialize raw record.rid = .ok record := by
  rw [h.scan_eq, mapM_eq_ok] at hscan
  obtain ⟨⟨rid, raw⟩, hitem, hread⟩ := exists_of_forall₂ hscan hmem
  obtain rfl : record.rid = rid := Schema.rid_deserialize hread
  exact ⟨raw, hitem, hread⟩

/-! ## The start -/

/-- After `create_table` the table is empty. -/
theorem kept_create (order : SetOrder) (f : FileId) (tableName : String) (schema : Schema)
    (trees : String → τ) {disk : Disk} (hdisk : ∀ g, disk.Whole g) (hempty : disk.numPages f = 0) :
    ∃ w, Kept (create order f tableName schema trees disk) w 0 [] fun _ => [] := by
  have hzeros : ∀ p, disk.page (f, p) = zeros pageSize := fun p =>
    Disk.page_of_ge (hdisk f) (by omega)
  let w₀ := BufferPoolManager.flatOf disk
  have hidle : w₀.Idle f := ⟨by simp [w₀], rfl, rfl⟩
  obtain ⟨b, hrun, hdir⟩ := HeapFile.run_createDirectory (c := carefulStore) (s := trees)
    (accepts_anyBlock f) hidle hempty (by simp [w₀, hzeros])
  have hr : (BufferPoolManager.new disk).Refines (w₀.leak 0) := by
    rw [Flat.leak_zero]
    exact BufferPoolManager.refines_flatOf hdisk
  obtain ⟨pool, hpool, hr'⟩ := Bpm.run_of_careful order hr (by simp) hrun (by simp)
  have hstart : create order f tableName schema trees disk =
      ⟨pool, ⟨tableName, schema, f, []⟩, trees, f + 1⟩ := by
    simp only [create, run, after, StoredTable.create, hpool]
  rw [hstart]
  refine ⟨(w₀.extend f).setMem (f, 0) b, hr', by simp, ?_⟩
  exact
    { gone := rfl
      heap := HeapOpen.created hidle (fun p => hzeros p) hdir
      exact_ := ⟨by simp [w₀, hempty], by simp⟩
      stored := by simp [tuplesIn] }

/-! ## One row -/

section Calls

variable [IndexFile τ] {row : List Value} {raw : Bytes}

/-- A row that cannot be serialized does not reach the file. -/
theorem insert_unserialized (order : SetOrder) (s : TableSession τ) {e : PyErr}
    (hraw : s.table.schema.serialize row = .error e) :
    s.run order (s.table.insert row) = (.error e, s.trees, s.pool) := by
  rw [run, StoredTable.insert, hraw]
  rfl

/-- A text too long for its column is noticed when the directory is open. -/
theorem Kept.insert_rejected (h : Kept s w lost entries rows) (order : SetOrder)
    (hraw : s.table.schema.serialize row = .ok none) :
    ∃ e pool, s.run order (s.table.insert row) = (.error e, s.trees, pool) ∧
      Kept { s with pool := pool } w ((s.table.fileId, 0) ::ₘ lost) entries rows := by
  have hrun : (s.table.insert row : PageProg (String → τ) Rid).run carefulStore s.trees w =
      (.error (.typeError "object of type 'bool' has no len()"), s.trees, w.pin (s.table.fileId, 0)) := by
    rw [StoredTable.insert, hraw]
    refine Prog.run_step (Prog.run_ofExcept _ _ _) (Prog.run_bind_error ?_)
    refine Prog.run_step (Bpm.run_fetch (h.file.heap.idle.here) h.file.heap.held h.file.heap.room) ?_
    refine Prog.run_step (Bpm.run_reading (w := w.pin (s.table.fileId, 0))
      (deserialize_of_rep h.file.heap.dir)) ?_
    exact Prog.run_raise _ _ _
  obtain ⟨pool, hpool, hr⟩ := h.run_eq order hrun (by simp)
  rw [Flat.pin_leak] at hr
  refine ⟨_, pool, hpool, hr, fun k hk => ?_, h.file⟩
  rcases Multiset.mem_cons.mp hk with rfl | hk
  · rfl
  · exact h.lost k hk

omit [IndexFile τ] in
/-- A row that finds room reaches the file. -/
theorem Kept.insertTuple_placed (h : Kept s w lost entries rows) (order : SetOrder)
    (hraw : s.table.schema.serialize row = .ok (some raw)) {dir : DirectoryPage}
    (htake : (directoryOf entries).take raw.length = some dir) :
    ∃ rid pool w' entries' rows',
      s.run order (StoredTable.insertTuple s.table.fileId (some raw)) = (.ok rid, s.trees, pool) ∧
      Kept { s with pool := pool } w' lost entries' rows' ∧ dir = directoryOf entries' ∧
      (tuplesIn entries'.length rows').Perm (tuplesIn entries.length rows ++ [(rid, raw)]) := by
  obtain ⟨rid, w', entries', rows', hrun, hfile, hdir, hperm⟩ :=
    h.file.run_insertTuple hraw htake s.trees
  obtain ⟨pool, hpool, hr⟩ := h.run_eq order hrun (by simp)
  exact ⟨rid, pool, w', entries', rows', hpool, ⟨hr, h.lost, hfile⟩, hdir, hperm⟩

/-- From the heap file on, an insert goes through the indexes. -/
theorem run_insert (hraw : s.table.schema.serialize row = .ok (some raw)) {rid : Rid}
    {pool pool' : BufferPoolManager} {trees : String → τ} {r : Except PyErr Unit}
    (hrun : s.run order (StoredTable.insertTuple s.table.fileId (some raw)) = (.ok rid, s.trees, pool))
    (hentries : (StoredTable.insertEntries s.table.schema row rid s.table.indices).run
      (BufferPoolManager.store order) s.trees pool = (r, trees, pool')) :
    s.run order (s.table.insert row) = (r.map fun _ => rid, trees, pool') := by
  rw [run, StoredTable.insert, hraw]
  refine Prog.run_step (Prog.run_ofExcept _ _ _) (Prog.run_step hrun ?_)
  cases r with
  | error e => exact Prog.run_bind_error hentries
  | ok _ => exact Prog.run_step hentries (Prog.run_pure _ _ _)

/-- The row under a record id is read and deleted. -/
theorem Kept.deleteTuple_row (h : Kept s w lost entries rows) (order : SetOrder) {rid : Rid}
    (hmem : (rid, raw) ∈ tuplesIn entries.length rows) {record : Record}
    (hread : s.table.schema.deserialize raw rid = .ok record) :
    ∃ pool w' rows', (∀ trees pool' (r : Except PyErr Unit),
        (StoredTable.deleteEntries s.table.schema record.values rid s.table.indices).run
          (BufferPoolManager.store order) s.trees pool = (r, trees, pool') →
        s.run order (s.table.delete rid) = (r.map fun _ => true, trees, pool')) ∧
      Kept { s with pool := pool } w' lost entries rows' ∧
      (tuplesIn entries.length rows).Perm ((rid, raw) :: tuplesIn entries.length rows') := by
  have hget := h.file.run_get hmem s.trees
  rw [hread] at hget
  obtain ⟨pool₁, hpool₁, hr₁⟩ := h.run_eq order hget (by simp)
  have h₁ : Kept { s with pool := pool₁ } w lost entries rows := ⟨hr₁, h.lost, h.file⟩
  obtain ⟨w', rows', hdelete, hfile, hperm⟩ := h.file.run_deleteTuple hmem s.trees
  obtain ⟨pool, hpool, hr⟩ := h₁.run_eq order hdelete (by simp)
  refine ⟨pool, w', rows', fun trees pool' r hentries => ?_, ⟨hr, h.lost, hfile⟩, hperm⟩
  rw [run, StoredTable.delete]
  refine Prog.run_step hpool₁ (Prog.run_step hpool ?_)
  cases r with
  | error e => exact Prog.run_bind_error hentries
  | ok _ => exact Prog.run_step hentries (Prog.run_pure _ _ _)

/-! ## The other traffic of the pool -/

theorem kept_touch (h : Kept s w lost entries rows) (order : SetOrder) (k : PageKey) :
    ∃ pool, s.step order (.touch k) = { s with pool := pool } ∧
      Kept { s with pool := pool } w lost entries rows := by
  have hrun : (do
      let _ ← Bpm.fetchPage k.2 k.1
      Bpm.unpinPage k.2 k.1 false : PageProg (String → τ) Unit).run carefulStore s.trees w =
        (.ok (), s.trees, w) := by
    have hk : k.1 ∉ w.gone := by simp [h.file.gone]
    refine Prog.run_step (Bpm.run_fetch hk h.file.heap.held h.file.heap.room) ?_
    have hgood : (w.pin k).Good (poolLimits anyBlock) k := rfl
    refine (Bpm.run_unpinPage_clean (w := w.pin k) hk (by simp) hgood).trans ?_
    rw [Flat.release_pin]
  obtain ⟨pool, hpool, hr⟩ := h.run_eq order hrun (by simp)
  exact ⟨pool, by simp only [step, hpool, after], h.of_pool s.trees hr h.file⟩

theorem kept_flushPage (h : Kept s w lost entries rows) (order : SetOrder) {k : PageKey}
    (hk : k.2 < s.pool.disk.numPages k.1) : ∃ pool, s.step order (.flushPage k) = { s with pool := pool } ∧
      Kept { s with pool := pool } w lost entries rows := by
  have hclean : k ∉ w.unsaved := by simp [h.file.heap.idle.unsaved]
  have hsave : w.save k = w := by simp [Flat.save, hclean]
  have hrun : (Bpm.flushPage k : PageProg (String → τ) Unit).run carefulStore s.trees w =
      (.ok (), s.trees, w) := by
    have hvalid : (w.mem k).length = pageSize := h.refines.valid k (h.here _) hclean
    have hsaved : (Bpm.flushPage k : PageProg (String → τ) Unit).run carefulStore s.trees w =
        (.ok (), s.trees, w.save k) := by
      have hgood : w.Good (poolLimits anyBlock) k := rfl
      exact Bpm.run_flushPage (by simp [h.file.gone]) hgood ⟨hvalid, by rwa [← h.numPages_eq]⟩
    rwa [hsave] at hsaved
  obtain ⟨pool, hpool, hr⟩ := h.run_eq order hrun (by simp)
  exact ⟨pool, by simp only [step, hpool, after], h.of_pool s.trees hr h.file⟩

omit [IndexFile τ] in
theorem Kept.flushAll (h : Kept s w lost entries rows) :
    ∃ pool, s.pool.flushAll = (.ok (), pool) ∧ pool.Refines (w.leak lost) ∧ ∀ g, pool.dirty g = false :=
  BufferPoolManager.refines_flushAll h.refines fun k _ hk => by
    simp [Flat.leak, h.file.heap.idle.unsaved] at hk

theorem kept_flushAll (h : Kept s w lost entries rows) (order : SetOrder) :
    ∃ pool, s.step order .flushAll = { s with pool := pool } ∧
      Kept { s with pool := pool } w lost entries rows := by
  obtain ⟨pool, hpool, hr, -⟩ := h.flushAll
  exact ⟨pool, by simp only [step, hpool], h.of_pool s.trees hr h.file⟩

/-- A new start finds the same rows, and no pin. -/
theorem kept_restart (h : Kept s w lost entries rows) (order : SetOrder) :
    ∃ pool, s.step order .restart = { s with pool := pool } ∧
      Kept { s with pool := pool } w 0 entries rows := by
  obtain ⟨pool, hpool, hr, hclean⟩ := h.flushAll
  have hr' := BufferPoolManager.refines_restart hr hclean h.file.heap.idle.pins h.file.heap.idle.unsaved
  refine ⟨BufferPoolManager.new pool.disk, by simp only [step, hpool], ?_, by simp, h.file⟩
  rwa [Flat.leak_zero]

end Calls

end TableSession

end DBEngine
