import DBEngine.Catalog.DatabaseFiles

/-!
# Histories of a database

What the users of a database see of it are the rows of its tables.  In every run in which
each call returns or is refused, a call does to them what it says, to the table that it names
and to no other: whatever the pool evicts, whichever pages the tables share frames with, and
over clean restarts.
-/

set_option autoImplicit false

namespace DBEngine

open ByteBuffer Paged

/-! ## What a database is for -/

/-- A table as its users see it: the order of the rows means nothing. -/
structure ShownTable where
  schema : Schema
  indexed : List String
  rows : Multiset Record

/-- The tables by their names. -/
abbrev ShownDatabase : Type := String → Option ShownTable

namespace ShownDatabase

/-- The calls considered: an index is made on an `INT` column, the id of a deleted row comes from
a scan, no row has a text that is too long for its column, and a process stops with everything
flushed. -/
def Allows (db : ShownDatabase) : CatalogCall → Prop
  | .createIndex tableName _ columnName => ∀ table, db tableName = some table → columnName ∉ table.indexed →
      ∃ i, table.schema.IntAt columnName i
  | .insert tableName row => ∀ table, db tableName = some table → table.schema.serialize row ≠ .ok none
  | .delete tableName rid => ∀ table, db tableName = some table → ∃ record ∈ table.rows, record.rid = rid
  | .restart flushed => flushed = true
  | _ => True

/-- The calls that raise before they do anything. -/
def Refuses (db : ShownDatabase) : CatalogCall → Prop
  | .createTable tableName _ => db tableName ≠ none
  | .createIndex tableName _ columnName => ∀ table, db tableName = some table → columnName ∈ table.indexed
  | .deleteTable tableName => db tableName = none
  | .insert tableName row => ∀ table, db tableName = some table → ∃ e, table.schema.serialize row = .error e
  | .delete tableName _ => db tableName = none
  | .flushAll => False
  | .restart _ => False

/-- What a call does. -/
inductive Does : ShownDatabase → CatalogCall → ShownDatabase → Prop
  | createTable {db : ShownDatabase} {tableName : String} (schema : Schema) (hnew : db tableName = none) :
      Does db (.createTable tableName schema) (Function.update db tableName (some ⟨schema, [], 0⟩))
  | createIndex {db : ShownDatabase} {tableName : String} {table : ShownTable} {columnName : String}
      (indexName : String) (htable : db tableName = some table) (hnew : columnName ∉ table.indexed) :
      Does db (.createIndex tableName indexName columnName)
        (Function.update db tableName (some { table with indexed := table.indexed ++ [columnName] }))
  | deleteTable {db : ShownDatabase} {tableName : String} {table : ShownTable} (htable : db tableName = some table) :
      Does db (.deleteTable tableName) (Function.update db tableName none)
  /-- the row under an id that no other row has -/
  | insert {db : ShownDatabase} {tableName : String} {table : ShownTable} {row : List Value} {rid : Rid}
      (htable : db tableName = some table) (hnew : rid ∉ table.rows.map Record.rid) :
      Does db (.insert tableName row) (Function.update db tableName (some { table with
        rows := ⟨(table.schema.columns.zip row).map fun item => item.2.stored item.1.type, rid⟩ ::ₘ table.rows }))
  | delete {db : ShownDatabase} {tableName : String} {table : ShownTable} {record : Record} {rows : Multiset Record}
      (htable : db tableName = some table) (hrows : table.rows = record ::ₘ rows) :
      Does db (.delete tableName record.rid) (Function.update db tableName (some { table with rows := rows }))
  | refused {db : ShownDatabase} {call : CatalogCall} (hrefused : db.Refuses call) : Does db call db
  | flushAll (db : ShownDatabase) : Does db .flushAll db
  | restart (db : ShownDatabase) : Does db (.restart true) db

section Calls

variable {db db' : ShownDatabase} {tableName : String}

/-- A new table. -/
theorem Does.eq_of_createTable {schema : Schema} (h : db.Does (.createTable tableName schema) db')
    (hnew : db tableName = none) : db' = Function.update db tableName (some ⟨schema, [], 0⟩) := by
  cases h with
  | createTable schema hnew => rfl
  | refused hrefused => exact absurd hnew hrefused

/-- A new index. -/
theorem Does.eq_of_createIndex {indexName columnName : String} {table : ShownTable}
    (h : db.Does (.createIndex tableName indexName columnName) db') (htable : db tableName = some table)
    (hnew : columnName ∉ table.indexed) :
    db' = Function.update db tableName (some { table with indexed := table.indexed ++ [columnName] }) := by
  cases h with
  | createIndex indexName htable' hnew =>
      obtain rfl := Option.some.inj (htable.symm.trans htable')
      rfl
  | refused hrefused => exact absurd (hrefused table htable) hnew

/-- A table that is gone. -/
theorem Does.eq_of_deleteTable (h : db.Does (.deleteTable tableName) db') (hsome : db tableName ≠ none) :
    db' = Function.update db tableName none := by
  cases h with
  | deleteTable htable => rfl
  | refused hrefused => exact absurd hrefused hsome

end Calls

/-- A new database after these calls. -/
inductive After : List CatalogCall → ShownDatabase → Prop
  | nil : After [] fun _ => none
  | call {calls : List CatalogCall} {db db' : ShownDatabase} {call : CatalogCall} (h : After calls db)
      (hdoes : db.Does call db') : After (calls ++ [call]) db'

end ShownDatabase

namespace StoredCatalog

/-- The tables of a catalog with these rows. -/
def shown (tables : Dict String StoredTable) (contents : String → List Record) : ShownDatabase :=
  fun tableName => (tables.get? tableName).map fun table =>
    ⟨table.schema, table.indices.map Prod.fst, contents tableName⟩

variable {tables : Dict String StoredTable} {contents contents' : String → List Record} {tableName : String}
  {table table' : StoredTable} {records : List Record}

theorem shown_of_get? (hget : tables.get? tableName = some table) :
    shown tables contents tableName = some ⟨table.schema, table.indices.map Prod.fst, contents tableName⟩ := by
  rw [shown, hget]
  rfl

theorem shown_eq_none_iff : shown tables contents tableName = none ↔ tables.get? tableName = none := by
  rw [shown, Option.map_eq_none_iff]

theorem exists_of_shown {shownTable : ShownTable} (h : shown tables contents tableName = some shownTable) :
    ∃ table, tables.get? tableName = some table ∧
      shownTable = ⟨table.schema, table.indices.map Prod.fst, contents tableName⟩ := by
  rw [shown, Option.map_eq_some_iff] at h
  obtain ⟨table, hget, heq⟩ := h
  exact ⟨table, hget, heq.symm⟩

theorem shown_congr (h : ∀ tableName table, tables.get? tableName = some table →
    (contents tableName : Multiset Record) = contents' tableName) : shown tables contents = shown tables contents' := by
  funext tableName
  rw [shown, shown]
  cases hget : tables.get? tableName with
  | none => rfl
  | some table => rw [Option.map_some, Option.map_some, h tableName table hget]

/-- Other rows of one table. -/
theorem shown_update (hget : tables.get? tableName = some table) :
    shown tables (Function.update contents tableName records) =
      Function.update (shown tables contents) tableName
        (some ⟨table.schema, table.indices.map Prod.fst, records⟩) := by
  funext name
  by_cases hname : name = tableName
  · rw [hname, shown_of_get? hget, Function.update_self, Function.update_self]
  · rw [Function.update_of_ne hname, shown, shown, Function.update_of_ne hname]

/-- A table made or changed. -/
theorem shown_set (htable : (contents tableName : Multiset Record) = records) :
    shown (tables.set tableName table') contents =
      Function.update (shown tables contents) tableName
        (some ⟨table'.schema, table'.indices.map Prod.fst, records⟩) := by
  funext name
  by_cases hname : name = tableName
  · rw [hname, shown, Dict.get?_set, if_pos rfl, Function.update_self, Option.map_some, htable]
  · rw [Function.update_of_ne hname, shown, shown, Dict.get?_set, if_neg (Ne.symm hname)]

theorem shown_del : shown (tables.del tableName) contents = Function.update (shown tables contents) tableName none := by
  funext name
  by_cases hname : name = tableName
  · rw [hname, shown, Dict.get?_del, if_pos rfl, Function.update_self, Option.map_none]
  · rw [Function.update_of_ne hname, shown, shown, Dict.get?_del, if_neg (Ne.symm hname)]

end StoredCatalog

namespace CatalogSession

open StoredCatalog

variable {α : Type} {order : SetOrder} {s s' : CatalogSession} {db db' : ShownDatabase}

/-- What the scans of the tables yield. -/
def Shows (order : SetOrder) (s : CatalogSession) (db : ShownDatabase) : Prop :=
  ∃ contents, (∀ tableName table, s.catalog.tables.get? tableName = some table →
    (s.run order (scan tableName)).1 = .ok (contents tableName)) ∧ db = shown s.catalog.tables contents

/-- The runs in which every call returns or is refused, over files that begin empty. -/
inductive Answered (order : SetOrder) : List CatalogCall → CatalogSession → Prop
  | start {disk : Disk} (hdisk : ∀ f, disk.Whole f) (hempty : ∀ f, disk.numPages f = 0) :
      Answered order [] (reload order disk none).2
  | step {calls : List CatalogCall} {s : CatalogSession} {db : ShownDatabase} (call : CatalogCall)
      (hs : Answered order calls s) (hshows : s.Shows order db) (hallowed : db.Allows call)
      (hend : (s.step order call).1 = .ok () ∨ db.Refuses call) :
      Answered order (calls ++ [call]) (s.step order call).2

/-- The tables of a database at their files, as they are behind the pool. -/
structure StoredAt (s : CatalogSession) (w : Flat FileId Bytes) (contents : String → List Record)
    (forests : String → String → BTree) : Prop where
  refines : s.pool.Refines w
  tracked : s.catalog.Tracked
  files : CatalogAt s.catalog w contents forests

variable {w : Flat FileId Bytes} {contents : String → List Record} {forests : String → String → BTree}
  {tableName : String} {table : StoredTable} {call : CatalogCall}

/-! ## Calls over the pool -/

/-- A method whose run over the careful store is known ends so over the pool. -/
theorem run_of_ends (order : SetOrder) {fails : PyErr → Prop} (hfails : ¬ fails .misuse) (hr : s.pool.Refines w) {p : CatalogProg α}
    {post : α → StoredCatalog → Flat FileId Bytes → Prop} (hp : p.Ends carefulStore fails s.catalog w post) :
    (∃ e, (s.run order p).1 = .error e ∧ fails e) ∨
      ∃ a w', (s.run order p).1 = .ok a ∧ (s.run order p).2.pool.Refines w' ∧ post a (s.run order p).2.catalog w' := by
  have hr₀ : s.pool.Refines (w.leak 0) := by rwa [Flat.leak_zero]
  rcases hp.cases with ⟨e, catalog', w', hrun, he⟩ | ⟨a, catalog', w', hrun, ha⟩
  · obtain ⟨pool, hpool, -⟩ := Bpm.run_of_careful order hr₀ (by simp) hrun
      fun hbad => hfails (Except.error.inj hbad ▸ he)
    exact .inl ⟨e, by rw [run, hpool], he⟩
  · obtain ⟨pool, hpool, hr'⟩ := Bpm.run_of_careful order hr₀ (by simp) hrun (by simp)
    rw [Flat.leak_zero] at hr'
    exact .inr ⟨a, w', by rw [run, hpool], by rw [run, hpool]; exact hr', by rw [run, hpool]; exact ha⟩

/-- A method that only reads. -/
theorem run_of_reads (order : SetOrder) (hr : s.pool.Refines w) {p : CatalogProg α} {r : Except PyErr α}
    (hrun : p.run carefulStore s.catalog w = (r, s.catalog, w)) (hok : r ≠ .error .misuse) :
    (s.run order p).1 = r ∧ (s.run order p).2.pool.Refines w ∧ (s.run order p).2.catalog = s.catalog := by
  have hr₀ : s.pool.Refines (w.leak 0) := by rwa [Flat.leak_zero]
  obtain ⟨pool, hpool, hr'⟩ := Bpm.run_of_careful order hr₀ (by simp) hrun hok
  rw [Flat.leak_zero] at hr'
  rw [run, hpool]
  exact ⟨rfl, hr', rfl⟩

theorem StoredAt.scan_eq (h : s.StoredAt w contents forests) (hget : s.catalog.tables.get? tableName = some table) :
    (s.run order (scan tableName)).1 = .ok (contents tableName) :=
  (run_of_reads order h.refines (StoredCatalog.run_scan h.files hget) (by simp)).1

/-- The rows that the scans yield are those in the files. -/
theorem StoredAt.shows_iff (h : s.StoredAt w contents forests) :
    s.Shows order db ↔ db = shown s.catalog.tables contents := by
  constructor
  · rintro ⟨contents', hscan, rfl⟩
    refine shown_congr fun tableName table hget => ?_
    have heq : contents tableName = contents' tableName :=
      Except.ok.inj ((h.scan_eq hget).symm.trans (hscan tableName table hget))
    rw [heq]
  · rintro rfl
    exact ⟨contents, fun _ _ hget => h.scan_eq hget, rfl⟩

/-! ### Calls that change a table -/

variable (order) in
/-- What is to be shown of a call. -/
def Follows (s : CatalogSession) (contents : String → List Record) (call : CatalogCall) : Prop :=
  ∃ w' contents' forests', (s.step order call).2.StoredAt w' contents' forests' ∧
    (shown s.catalog.tables contents).Does call (shown (s.step order call).2.catalog.tables contents')

theorem follows_insert (h : s.StoredAt w contents forests) (hget : s.catalog.tables.get? tableName = some table)
    {row : List Value} {raw : Bytes} (hraw : table.schema.serialize row = .ok (some raw))
    (hok : (s.step order (.insert tableName row)).1 = .ok ()) : s.Follows order contents (.insert tableName row) := by
  rcases run_of_ends order (by simp) h.refines (ends_insertRow h.tracked h.files hget hraw) with
    ⟨e, he, -⟩ | ⟨rid, w', hrun, hr, htables, record, records', forest', hread, hperm, hfiles⟩
  · rw [step, Prod.map_fst, he] at hok
    exact absurd hok (by simp [Except.map])
  have hread' := Schema.deserialize_of_serialize (Schema.distinct_of_serialize hraw) hraw [] rid
  rw [List.append_nil, hread] at hread'
  obtain rfl := Except.ok.inj hread'
  refine ⟨w', _, _, ⟨hr, tracked_step h.tracked _ (by simp), hfiles⟩, ?_⟩
  change ShownDatabase.Does _ _ (shown (s.run order (insertRow tableName row)).2.catalog.tables _)
  rw [htables, shown_update hget, Multiset.coe_eq_coe.mpr hperm, ← Multiset.cons_coe]
  refine .insert (shown_of_get? hget) fun hmem => ?_
  -- no other row has this id
  have hrows := (hfiles.tables _ (htables.symm ▸ Dict.mem_of_get? hget)).rows
  rw [Function.update_self] at hrows
  have hnodup := (hperm.map Record.rid).nodup_iff.mp hrows.nodup_rid
  rw [List.map_cons, List.nodup_cons] at hnodup
  exact hnodup.1 (by simpa using hmem)

theorem follows_delete (h : s.StoredAt w contents forests) (hget : s.catalog.tables.get? tableName = some table)
    {record : Record} (hmem : record ∈ contents tableName)
    (hok : (s.step order (.delete tableName record.rid)).1 = .ok ()) :
    s.Follows order contents (.delete tableName record.rid) := by
  rcases run_of_ends order (by simp) h.refines (ends_deleteRow h.tracked h.files hget hmem) with
    ⟨e, he, -⟩ | ⟨result, w', hrun, hr, htables, records', forest', hperm, hfiles⟩
  · rw [step, Prod.map_fst, he] at hok
    exact absurd hok (by simp [Except.map])
  refine ⟨w', _, _, ⟨hr, tracked_step h.tracked _ (by simp), hfiles⟩, ?_⟩
  change ShownDatabase.Does _ _ (shown (s.run order (deleteRow tableName record.rid)).2.catalog.tables _)
  rw [htables, shown_update hget]
  refine .delete (shown_of_get? hget) ?_
  rw [Multiset.cons_coe]
  exact Multiset.coe_eq_coe.mpr hperm

/-! ### Calls that change the catalog -/

theorem follows_createTable (order : SetOrder) (h : s.StoredAt w contents forests) (hnew : s.catalog.tables.get? tableName = none)
    (schema : Schema) : (s.step order (.createTable tableName schema)).1 = .ok () ∧
      s.Follows order contents (.createTable tableName schema) := by
  rcases run_of_ends order (by simp) h.refines
      (ends_createTable h.tracked h.files (Dict.get?_eq_none_iff.mp hnew) schema) with
    ⟨e, -, hfail⟩ | ⟨result, w', hrun, hr, htables, forest', hfiles⟩
  · exact hfail.elim
  refine ⟨by rw [step, Prod.map_fst, hrun]; rfl, w', _, _, ⟨hr, tracked_step h.tracked _ (by simp), hfiles⟩, ?_⟩
  change ShownDatabase.Does _ _ (shown (s.run order (createTable tableName schema)).2.catalog.tables _)
  have hempty : (Function.update contents tableName [] tableName : Multiset Record) = ([] : List Record) := by
    rw [Function.update_self]
  rw [htables, shown_set hempty]
  have hcontents : Function.update (shown s.catalog.tables (Function.update contents tableName [])) tableName
        (some ⟨schema, [], 0⟩) = Function.update (shown s.catalog.tables contents) tableName (some ⟨schema, [], 0⟩) := by
    funext name
    by_cases hname : name = tableName
    · rw [hname, Function.update_self, Function.update_self]
    · rw [Function.update_of_ne hname, Function.update_of_ne hname, shown, shown, Function.update_of_ne hname]
  exact hcontents ▸ .createTable schema (shown_eq_none_iff.mpr hnew)

theorem follows_createIndex (h : s.StoredAt w contents forests) (hget : s.catalog.tables.get? tableName = some table)
    {columnName : String} {i : Nat} (hi : table.schema.IntAt columnName i)
    (hcolumn : columnName ∉ table.indices.map Prod.fst) (indexName : String)
    (hok : (s.step order (.createIndex tableName indexName columnName)).1 = .ok ()) :
    s.Follows order contents (.createIndex tableName indexName columnName) := by
  rcases run_of_ends order (by simp) h.refines
      (ends_createIndex h.tracked h.files hget hi hcolumn indexName) with
    ⟨e, he, -⟩ | ⟨result, w', hrun, hr, htables, forest', hfiles⟩
  · rw [step, he] at hok
    exact absurd hok (by simp)
  refine ⟨w', _, _, ⟨hr, tracked_step h.tracked _ (by simp), hfiles⟩, ?_⟩
  change ShownDatabase.Does _ _ (shown (s.run order (createIndex tableName indexName columnName)).2.catalog.tables _)
  rw [htables, shown_set rfl, Dict.set_of_not_mem hcolumn, List.map_append]
  exact .createIndex indexName (shown_of_get? hget) hcolumn

/-- The heap file of a table is removed, with whatever of it is still in the frames. -/
theorem run_deleteTable (order : SetOrder) (h : s.StoredAt w contents forests) (hget : s.catalog.tables.get? tableName = some table) :
    ∃ pool, s.run order (deleteTable tableName) = (.ok true, ⟨pool,
        { s.catalog with
          tables := s.catalog.tables.del tableName
          catalogFile := describe { s.catalog with tables := s.catalog.tables.del tableName } }⟩) ∧
      pool.Refines (w.forget table.fileId) := by
  have hrows : HasRows table.schema table.fileId w (contents tableName) :=
    (h.files.tables _ (Dict.mem_of_get? hget)).rows
  obtain ⟨hremove, hr⟩ := BufferPoolManager.refines_remove h.refines hrows.idle.here hrows.nonempty
  refine ⟨_, ?_, hr⟩
  have hrequest (catalog : StoredCatalog) :
      (Prog.request (.remove table.fileId) : CatalogProg Unit).run (BufferPoolManager.store order) catalog s.pool =
        (.ok (), catalog, { s.pool with disk := (s.pool.disk.remove table.fileId).2 }) := by
    rw [Prog.run_request]
    exact Prod.ext hremove rfl
  have hprog : (deleteTable tableName).run (BufferPoolManager.store order) s.catalog s.pool = (.ok true,
      { s.catalog with
        tables := s.catalog.tables.del tableName
        catalogFile := describe { s.catalog with tables := s.catalog.tables.del tableName } },
      { s.pool with disk := (s.pool.disk.remove table.fileId).2 }) := by
    rw [deleteTable]
    refine Prog.run_step (Prog.run_read _ _) ?_
    rw [hget]
    exact Prog.run_step (Prog.run_modify _ _ _) (Prog.run_step (Prog.run_modify _ _ _)
      (Prog.run_step (hrequest _) (Prog.run_pure _ _ _)))
  rw [run, hprog]

theorem follows_deleteTable (order : SetOrder) (h : s.StoredAt w contents forests)
    (hget : s.catalog.tables.get? tableName = some table) : s.Follows order contents (.deleteTable tableName) := by
  obtain ⟨pool, hrun, hr⟩ := run_deleteTable order h hget
  have htracked : (s.step order (.deleteTable tableName)).2.catalog.Tracked := tracked_step h.tracked _ (by simp)
  obtain ⟨hothers, hnext, hsplit⟩ := h.tracked.others hget
  have hfile : table.fileId ∈ table.fileIds := List.mem_cons_self
  have hstep : (s.step order (.deleteTable tableName)).2 = ⟨pool, { s.catalog with
      tables := s.catalog.tables.del tableName
      catalogFile := describe { s.catalog with tables := s.catalog.tables.del tableName } }⟩ := by
    rw [step, hrun]
    rfl
  rw [hstep] at htracked
  rw [Follows, hstep]
  refine ⟨w.forget table.fileId, contents, forests, ⟨hr, htracked, h.files.restrict (Flat.sameOn_forget w table.fileId)
    ⟨h.files.quiet.pins, h.files.quiet.unsaved⟩ rfl (fun item hitem => ?_) fun f hf => ?_⟩, ?_⟩
  · obtain ⟨hold, hne⟩ := List.mem_filter.mp hitem
    exact ⟨hold, fun f hf heq => hothers item hold (by simpa using hne) f hf (heq ▸ hfile)⟩
  · have hold := Nat.le_trans h.tracked.next_le hf
    exact ⟨hold, fun heq => hnext f hold (heq ▸ hfile)⟩
  · rw [shown_del]
    exact .deleteTable (shown_of_get? hget)

/-! ### Flushing and starting again -/

theorem StoredAt.flushAll (h : s.StoredAt w contents forests) :
    ∃ pool, s.pool.flushAll = (.ok (), pool) ∧ pool.Refines w ∧ ∀ f, pool.dirty f = false :=
  BufferPoolManager.refines_flushAll h.refines fun k _ hk => by simp [h.files.quiet.unsaved] at hk

theorem follows_flushAll (h : s.StoredAt w contents forests) : s.Follows order contents .flushAll := by
  obtain ⟨pool, hflush, hr, -⟩ := h.flushAll
  have hstep : (s.step order .flushAll).2 = { s with pool := pool } := by rw [step, hflush]
  rw [Follows, hstep]
  exact ⟨w, contents, forests, ⟨hr, h.tracked, h.files⟩, .flushAll _⟩

/-- The requests that only read. -/
def Reading : Request FileId Bytes → Prop
  | .fetch _ => True
  | .unpin _ dirty => dirty = false
  | _ => False

/-- No frame is dirty, and the files have these bytes. -/
def Untouched (bytes : FileId → Bytes) (pool : BufferPoolManager) : Prop :=
  (∀ f, pool.dirty f = false) ∧ ∀ f, pool.disk.content f = bytes f

/-- A page that leaves a clean pool is not written. -/
theorem disk_findFrame (order : SetOrder) {pool : BufferPoolManager} (hclean : ∀ f, pool.dirty f = false) :
    (pool.findFrame order).2.disk = pool.disk := by
  unfold BufferPoolManager.findFrame
  split
  · rfl
  · split
    · rfl
    · rfl
    · rename_i frameId replacer _
      split
      · rfl
      · exact if_neg (by simp [hclean frameId])

/-- A page that comes in is read from its file. -/
theorem Untouched.fetchPage (order : SetOrder) {bytes : FileId → Bytes} {pool : BufferPoolManager}
    (h : Untouched bytes pool) (k : PageKey) : Untouched bytes (pool.fetchPage order k.2 k.1).2 := by
  refine ⟨BufferPoolManager.clean_fetchPage order h.1 k, fun f => ?_⟩
  have hfind := disk_findFrame order h.1
  rw [← h.2 f]
  unfold BufferPoolManager.fetchPage
  split
  · rfl
  · split
    · rename_i hres
      rw [hres] at hfind
      exact congrArg (Disk.content · f) hfind
    · rename_i frameId found hres
      rw [hres] at hfind
      dsimp only at hfind
      change (found.disk.readPage k.2 k.1).2.content f = _
      rw [Disk.content_readPage, hfind]

/-- A program that only reads leaves no dirty frame and changes no file. -/
theorem Untouched.reading (order : SetOrder) {bytes : FileId → Bytes} (h : Untouched bytes s.pool)
    {p : CatalogProg α} (hp : p.Only Reading) : Untouched bytes (s.run order p).2.pool := by
  refine Prog.run_invariant (I := Untouched bytes) (fun r pool hr hpool => ?_) hp s.catalog h
  cases r with
  | fetch k => exact hpool.fetchPage order k
  | unpin k dirty =>
      obtain rfl : dirty = false := hr
      simp only [BufferPoolManager.store, BufferPoolManager.unpinPage]
      split
      · exact hpool
      · split
        · exact hpool
        · exact hpool
  | peek k => exact hr.elim
  | put k b => exact hr.elim
  | alloc f => exact hr.elim
  | flush k => exact hr.elim
  | remove f => exact hr.elim

theorem only_load : StoredCatalog.load.Only Reading := by
  have hopen : ∀ fileId, (BPlusTree.openIndex fileId).Only Reading := fun fileId =>
    Prog.only_bind (Bpm.only_fetchPage trivial) fun _ => Prog.only_bind Bpm.only_reading fun _ =>
      Prog.only_bind Bpm.only_reading fun _ => Prog.only_bind (Prog.only_modify _) fun _ => Bpm.only_unpinPage rfl
  have htrees : ∀ indices, (StoredTable.openTrees indices).Only Reading := by
    intro indices
    induction indices with
    | nil => exact Prog.only_pure _
    | cons item rest ih => exact Prog.only_bind (Prog.only_zoom (hopen _)) fun _ => ih
  have htables : ∀ tables, (loadTables tables).Only Reading := by
    intro tables
    induction tables with
    | nil => exact Prog.only_pure _
    | cons item rest ih =>
        exact Prog.only_bind (Prog.only_ofExcept _) fun _ => Prog.only_bind (Prog.only_zoom (htrees _)) fun _ =>
          Prog.only_bind (Prog.only_modify _) fun _ => ih
  exact Prog.only_bind Prog.only_read fun _ => Prog.only_bind (Prog.only_modify _) fun _ => htables _

/-- A process that starts has no dirty frame. -/
theorem clean_reload (order : SetOrder) (disk : Disk) (catalogFile : Option CatalogFile) :
    ∀ f, (reload order disk catalogFile).2.pool.dirty f = false :=
  (Untouched.reading order (s := ⟨BufferPoolManager.new disk, init catalogFile⟩) ⟨fun _ => rfl, fun _ => rfl⟩ only_load).1

/-- A process that starts over files with the same pages has the same tables at the same files. -/
theorem StoredAt.reload (h : s.StoredAt w contents forests) (order : SetOrder) {flushed : Bool}
    (hnew : (BufferPoolManager.new (if flushed then s.pool.flushAll.2.disk else s.pool.disk)).Refines w) :
    (s.step order (.restart flushed)).1 = .ok () ∧
      (s.step order (.restart flushed)).2.StoredAt w contents (reopened forests) ∧
        (s.step order (.restart flushed)).2.catalog.tables = s.catalog.tables := by
  rcases run_of_ends order (s := ⟨BufferPoolManager.new (if flushed then s.pool.flushAll.2.disk else s.pool.disk),
      init (some s.catalog.catalogFile)⟩) (by simp) hnew (ends_load h.tracked h.files) with
    ⟨_, -, hfail⟩ | ⟨_, w', hok, hr', rfl, hfiles⟩
  · exact hfail.elim
  change (s.step order (.restart flushed)).1 = .ok () at hok
  obtain ⟨htables, -, hfile⟩ := tables_restart h.tracked (Prod.ext hok rfl)
  exact ⟨hok, ⟨hr', tracked_step h.tracked _ (fun _ _ => hok), hfiles htables hfile⟩, htables⟩

/-- A process that starts after everything was flushed. -/
theorem StoredAt.restart (h : s.StoredAt w contents forests) (order : SetOrder) :
    (s.step order (.restart true)).1 = .ok () ∧
      (s.step order (.restart true)).2.StoredAt w contents (reopened forests) ∧
        (s.step order (.restart true)).2.catalog.tables = s.catalog.tables := by
  obtain ⟨pool, hflush, hr, hclean⟩ := h.flushAll
  have hnew : (BufferPoolManager.new (if true then s.pool.flushAll.2.disk else s.pool.disk)).Refines w := by
    rw [if_pos rfl, hflush]
    exact BufferPoolManager.refines_new hr hclean h.files.quiet.pins h.files.quiet.unsaved
  exact h.reload order hnew

/-- A process that starts after one that had no dirty frame. -/
theorem StoredAt.restart_clean (h : s.StoredAt w contents forests) (hclean : ∀ f, s.pool.dirty f = false)
    (order : SetOrder) (flushed : Bool) : (s.step order (.restart flushed)).1 = .ok () ∧
      (s.step order (.restart flushed)).2.StoredAt w contents (reopened forests) ∧
        (s.step order (.restart flushed)).2.catalog.tables = s.catalog.tables := by
  cases flushed with
  | true => exact h.restart order
  | false =>
      have hnew : (BufferPoolManager.new (if false then s.pool.flushAll.2.disk else s.pool.disk)).Refines w := by
        rw [if_neg Bool.false_ne_true]
        exact BufferPoolManager.refines_new h.refines hclean h.files.quiet.pins h.files.quiet.unsaved
      exact h.reload order hnew

theorem follows_restart (h : s.StoredAt w contents forests) : s.Follows order contents (.restart true) := by
  obtain ⟨-, hstored, htables⟩ := h.restart order
  exact ⟨w, contents, reopened forests, hstored, htables ▸ .restart _⟩

/-! ### Calls that are refused -/

/-- A method of a table that is not there. -/
theorem run_of_none (hget : s.catalog.tables.get? tableName = none)
    (p : StoredTable → PageProg (String → BPlusTree) α) :
    s.run order (getTable tableName >>= fun table => onTable tableName (p table)) =
      (.error (.keyError s!"A table named {tableName} does not exist"), s) := by
  have hlookup := run_getTable (h := BufferPoolManager.store order) (w := s.pool) tableName s.catalog
  rw [hget] at hlookup
  rw [run, Prog.run_bind_error hlookup]

/-- A call that is refused raises, and takes at most a number. -/
theorem step_refused (order : SetOrder) (hrefused : (shown s.catalog.tables contents).Refuses call) :
    ∃ e, s.step order call = (.error e, s) ∨
      s.step order call = (.error e, { s with catalog := { s.catalog with nextFileId := s.catalog.nextFileId + 1 } }) := by
  cases call with
  | createTable tableName schema =>
      have hhas : s.catalog.tables.has tableName = true := by
        refine Dict.has_iff.mpr (Option.ne_none_iff_exists'.mp fun hnone => hrefused (shown_eq_none_iff.mpr hnone))
      refine ⟨.nameError s!"A table named {tableName} already exists", .inr ?_⟩
      have hrun : s.run order (createTable tableName schema) =
          (.error (.nameError s!"A table named {tableName} already exists"),
            { s with catalog := { s.catalog with nextFileId := s.catalog.nextFileId + 1 } }) := by
        rw [run, createTable, Prog.run_bind_ok (run_takeFileId _ _), Prog.run_bind_ok (Prog.run_read _ _), if_pos hhas]
        rfl
      rw [step, hrun]
      rfl
  | createIndex tableName indexName columnName =>
      have hlookup := run_getTable (h := BufferPoolManager.store order) (w := s.pool) tableName
        { s.catalog with nextFileId := s.catalog.nextFileId + 1 }
      rw [step, run, createIndex, Prog.run_bind_ok (run_takeFileId _ _)]
      cases hget : s.catalog.tables.get? tableName with
      | none =>
          simp only [hget] at hlookup
          rw [Prog.run_bind_error hlookup]
          exact ⟨_, .inr rfl⟩
      | some table =>
          have hhas : table.indices.has columnName = true :=
            Dict.has_iff_mem.mpr (hrefused _ (shown_of_get? hget))
          have hraise : (table.createIndex indexName columnName s.catalog.nextFileId).run
              (BufferPoolManager.store order) (s.catalog.trees tableName) s.pool =
                (.error (.keyError s!"An index in {table.tableName} on {columnName} already exists"),
                  s.catalog.trees tableName, s.pool) := by
            rw [StoredTable.createIndex, if_pos hhas]
            rfl
          simp only [hget] at hlookup
          rw [Prog.run_bind_ok hlookup, Prog.run_bind, run_onTable]
          simp only [hraise, Function.update_eq_self]
          exact ⟨_, .inr rfl⟩
  | deleteTable tableName =>
      have hget := shown_eq_none_iff.mp hrefused
      have hrun : s.run order (deleteTable tableName) =
          (.error (.keyError s!"A table named {tableName} does not exist"), s) := by
        rw [run, deleteTable, Prog.run_bind_ok (Prog.run_read _ _), hget]
        rfl
      rw [step, hrun]
      exact ⟨_, .inl rfl⟩
  | insert tableName row =>
      rw [step, insertRow]
      cases hget : s.catalog.tables.get? tableName with
      | none =>
          rw [run_of_none hget]
          exact ⟨_, .inl rfl⟩
      | some table =>
          obtain ⟨e, he⟩ := hrefused _ (shown_of_get? hget)
          have hlookup := run_getTable (h := BufferPoolManager.store order) (w := s.pool) tableName s.catalog
          rw [hget] at hlookup
          have hraise : (table.insert row).run (BufferPoolManager.store order) (s.catalog.trees tableName) s.pool =
              (.error e, s.catalog.trees tableName, s.pool) := by
            rw [StoredTable.insert, he]
            rfl
          rw [run, Prog.run_bind_ok hlookup, run_onTable, hraise, Function.update_eq_self]
          exact ⟨e, .inl rfl⟩
  | delete tableName rid =>
      rw [step, deleteRow, run_of_none (shown_eq_none_iff.mp hrefused)]
      exact ⟨_, .inl rfl⟩
  | flushAll => exact hrefused.elim
  | restart flushed => exact hrefused.elim

theorem follows_refused (h : s.StoredAt w contents forests) (hrefused : (shown s.catalog.tables contents).Refuses call) :
    s.Follows order contents call := by
  obtain ⟨e, hstep | hstep⟩ := step_refused order hrefused
  · rw [Follows, hstep]
    exact ⟨w, contents, forests, h, .refused hrefused⟩
  · rw [Follows, hstep]
    exact ⟨w, contents, forests, ⟨h.refines, h.tracked.burns (n := 1) ⟨rfl, rfl, rfl⟩, h.files.burns rfl rfl rfl⟩,
      .refused hrefused⟩

/-- One call. -/
theorem StoredAt.follows (h : s.StoredAt w contents forests) (hallowed : (shown s.catalog.tables contents).Allows call)
    (hend : (s.step order call).1 = .ok () ∨ (shown s.catalog.tables contents).Refuses call) :
    s.Follows order contents call := by
  by_cases hrefused : (shown s.catalog.tables contents).Refuses call
  · exact follows_refused h hrefused
  have hok := hend.resolve_right hrefused
  cases call with
  | createTable tableName schema =>
      have hnew := shown_eq_none_iff.mp (not_not.mp hrefused)
      exact (follows_createTable order h hnew schema).2
  | createIndex tableName indexName columnName =>
      simp only [ShownDatabase.Refuses, not_forall] at hrefused
      obtain ⟨shownTable, hshown, hcolumn⟩ := hrefused
      obtain ⟨i, hi⟩ := hallowed _ hshown hcolumn
      obtain ⟨table, hget, rfl⟩ := exists_of_shown hshown
      exact follows_createIndex h hget hi hcolumn indexName hok
  | deleteTable tableName =>
      obtain ⟨shownTable, hshown⟩ := Option.ne_none_iff_exists'.mp hrefused
      obtain ⟨table, hget, rfl⟩ := exists_of_shown hshown
      exact follows_deleteTable order h hget
  | insert tableName row =>
      simp only [ShownDatabase.Refuses, not_forall] at hrefused
      obtain ⟨shownTable, hshown, hserialized⟩ := hrefused
      have hraw := hallowed _ hshown
      obtain ⟨table, hget, rfl⟩ := exists_of_shown hshown
      rcases hres : table.schema.serialize row with e | _ | raw
      · exact absurd ⟨e, hres⟩ hserialized
      · exact absurd hres hraw
      · exact follows_insert h hget hres hok
  | delete tableName rid =>
      obtain ⟨shownTable, hshown⟩ := Option.ne_none_iff_exists'.mp hrefused
      obtain ⟨record, hmem, rfl⟩ := hallowed _ hshown
      obtain ⟨table, hget, rfl⟩ := exists_of_shown hshown
      exact follows_delete h hget hmem hok
  | flushAll => exact follows_flushAll h
  | restart flushed =>
      obtain rfl : flushed = true := hallowed
      exact follows_restart h

/-! ## Every run -/

theorem stored_start (order : SetOrder) {disk : Disk} (hdisk : ∀ f, disk.Whole f) (hempty : ∀ f, disk.numPages f = 0) :
    (reload order disk none).2.StoredAt (BufferPoolManager.flatOf disk) (fun _ => []) fun _ _ => BTree.empty := by
  rw [reload_none]
  refine ⟨BufferPoolManager.refines_flatOf hdisk, tracked_init, ⟨rfl, rfl⟩, fun f _ => ⟨by simp, hempty f, fun p => ?_⟩,
    by simp [init]⟩
  exact Disk.page_of_ge (hdisk f) (by rw [hempty f]; exact Nat.zero_le p)

/-- The tables are at their files all along, and what they show has come about call by call. -/
theorem Answered.stored {calls : List CatalogCall} (hs : Answered order calls s) :
    ∃ w contents forests, s.StoredAt w contents forests ∧
      ShownDatabase.After calls (shown s.catalog.tables contents) := by
  induction hs with
  | start hdisk hempty =>
      refine ⟨_, _, _, stored_start order hdisk hempty, ?_⟩
      rw [reload_none]
      exact .nil
  | step call _ hshows hallowed hend ih =>
      obtain ⟨w, contents, forests, h, hafter⟩ := ih
      obtain rfl := h.shows_iff.mp hshows
      obtain ⟨w', contents', forests', h', hdoes⟩ := h.follows hallowed hend
      exact ⟨w', contents', forests', h', hafter.call hdoes⟩

/-! ### A table with an index -/

/-- A database with an empty table and an index on it. -/
def noted : CatalogSession :=
  (((reload .increasing Disk.empty none).2.step .increasing (.createTable "t" TableSession.noteSchema)).2.step
    .increasing (.createIndex "t" "i" "k")).2

/-- Both calls return. -/
theorem answered_noted :
    Answered .increasing [.createTable "t" TableSession.noteSchema, .createIndex "t" "i" "k"] noted ∧
      ∃ table index, noted.catalog.tables.get? "t" = some table ∧ table.indices.get? "k" = some index := by
  have hempty : ∀ f, Disk.empty.numPages f = 0 := fun f => by simp [Disk.numPages, Disk.content, Disk.empty]
  have h₀ := stored_start .increasing Disk.whole_empty hempty
  have hs₀ : Answered .increasing [] (reload .increasing Disk.empty none).2 := .start Disk.whole_empty hempty
  have hnew : (reload .increasing Disk.empty none).2.catalog.tables.get? "t" = none := by
    rw [reload_none]
    rfl
  unfold noted
  generalize (reload .increasing Disk.empty none).2 = s₀ at *
  -- the table
  rcases run_of_ends .increasing (by simp) h₀.refines
      (ends_createTable h₀.tracked h₀.files (Dict.get?_eq_none_iff.mp hnew) TableSession.noteSchema) with
    ⟨_, -, hfail⟩ | ⟨_, w₁, hrun₁, hr₁, htables₁, forest₁, hfiles₁⟩
  · exact hfail.elim
  have hok₁ : (s₀.step .increasing (.createTable "t" TableSession.noteSchema)).1 = .ok () := by
    rw [step, Prod.map_fst, hrun₁]
    rfl
  have hs₁ := hs₀.step (.createTable "t" TableSession.noteSchema) (h₀.shows_iff.mpr rfl) trivial (.inl hok₁)
  have ht₁ : (s₀.step .increasing (.createTable "t" TableSession.noteSchema)).2.catalog.Tracked :=
    tracked_step h₀.tracked _ (by simp)
  have hcatalog₁ : (s₀.step .increasing (.createTable "t" TableSession.noteSchema)).2 =
      (s₀.run .increasing (createTable "t" TableSession.noteSchema)).2 := rfl
  rw [← hcatalog₁] at hr₁ htables₁ hfiles₁
  generalize (s₀.step .increasing (.createTable "t" TableSession.noteSchema)).2 = s₁ at *
  have hget₁ : s₁.catalog.tables.get? "t" = some ⟨"t", TableSession.noteSchema, s₀.catalog.nextFileId, []⟩ := by
    rw [htables₁, Dict.get?_set, if_pos rfl]
  -- the index
  have hint : TableSession.noteSchema.IntAt "k" 0 := ⟨by decide, _, rfl, rfl⟩
  rcases run_of_ends .increasing (by simp) hr₁ (ends_createIndex ht₁ hfiles₁ hget₁ hint (by simp) "i") with
    ⟨_, -, -, hsome⟩ | ⟨_, w₂, hrun₂, -, htables₂, -⟩
  · exact absurd (Function.update_self ..) hsome
  have h₁ : s₁.StoredAt w₁ _ _ := ⟨hr₁, ht₁, hfiles₁⟩
  have hget₂ : (s₁.step .increasing (.createIndex "t" "i" "k")).2.catalog.tables.get? "t" =
      some ⟨"t", TableSession.noteSchema, s₀.catalog.nextFileId, [("k", ⟨s₁.catalog.nextFileId, "i"⟩)]⟩ := by
    rw [step, htables₂, Dict.get?_set, if_pos rfl]
    rfl
  refine ⟨hs₁.step (.createIndex "t" "i" "k") (h₁.shows_iff.mpr rfl) (fun table htable _ => ?_) (.inl hrun₂),
    _, ⟨s₁.catalog.nextFileId, "i"⟩, hget₂, rfl⟩
  rw [shown_of_get? hget₁] at htable
  obtain rfl := Option.some.inj htable
  exact ⟨0, hint⟩

/-! ### The tables -/

variable {calls : List CatalogCall}

theorem rangeIn_none (chain : List Leaf) :
    BTree.rangeIn none none chain = (chain.flatMap Leaf.entries).map Prod.snd := by
  induction chain with
  | nil => rfl
  | cons leaf rest ih => simp [BTree.rangeIn, ih]

/-- A lookup that finds no index does not come to the pages. -/
theorem run_missing (htables : s'.catalog.tables = s.catalog.tables) {columnName : String}
    (hmissing : ∀ table, s.catalog.tables.get? tableName = some table → table.indices.get? columnName = none)
    (p : IndexEntry → CatalogProg α) :
    (s'.run order (getIndex tableName columnName >>= p)).1 = (s.run order (getIndex tableName columnName >>= p)).1 := by
  have hfails : ∀ s₁ : CatalogSession, s₁.catalog.tables = s.catalog.tables →
      (s₁.run order (getIndex tableName columnName >>= p)).1 =
        .error ((s.catalog.tables.get? tableName).elim
          (.keyError s!"A table named {tableName} does not exist") fun _ => .keyError columnName) := by
    intro s₁ hs₁
    have hlookup := run_getTable (h := BufferPoolManager.store order) (w := s₁.pool) tableName s₁.catalog
    rw [hs₁] at hlookup
    cases hget : s.catalog.tables.get? tableName with
    | none =>
        rw [hget] at hlookup
        have hindex : (getIndex tableName columnName).run (BufferPoolManager.store order) s₁.catalog s₁.pool =
            (.error (.keyError s!"A table named {tableName} does not exist"), s₁.catalog, s₁.pool) := by
          rw [getIndex, Prog.run_bind_error hlookup]
        rw [run, Prog.run_bind_error hindex]
        rfl
    | some table =>
        rw [hget] at hlookup
        have hindex : (getIndex tableName columnName).run (BufferPoolManager.store order) s₁.catalog s₁.pool =
            (.error (.keyError columnName), s₁.catalog, s₁.pool) := by
          rw [getIndex, Prog.run_bind_ok hlookup, hmissing table hget]
          rfl
        rw [run, Prog.run_bind_error hindex]
        rfl
  rw [hfails s' htables, hfails s rfl]

end CatalogSession

end DBEngine
