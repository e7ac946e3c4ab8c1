import DBEngine.Catalog.StoredCatalog

/-!
# Histories of the catalog

A catalog in use: tables and indexes made and tables dropped, rows inserted and deleted,
calls that return and calls that raise wherever they do, and new starts of the process
with everything flushed or not.  Of the pages nothing is assumed here.  Whatever happened,
the catalog file has the tables that are in memory, and no file has two uses.
-/

set_option autoImplicit false

namespace DBEngine

open ByteBuffer Paged

/-! ## Dictionaries -/

namespace Dict

variable {K V : Type} [DecidableEq K] {d : Dict K V} {key key' : K} {value : V}

theorem get?_del (d : Dict K V) (key key' : K) :
    (d.del key).get? key' = if key = key' then none else d.get? key' := by
  induction d with
  | nil => simp [del]
  | cons item d ih =>
      by_cases hitem : item.1 = key
      · have hdel : del (item :: d) key = del d key := List.filter_cons_of_neg (by simp [hitem])
        rw [hdel, ih, get?_cons]
        split
        · rfl
        · rename_i hne
          rw [if_neg fun h => hne (hitem.symm.trans h)]
      · have hdel : del (item :: d) key = item :: del d key := List.filter_cons_of_pos (by simp [hitem])
        rw [hdel, get?_cons, get?_cons, ih]
        by_cases hkey : item.1 = key'
        · have hne : key ≠ key' := fun h => hitem (hkey.trans h.symm)
          simp [hkey, hne]
        · simp [hkey]

/-- A key that is assigned again keeps its place. -/
theorem keys_set_of_get? (h : d.get? key = some value) (value' : V) :
    (d.set key value').map Prod.fst = d.map Prod.fst := by
  induction d with
  | nil => simp at h
  | cons item d ih =>
      rw [get?_cons] at h
      rw [set]
      split
      · rename_i hitem
        simp [hitem]
      · rename_i hitem
        rw [if_neg hitem] at h
        rw [List.map_cons, List.map_cons, ih h]

theorem mem_set {item : K × V} (h : item ∈ d.set key value) : item = (key, value) ∨ item ∈ d := by
  induction d with
  | nil => exact .inl (by simpa [set] using h)
  | cons first d ih =>
      rw [set] at h
      split at h
      · rcases List.mem_cons.mp h with rfl | h
        · exact .inl rfl
        · exact .inr (List.mem_cons_of_mem _ h)
      · rcases List.mem_cons.mp h with rfl | h
        · exact .inr List.mem_cons_self
        · exact (ih h).imp_right (List.mem_cons_of_mem _)

omit [DecidableEq K] in
theorem nodup_append (h : (d.map Prod.fst).Nodup) (hnew : key ∉ d.map Prod.fst) (value : V) :
    ((d ++ [(key, value)]).map Prod.fst).Nodup := by
  rw [List.map_append]
  refine List.nodup_append.mpr ⟨h, by simp, fun a ha b hb heq => hnew ?_⟩
  rwa [heq, List.mem_singleton.mp hb] at ha

theorem get?_eq_none_iff : d.get? key = none ↔ key ∉ d.map Prod.fst := by
  rw [← has_iff_mem, has_iff]
  cases d.get? key <;> simp

end Dict

/-! ## A catalog in use -/

/-- What happens to a database. -/
inductive CatalogCall where
  | createTable (tableName : String) (schema : Schema)
  | createIndex (tableName indexName columnName : String)
  | deleteTable (tableName : String)
  | insert (tableName : String) (row : List Value)
  | delete (tableName : String) (rid : Rid)
  | flushAll
  /-- a new process over the files, after everything was flushed or without -/
  | restart (flushed : Bool)

/-- A database in use: the pool and the catalog. -/
structure CatalogSession where
  pool : BufferPoolManager
  catalog : StoredCatalog

namespace CatalogSession

variable {α : Type}

/-- A method of the catalog. -/
def run (order : SetOrder) (p : CatalogProg α) (s : CatalogSession) : Except PyErr α × CatalogSession :=
  match p.run (BufferPoolManager.store order) s.catalog s.pool with
  | (r, catalog, pool) => (r, ⟨pool, catalog⟩)

/-- A new process: another pool over the files and another catalog from the catalog file. -/
def reload (order : SetOrder) (disk : Disk) (catalogFile : Option CatalogFile) :
    Except PyErr Unit × CatalogSession :=
  (CatalogSession.mk (BufferPoolManager.new disk) (StoredCatalog.init catalogFile)).run order StoredCatalog.load

/-- One call: how it ended and what it left. -/
def step (order : SetOrder) (s : CatalogSession) : CatalogCall → Except PyErr Unit × CatalogSession
  | .createTable tableName schema =>
      (s.run order (StoredCatalog.createTable tableName schema)).map (Except.map fun _ => ()) id
  | .createIndex tableName indexName columnName =>
      s.run order (StoredCatalog.createIndex tableName indexName columnName)
  | .deleteTable tableName =>
      (s.run order (StoredCatalog.deleteTable tableName)).map (Except.map fun _ => ()) id
  | .insert tableName row =>
      (s.run order (StoredCatalog.insertRow tableName row)).map (Except.map fun _ => ()) id
  | .delete tableName rid =>
      (s.run order (StoredCatalog.deleteRow tableName rid)).map (Except.map fun _ => ()) id
  | .flushAll => (s.pool.flushAll.1, { s with pool := s.pool.flushAll.2 })
  | .restart flushed =>
      reload order (if flushed then s.pool.flushAll.2.disk else s.pool.disk) (some s.catalog.catalogFile)

/-- The states reached from a directory without `catalog.json`, by calls that return or raise;
a process that could not load the catalog does not start. -/
inductive Reachable (order : SetOrder) : CatalogSession → Prop
  | start (disk : Disk) : Reachable order (reload order disk none).2
  | step {s : CatalogSession} (call : CatalogCall) (hs : Reachable order s)
      (hstarts : ∀ flushed, call = .restart flushed → (s.step order call).1 = .ok ()) :
      Reachable order (s.step order call).2

end CatalogSession

/-! ## What is kept -/

/-- The files of a table: its heap file and those of its indexes. -/
def StoredTable.fileIds (table : StoredTable) : List FileId :=
  table.fileId :: table.indices.map fun item => item.2.fileId

namespace StoredCatalog

/-- The files that the catalog uses. -/
def fileIds (tables : Dict String StoredTable) : List FileId :=
  tables.flatMap fun item => item.2.fileIds

/-- The catalog file has the tables in memory, and every table and every index has a file of
its own, below the number that a new process goes on from. -/
structure Tracked (catalog : StoredCatalog) : Prop where
  names : (catalog.tables.map Prod.fst).Nodup
  named : ∀ item ∈ catalog.tables, item.2.tableName = item.1
  columns : ∀ item ∈ catalog.tables, (item.2.indices.map Prod.fst).Nodup
  files : (fileIds catalog.tables).Nodup
  below : ∀ f ∈ fileIds catalog.tables, f < catalog.catalogFile.nextFileId
  saved : catalog.catalogFile.tables = catalog.describe.tables
  next_le : catalog.catalogFile.nextFileId ≤ catalog.nextFileId

variable {α W : Type} {h : Store FileId Bytes PyErr W} {catalog catalog' : StoredCatalog} {w w' : W}
  {tableName : String} {table table' : StoredTable}

/-! ### Files of the tables -/

theorem mem_fileIds {tables : Dict String StoredTable} {f : FileId} :
    f ∈ fileIds tables ↔ ∃ item ∈ tables, f ∈ item.2.fileIds := List.mem_flatMap

/-- A table that gets one more file. -/
theorem perm_fileIds_set {tables : Dict String StoredTable} (hget : tables.get? tableName = some table)
    {f : FileId} (hfiles : table'.fileIds.Perm (f :: table.fileIds)) :
    (fileIds (tables.set tableName table')).Perm (f :: fileIds tables) := by
  induction tables with
  | nil => simp at hget
  | cons item tables ih =>
      rw [Dict.get?_cons] at hget
      rw [Dict.set]
      split
      · rename_i hitem
        rw [if_pos hitem] at hget
        obtain rfl := Option.some.inj hget
        exact hfiles.append_right _
      · rename_i hitem
        rw [if_neg hitem] at hget
        exact ((ih hget).append_left _).trans List.perm_middle

/-! ### Single methods -/

@[simp] theorem run_takeFileId (catalog : StoredCatalog) (w : W) :
    takeFileId.run h catalog w =
      (.ok catalog.nextFileId, { catalog with nextFileId := catalog.nextFileId + 1 }, w) := rfl

theorem run_getTable (tableName : String) (catalog : StoredCatalog) (w : W) :
    (getTable tableName).run h catalog w = (match catalog.tables.get? tableName with
      | some table => .ok table
      | none => .error (.keyError s!"A table named {tableName} does not exist"), catalog, w) := by
  rw [getTable]
  refine Prog.run_step (Prog.run_read _ _) ?_
  cases catalog.tables.get? tableName <;> rfl

/-- A method of a table leaves everything but the trees of the table as it is. -/
theorem run_onTable (p : PageProg (String → BPlusTree) α) (catalog : StoredCatalog) (w : W) :
    (onTable tableName p).run h catalog w = ((p.run h (catalog.trees tableName) w).1,
      { catalog with
        trees := Function.update catalog.trees tableName (p.run h (catalog.trees tableName) w).2.1 },
      (p.run h (catalog.trees tableName) w).2.2) := by
  rw [onTable]
  refine Prog.run_zoom (fun _ _ => ?_) (fun _ _ _ => ?_) (fun _ => ?_) p catalog w
  · exact Function.update_self ..
  · simp
  · simp

/-! ### What a method can do -/

theorem outcome_inj {r r' : Except PyErr α} (heq : (r, catalog, w) = (r', catalog', w')) :
    r = r' ∧ catalog = catalog' ∧ w = w' := by
  simpa using heq

/-- Nothing but the trees and the number of the next file differs. -/
structure Burns (catalog catalog' : StoredCatalog) (n : Nat) : Prop where
  next : catalog'.nextFileId = catalog.nextFileId + n
  tables : catalog'.tables = catalog.tables
  catalogFile : catalog'.catalogFile = catalog.catalogFile

/-- The catalog file was written just now. -/
def Flushed (catalog : StoredCatalog) : Prop := catalog.catalogFile = catalog.describe

theorem burns_onTable {p : PageProg (String → BPlusTree) α} {r : Except PyErr α}
    (hrun : (onTable tableName p).run h catalog w = (r, catalog', w')) : Burns catalog catalog' 0 := by
  rw [run_onTable] at hrun
  obtain ⟨-, rfl, -⟩ := outcome_inj hrun
  exact ⟨rfl, rfl, rfl⟩

/-- `create_table` takes a number; it raises without a new table, or the table is new and in
the catalog file. -/
theorem createTable_cases {schema : Schema} {r : Except PyErr Bool}
    (hrun : (createTable tableName schema).run h catalog w = (r, catalog', w')) :
    (∃ e, r = .error e ∧ Burns catalog catalog' 1) ∨
      r = .ok true ∧ tableName ∉ catalog.tables.map Prod.fst ∧ catalog'.nextFileId = catalog.nextFileId + 1 ∧
        catalog'.tables = catalog.tables.set tableName ⟨tableName, schema, catalog.nextFileId, []⟩ ∧
          catalog'.Flushed := by
  rw [createTable, Prog.run_bind_ok (run_takeFileId catalog w), Prog.run_bind_ok (Prog.run_read _ _)] at hrun
  split at hrun
  · obtain ⟨rfl, hrest⟩ := Prod.mk.inj hrun
    obtain ⟨rfl, -⟩ := Prod.mk.inj hrest
    exact .inl ⟨_, rfl, rfl, rfl, rfl⟩
  · rename_i hhas
    rcases htable : (onTable tableName (StoredTable.create ⟨tableName, schema, catalog.nextFileId, []⟩)).run h
      { catalog with nextFileId := catalog.nextFileId + 1 } w with ⟨e | _, catalog₁, w₁⟩
    · have hburns := burns_onTable htable
      rw [Prog.run_bind_error htable] at hrun
      obtain ⟨rfl, rfl, -⟩ := outcome_inj hrun
      exact .inl ⟨_, rfl, hburns.next, hburns.tables, hburns.catalogFile⟩
    · have hburns := burns_onTable htable
      rw [Prog.run_bind_ok htable] at hrun
      obtain ⟨rfl, rfl, -⟩ := outcome_inj hrun
      refine .inr ⟨rfl, fun hmem => hhas (Dict.has_iff_mem.mpr hmem), hburns.next, ?_, rfl⟩
      exact congrArg (fun tables : Dict String StoredTable => tables.set tableName _) hburns.tables

/-- An index that `create_index` has made. -/
theorem of_run_createIndex_ok {indexName colName : String} {fileId : FileId} {trees trees' : String → BPlusTree}
    (hrun : (table.createIndex indexName colName fileId).run h trees w = (.ok table', trees', w')) :
    colName ∉ table.indices.map Prod.fst ∧
      table' = { table with indices := table.indices.set colName ⟨fileId, indexName⟩ } := by
  rw [StoredTable.createIndex] at hrun
  split at hrun
  · simp at hrun
  · rename_i hhas
    obtain ⟨_, _, _, -, hrun⟩ := Prog.of_run_bind_ok hrun
    obtain ⟨_, _, _, -, hrun⟩ := Prog.of_run_bind_ok hrun
    obtain ⟨_, _, _, -, hrun⟩ := Prog.of_run_bind_ok hrun
    rw [Prog.run_pure] at hrun
    exact ⟨fun hmem => hhas (Dict.has_iff_mem.mpr hmem), (Except.ok.inj (Prod.mk.inj hrun).1).symm⟩

/-- `create_index` takes a number; it raises without a new index, or the index is new and in
the catalog file. -/
theorem createIndex_cases {indexName columnName : String} {r : Except PyErr Unit}
    (hrun : (createIndex tableName indexName columnName).run h catalog w = (r, catalog', w')) :
    (∃ e, r = .error e ∧ Burns catalog catalog' 1) ∨
      ∃ table, r = .ok () ∧ catalog.tables.get? tableName = some table ∧
        columnName ∉ table.indices.map Prod.fst ∧ catalog'.nextFileId = catalog.nextFileId + 1 ∧
        catalog'.tables = catalog.tables.set table.tableName
          { table with indices := table.indices.set columnName ⟨catalog.nextFileId, indexName⟩ } ∧
        catalog'.Flushed := by
  rw [createIndex, Prog.run_bind_ok (run_takeFileId catalog w)] at hrun
  have hlookup := run_getTable (h := h) tableName
    { catalog with nextFileId := catalog.nextFileId + 1 } w
  cases hget : catalog.tables.get? tableName with
  | none =>
      simp only [hget] at hlookup
      rw [Prog.run_bind_error hlookup] at hrun
      obtain ⟨rfl, rfl, -⟩ := outcome_inj hrun
      exact .inl ⟨_, rfl, rfl, rfl, rfl⟩
  | some table =>
      simp only [hget] at hlookup
      rw [Prog.run_bind_ok hlookup] at hrun
      rcases htable : (onTable tableName (table.createIndex indexName columnName catalog.nextFileId)).run h
        { catalog with nextFileId := catalog.nextFileId + 1 } w with ⟨e | table', catalog₁, w₁⟩
      · have hburns := burns_onTable htable
        rw [Prog.run_bind_error htable] at hrun
        obtain ⟨rfl, rfl, -⟩ := outcome_inj hrun
        exact .inl ⟨_, rfl, hburns.next, hburns.tables, hburns.catalogFile⟩
      · have hburns := burns_onTable htable
        rw [Prog.run_bind_ok htable] at hrun
        obtain ⟨rfl, rfl, -⟩ := outcome_inj hrun
        obtain ⟨trees, hmade⟩ : ∃ trees, (table.createIndex indexName columnName catalog.nextFileId).run h
            (catalog.trees tableName) w = (.ok table', trees, w₁) := by
          rw [run_onTable] at htable
          obtain ⟨hr, -, hw⟩ := outcome_inj htable
          exact ⟨_, Prod.ext hr (Prod.ext rfl hw)⟩
        obtain ⟨hnew, rfl⟩ := of_run_createIndex_ok hmade
        refine .inr ⟨table, rfl, rfl, hnew, hburns.next, ?_, rfl⟩
        exact congrArg (fun tables : Dict String StoredTable => tables.set table.tableName _) hburns.tables

/-- `delete_table` finds no table, or the table is out of the catalog file, whether its own
file could be removed or not. -/
theorem deleteTable_cases {r : Except PyErr Bool}
    (hrun : (deleteTable tableName).run h catalog w = (r, catalog', w')) :
    (∃ e, r = .error e ∧ Burns catalog catalog' 0) ∨
      catalog'.nextFileId = catalog.nextFileId ∧ catalog'.tables = catalog.tables.del tableName ∧
        catalog'.Flushed := by
  rw [deleteTable, Prog.run_bind_ok (Prog.run_read _ _)] at hrun
  cases hget : catalog.tables.get? tableName with
  | none =>
      rw [hget] at hrun
      obtain ⟨rfl, rfl, -⟩ := outcome_inj hrun
      exact .inl ⟨_, rfl, rfl, rfl, rfl⟩
  | some table =>
      right
      rw [hget] at hrun
      change (Prog.modify (fun catalog : StoredCatalog =>
          { catalog with tables := catalog.tables.del tableName }) >>= fun _ => flush >>= fun _ =>
            Prog.request (.remove table.fileId) >>= fun _ => pure true : CatalogProg Bool).run h catalog w = _ at hrun
      rw [Prog.run_bind_ok (Prog.run_modify _ _ _), flush, Prog.run_bind_ok (Prog.run_modify _ _ _), Prog.run_bind,
        Prog.run_request] at hrun
      split at hrun
      · rename_i heq
        obtain ⟨-, rfl, -⟩ := outcome_inj heq
        obtain ⟨-, rfl, -⟩ := outcome_inj hrun
        exact ⟨rfl, rfl, rfl⟩
      · rename_i heq
        obtain ⟨-, rfl, -⟩ := outcome_inj heq
        obtain ⟨-, rfl, -⟩ := outcome_inj hrun
        exact ⟨rfl, rfl, rfl⟩

/-- A method of one table does not change the catalog. -/
theorem burns_ofTable {p : StoredTable → PageProg (String → BPlusTree) α} {r : Except PyErr α}
    (hrun : (getTable tableName >>= fun table => onTable tableName (p table)).run h catalog w =
      (r, catalog', w')) : Burns catalog catalog' 0 := by
  have hlookup := run_getTable (h := h) tableName catalog w
  cases hget : catalog.tables.get? tableName with
  | none =>
      rw [hget] at hlookup
      rw [Prog.run_bind_error hlookup] at hrun
      obtain ⟨-, rfl, -⟩ := outcome_inj hrun
      exact ⟨rfl, rfl, rfl⟩
  | some table =>
      rw [hget] at hlookup
      rw [Prog.run_bind_ok hlookup] at hrun
      exact burns_onTable hrun

/-! ### The invariant -/

theorem Tracked.burns (ht : catalog.Tracked) {n : Nat} (hburns : Burns catalog catalog' n) : catalog'.Tracked where
  names := hburns.tables ▸ ht.names
  named := hburns.tables ▸ ht.named
  columns := hburns.tables ▸ ht.columns
  files := hburns.tables ▸ ht.files
  below := by
    rw [hburns.tables, hburns.catalogFile]
    exact ht.below
  saved := by
    rw [hburns.catalogFile, describe, hburns.tables]
    exact ht.saved
  next_le := by
    rw [hburns.catalogFile, hburns.next]
    exact Nat.le_add_right_of_le ht.next_le

/-- The files in use are below the number that the catalog goes on from. -/
theorem Tracked.lt_next (ht : catalog.Tracked) {f : FileId} (hf : f ∈ fileIds catalog.tables) :
    f < catalog.nextFileId := Nat.lt_of_lt_of_le (ht.below f hf) ht.next_le

theorem Tracked.next_fresh (ht : catalog.Tracked) : catalog.nextFileId ∉ fileIds catalog.tables :=
  fun hf => Nat.lt_irrefl _ (ht.lt_next hf)

/-- A new number for a table or an index, written into the catalog file. -/
theorem tracked_of_perm (ht : catalog.Tracked) (hnext : catalog'.nextFileId = catalog.nextFileId + 1)
    (hfiles : (fileIds catalog'.tables).Perm (catalog.nextFileId :: fileIds catalog.tables))
    (hnames : (catalog'.tables.map Prod.fst).Nodup) (hnamed : ∀ item ∈ catalog'.tables, item.2.tableName = item.1)
    (hcolumns : ∀ item ∈ catalog'.tables, (item.2.indices.map Prod.fst).Nodup) (hflushed : catalog'.Flushed) :
    catalog'.Tracked where
  names := hnames
  named := hnamed
  columns := hcolumns
  files := hfiles.nodup_iff.mpr (List.nodup_cons.mpr ⟨ht.next_fresh, ht.files⟩)
  below f hf := by
    rw [show catalog'.catalogFile.nextFileId = catalog'.nextFileId from congrArg CatalogFile.nextFileId hflushed, hnext]
    rcases List.mem_cons.mp (hfiles.subset hf) with rfl | hf
    · exact Nat.lt_succ_self _
    · exact Nat.lt_succ_of_lt (ht.lt_next hf)
  saved := congrArg CatalogFile.tables hflushed
  next_le := Nat.le_of_eq (congrArg CatalogFile.nextFileId hflushed)

theorem Tracked.createTable (ht : catalog.Tracked) {schema : Schema} {r : Except PyErr Bool}
    (hrun : (createTable tableName schema).run h catalog w = (r, catalog', w')) : catalog'.Tracked := by
  rcases createTable_cases hrun with ⟨e, -, hburns⟩ | ⟨-, hnew, hnext, htables, hflushed⟩
  · exact ht.burns hburns
  · rw [Dict.set_of_not_mem hnew] at htables
    have hmem : ∀ item ∈ catalog'.tables, item ∈ catalog.tables ∨
        item = (tableName, ⟨tableName, schema, catalog.nextFileId, []⟩) := fun item hitem => by
      rw [htables] at hitem
      exact (List.mem_append.mp hitem).imp_right List.mem_singleton.mp
    refine tracked_of_perm ht hnext ?_ ?_ (fun item hitem => ?_) (fun item hitem => ?_) hflushed
    · rw [htables, fileIds, List.flatMap_append]
      exact List.perm_append_singleton _ _
    · rw [htables]
      exact Dict.nodup_append ht.names hnew _
    · rcases hmem item hitem with hold | rfl
      · exact ht.named item hold
      · rfl
    · rcases hmem item hitem with hold | rfl
      · exact ht.columns item hold
      · exact List.nodup_nil

theorem Tracked.createIndex (ht : catalog.Tracked) {indexName columnName : String} {r : Except PyErr Unit}
    (hrun : (createIndex tableName indexName columnName).run h catalog w = (r, catalog', w')) :
    catalog'.Tracked := by
  rcases createIndex_cases hrun with ⟨e, -, hburns⟩ | ⟨table, -, hget, hnew, hnext, htables, hflushed⟩
  · exact ht.burns hburns
  · have hitem := Dict.mem_of_get? hget
    have hname : table.tableName = tableName := ht.named _ hitem
    subst hname
    rw [Dict.set_of_not_mem hnew] at htables
    have hmem : ∀ item ∈ catalog'.tables, item ∈ catalog.tables ∨ item = (table.tableName,
        { table with indices := table.indices ++ [(columnName, ⟨catalog.nextFileId, indexName⟩)] }) :=
      fun item hitem => by
        rw [htables] at hitem
        exact (Dict.mem_set hitem).symm
    refine tracked_of_perm ht hnext ?_ ?_ (fun item hitem' => ?_) (fun item hitem' => ?_) hflushed
    · rw [htables]
      refine perm_fileIds_set hget ?_
      simp only [StoredTable.fileIds, List.map_append, List.map_cons, List.map_nil]
      exact ((List.perm_append_singleton _ _).cons _).trans (List.Perm.swap _ _ _)
    · rw [htables, Dict.keys_set_of_get? hget]
      exact ht.names
    · rcases hmem item hitem' with hold | rfl
      · exact ht.named item hold
      · rfl
    · rcases hmem item hitem' with hold | rfl
      · exact ht.columns item hold
      · exact Dict.nodup_append (ht.columns _ hitem) hnew _

theorem Tracked.deleteTable (ht : catalog.Tracked) {r : Except PyErr Bool}
    (hrun : (deleteTable tableName).run h catalog w = (r, catalog', w')) : catalog'.Tracked := by
  rcases deleteTable_cases hrun with ⟨e, -, hburns⟩ | ⟨hnext, htables, hflushed⟩
  · exact ht.burns hburns
  · have hsub : catalog'.tables.Sublist catalog.tables := htables ▸ List.filter_sublist
    have hfiles : (fileIds catalog'.tables).Sublist (fileIds catalog.tables) := List.Sublist.flatMap hsub _
    exact
      { names := (hsub.map _).nodup ht.names
        named := fun item hitem => ht.named item (hsub.subset hitem)
        columns := fun item hitem => ht.columns item (hsub.subset hitem)
        files := hfiles.nodup ht.files
        below := fun f hf => by
          rw [show catalog'.catalogFile.nextFileId = catalog.nextFileId from
            (congrArg CatalogFile.nextFileId hflushed).trans hnext]
          exact ht.lt_next (hfiles.subset hf)
        saved := congrArg CatalogFile.tables hflushed
        next_le := Nat.le_of_eq (congrArg CatalogFile.nextFileId hflushed) }

/-! ### Loading -/

/-- The tables of the catalog file come into memory one by one. -/
theorem loadTables_ok (tables : Dict String StoredTable) (hnamed : ∀ item ∈ tables, item.2.tableName = item.1) :
    ∀ {catalog : StoredCatalog} {w : W},
      (loadTables (tables.map fun item => (item.1, item.2.describe))).run h catalog w = (.ok (), catalog', w') →
      ((catalog.tables ++ tables).map Prod.fst).Nodup →
        catalog'.tables = catalog.tables ++ tables ∧ catalog'.nextFileId = catalog.nextFileId ∧
          catalog'.catalogFile = catalog.catalogFile := by
  induction tables with
  | nil =>
      intro catalog w hrun _
      obtain ⟨-, rfl, -⟩ := outcome_inj hrun
      exact ⟨(List.append_nil _).symm, rfl, rfl⟩
  | cons item tables ih =>
      intro catalog w hrun hnodup
      have hschema : (Prog.ofExcept (Schema.fromDict item.2.describe.schema) : CatalogProg Schema).run h catalog w =
          (.ok item.2.schema, catalog, w) := by
        rw [StoredTable.describe, Schema.fromDict_toDict]
        rfl
      rw [List.map_cons, loadTables, Prog.run_bind_ok hschema] at hrun
      obtain ⟨_, catalog₁, w₁, hopen, hrun⟩ := Prog.of_run_bind_ok hrun
      obtain ⟨_, catalog₂, w₂, hset, hrun⟩ := Prog.of_run_bind_ok hrun
      have hburns := burns_onTable hopen
      obtain ⟨-, rfl, rfl⟩ := outcome_inj hset
      have hitem : (⟨item.1, item.2.schema, item.2.describe.fileId, item.2.describe.indices⟩ : StoredTable) = item.2 := by
        rw [← hnamed item List.mem_cons_self]
        rfl
      have hnew : item.1 ∉ catalog.tables.map Prod.fst := fun hmem => by
        rw [List.map_append, List.map_cons] at hnodup
        exact (List.nodup_append.mp hnodup).2.2 _ hmem _ List.mem_cons_self rfl
      have hset : catalog₁.tables.set item.1 item.2 ++ tables = catalog.tables ++ item :: tables := by
        rw [hburns.tables, Dict.set_of_not_mem hnew, List.append_assoc]
        rfl
      rw [hitem, hnamed item List.mem_cons_self] at hrun
      obtain ⟨htables, hnext, hfile⟩ := ih (fun other hother => hnamed other (List.mem_cons_of_mem _ hother)) hrun
        (hset ▸ hnodup)
      exact ⟨htables.trans hset, hnext.trans hburns.next, hfile.trans hburns.catalogFile⟩

/-- A new process that starts has the tables that are in the catalog file. -/
theorem Tracked.load (ht : catalog.Tracked)
    (hrun : StoredCatalog.load.run h (init (some catalog.catalogFile)) w = (.ok (), catalog', w')) :
    catalog'.tables = catalog.tables ∧ catalog'.nextFileId = catalog.catalogFile.nextFileId ∧
      catalog'.catalogFile = catalog.catalogFile := by
  rw [StoredCatalog.load, Prog.run_bind_ok (Prog.run_read _ _), Prog.run_bind_ok (Prog.run_modify _ _ _)] at hrun
  change (loadTables catalog.catalogFile.tables).run h _ w = _ at hrun
  rw [ht.saved] at hrun
  exact loadTables_ok catalog.tables ht.named hrun ht.names

theorem Tracked.loaded (ht : catalog.Tracked) (htables : catalog'.tables = catalog.tables)
    (hnext : catalog'.nextFileId = catalog.catalogFile.nextFileId)
    (hfile : catalog'.catalogFile = catalog.catalogFile) : catalog'.Tracked where
  names := htables ▸ ht.names
  named := htables ▸ ht.named
  columns := htables ▸ ht.columns
  files := htables ▸ ht.files
  below := by
    rw [htables, hfile]
    exact ht.below
  saved := by
    rw [hfile, describe, htables]
    exact ht.saved
  next_le := Nat.le_of_eq (by rw [hfile, hnext])

theorem tracked_init : (init none).Tracked :=
  ⟨List.nodup_nil, by simp [init], by simp [init], List.nodup_nil, by simp [init, fileIds], rfl, Nat.le_refl _⟩

end StoredCatalog

/-! ## Every run -/

namespace CatalogSession

open StoredCatalog

variable {α : Type} {order : SetOrder} {s s' : CatalogSession}

theorem catalog_run (order : SetOrder) (p : CatalogProg α) (s : CatalogSession) :
    p.run (BufferPoolManager.store order) s.catalog s.pool =
      ((s.run order p).1, (s.run order p).2.catalog, (s.run order p).2.pool) := rfl

/-- A new process goes on from what the old one had written. -/
theorem tables_restart (ht : s.catalog.Tracked) {flushed : Bool}
    (hrestart : s.step order (.restart flushed) = (.ok (), s')) :
    s'.catalog.tables = s.catalog.tables ∧ s'.catalog.nextFileId = s.catalog.catalogFile.nextFileId ∧
      s'.catalog.catalogFile = s.catalog.catalogFile := by
  rw [step, reload] at hrestart
  have hload := catalog_run order StoredCatalog.load
    ⟨BufferPoolManager.new (if flushed then s.pool.flushAll.2.disk else s.pool.disk),
      init (some s.catalog.catalogFile)⟩
  rw [hrestart] at hload
  exact ht.load hload

/-- The first start finds no tables. -/
theorem reload_none (order : SetOrder) (disk : Disk) :
    reload order disk none = (.ok (), ⟨BufferPoolManager.new disk, init none⟩) := by
  have hload : StoredCatalog.load.run (BufferPoolManager.store order) (init none) (BufferPoolManager.new disk) =
      (.ok (), init none, BufferPoolManager.new disk) := rfl
  rw [reload, run, hload]

theorem tracked_step (ht : s.catalog.Tracked) (call : CatalogCall)
    (hstarts : ∀ flushed, call = .restart flushed → (s.step order call).1 = .ok ()) :
    (s.step order call).2.catalog.Tracked := by
  cases call with
  | createTable tableName schema => exact ht.createTable (catalog_run order _ s)
  | createIndex tableName indexName columnName => exact ht.createIndex (catalog_run order _ s)
  | deleteTable tableName => exact ht.deleteTable (catalog_run order _ s)
  | insert tableName row => exact ht.burns (burns_ofTable (catalog_run order (insertRow tableName row) s))
  | delete tableName rid => exact ht.burns (burns_ofTable (catalog_run order (deleteRow tableName rid) s))
  | flushAll =>
      rw [step]
      exact ht
  | restart flushed =>
      have hrestart : s.step order (.restart flushed) = (.ok (), (s.step order (.restart flushed)).2) :=
        Prod.ext (hstarts flushed rfl) rfl
      obtain ⟨htables, hnext, hfile⟩ := tables_restart ht hrestart
      exact ht.loaded htables hnext hfile

theorem Reachable.tracked (hs : Reachable order s) : s.catalog.Tracked := by
  induction hs with
  | start disk =>
      rw [reload_none]
      exact tracked_init
  | step call _ hstarts ih => exact tracked_step ih call hstarts

/-- Whatever was called before, and wherever it raised: no file belongs to two tables or
indexes, the next one made gets another number, and a new process that starts, with
everything flushed before or not, has the same tables with their columns and indexes, and
gives none of their files away. -/
theorem catalog_survives (hs : Reachable order s) :
    (fileIds s.catalog.tables).Nodup ∧ s.catalog.nextFileId ∉ fileIds s.catalog.tables ∧
      ∀ flushed s', s.step order (.restart flushed) = (.ok (), s') →
        s'.catalog.tables = s.catalog.tables ∧ s'.catalog.nextFileId ∉ fileIds s.catalog.tables := by
  have ht := hs.tracked
  refine ⟨ht.files, ht.next_fresh, fun flushed s' hrestart => ?_⟩
  obtain ⟨htables, hnext, -⟩ := tables_restart ht hrestart
  exact ⟨htables, fun hmem => Nat.lt_irrefl _ (hnext ▸ ht.below _ hmem)⟩

/-- A table is made twice, which raises the second time. -/
theorem catalog_survives_two :
    let s := (((reload .increasing Disk.empty none).2.step .increasing
      (.createTable "t" ⟨[⟨"x", .int, none⟩]⟩)).2.step .increasing (.createTable "t" ⟨[⟨"y", .int, none⟩]⟩)).2
    (fileIds s.catalog.tables).Nodup ∧ s.catalog.nextFileId ∉ fileIds s.catalog.tables ∧
      ∀ flushed s', s.step .increasing (.restart flushed) = (.ok (), s') →
        s'.catalog.tables = s.catalog.tables ∧ s'.catalog.nextFileId ∉ fileIds s.catalog.tables :=
  catalog_survives (((Reachable.start Disk.empty).step _ (by simp)).step _ (by simp))

end CatalogSession

end DBEngine
