import DBEngine.Catalog.Coercion
import DBEngine.Catalog.Table
import DBEngine.Storage.HeapFile

/-!
# Tables over the pool

A table as the catalog makes it: its rows are the tuples of a heap file, and every
index is a file of its own.  The methods of `Table`, and what the catalog and the
planner do with one table, are programs over the pool; the tree objects of the
indexes, by the column they are on, are their client state.
-/

set_option autoImplicit false

namespace DBEngine

open ByteBuffer Paged

/-- The methods of an index that a table calls. -/
class IndexFile (τ : Type) where
  /-- `BPlusTree(bpm, file_id, True)` -/
  create : FileId → PageProg τ Unit
  insert : FileId → Value → Rid → PageProg τ Unit
  delete : FileId → Value → Rid → PageProg τ Unit

/-- An index that is a structure of its own uses no pages. -/
instance {τ : Type} [IndexTree τ] : IndexFile τ where
  create _ := Prog.modify fun _ => IndexTree.new
  insert _ key rid := do
    let tree ← Prog.read
    let tree ← Prog.ofExcept (IndexTree.insert tree key rid)
    Prog.modify fun _ => tree
  delete _ key rid := do
    let tree ← Prog.read
    let tree ← Prog.ofExcept (IndexTree.delete tree key rid)
    Prog.modify fun _ => tree

/-- The dictionary of an index without its tree object. -/
structure IndexEntry where
  fileId : FileId
  indexName : String
  deriving DecidableEq, Repr

/-- A `Table`: its heap file is file `fileId`. -/
structure StoredTable where
  tableName : String
  schema : Schema
  fileId : FileId
  indices : Dict String IndexEntry

namespace StoredTable

variable {σ τ α : Type} [IndexFile τ]

/-- A method of `indices[col_name]['tree']`. -/
def onTree (colName : String) (p : PageProg τ α) : PageProg (String → τ) α :=
  p.zoom (fun trees => trees colName) fun trees tree => Function.update trees colName tree

/-- `heap_file.insert_tuple(raw)`; `len(False)` raises when the directory is open
already. -/
def insertTuple (fileId : FileId) : Option Bytes → PageProg σ Rid
  | some raw => HeapFile.insertTuple fileId raw
  | none => do
      let dirRaw ← Bpm.fetchPage HeapFile.directoryId fileId
      let _ ← Bpm.reading dirRaw (DirectoryPage.init false)
      Prog.raise (.typeError "object of type 'bool' has no len()")

/-- The loop of `insert` over the indexes. -/
def insertEntries (schema : Schema) (row : List Value) (rid : Rid) :
    Dict String IndexEntry → PageProg (String → τ) Unit
  | [] => pure ()
  | (colName, index) :: rest => do
      let colIndex ← Prog.ofExcept (schema.getIndex colName)
      let value ← Prog.ofExcept (Schema.valueAt row colIndex)
      onTree colName (IndexFile.insert index.fileId value rid)
      insertEntries schema row rid rest

/-- `insert`. -/
def insert (table : StoredTable) (row : List Value) : PageProg (String → τ) Rid := do
  let raw ← Prog.ofExcept (table.schema.serialize row)
  let rid ← insertTuple table.fileId raw
  insertEntries table.schema row rid table.indices
  pure rid

/-- `deserialize(raw, rid)`, where `None` is not a bytes-like object. -/
def deserialize (schema : Schema) (raw : Option Bytes) (rid : Rid) : Except PyErr Record :=
  match raw with
  | some raw => schema.deserialize raw rid
  | none =>
      if schema.columns.isEmpty then .ok ⟨[], rid⟩
      else .error (.typeError "a bytes-like object is required, not 'NoneType'")

/-- `get`. -/
def get (table : StoredTable) (rid : Rid) : PageProg σ Record := do
  let raw ← HeapFile.getTuple table.fileId rid
  Prog.ofExcept (deserialize table.schema raw rid)

/-- The loop of `delete` over the indexes. -/
def deleteEntries (schema : Schema) (row : List Value) (rid : Rid) :
    Dict String IndexEntry → PageProg (String → τ) Unit
  | [] => pure ()
  | (colName, index) :: rest => do
      let colIndex ← Prog.ofExcept (schema.getIndex colName)
      let value ← Prog.ofExcept (Schema.valueAt row colIndex)
      onTree colName (IndexFile.delete index.fileId value rid)
      deleteEntries schema row rid rest

/-- `delete`. -/
def delete (table : StoredTable) (rid : Rid) : PageProg (String → τ) Bool := do
  let row ← table.get rid
  let result ← HeapFile.deleteTuple table.fileId rid
  deleteEntries table.schema row.values rid table.indices
  pure result

/-- The body of the loop of `scan`. -/
def collect (schema : Schema) (records : List Record) (rid : Rid) (raw : Bytes) :
    Except PyErr (List Record) := do
  let record ← schema.deserialize raw rid
  pure (records ++ [record])

/-- `list(scan())`. -/
def scan (table : StoredTable) : PageProg σ (List Record) :=
  HeapFile.forEach table.fileId
    (fun records rid raw => Prog.ofExcept (collect table.schema records rid raw)) []

/-- The body of the loop of `create_index`. -/
def indexRecord (schema : Schema) (fileId : FileId) (colName : String) (colIndex : Nat) (rid : Rid)
    (raw : Bytes) : PageProg (String → τ) Unit := do
  let record ← Prog.ofExcept (schema.deserialize raw rid)
  let value ← Prog.ofExcept (Schema.valueAt record.values colIndex)
  onTree colName (IndexFile.insert fileId value record.rid)

/-- `create_index` of the catalog from the table on, with the next file id: the table
afterwards. -/
def createIndex (table : StoredTable) (indexName colName : String) (fileId : FileId) :
    PageProg (String → τ) StoredTable := do
  if table.indices.has colName then
    Prog.raise (.keyError s!"An index in {table.tableName} on {colName} already exists")
  else do
    onTree colName (IndexFile.create fileId)
    let colIndex ← Prog.ofExcept (table.schema.getIndex colName)
    HeapFile.forEach table.fileId
      (fun _ rid raw => indexRecord table.schema fileId colName colIndex rid raw) ()
    pure { table with indices := table.indices.set colName ⟨fileId, indexName⟩ }

/-- `create_table` of the catalog, on an empty file. -/
def create (table : StoredTable) : PageProg σ Unit := HeapFile.createDirectory table.fileId

end StoredTable

namespace PhysicalPlanner

variable {τ : Type} [IndexFile τ]

/-- The loop of `_plan_insert`. -/
def insertRows (table : StoredTable) : List (List Passed) → Nat → PageProg (String → τ) Nat
  | [], count => pure count
  | row :: rest, count => do
      let values ← Prog.ofExcept (table.schema.coerce row)
      let _ ← table.insert values
      insertRows table rest (count + 1)

/-- `_plan_insert`, for the name of the table and the rows of the node. -/
def planInsert (tables : Dict String StoredTable) (tableName : String) (values : List (List Passed)) :
    PageProg (String → τ) String := do
  match tables.get? tableName with
  | none => Prog.raise (.keyError s!"A table named {tableName} does not exist")
  | some table => do
      let count ← insertRows table values 0
      pure s!"Values inserted successfully. Rows affected: {count}"

end PhysicalPlanner

end DBEngine
