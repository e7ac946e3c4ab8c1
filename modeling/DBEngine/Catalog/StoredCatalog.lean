import DBEngine.Catalog.StoredTable
import DBEngine.Index.BPlusTree

/-!
# The catalog over the pool

The tables of a database by their names and the number of the next file, in memory
and in `catalog.json`.  Every method is a program over the pool whose client state is
the catalog object together with that file: what a call assigns before it raises
stays assigned, and only `flush` writes the file.

The file is taken for the data that `json.dump` is given and `json.load` returns.
-/

set_option autoImplicit false

namespace DBEngine

open ByteBuffer Paged

/-! ## The catalog file -/

/-- A column as `to_dict` writes it. -/
structure ColumnDict where
  name : String
  type : String
  maxLength : Option Nat
  deriving DecidableEq, Repr

/-- A table as `flush` writes it: the tree objects of the indexes are left out. -/
structure TableDict where
  fileId : FileId
  schema : List ColumnDict
  indices : Dict String IndexEntry
  deriving DecidableEq, Repr

/-- `catalog.json`. -/
structure CatalogFile where
  nextFileId : FileId
  tables : Dict String TableDict
  deriving DecidableEq, Repr

/-- `DataType[name]`; `BOOLEAN` is another name of `BOOL`. -/
def DataType.ofName (name : String) : Except PyErr DataType :=
  if name = "INT" then .ok .int
  else if name = "FLOAT" then .ok .float
  else if name = "BOOL" ∨ name = "BOOLEAN" then .ok .bool
  else if name = "VARCHAR" then .ok .varchar
  else .error (.keyError name)

/-- The names that are written can be read. -/
@[simp] theorem DataType.ofName_name (type : DataType) : ofName type.name = .ok type := by
  cases type <;> rfl

namespace Schema

/-- `to_dict`. -/
def toDict (schema : Schema) : List ColumnDict :=
  schema.columns.map fun column => ⟨column.name, column.type.name, column.maxLength⟩

/-- The body of the loop of `from_dict`. -/
def columnOf (column : ColumnDict) : Except PyErr Column := do
  let type ← DataType.ofName column.type
  pure ⟨column.name, type, column.maxLength⟩

/-- `from_dict`. -/
def fromDict (data : List ColumnDict) : Except PyErr Schema := do
  let columns ← data.mapM columnOf
  pure ⟨columns⟩

theorem columnOf_toDict (column : Column) :
    columnOf ⟨column.name, column.type.name, column.maxLength⟩ = .ok column := by
  rw [columnOf, DataType.ofName_name]
  rfl

/-- A schema that was written is read back. -/
@[simp] theorem fromDict_toDict (schema : Schema) : fromDict schema.toDict = .ok schema := by
  have hcolumns : schema.toDict.mapM columnOf = .ok schema.columns := by
    rw [toDict]
    induction schema.columns with
    | nil => rfl
    | cons column rest ih =>
        rw [List.map_cons, List.mapM_cons, columnOf_toDict, ih]
        rfl
  rw [fromDict, hcolumns]
  rfl

end Schema

/-- A table as `flush` writes it. -/
def StoredTable.describe (table : StoredTable) : TableDict :=
  ⟨table.fileId, table.schema.toDict, table.indices⟩

/-! ## The trees of the indexes -/

/-- The tree of an index as the table calls it.  A key that is no integer cannot be packed
into a leaf, so no such entry is ever in a tree. -/
instance : IndexFile BPlusTree where
  create := BPlusTree.create
  insert fileId key rid :=
    match key.asInt with
    | some k => BPlusTree.insert fileId k rid
    | none => Prog.raise .structError
  delete fileId key rid :=
    match key.asInt with
    | some k => do
        let _ ← BPlusTree.delete fileId k rid
        pure ()
    | none => pure ()

/-- The loop of `load` over the indexes of a table. -/
def StoredTable.openTrees : Dict String IndexEntry → PageProg (String → BPlusTree) Unit
  | [] => pure ()
  | (colName, index) :: rest => do
      onTree colName (BPlusTree.openIndex index.fileId)
      openTrees rest

/-! ## The catalog -/

/-- A `Catalog`, with the tree objects of its tables by table and column, and the file it
is kept in. -/
structure StoredCatalog where
  nextFileId : FileId
  tables : Dict String StoredTable
  trees : String → String → BPlusTree
  catalogFile : CatalogFile

/-- A method of the catalog. -/
abbrev CatalogProg (α : Type) : Type := PageProg StoredCatalog α

namespace StoredCatalog

variable {α : Type}

/-- `Catalog(bpm, data_dir)`: a `catalog.json` without tables is made when there is none. -/
def init (catalogFile : Option CatalogFile) : StoredCatalog :=
  ⟨0, [], fun _ _ => ⟨0, 0⟩, catalogFile.getD ⟨0, []⟩⟩

/-- The data that `flush` writes. -/
def describe (catalog : StoredCatalog) : CatalogFile :=
  ⟨catalog.nextFileId, catalog.tables.map fun item => (item.1, item.2.describe)⟩

/-- `flush`. -/
def flush : CatalogProg Unit :=
  Prog.modify fun catalog => { catalog with catalogFile := catalog.describe }

/-- A method of the table of this name. -/
def onTable (tableName : String) (p : PageProg (String → BPlusTree) α) : CatalogProg α :=
  p.zoom (fun catalog => catalog.trees tableName) fun catalog trees =>
    { catalog with trees := Function.update catalog.trees tableName trees }

/-- `self.tables[name] = table`. -/
def setTable (table : StoredTable) : CatalogProg Unit :=
  Prog.modify fun catalog => { catalog with tables := catalog.tables.set table.tableName table }

/-- `file_id = self.next_file_id; self.next_file_id += 1`. -/
def takeFileId : CatalogProg FileId := do
  let catalog ← Prog.read
  Prog.modify fun catalog => { catalog with nextFileId := catalog.nextFileId + 1 }
  pure catalog.nextFileId

/-- `get_table`. -/
def getTable (tableName : String) : CatalogProg StoredTable := do
  let catalog ← Prog.read
  match catalog.tables.get? tableName with
  | some table => pure table
  | none => Prog.raise (.keyError s!"A table named {tableName} does not exist")

/-- `create_table`. -/
def createTable (tableName : String) (schema : Schema) : CatalogProg Bool := do
  let fileId ← takeFileId
  let catalog ← Prog.read
  if catalog.tables.has tableName then
    Prog.raise (.nameError s!"A table named {tableName} already exists")
  else do
    let table : StoredTable := ⟨tableName, schema, fileId, []⟩
    onTable tableName table.create
    setTable table
    flush
    pure true

/-- `create_index`. -/
def createIndex (tableName indexName columnName : String) : CatalogProg Unit := do
  let fileId ← takeFileId
  let table ← getTable tableName
  let table ← onTable tableName (table.createIndex indexName columnName fileId)
  setTable table
  flush

/-- `delete_table`; the files of the indexes stay. -/
def deleteTable (tableName : String) : CatalogProg Bool := do
  let catalog ← Prog.read
  match catalog.tables.get? tableName with
  | none => Prog.raise (.keyError s!"A table named {tableName} does not exist")
  | some table => do
      Prog.modify fun catalog => { catalog with tables := catalog.tables.del tableName }
      flush
      let _ ← Prog.request (.remove table.fileId)
      pure true

/-- The loop of `load` over the tables. -/
def loadTables : Dict String TableDict → CatalogProg Unit
  | [] => pure ()
  | (name, data) :: rest => do
      let schema ← Prog.ofExcept (Schema.fromDict data.schema)
      onTable name (StoredTable.openTrees data.indices)
      setTable ⟨name, schema, data.fileId, data.indices⟩
      loadTables rest

/-- `load`. -/
def load : CatalogProg Unit := do
  let catalog ← Prog.read
  Prog.modify fun catalog => { catalog with nextFileId := catalog.catalogFile.nextFileId }
  loadTables catalog.catalogFile.tables

/-! ### Tables of the catalog -/

/-- `get_table(name).insert(row)`. -/
def insertRow (tableName : String) (row : List Value) : CatalogProg Rid := do
  let table ← getTable tableName
  onTable tableName (table.insert row)

/-- `get_table(name).delete(rid)`. -/
def deleteRow (tableName : String) (rid : Rid) : CatalogProg Bool := do
  let table ← getTable tableName
  onTable tableName (table.delete rid)

/-- `list(get_table(name).scan())`. -/
def scan (tableName : String) : CatalogProg (List Record) := do
  let table ← getTable tableName
  onTable tableName table.scan

/-- `get_table(name).indices[column]`. -/
def getIndex (tableName columnName : String) : CatalogProg IndexEntry := do
  let table ← getTable tableName
  match table.indices.get? columnName with
  | some index => pure index
  | none => Prog.raise (.keyError columnName)

/-- `get_table(name).indices[column]['tree'].search(key)`. -/
def search (tableName columnName : String) (key : Int) : CatalogProg (List Rid) := do
  let index ← getIndex tableName columnName
  onTable tableName (StoredTable.onTree columnName (BPlusTree.search index.fileId key))

/-- `get_table(name).indices[column]['tree'].range_scan(start, end)`. -/
def rangeScan (tableName columnName : String) (start stop : Option Int) : CatalogProg (List Rid) := do
  let index ← getIndex tableName columnName
  onTable tableName (StoredTable.onTree columnName (BPlusTree.rangeScan index.fileId start stop))

end StoredCatalog

end DBEngine
