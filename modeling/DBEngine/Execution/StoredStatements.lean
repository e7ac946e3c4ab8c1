import DBEngine.Catalog.CatalogHistory
import DBEngine.Execution.Denotation
import DBEngine.Execution.Statements

/-!
# Statements over the stored catalog

What `Database.execute` makes of a statement over the catalog and the pool, and the body
of the loop of `main.py`, which executes a statement and then writes all pages back.

A query reads the tuples of the tables that it scans before its operators run, and its
operators take them from there: while a query runs no page changes.  The operators see a
table without its indexes.
-/

set_option autoImplicit false

namespace DBEngine

open ByteBuffer Paged

/-! ## Statements -/

/-- The statements of the parser.  A column definition comes with the name of its type. -/
inductive Statement where
  | select (node : SqlSelect)
  | drop (kind name : String)
  | delete (node : SqlDelete)
  | createTable (name : String) (columnDefs : List (String × String))
  | createIndex (name table : String) (columns : List String)
  /-- `CREATE` of anything else -/
  | create (kind : String)
  | insert (node : SqlInsert)
  | describe (name : String)
  /-- a statement that begins with this word -/
  | other (word : String)
  deriving DecidableEq

/-- A `LogicalCreateTable`. -/
structure LogicalCreateTable where
  tableName : String
  columns : List Column

/-- A `LogicalCreateIndex`. -/
structure LogicalCreateIndex where
  indexName : String
  tableName : String
  columnNames : List String

/-- The plan of a statement: a query, or one of the other nodes. -/
inductive LogicalPlan where
  | query (node : LogicalNode)
  | insert (node : LogicalInsert)
  | createIndex (node : LogicalCreateIndex)
  | describe (tableName : String)
  | tableDrop (tableName : String)
  | delete (node : LogicalDelete)
  | createTable (node : LogicalCreateTable)

namespace LogicalPlanner

/-- The body of the loop of `_plan_create_table`. -/
def planColumn (columnDef : String × String) : Except PyErr Column := do
  let type ← DataType.ofName columnDef.2
  pure ⟨columnDef.1, type, none⟩

/-- `_plan_create_table`. -/
def planCreateTable (name : String) (columnDefs : List (String × String)) : Except PyErr LogicalCreateTable := do
  let columns ← columnDefs.mapM planColumn
  pure ⟨name, columns⟩

/-- `_plan_create_index`. -/
def planCreateIndex (name table : String) (columns : List String) : LogicalCreateIndex := ⟨name, table, columns⟩

/-- `_plan_drop`. -/
def planDrop (kind name : String) : Except PyErr LogicalPlan :=
  if kind = "TABLE" then pure (.tableDrop name)
  else .error (.notImplementedError s!"DROP {kind} is not supported")

/-- `plan`. -/
def plan (text : SqlText) : Statement → Except PyErr LogicalPlan
  | .select node => do
      let tree ← planSelect node
      pure (.query tree)
  | .drop kind name => planDrop kind name
  | .delete node => do
      let tree ← planDelete node
      pure (.delete tree)
  | .createTable name columnDefs => do
      let tree ← planCreateTable name columnDefs
      pure (.createTable tree)
  | .createIndex name table columns => pure (.createIndex (planCreateIndex name table columns))
  | .create kind => .error (.notImplementedError s!"CREATE {kind} is not supported")
  | .insert node => pure (.insert (planInsert text node))
  | .describe name => pure (.describe name)
  | .other word => .error (.notImplementedError s!"{word} has not been implemented")

end LogicalPlanner

/-- `push_down`: the nodes that are no queries have no children but that of a `LogicalDelete`. -/
def LogicalPlan.pushDown : LogicalPlan → LogicalPlan
  | query node => query node.pushDown
  | delete node => delete node.pushDown
  | plan => plan

/-! ## Tables as text -/

/-- `f'{text:<{width}}'`. -/
def padRight (width : Nat) (text : String) : String :=
  text ++ String.ofList (List.replicate (width - text.length) ' ')

/-- `max([len(header)] + [len(cell) for cell in cells])`. -/
def widest (header : String) (cells : List String) : Nat :=
  cells.foldl (fun width cell => max width cell.length) header.length

/-- The lines of `_format_column_table`. -/
def columnTableLines (columns : List (String × String)) : List String :=
  let nameWidth := widest "Columns" (columns.map Prod.fst)
  let typeWidth := widest "Type" (columns.map Prod.snd)
  let line (name type : String) := padRight nameWidth name ++ "  " ++ padRight typeWidth type
  line "Columns" "Type" ::
    (String.ofList (List.replicate nameWidth '-') ++ "  " ++ String.ofList (List.replicate typeWidth '-')) ::
      columns.map fun item => line item.1 item.2

/-- `_format_column_table`. -/
def formatColumnTable (columns : List (String × String)) : String :=
  "\n".intercalate (columnTableLines columns)

/-! ## The physical planner -/

namespace StoredCatalog

/-- `tables[name]`. -/
def tableAt (name : String) : CatalogProg StoredTable := do
  let catalog ← Prog.read
  match catalog.tables.get? name with
  | some table => pure table
  | none => Prog.raise (.keyError s!"'{name}'")

/-- `_plan_insert`. -/
def planInsert (node : LogicalInsert) : CatalogProg String := do
  let catalog ← Prog.read
  onTable node.tableName
    (PhysicalPlanner.planInsert catalog.tables node.tableName (node.values.map Schema.passedTexts))

/-- `_plan_create_table`. -/
def planCreateTable (node : LogicalCreateTable) : CatalogProg String := do
  let created ← createTable node.tableName ⟨node.columns⟩
  pure (if created then s!"Table {node.tableName} created successfully" else "Failed to create table")

/-- `_plan_drop_table`; `delete_table` returns nothing but `True`. -/
def planDropTable (tableName : String) : CatalogProg String := do
  let _ ← deleteTable tableName
  pure s!"Table {tableName} dropped successfully"

/-- The loop of `_plan_create_index`. -/
def createIndexes (tableName indexName : String) : List String → CatalogProg Unit
  | [] => pure ()
  | column :: rest => do
      createIndex tableName indexName column
      createIndexes tableName indexName rest

/-- `_plan_create_index`. -/
def planCreateIndex (node : LogicalCreateIndex) : CatalogProg String := do
  createIndexes node.tableName node.indexName node.columnNames
  pure s!"Index {node.indexName} created successfully"

/-- `_plan_describe`. -/
def planDescribe (tableName : String) : CatalogProg String := do
  let table ← getTable tableName
  pure (formatColumnTable (table.schema.columns.map fun column => (column.name, column.type.name)))

/-! ### Queries -/

/-- The tables of these names as the operators see them; a name that is not in the catalog is
left to the planner. -/
def readTables : List String → CatalogProg (Dict String (Table EntryList))
  | [] => pure []
  | name :: rest => do
      let catalog ← Prog.read
      match catalog.tables.get? name with
      | none => readTables rest
      | some table => do
          let tuples ← onTable name (HeapFile.scan table.fileId)
          let tables ← readTables rest
          pure ((name, ⟨table.tableName, table.schema, tuples, []⟩) :: tables)

/-- `plan` of a query, with the rows that `next` yields and the schema. -/
def runQuery (node : LogicalNode) : CatalogProg (List (List Value) × Schema) := do
  let tables ← readTables node.scanned
  let operator ← Prog.ofExcept (PhysicalPlanner.plan ⟨tables⟩ node)
  let rows ← Prog.ofExcept operator.next.collect
  pure (rows, operator.outputSchema)

/-- The loop of `Delete.execute` over the record ids. -/
def deleteRows (tableName : String) (table : StoredTable) : List Rid → CatalogProg Unit
  | [] => pure ()
  | rid :: rest => do
      let _ ← onTable tableName (table.delete rid)
      deleteRows tableName table rest

/-- `_plan_delete`. -/
def planDelete (node : LogicalDelete) : CatalogProg String := do
  let table ← tableAt node.tableName
  let (items, _) ← runQuery node.child
  let rids ← Prog.ofExcept (items.mapM asRid)
  deleteRows node.tableName table rids
  pure (rowsAffected rids.length)

end StoredCatalog

/-! ## `Database.execute` -/

/-- What a statement returns: a message, or rows and their schema. -/
inductive Answer where
  | message (text : String)
  | rows (result : List (List Value)) (schema : Schema)

namespace Database

/-- `plan` of the physical planner, with the loop of `execute` over a query. -/
def runPlan : LogicalPlan → CatalogProg Answer
  | .query node => do
      let (result, schema) ← StoredCatalog.runQuery node
      pure (.rows result schema)
  | .insert node => do
      let message ← StoredCatalog.planInsert node
      pure (.message message)
  | .createIndex node => do
      let message ← StoredCatalog.planCreateIndex node
      pure (.message message)
  | .describe tableName => do
      let message ← StoredCatalog.planDescribe tableName
      pure (.message message)
  | .tableDrop tableName => do
      let message ← StoredCatalog.planDropTable tableName
      pure (.message message)
  | .delete node => do
      let message ← StoredCatalog.planDelete node
      pure (.message message)
  | .createTable node => do
      let message ← StoredCatalog.planCreateTable node
      pure (.message message)

/-- `execute`. -/
def execute (text : SqlText) (statement : Statement) : CatalogProg Answer := do
  let tree ← Prog.ofExcept (LogicalPlanner.plan text statement)
  runPlan tree.pushDown

end Database

namespace CatalogSession

/-- The body of the loop of `main.py`: after a statement that returned all pages are written
back, and an error of either is caught. -/
def command (order : SetOrder) (text : SqlText) (s : CatalogSession) (statement : Statement) :
    Except PyErr Answer × CatalogSession :=
  match s.run order (Database.execute text statement) with
  | (.error e, s') => (.error e, s')
  | (.ok answer, s') =>
      match s'.pool.flushAll with
      | (.ok (), pool) => (.ok answer, { s' with pool := pool })
      | (.error e, pool) => (.error e, { s' with pool := pool })

end CatalogSession

end DBEngine
