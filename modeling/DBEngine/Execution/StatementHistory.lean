import DBEngine.Catalog.DatabaseHistory
import DBEngine.Execution.InsertStatements
import DBEngine.Execution.InsertedRows
import DBEngine.Execution.StatementFiles

/-!
# Histories of statements

What the loop of `main.py` does to a database, statement by statement, over every run and
over clean restarts: the tables show exactly what the statements say, and a query is
answered with the rows that its plan stands for in the tables as they are shown.
-/

set_option autoImplicit false

namespace DBEngine

open ByteBuffer Paged

theorem LogicalPlanner.planDelete_eq_ok {node : SqlDelete} {tree : LogicalDelete} :
    planDelete node = .ok tree ↔ ∃ condition p, node.whereClause = some condition ∧
      planExpression (some node.table) condition = .ok p ∧
        tree = ⟨.scan (PhysicalPlanner.deleteScan node.table p), node.table⟩ := by
  rw [planDelete]
  cases hwhere : node.whereClause with
  | none => simp
  | some condition =>
      dsimp only
      constructor
      · intro hplan
        obtain ⟨p, hp, htree⟩ := bind_eq_ok.mp hplan
        exact ⟨condition, p, rfl, hp, (Except.ok.inj htree).symm⟩
      · rintro ⟨other, p, hother, hp, rfl⟩
        obtain rfl := Option.some.inj hother
        rw [hp]
        rfl

/-! ## What statements are for -/

/-- The statements that add rows or an index: they can raise after they have changed a page. -/
def Statement.Adds : Statement → Prop
  | .insert _ => True
  | .createIndex _ _ _ => True
  | _ => False

namespace ShownDatabase

/-- The rows of the tables, listed in some order. -/
def Lists (db : ShownDatabase) (listed : Contents) : Prop :=
  ∀ tableName table, db tableName = some table → (listed tableName).schema = table.schema ∧
    ((listed tableName).rows : Multiset (List Value)) = table.rows.map Record.values

/-- The statements considered.  A `SELECT` is well-typed and is from different tables, which
exist and have no indexes; so is a `DELETE`, unless it has no table or no condition.  An index
is made on `INT` columns. -/
def Considers (db : ShownDatabase) : Statement → Prop
  | .select node => ∀ tree, LogicalPlanner.planSelect node = .ok tree → tree.scanned.Nodup ∧
      (∀ tableName ∈ tree.scanned, Plain tableName ∧ ∃ table, db tableName = some table ∧ table.indexed = []) ∧
        ∀ listed, db.Lists listed → tree.WellTyped listed
  | .delete node => ∀ table condition p, db node.table = some table → node.whereClause = some condition →
      LogicalPlanner.planExpression (some node.table) condition = .ok p →
        table.indexed = [] ∧ p.wellTyped (table.schema.qualify node.table) = true
  | .createIndex _ tableName columns => columns ≠ [] ∧ ∀ table, db tableName = some table → ∀ column ∈ columns,
      column ∉ table.indexed → ∃ i, table.schema.IntAt column i
  | _ => True

variable (text : SqlText)

/-- The statements that raise before they do anything. -/
def Raises (db : ShownDatabase) : Statement → Prop
  | .select node => ∃ e, LogicalPlanner.planSelect node = .error e
  | .drop kind tableName => kind ≠ "TABLE" ∨ db tableName = none
  | .delete node => (∃ e, LogicalPlanner.planDelete node = .error e) ∨ db node.table = none
  | .createTable tableName columnDefs =>
      (∃ e, LogicalPlanner.planCreateTable tableName columnDefs = .error e) ∨ db tableName ≠ none
  | .createIndex _ tableName columns => ∃ column rest, columns = column :: rest ∧
      ∀ table, db tableName = some table → column ∈ table.indexed
  | .create _ => True
  | .insert node => ∀ table, db node.table = some table → ∃ row rest e,
      (LogicalPlanner.planInsert text node).values = row :: rest ∧
        table.schema.rawOf (Schema.passedTexts row) = .error e
  | .describe tableName => db tableName = none
  | .other _ => True

/-- What a statement returns and does. -/
inductive Performs : ShownDatabase → Statement → Except PyErr Answer → ShownDatabase → Prop
  | raised {db : ShownDatabase} {statement : Statement} (e : PyErr) (hraises : db.Raises text statement) :
      Performs db statement (.error e) db
  /-- the rows that the plan stands for, in whatever order the rows of the tables are listed -/
  | select {db : ShownDatabase} {node : SqlSelect} {tree : LogicalNode} {rows : List (List Value)} {schema : Schema}
      (hplan : LogicalPlanner.planSelect node = .ok tree)
      (hlisted : ∃ listed, db.Lists listed)
      (hrows : ∀ listed, db.Lists listed → schema = ⟨tree.columns listed⟩ ∧ rows.Perm (tree.rows listed)) :
      Performs db (.select node) (.ok (.rows rows schema)) db
  | drop {db : ShownDatabase} {tableName : String} {table : ShownTable} (htable : db tableName = some table) :
      Performs db (.drop "TABLE" tableName) (.ok (.message s!"Table {tableName} dropped successfully"))
        (Function.update db tableName none)
  /-- the rows of which the condition is true are gone and were counted -/
  | delete {db : ShownDatabase} {node : SqlDelete} {condition : SqlExpr} {p : Expr String} {table : ShownTable}
      (hwhere : node.whereClause = some condition)
      (hp : LogicalPlanner.planExpression (some node.table) condition = .ok p) (htable : db node.table = some table) :
      Performs db (.delete node)
        (.ok (.message (rowsAffected (table.rows.countP fun r => p.TrueOn (table.schema.qualify node.table) r.values = true))))
        (Function.update db node.table (some { table with
          rows := table.rows.filter fun r => p.TrueOn (table.schema.qualify node.table) r.values = false }))
  | createTable {db : ShownDatabase} {tableName : String} {columnDefs : List (String × String)}
      {node : LogicalCreateTable} (hplan : LogicalPlanner.planCreateTable tableName columnDefs = .ok node)
      (hnew : db tableName = none) :
      Performs db (.createTable tableName columnDefs) (.ok (.message s!"Table {tableName} created successfully"))
        (Function.update db tableName (some ⟨⟨node.columns⟩, [], 0⟩))
  | createIndex {db : ShownDatabase} (indexName : String) {tableName : String} {columns : List String}
      {table : ShownTable} (htable : db tableName = some table) (hcolumns : (table.indexed ++ columns).Nodup) :
      Performs db (.createIndex indexName tableName columns)
        (.ok (.message s!"Index {indexName} created successfully"))
        (Function.update db tableName (some { table with indexed := table.indexed ++ columns }))
  /-- one row more for each, with the coerced values, under ids that no other row has -/
  | insert {db : ShownDatabase} {node : SqlInsert} {table : ShownTable} {added : List Record}
      (htable : db node.table = some table)
      (hadded : table.schema.Makes (LogicalPlanner.planInsert text node).values added)
      (hrids : ((added + table.rows : Multiset Record).map Record.rid).Nodup) :
      Performs db (.insert node)
        (.ok (.message s!"Values inserted successfully. Rows affected: {node.rows.length}"))
        (Function.update db node.table (some { table with rows := added + table.rows }))
  | describe {db : ShownDatabase} {tableName : String} {table : ShownTable} (htable : db tableName = some table) :
      Performs db (.describe tableName) (.ok (.message
        (formatColumnTable (table.schema.columns.map fun column => (column.name, column.type.name))))) db

/-- What a statement raises before it does anything is all that it raises. -/
theorem Performs.raises_iff {text : SqlText} {db db' : ShownDatabase} {statement : Statement}
    {result : Except PyErr Answer} (h : Performs text db statement result db') :
    (∃ e, result = .error e) ↔ db.Raises text statement := by
  cases h with
  | raised e hraises => exact ⟨fun _ => hraises, fun _ => ⟨e, rfl⟩⟩
  | select hplan => exact ⟨by simp, fun ⟨e, he⟩ => by simp [hplan] at he⟩
  | drop htable =>
      refine ⟨by simp, fun hraises => ?_⟩
      simp [Raises, htable] at hraises
  | delete hwhere hp htable =>
      refine ⟨by simp, fun hraises => ?_⟩
      simp [Raises, htable, LogicalPlanner.planDelete_eq_ok.mpr ⟨_, _, hwhere, hp, rfl⟩] at hraises
  | createTable hplan hnew =>
      refine ⟨by simp, fun hraises => ?_⟩
      simp [Raises, hplan, hnew] at hraises
  | createIndex indexName htable hcolumns =>
      refine ⟨by simp, fun hraises => ?_⟩
      obtain ⟨column, rest, rfl, hindexed⟩ := hraises
      exact absurd List.mem_cons_self (List.disjoint_of_nodup_append hcolumns (hindexed _ htable))
  | insert htable hadded hrids =>
      refine ⟨by simp, fun hraises => ?_⟩
      obtain ⟨row, rest, e, hvalues, hraw⟩ := hraises _ htable
      rw [hvalues] at hadded
      cases hadded with
      | cons hfirst hrest =>
          obtain ⟨hcoerced, raw, hserialized⟩ := hfirst
          rw [Schema.rawOf_eq_ok.mpr ⟨_, hcoerced, hserialized⟩] at hraw
          exact nomatch hraw
  | describe htable =>
      refine ⟨by simp, fun hraises => ?_⟩
      simp [Raises, htable] at hraises

/-- A new database after these statements, with what they returned. -/
inductive Performed : List (Statement × Except PyErr Answer) → ShownDatabase → Prop
  | nil : Performed [] fun _ => none
  | statement {done : List (Statement × Except PyErr Answer)} {db db' : ShownDatabase} {statement : Statement}
      {result : Except PyErr Answer} (h : Performed done db) (hperforms : db.Performs text statement result db') :
      Performed (done ++ [(statement, result)]) db'

/-- What holds of new tables, and is kept when rows go, indexes are made and rows are inserted, holds
of every table. -/
theorem Performed.forall_tables {text : SqlText} {done : List (Statement × Except PyErr Answer)} {db : ShownDatabase}
    (h : Performed text done db) {P : ShownTable → Prop}
    (hcreate : ∀ tableName columnDefs node, LogicalPlanner.planCreateTable tableName columnDefs = .ok node →
      P ⟨⟨node.columns⟩, [], 0⟩)
    (hdelete : ∀ table : ShownTable, P table → ∀ rows ≤ table.rows, P { table with rows := rows })
    (hindex : ∀ table : ShownTable, P table → ∀ indexed, P { table with indexed := indexed })
    (hinsert : ∀ table : ShownTable, P table → ∀ rows added, table.schema.Makes rows added →
      P { table with rows := added + table.rows }) :
    ∀ tableName table, db tableName = some table → P table := by
  induction h with
  | nil => simp
  | @statement done db db' statement result _ hperforms ih =>
      -- a change of one table leaves the others
      have hupdate : ∀ {name : String} {new : ShownTable}, P new →
          ∀ tableName table, Function.update db name (some new) tableName = some table → P table := by
        intro name new hnew tableName table htable
        by_cases hname : tableName = name
        · subst hname
          rw [Function.update_self] at htable
          exact Option.some.inj htable ▸ hnew
        · rw [Function.update_of_ne hname] at htable
          exact ih tableName table htable
      cases hperforms with
      | raised e hraises => exact ih
      | select hplan hlisted hrows => exact ih
      | @drop name table htable =>
          intro tableName other hother
          by_cases hname : tableName = name
          · simp [hname] at hother
          · rw [Function.update_of_ne hname] at hother
            exact ih tableName other hother
      | delete hwhere hp htable => exact hupdate (hdelete _ (ih _ _ htable) _ (Multiset.filter_le _ _))
      | createTable hplan hnew => exact hupdate (hcreate _ _ _ hplan)
      | createIndex indexName htable hcolumns => exact hupdate (hindex _ (ih _ _ htable) _)
      | insert htable hadded hrids => exact hupdate (hinsert _ (ih _ _ htable) _ _ hadded)
      | describe htable => exact ih

/-- Tables that statements made have no maximal lengths. -/
theorem Performed.unlimited {text : SqlText} {done : List (Statement × Except PyErr Answer)} {db : ShownDatabase}
    (h : Performed text done db) :
    ∀ tableName table, db tableName = some table → table.schema.Unlimited := by
  refine h.forall_tables (fun tableName columnDefs node hplan => ?_) (fun _ hold _ _ => hold) (fun _ hold _ => hold)
    fun _ hold _ _ _ => hold
  obtain ⟨columns, hcolumns, hnode⟩ := bind_eq_ok.mp hplan
  obtain rfl := Except.ok.inj hnode
  intro column hcolumn
  obtain ⟨columnDef, -, hdef⟩ := exists_of_forall₂ (mapM_eq_ok.mp hcolumns) hcolumn
  obtain ⟨type, -, hdef⟩ := bind_eq_ok.mp hdef
  rw [← Except.ok.inj hdef]

end ShownDatabase

/-- The rows that a plan stands for, up to their order, do not depend on the order of the rows of
the tables. -/
theorem LogicalNode.rows_perm {listed listed' : Contents} {node : LogicalNode}
    (h : ∀ name ∈ node.scanned, (listed name).schema = (listed' name).schema ∧
      (listed name).rows.Perm (listed' name).rows) :
    node.columns listed = node.columns listed' ∧ (node.rows listed).Perm (node.rows listed') := by
  induction node with
  | scan node =>
      obtain ⟨hschema, hrows⟩ := h node.tableName (by simp [scanned])
      have hcolumns : scanColumns listed node.tableName = scanColumns listed' node.tableName := by
        rw [scanColumns, scanColumns, hschema]
      exact ⟨hcolumns, by rw [rows, rows, hcolumns]; exact hrows.filter _⟩
  | filter child predicate ih =>
      obtain ⟨hcolumns, hrows⟩ := ih h
      exact ⟨hcolumns, by rw [rows, rows, hcolumns]; exact hrows.filter _⟩
  | projection child projections ih =>
      obtain ⟨hcolumns, hrows⟩ := ih h
      refine ⟨?_, ?_⟩
      · rw [columns, columns, hcolumns]
      · rw [rows, rows, hcolumns]
        exact hrows.filterMap _
  | join left right condition ihl ihr =>
      obtain ⟨hcolumnsl, hrowsl⟩ := ihl fun name hname => h name (List.mem_append_left _ hname)
      obtain ⟨hcolumnsr, hrowsr⟩ := ihr fun name hname => h name (List.mem_append_right _ hname)
      refine ⟨?_, ?_⟩
      · rw [columns, columns, hcolumnsl, hcolumnsr]
      · rw [rows, rows, hcolumnsl, hcolumnsr]
        exact (hrowsl.flatMap_right _).trans (List.Perm.flatMap_left _ fun l _ => (hrowsr.map _).filter _)

namespace CatalogSession

/-- The runs of the loop over files that begin empty.  Every `INSERT` and `CREATE INDEX` returns or
raises before it does anything; a process stops between two statements, with everything flushed or
not. -/
inductive Executed (order : SetOrder) (text : SqlText) : List (Statement × Except PyErr Answer) → CatalogSession → Prop
  | start {disk : Disk} (hdisk : ∀ f, disk.Whole f) (hempty : ∀ f, disk.numPages f = 0) :
      Executed order text [] (reload order disk none).2
  | command {done : List (Statement × Except PyErr Answer)} {s : CatalogSession} {db : ShownDatabase}
      (statement : Statement) (hs : Executed order text done s) (hshows : s.Shows order db)
      (hconsidered : db.Considers statement)
      (hend : statement.Adds →
        (∃ answer, (s.command order text statement).1 = .ok answer) ∨ db.Raises text statement) :
      Executed order text (done ++ [(statement, (s.command order text statement).1)])
        (s.command order text statement).2
  | restart {done : List (Statement × Except PyErr Answer)} {s : CatalogSession} (flushed : Bool)
      (hs : Executed order text done s) : Executed order text done (s.step order (.restart flushed)).2

open StoredCatalog

variable {α β : Type} {order : SetOrder} {text : SqlText} {s s' : CatalogSession} {w : Flat FileId Bytes}
  {contents : String → List Record} {forests : String → String → BTree} {statement : Statement}

/-! ## Executing one statement -/

theorem run_bind_ok {p : CatalogProg α} {f : α → CatalogProg β} {a : α} (h : s.run order p = (.ok a, s')) :
    s.run order (p >>= f) = s'.run order (f a) := by
  rcases hrun : p.run (BufferPoolManager.store order) s.catalog s.pool with ⟨r, catalog, pool⟩
  rw [run, hrun] at h
  obtain ⟨rfl, rfl⟩ := Prod.mk.inj h
  rw [run, Prog.run_bind_ok hrun]
  rfl

theorem run_bind_error {p : CatalogProg α} {f : α → CatalogProg β} {e : PyErr} (h : s.run order p = (.error e, s')) :
    s.run order (p >>= f) = (.error e, s') := by
  rcases hrun : p.run (BufferPoolManager.store order) s.catalog s.pool with ⟨r, catalog, pool⟩
  rw [run, hrun] at h
  obtain ⟨rfl, rfl⟩ := Prod.mk.inj h
  rw [run, Prog.run_bind_error hrun]

theorem run_read (s : CatalogSession) : s.run order Prog.read = (.ok s.catalog, s) := rfl

/-- A method of a table that changes nothing. -/
theorem run_onTable_same {tableName : String} {p : PageProg (String → BPlusTree) α} {r : Except PyErr α}
    (hp : p.run (BufferPoolManager.store order) (s.catalog.trees tableName) s.pool =
      (r, s.catalog.trees tableName, s.pool)) : s.run order (onTable tableName p) = (r, s) := by
  rw [run, run_onTable, hp, Function.update_eq_self]

variable (order) in
/-- A method whose run over the careful store is known, with the session that it leaves. -/
theorem run_cases {fails : PyErr → Prop} (hfails : ¬ fails .misuse) (h : s.StoredAt w contents forests)
    {p : CatalogProg α} {post : α → StoredCatalog → Flat FileId Bytes → Prop}
    (hp : p.Ends carefulStore fails s.catalog w post) :
    (∃ e s', s.run order p = (.error e, s') ∧ fails e) ∨
      ∃ a s' w', s.run order p = (.ok a, s') ∧ s'.pool.Refines w' ∧ post a s'.catalog w' := by
  rcases run_of_ends order hfails h.refines hp with ⟨e, he, hfail⟩ | ⟨a, w', hok, hr, hpost⟩
  · exact .inl ⟨e, _, Prod.ext he rfl, hfail⟩
  · exact .inr ⟨a, _, w', Prod.ext hok rfl, hr, hpost⟩

/-- A statement that was planned. -/
theorem run_execute {tree : LogicalPlan} (hplan : LogicalPlanner.plan text statement = .ok tree) :
    s.run order (Database.execute text statement) = s.run order (Database.runPlan tree.pushDown) := by
  have hread : s.run order (Prog.ofExcept (LogicalPlanner.plan text statement)) = (.ok tree, s) := by
    rw [hplan]
    rfl
  exact run_bind_ok hread

theorem run_execute_error {e : PyErr} (hplan : LogicalPlanner.plan text statement = .error e) :
    s.run order (Database.execute text statement) = (.error e, s) := by
  have hread : s.run order (Prog.ofExcept (LogicalPlanner.plan text statement)) = (.error e, s) := by
    rw [hplan]
    rfl
  exact run_bind_error hread

variable (order text) in
/-- What is to be shown of a statement. -/
def Executes (s : CatalogSession) (contents : String → List Record) (statement : Statement) : Prop :=
  ∃ result s' w' contents' forests', s.run order (Database.execute text statement) = (result, s') ∧
    s'.StoredAt w' contents' forests' ∧ (∀ e, result = .error e → s'.pool = s.pool) ∧
      (shown s.catalog.tables contents).Performs text statement result (shown s'.catalog.tables contents')

/-- All pages are written back after it. -/
theorem Executes.command (h : s.Executes order text contents statement) (hclean : ∀ f, s.pool.dirty f = false) :
    ∃ w' contents' forests', (s.command order text statement).2.StoredAt w' contents' forests' ∧
      (∀ f, (s.command order text statement).2.pool.dirty f = false) ∧
        (shown s.catalog.tables contents).Performs text statement (s.command order text statement).1
          (shown (s.command order text statement).2.catalog.tables contents') := by
  obtain ⟨result, s', w', contents', forests', hrun, hstored, hpool, hperforms⟩ := h
  cases result with
  | error e =>
      have hcommand : s.command order text statement = (.error e, s') := by rw [CatalogSession.command, hrun]
      rw [hcommand]
      exact ⟨w', contents', forests', hstored, fun f => hpool e rfl ▸ hclean f, hperforms⟩
  | ok answer =>
      obtain ⟨pool, hflush, hr, hflushed⟩ := hstored.flushAll
      have hcommand : s.command order text statement = (.ok answer, { s' with pool := pool }) := by
        rw [CatalogSession.command, hrun]
        dsimp only
        rw [hflush]
      rw [hcommand]
      exact ⟨w', contents', forests', ⟨hr, hstored.tracked, hstored.files⟩, hflushed, hperforms⟩

/-- A statement whose pages were written back has returned. -/
theorem returns_of_command (h : ∃ answer, (s.command order text statement).1 = .ok answer) :
    ∃ answer, (s.run order (Database.execute text statement)).1 = .ok answer := by
  obtain ⟨answer, hanswer⟩ := h
  rcases hrun : s.run order (Database.execute text statement) with ⟨e | returned, s'⟩
  · rw [CatalogSession.command, hrun] at hanswer
    exact nomatch hanswer
  · exact ⟨returned, rfl⟩

/-! ### Statements that raise -/

variable (order) in
/-- A method that raises, and changes nothing but, at most, the number of the next file. -/
def Stops (s : CatalogSession) (p : CatalogProg α) : Prop :=
  ∃ e, s.run order p = (.error e, s) ∨
    s.run order p = (.error e, { s with catalog := { s.catalog with nextFileId := s.catalog.nextFileId + 1 } })

theorem Stops.bind {p : CatalogProg α} (h : s.Stops order p) (f : α → CatalogProg β) : s.Stops order (p >>= f) := by
  obtain ⟨e, hrun⟩ := h
  exact ⟨e, hrun.imp run_bind_error run_bind_error⟩

/-- A call of the catalog that raises. -/
theorem stops_of_step {p : CatalogProg α} {e : PyErr}
    (hstep : (s.run order p).map (Except.map fun _ => ()) id = ((.error e : Except PyErr Unit), s) ∨
      (s.run order p).map (Except.map fun _ => ()) id = ((.error e : Except PyErr Unit),
        { s with catalog := { s.catalog with nextFileId := s.catalog.nextFileId + 1 } })) : s.Stops order p := by
  have hraised : ∀ {s' : CatalogSession},
      (s.run order p).map (Except.map fun _ => ()) id = ((.error e : Except PyErr Unit), s') →
        s.run order p = (.error e, s') := by
    intro s' h
    rcases hrun : s.run order p with ⟨e' | a, s₁⟩
    · rw [hrun] at h
      obtain ⟨he, rfl⟩ := Prod.mk.inj h
      exact Except.error.inj he ▸ rfl
    · rw [hrun] at h
      exact nomatch (Prod.mk.inj h).1
  exact ⟨e, hstep.imp hraised hraised⟩

/-- The physical planner looks a table up before it runs the child of a `DELETE`. -/
theorem run_planDelete_none {node : LogicalDelete} (hget : s.catalog.tables.get? node.tableName = none) :
    s.run order (planDelete node) = (.error (.keyError s!"'{node.tableName}'"), s) := by
  refine run_bind_error ?_
  rw [run, tableAt, Prog.run_bind_ok (Prog.run_read _ _), hget]
  rfl

/-- The first row of an `INSERT` is coerced and encoded before a page is changed. -/
theorem run_planInsert_refused {node : SqlInsert}
    (hraises : (shown s.catalog.tables contents).Raises text (.insert node)) :
    ∃ e, s.run order (planInsert (LogicalPlanner.planInsert text node)) = (.error e, s) := by
  have hfails : ∃ e, ∀ (trees : String → BPlusTree) (pool : BufferPoolManager),
      (PhysicalPlanner.planInsert s.catalog.tables node.table ((LogicalPlanner.planInsert text node).values.map
        Schema.passedTexts)).run (BufferPoolManager.store order) trees pool = (.error e, trees, pool) := by
    cases hget : s.catalog.tables.get? node.table with
    | none =>
        refine ⟨.keyError s!"A table named {node.table} does not exist", fun trees pool => ?_⟩
        rw [PhysicalPlanner.planInsert, hget]
        rfl
    | some table =>
        obtain ⟨row, rest, e, hvalues, hraw⟩ := hraises _ (shown_of_get? hget)
        refine ⟨e, fun trees pool => ?_⟩
        rw [PhysicalPlanner.planInsert, hget, hvalues, List.map_cons]
        refine Prog.run_bind_error ?_
        rw [PhysicalPlanner.insertRows]
        rcases hcoerced : table.schema.coerce (Schema.passedTexts row) with e' | values
        · rw [Schema.rawOf, hcoerced] at hraw
          rw [← Except.error.inj hraw]
          exact Prog.run_bind_error (Prog.run_ofExcept _ _ _)
        · rw [Schema.rawOf, hcoerced] at hraw
          refine Prog.run_step (Prog.run_ofExcept _ _ _) (Prog.run_bind_error ?_)
          rw [StoredTable.insert, show table.schema.serialize values = .error e from hraw]
          rfl
  obtain ⟨e, hfails⟩ := hfails
  exact ⟨e, (run_bind_ok (run_read s)).trans (run_onTable_same (hfails _ _))⟩

/-- A statement that is to raise before it does anything. -/
theorem stops_of_raises (hraises : (shown s.catalog.tables contents).Raises text statement) :
    s.Stops order (Database.execute text statement) := by
  have hplanned : ∀ {e : PyErr}, LogicalPlanner.plan text statement = .error e →
      s.Stops order (Database.execute text statement) := fun hplan => ⟨_, .inl (run_execute_error hplan)⟩
  have hrun : ∀ {tree : LogicalPlan}, LogicalPlanner.plan text statement = .ok tree →
      s.Stops order (Database.runPlan tree.pushDown) → s.Stops order (Database.execute text statement) := by
    intro tree hplan h
    rwa [Stops, run_execute hplan]
  cases statement with
  | select node =>
      obtain ⟨e, he⟩ := hraises
      refine hplanned (e := e) ?_
      rw [LogicalPlanner.plan, he]
      rfl
  | drop kind tableName =>
      by_cases hkind : kind = "TABLE"
      · subst hkind
        have hrefused : (shown s.catalog.tables contents).Refuses (.deleteTable tableName) :=
          hraises.resolve_left (by simp)
        obtain ⟨e, hstep⟩ := step_refused order hrefused
        have hfirst : s.Stops order (deleteTable tableName) := stops_of_step hstep
        have hplan : LogicalPlanner.plan text (.drop "TABLE" tableName) = .ok (.tableDrop tableName) := rfl
        exact hrun hplan ((hfirst.bind _).bind _)
      · refine hplanned (e := .notImplementedError s!"DROP {kind} is not supported") ?_
        rw [LogicalPlanner.plan, LogicalPlanner.planDrop, if_neg hkind]
  | delete node =>
      rcases hplan : LogicalPlanner.planDelete node with e | tree
      · refine hplanned (e := e) ?_
        rw [LogicalPlanner.plan, hplan]
        rfl
      · have hnone := shown_eq_none_iff.mp (hraises.resolve_left (by simp [hplan]))
        obtain ⟨condition, p, -, -, rfl⟩ := LogicalPlanner.planDelete_eq_ok.mp hplan
        have hstatement : LogicalPlanner.plan text (.delete node) =
            .ok (.delete ⟨.scan (PhysicalPlanner.deleteScan node.table p), node.table⟩) := by
          rw [LogicalPlanner.plan, hplan]
          rfl
        have hdelete : s.Stops order (planDelete ⟨.scan (PhysicalPlanner.deleteScan node.table p), node.table⟩) :=
          ⟨_, .inl (run_planDelete_none hnone)⟩
        exact hrun hstatement (hdelete.bind _)
  | createTable tableName columnDefs =>
      rcases hplan : LogicalPlanner.planCreateTable tableName columnDefs with e | tree
      · refine hplanned (e := e) ?_
        rw [LogicalPlanner.plan, hplan]
        rfl
      · have hname : tree.tableName = tableName := by
          obtain ⟨columns, -, hplan⟩ := bind_eq_ok.mp hplan
          rw [← Except.ok.inj hplan]
        have hstatement : LogicalPlanner.plan text (.createTable tableName columnDefs) = .ok (.createTable tree) := by
          rw [LogicalPlanner.plan, hplan]
          rfl
        have hrefused : (shown s.catalog.tables contents).Refuses (.createTable tree.tableName ⟨tree.columns⟩) :=
          hname ▸ hraises.resolve_left (by simp [hplan])
        obtain ⟨e, hstep⟩ := step_refused order hrefused
        have hfirst : s.Stops order (createTable tree.tableName ⟨tree.columns⟩) := stops_of_step hstep
        exact hrun hstatement ((hfirst.bind _).bind _)
  | createIndex indexName tableName columns =>
      obtain ⟨column, rest, rfl, hindexed⟩ := hraises
      have hrefused : (shown s.catalog.tables contents).Refuses (.createIndex tableName indexName column) := hindexed
      obtain ⟨e, hstep⟩ := step_refused order hrefused
      have hfirst : s.Stops order (createIndex tableName indexName column) := ⟨e, hstep⟩
      have hplan : LogicalPlanner.plan text (.createIndex indexName tableName (column :: rest)) =
          .ok (.createIndex ⟨indexName, tableName, column :: rest⟩) := rfl
      exact hrun hplan (((hfirst.bind _).bind _).bind _)
  | create kind => exact hplanned (e := .notImplementedError s!"CREATE {kind} is not supported") rfl
  | insert node =>
      obtain ⟨e, hinsert⟩ : ∃ e, s.run order (planInsert (LogicalPlanner.planInsert text node)) = (.error e, s) :=
        run_planInsert_refused hraises
      have hfirst : s.Stops order (planInsert (LogicalPlanner.planInsert text node)) := ⟨e, .inl hinsert⟩
      have hplan : LogicalPlanner.plan text (.insert node) = .ok (.insert (LogicalPlanner.planInsert text node)) := rfl
      exact hrun hplan (hfirst.bind _)
  | describe tableName =>
      have hlookup : s.run order (getTable tableName) =
          (.error (.keyError s!"A table named {tableName} does not exist"), s) := by
        rw [run, run_getTable, shown_eq_none_iff.mp hraises]
      have hfirst : s.Stops order (getTable tableName) := ⟨_, .inl hlookup⟩
      have hplan : LogicalPlanner.plan text (.describe tableName) = .ok (.describe tableName) := rfl
      exact hrun hplan ((hfirst.bind _).bind _)
  | other word => exact hplanned (e := .notImplementedError s!"{word} has not been implemented") rfl

theorem executes_raises (h : s.StoredAt w contents forests)
    (hraises : (shown s.catalog.tables contents).Raises text statement) : s.Executes order text contents statement := by
  obtain ⟨e, hrun | hrun⟩ : s.Stops order (Database.execute text statement) := stops_of_raises hraises
  · exact ⟨_, _, w, contents, forests, hrun, h, fun _ _ => rfl, .raised e hraises⟩
  · exact ⟨_, _, w, contents, forests, hrun, ⟨h.refines, h.tracked.burns (n := 1) ⟨rfl, rfl, rfl⟩,
      h.files.burns rfl rfl rfl⟩, fun _ _ => rfl, .raised e hraises⟩

/-! ### Queries -/

/-- The rows in the files, as a list for each table. -/
theorem StoredAt.exists_listing (h : s.StoredAt w contents forests) :
    ∃ listed : Contents, LogicalNode.RowsTyped listed ∧ ∀ tableName table,
      s.catalog.tables.get? tableName = some table → (listed tableName).schema = table.schema ∧
        (listed tableName).rows = (contents tableName).map Record.values := by
  have hone : ∀ tableName, ∃ rows : TableRows, (∀ row ∈ rows.rows, rows.schema.Fits row) ∧ ∀ table,
      s.catalog.tables.get? tableName = some table →
        rows.schema = table.schema ∧ rows.rows = (contents tableName).map Record.values := by
    intro tableName
    cases hget : s.catalog.tables.get? tableName with
    | none => exact ⟨⟨⟨[]⟩, [], by simp⟩, by simp, by simp⟩
    | some table =>
        have hfits : ∀ row ∈ (contents tableName).map Record.values, table.schema.Fits row := by
          intro row hrow
          obtain ⟨record, hmem, rfl⟩ := List.mem_map.mp hrow
          exact (h.files.tables _ (Dict.mem_of_get? hget)).rows.fits record hmem
        refine ⟨⟨table.schema, _, fun row hrow => (hfits row hrow).length_eq.symm⟩, hfits, fun other hother => ?_⟩
        obtain rfl := Option.some.inj hother
        exact ⟨rfl, rfl⟩
  choose listed hlisted using hone
  exact ⟨listed, fun tableName => (hlisted tableName).1, fun tableName => (hlisted tableName).2⟩

/-- A query that is considered is answered with the rows that its plan stands for. -/
theorem executes_select (h : s.StoredAt w contents forests) {node : SqlSelect} {tree : LogicalNode}
    (hplan : LogicalPlanner.planSelect node = .ok tree)
    (hconsidered : (shown s.catalog.tables contents).Considers (.select node)) :
    s.Executes order text contents (.select node) := by
  obtain ⟨hnodup, hscanned, htyped⟩ := hconsidered tree hplan
  obtain ⟨listed, hrowsTyped, hlisted⟩ := h.exists_listing
  have hlists : (shown s.catalog.tables contents).Lists listed := by
    intro tableName table htable
    obtain ⟨stored, hget, rfl⟩ := exists_of_shown htable
    obtain ⟨hschema, hrows⟩ := hlisted tableName stored hget
    exact ⟨hschema, by rw [hrows, Multiset.map_coe]⟩
  have hpushed : tree.pushDown.scanned = tree.scanned := by
    rcases LogicalPlanner.planSelect_shape hplan with hnode | ⟨child, projections, rfl, hnode, -⟩
    · exact (LogicalNode.pushDown_shape listed tree hnode).1
    · exact (LogicalNode.pushDown_shape listed child hnode).1
  obtain ⟨tables, htables, hseen⟩ := run_readTables h.files tree.pushDown.scanned
  have hshows : ∀ tableName ∈ tree.scanned, PhysicalPlanner.Shows ⟨tables⟩ listed tableName := by
    intro tableName hname
    obtain ⟨-, table, htable, hindexed⟩ := hscanned tableName hname
    obtain ⟨stored, hget, rfl⟩ := exists_of_shown htable
    obtain ⟨seen, hfound, hnamed, hschema, hindices, hholds⟩ := hseen tableName (hpushed.symm ▸ hname) stored hget
    obtain ⟨hlistedSchema, hlistedRows⟩ := hlisted tableName stored hget
    exact ⟨seen, contents tableName, hfound, hnamed.trans (h.tracked.named _ (Dict.mem_of_get? hget)), hindices, hholds,
      hschema.trans hlistedSchema.symm, hlistedRows.symm⟩
  obtain ⟨operator, rows, hoperator, hcolumns, hcollect, hperm⟩ :=
    Database.yields_select hplan (fun tableName hname => (hscanned tableName hname).1) hnodup hshows hrowsTyped
      (htyped listed hlists)
  obtain ⟨hrun, hrefines, hcatalog⟩ :=
    run_of_reads order h.refines (run_runQuery htables hoperator hcollect) (by simp)
  have hstatement : LogicalPlanner.plan text (.select node) = .ok (.query tree) := by
    rw [LogicalPlanner.plan, hplan]
    rfl
  refine ⟨.ok (.rows rows operator.outputSchema), (s.run order (runQuery tree.pushDown)).2, w, contents, forests, ?_,
    ⟨hrefines, hcatalog.symm ▸ h.tracked, hcatalog.symm ▸ h.files⟩, by simp, ?_⟩
  · exact (run_execute hstatement).trans (run_bind_ok (Prod.ext hrun rfl))
  · rw [hcatalog]
    refine .select hplan ⟨listed, hlists⟩ fun other hother => ?_
    have hsame : ∀ tableName ∈ tree.scanned, (listed tableName).schema = (other tableName).schema ∧
        (listed tableName).rows.Perm (other tableName).rows := by
      intro tableName hname
      obtain ⟨-, table, htable, -⟩ := hscanned tableName hname
      obtain ⟨hschema, hrows⟩ := hlists tableName table htable
      obtain ⟨hschema', hrows'⟩ := hother tableName table htable
      exact ⟨hschema.trans hschema'.symm, Multiset.coe_eq_coe.mp (hrows.trans hrows'.symm)⟩
    obtain ⟨hcolumns', hrows'⟩ := LogicalNode.rows_perm hsame
    exact ⟨hcolumns.trans (congrArg Schema.mk hcolumns'), hperm.trans hrows'⟩

/-- `DESCRIBE` of a table that exists. -/
theorem executes_describe (h : s.StoredAt w contents forests) {tableName : String} {table : StoredTable}
    (hget : s.catalog.tables.get? tableName = some table) : s.Executes order text contents (.describe tableName) := by
  have hplan : LogicalPlanner.plan text (.describe tableName) = .ok (.describe tableName) := rfl
  have hlookup : s.run order (getTable tableName) = (.ok table, s) := by
    rw [run, run_getTable, hget]
  have htable : shown s.catalog.tables contents tableName =
      some ⟨table.schema, table.indices.map Prod.fst, contents tableName⟩ := shown_of_get? hget
  have hshown := @ShownDatabase.Performs.describe text _ _ _ htable
  have hrun : s.run order (planDescribe tableName) =
      (.ok (formatColumnTable (table.schema.columns.map fun column => (column.name, column.type.name))), s) :=
    run_bind_ok hlookup
  dsimp only at hshown
  generalize formatColumnTable (table.schema.columns.map fun column => (column.name, column.type.name)) =
    message at hrun hshown
  exact ⟨_, s, w, contents, forests, (run_execute hplan).trans (run_bind_ok hrun), h, by simp, hshown⟩

/-! ### Statements about tables -/

/-- `CREATE TABLE` of a table that is new. -/
theorem executes_createTable (h : s.StoredAt w contents forests) {tableName : String}
    {columnDefs : List (String × String)} {node : LogicalCreateTable}
    (hplan : LogicalPlanner.planCreateTable tableName columnDefs = .ok node)
    (hnew : s.catalog.tables.get? tableName = none) :
    s.Executes order text contents (.createTable tableName columnDefs) := by
  have hstatement : LogicalPlanner.plan text (.createTable tableName columnDefs) = .ok (.createTable node) := by
    rw [LogicalPlanner.plan, hplan]
    rfl
  have hname : node.tableName = tableName := by
    obtain ⟨columns, -, hnode⟩ := bind_eq_ok.mp hplan
    rw [← Except.ok.inj hnode]
  obtain ⟨hok, w', contents', forests', hstored, hdoes⟩ := follows_createTable order h hnew ⟨node.columns⟩
  rcases hprog : (createTable tableName ⟨node.columns⟩).run (BufferPoolManager.store order) s.catalog s.pool with
    ⟨r, catalog', pool'⟩
  have hcall : s.run order (createTable tableName ⟨node.columns⟩) = (r, ⟨pool', catalog'⟩) := by rw [run, hprog]
  rw [step, hcall] at hok hstored hdoes
  rcases createTable_cases hprog with ⟨e, rfl, -⟩ | ⟨rfl, -⟩
  · cases hok
  have hrun : s.run order (planCreateTable node) =
      (.ok s!"Table {tableName} created successfully", ⟨pool', catalog'⟩) := by
    rw [planCreateTable, hname, run_bind_ok hcall]
    rfl
  refine ⟨_, _, w', contents', forests', (run_execute hstatement).trans (run_bind_ok hrun), hstored, by simp, ?_⟩
  have hafter := hdoes.eq_of_createTable (shown_eq_none_iff.mpr hnew)
  rw [Prod.map_snd, id_eq] at hafter
  rw [hafter]
  exact .createTable hplan (shown_eq_none_iff.mpr hnew)

/-- `DROP TABLE` of a table that exists. -/
theorem executes_drop (h : s.StoredAt w contents forests) {tableName : String} {table : StoredTable}
    (hget : s.catalog.tables.get? tableName = some table) :
    s.Executes order text contents (.drop "TABLE" tableName) := by
  have hplan : LogicalPlanner.plan text (.drop "TABLE" tableName) = .ok (.tableDrop tableName) := rfl
  obtain ⟨pool, hcall, -⟩ := run_deleteTable order h hget
  obtain ⟨w', contents', forests', hstored, hdoes⟩ := follows_deleteTable order h hget
  rw [step, hcall] at hstored hdoes
  have hrun : s.run order (planDropTable tableName) = (.ok s!"Table {tableName} dropped successfully", _) :=
    run_bind_ok hcall
  refine ⟨_, _, w', contents', forests', (run_execute hplan).trans (run_bind_ok hrun), hstored, by simp, ?_⟩
  have hafter := hdoes.eq_of_deleteTable (by rw [shown_of_get? hget]; simp)
  rw [Prod.map_snd, id_eq] at hafter
  rw [hafter]
  exact .drop (shown_of_get? hget)

theorem run_createIndex_refused {tableName column : String} (indexName : String)
    (hrefused : ∀ table, shown s.catalog.tables contents tableName = some table → column ∈ table.indexed) :
    ∃ e s', s.run order (createIndex tableName indexName column) = (.error e, s') := by
  have hcall : (shown s.catalog.tables contents).Refuses (.createIndex tableName indexName column) := hrefused
  obtain ⟨e, hstep | hstep⟩ := step_refused order hcall
  · exact ⟨e, _, hstep⟩
  · exact ⟨e, _, hstep⟩

/-- The loop of `CREATE INDEX` over the columns. -/
theorem follows_createIndexes {tableName indexName : String} (columns : List String) :
    ∀ {s : CatalogSession} {w : Flat FileId Bytes} {contents : String → List Record}
      {forests : String → String → BTree} {table : ShownTable}, s.StoredAt w contents forests →
      shown s.catalog.tables contents tableName = some table → table.indexed.Nodup →
      (∀ column ∈ columns, column ∉ table.indexed → ∃ i, table.schema.IntAt column i) →
      s.run order (createIndexes tableName indexName columns) = (.ok (), s') →
        ∃ w' contents' forests', s'.StoredAt w' contents' forests' ∧ (table.indexed ++ columns).Nodup ∧
          shown s'.catalog.tables contents' = Function.update (shown s.catalog.tables contents) tableName
            (some { table with indexed := table.indexed ++ columns }) := by
  induction columns with
  | nil =>
      intro s w contents forests table h htable hnodup _ hrun
      obtain ⟨-, rfl⟩ := Prod.mk.inj (hrun : (Except.ok (), s) = (.ok (), s'))
      refine ⟨w, contents, forests, h, by simpa using hnodup, ?_⟩
      rw [List.append_nil, ← htable, Function.update_eq_self]
  | cons column rest ih =>
      intro s w contents forests table h htable hnodup hints hrun
      by_cases hindexed : column ∈ table.indexed
      · obtain ⟨e, s₁, hcall⟩ : ∃ e s₁, s.run order (createIndex tableName indexName column) = (.error e, s₁) :=
          run_createIndex_refused indexName fun other hother => Option.some.inj (htable.symm.trans hother) ▸ hindexed
        exact nomatch (Prod.mk.inj ((run_bind_error hcall).symm.trans hrun)).1
      rcases hcall : s.run order (createIndex tableName indexName column) with ⟨e | _, s₁⟩
      · exact nomatch (Prod.mk.inj ((run_bind_error hcall).symm.trans hrun)).1
      obtain ⟨i, hi⟩ := hints column List.mem_cons_self hindexed
      obtain ⟨stored, hget, heq⟩ := exists_of_shown htable
      have hindices : stored.indices.map Prod.fst = table.indexed := by rw [heq]
      have hschema : stored.schema = table.schema := by rw [heq]
      have hfollows : s.Follows order contents (.createIndex tableName indexName column) :=
        follows_createIndex h hget (hschema ▸ hi) (hindices ▸ hindexed) indexName (by rw [step, hcall])
      rw [Follows, step, hcall] at hfollows
      obtain ⟨w₁, contents₁, forests₁, h₁, hdoes⟩ := hfollows
      have hafter := hdoes.eq_of_createIndex htable hindexed
      have htable₁ : shown s₁.catalog.tables contents₁ tableName =
          some { table with indexed := table.indexed ++ [column] } := by
        rw [hafter, Function.update_self]
      have hnodup₁ : (table.indexed ++ [column]).Nodup := by
        rw [List.nodup_append]
        exact ⟨hnodup, List.nodup_singleton _, fun a ha b hb hab => hindexed (List.mem_singleton.mp hb ▸ hab ▸ ha)⟩
      have hints₁ : ∀ other ∈ rest, other ∉ table.indexed ++ [column] → ∃ i, table.schema.IntAt other i :=
        fun other hother hnew => hints other (List.mem_cons_of_mem _ hother) fun hold =>
          hnew (List.mem_append_left _ hold)
      obtain ⟨w', contents', forests', h', hnodup', hlast⟩ :=
        ih h₁ htable₁ hnodup₁ hints₁ ((run_bind_ok hcall).symm.trans hrun)
      have happend : table.indexed ++ column :: rest = table.indexed ++ [column] ++ rest := by simp
      refine ⟨w', contents', forests', h', happend ▸ hnodup', ?_⟩
      rw [hlast, hafter, Function.update_idem, happend]

/-- `CREATE INDEX` that returns. -/
theorem executes_createIndex (h : s.StoredAt w contents forests) {indexName tableName : String} {columns : List String}
    (hconsidered : (shown s.catalog.tables contents).Considers (.createIndex indexName tableName columns))
    (hok : ∃ answer, (s.run order (Database.execute text (.createIndex indexName tableName columns))).1 = .ok answer) :
    s.Executes order text contents (.createIndex indexName tableName columns) := by
  obtain ⟨answer, hok⟩ := hok
  have hplan : LogicalPlanner.plan text (.createIndex indexName tableName columns) =
      .ok (.createIndex ⟨indexName, tableName, columns⟩) := rfl
  rw [run_execute hplan] at hok
  cases htable : shown s.catalog.tables contents tableName with
  | none =>
      -- the first column is refused
      obtain ⟨column, rest, rfl⟩ := List.exists_cons_of_ne_nil hconsidered.1
      obtain ⟨e, s₁, hcall⟩ : ∃ e s₁, s.run order (createIndex tableName indexName column) = (.error e, s₁) :=
        run_createIndex_refused indexName fun other hother => absurd (htable.symm.trans hother) (by simp)
      have hfails : s.run order (Database.runPlan (.createIndex ⟨indexName, tableName, column :: rest⟩)) = (.error e, s₁) :=
        run_bind_error (run_bind_error (run_bind_error hcall))
      exact nomatch (congrArg Prod.fst hfails).symm.trans hok
  | some table =>
      rcases hloop : s.run order (createIndexes tableName indexName columns) with ⟨e | _, s'⟩
      · have hfails : s.run order (Database.runPlan (.createIndex ⟨indexName, tableName, columns⟩)) = (.error e, s') :=
          run_bind_error (run_bind_error hloop)
        exact nomatch (congrArg Prod.fst hfails).symm.trans hok
      obtain ⟨stored, hget, rfl⟩ := exists_of_shown htable
      obtain ⟨w', contents', forests', h', hnodup, hafter⟩ := follows_createIndexes columns h htable
        (h.tracked.columns _ (Dict.mem_of_get? hget)) (hconsidered.2 _ htable) hloop
      have hrun : s.run order (planCreateIndex ⟨indexName, tableName, columns⟩) =
          (.ok s!"Index {indexName} created successfully", s') := run_bind_ok hloop
      refine ⟨_, s', w', contents', forests', (run_execute hplan).trans (run_bind_ok hrun), h', by simp, ?_⟩
      rw [hafter]
      exact .createIndex indexName htable hnodup

/-! ### Statements about rows -/

/-- `INSERT` that returns. -/
theorem executes_insert (h : s.StoredAt w contents forests) {node : SqlInsert} {table : StoredTable}
    (hget : s.catalog.tables.get? node.table = some table) (hunlimited : table.schema.Unlimited)
    (hok : ∃ answer, (s.run order (Database.execute text (.insert node))).1 = .ok answer) :
    s.Executes order text contents (.insert node) := by
  obtain ⟨answer, hok⟩ := hok
  have hplan : LogicalPlanner.plan text (.insert node) = .ok (.insert (LogicalPlanner.planInsert text node)) := rfl
  rw [run_execute hplan] at hok
  have hends := ends_planInsert h.tracked h.files hget hunlimited (LogicalPlanner.planInsert text node).values
  rcases run_cases order (by simp) h hends with
    ⟨e, s', he, -⟩ | ⟨message, s', w', hrun, hr, rfl, ht, htables, added, records, forests', hadded, hperm, hfiles⟩
  · have hfails : s.run order (Database.runPlan (.insert (LogicalPlanner.planInsert text node))) = (.error e, s') :=
      run_bind_error he
    exact nomatch (congrArg Prod.fst hfails).symm.trans hok
  have hlength : (LogicalPlanner.planInsert text node).values.length = node.rows.length := by
    rw [LogicalPlanner.planInsert, List.length_map]
  refine ⟨_, s', w', _, forests', (run_execute hplan).trans (run_bind_ok hrun), ⟨hr, ht, hfiles⟩, by simp, ?_⟩
  rw [htables, shown_update hget, Multiset.coe_eq_coe.mpr hperm, ← Multiset.coe_add, hlength]
  refine .insert (shown_of_get? hget) hadded ?_
  -- no two rows of the table have the same id
  have hrows := (hfiles.tables _ (htables.symm ▸ Dict.mem_of_get? hget)).rows
  rw [Function.update_self] at hrows
  rw [Multiset.coe_add, Multiset.map_coe, Multiset.coe_nodup]
  exact (hperm.map Record.rid).nodup_iff.mp hrows.nodup_rid

/-- `DELETE` with a condition that is well-typed. -/
theorem executes_delete (h : s.StoredAt w contents forests) {node : SqlDelete} {condition : SqlExpr} {p : Expr String}
    {table : StoredTable} (hwhere : node.whereClause = some condition)
    (hp : LogicalPlanner.planExpression (some node.table) condition = .ok p)
    (hget : s.catalog.tables.get? node.table = some table) (hindices : table.indices = [])
    (htyped : p.wellTyped (table.schema.qualify node.table) = true) :
    s.Executes order text contents (.delete node) := by
  have hplan : LogicalPlanner.plan text (.delete node) =
      .ok (.delete ⟨.scan (PhysicalPlanner.deleteScan node.table p), node.table⟩) := by
    rw [LogicalPlanner.plan, LogicalPlanner.planDelete_eq_ok.mpr ⟨condition, p, hwhere, hp, rfl⟩]
    rfl
  have hends := ends_planDelete h.tracked h.files hget hindices htyped
  rcases run_cases order (fun hfalse => hfalse) h hends with
    ⟨e, s', -, hfail⟩ | ⟨message, s', w', hrun, hr, rfl, ht, htables, records, forests', hperm, hfiles⟩
  · exact hfail.elim
  have hkept : (records : Multiset Record) = (contents node.table : Multiset Record).filter fun r =>
      p.TrueOn (table.schema.qualify node.table) r.values = false := by
    rw [Multiset.coe_eq_coe.mpr hperm, Multiset.filter_coe]
    simp only [← Bool.not_eq_true, decide_not, Bool.decide_eq_true]
  have hcount : (contents node.table).countP (fun r => p.TrueOn (table.schema.qualify node.table) r.values) =
      (contents node.table : Multiset Record).countP fun r =>
        p.TrueOn (table.schema.qualify node.table) r.values = true := by
    rw [Multiset.coe_countP]
    simp only [Bool.decide_eq_true]
  have htable : shown s.catalog.tables contents node.table =
      some ⟨table.schema, table.indices.map Prod.fst, contents node.table⟩ := shown_of_get? hget
  have hperforms := @ShownDatabase.Performs.delete text _ _ _ _ _ hwhere hp htable
  dsimp only at hperforms
  rw [hcount] at hrun
  generalize rowsAffected ((contents node.table : Multiset Record).countP fun r =>
    p.TrueOn (table.schema.qualify node.table) r.values = true) = message at hrun hperforms
  refine ⟨.ok (.message message), s', w', Function.update contents node.table records, forests',
    (run_execute hplan).trans (run_bind_ok hrun), ⟨hr, ht, hfiles⟩, by simp, ?_⟩
  rw [htables, shown_update hget, hkept]
  exact hperforms

/-! ## Every run -/

/-- A statement that is considered; if it adds rows or an index, it returns or raises before it does
anything. -/
theorem StoredAt.executes (h : s.StoredAt w contents forests)
    (hunlimited : ∀ tableName table, shown s.catalog.tables contents tableName = some table → table.schema.Unlimited)
    (hconsidered : (shown s.catalog.tables contents).Considers statement)
    (hend : statement.Adds → (∃ answer, (s.run order (Database.execute text statement)).1 = .ok answer) ∨
      (shown s.catalog.tables contents).Raises text statement) :
    s.Executes order text contents statement := by
  by_cases hraises : (shown s.catalog.tables contents).Raises text statement
  · exact executes_raises h hraises
  have hok := fun hadds => (hend hadds).resolve_right hraises
  cases statement with
  | select node =>
      rcases hplan : LogicalPlanner.planSelect node with e | tree
      · exact absurd ⟨e, hplan⟩ hraises
      · exact executes_select h hplan hconsidered
  | drop kind tableName =>
      obtain ⟨hkind, hsome⟩ := not_or.mp hraises
      obtain ⟨shownTable, htable⟩ := Option.ne_none_iff_exists'.mp hsome
      obtain ⟨table, hget, -⟩ := exists_of_shown htable
      exact not_not.mp hkind ▸ executes_drop h hget
  | delete node =>
      obtain ⟨hplans, hsome⟩ := not_or.mp hraises
      rcases hplan : LogicalPlanner.planDelete node with e | tree
      · exact absurd ⟨e, hplan⟩ hplans
      obtain ⟨condition, p, hwhere, hp, -⟩ := LogicalPlanner.planDelete_eq_ok.mp hplan
      obtain ⟨shownTable, htable⟩ := Option.ne_none_iff_exists'.mp hsome
      obtain ⟨hindexed, htyped⟩ := hconsidered shownTable condition p htable hwhere hp
      obtain ⟨table, hget, rfl⟩ := exists_of_shown htable
      exact executes_delete h hwhere hp hget (List.map_eq_nil_iff.mp hindexed) htyped
  | createTable tableName columnDefs =>
      obtain ⟨hplans, hnew⟩ := not_or.mp hraises
      rcases hplan : LogicalPlanner.planCreateTable tableName columnDefs with e | node
      · exact absurd ⟨e, hplan⟩ hplans
      · exact executes_createTable h hplan (shown_eq_none_iff.mp (not_not.mp hnew))
  | createIndex indexName tableName columns => exact executes_createIndex h hconsidered (hok trivial)
  | create kind => exact absurd trivial hraises
  | insert node =>
      obtain ⟨shownTable, hraises⟩ := not_forall.mp hraises
      obtain ⟨htable, -⟩ := Classical.not_imp.mp hraises
      have hfree := hunlimited _ _ htable
      obtain ⟨table, hget, rfl⟩ := exists_of_shown htable
      exact executes_insert h hget hfree (hok trivial)
  | describe tableName =>
      obtain ⟨shownTable, htable⟩ := Option.ne_none_iff_exists'.mp hraises
      obtain ⟨table, hget, -⟩ := exists_of_shown htable
      exact executes_describe h hget
  | other word => exact absurd trivial hraises

/-- The tables are at their files all along, with no dirty frame, and what they show has come about
statement by statement. -/
theorem Executed.stored {done : List (Statement × Except PyErr Answer)} (hs : Executed order text done s) :
    ∃ w contents forests, s.StoredAt w contents forests ∧ (∀ f, s.pool.dirty f = false) ∧
      ShownDatabase.Performed text done (shown s.catalog.tables contents) := by
  induction hs with
  | start hdisk hempty =>
      refine ⟨_, _, _, stored_start order hdisk hempty, clean_reload order _ none, ?_⟩
      rw [reload_none]
      exact .nil
  | command statement _ hshows hconsidered hend ih =>
      obtain ⟨w, contents, forests, h, hclean, hperformed⟩ := ih
      obtain rfl := h.shows_iff.mp hshows
      have hexecutes := h.executes hperformed.unlimited hconsidered fun hadds =>
        (hend hadds).imp_left returns_of_command
      obtain ⟨w', contents', forests', h', hclean', hperforms⟩ := hexecutes.command hclean
      exact ⟨w', contents', forests', h', hclean', hperformed.statement hperforms⟩
  | restart flushed _ ih =>
      obtain ⟨w, contents, forests, h, hclean, hperformed⟩ := ih
      obtain ⟨-, hstored, htables⟩ := h.restart_clean hclean order flushed
      exact ⟨w, contents, reopened forests, hstored, clean_reload order _ _, htables.symm ▸ hperformed⟩

/-! ### A table made at the prompt -/

/-- A statement that is always considered, and adds neither rows nor an index. -/
theorem Executed.answer {done : List (Statement × Except PyErr Answer)} (hs : Executed order text done s)
    (statement : Statement) (hconsidered : ∀ db : ShownDatabase, db.Considers statement) (hadds : ¬ statement.Adds) :
    Executed order text (done ++ [(statement, (s.command order text statement).1)])
      (s.command order text statement).2 := by
  obtain ⟨w, contents, forests, h, -⟩ := hs.stored
  exact hs.command statement (h.shows_iff.mpr rfl) (hconsidered _) fun hyes => absurd hyes hadds

/-- `CREATE TABLE t (k INT)`. -/
def createNotes : Statement := .createTable "t" [("k", "INT")]

/-- The first process. -/
def prompted : CatalogSession := (reload .increasing Disk.empty none).2

/-- The process that was started after the first one was killed. -/
def promptedAgain : CatalogSession :=
  ((prompted.command .increasing standardText createNotes).2.step .increasing (.restart false)).2

theorem executed_prompted : Executed .increasing standardText
    [(createNotes, (prompted.command .increasing standardText createNotes).1)] promptedAgain := by
  have hstart : Executed .increasing standardText [] prompted :=
    .start Disk.whole_empty fun f => by simp [Disk.numPages, Disk.content, Disk.empty]
  exact (hstart.answer createNotes (fun _ => trivial) id).restart false

/-! ### What a run does -/

variable {done : List (Statement × Except PyErr Answer)} {db : ShownDatabase}

end CatalogSession

end DBEngine
