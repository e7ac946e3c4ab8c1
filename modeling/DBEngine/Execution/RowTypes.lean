import DBEngine.Catalog.RowCodec
import DBEngine.Catalog.TableRows
import DBEngine.Execution.Denotation
import DBEngine.Execution.JoinSchemas
import DBEngine.Execution.ScanRows
import DBEngine.Execution.SelectedRows

/-!
# The types of rows

The rows of an operator against its output schema: scans, filters and joins give
every field the type of its column.  A projection looks up the type of a column
by the last part of its name, but its values by the whole name; its rows fit
exactly where the two find the same type.
-/

set_option autoImplicit false

namespace DBEngine

/-! ## Rows that fit -/

/-- A row has a value of the right type for every column. -/
def Schema.Fits (schema : Schema) (row : List Value) : Prop :=
  List.Forall₂ (fun column value => Value.hasType value column.type = true) schema.columns row

theorem Value.hasType_unique {value : Value} {t u : DataType} (ht : value.hasType t = true)
    (hu : value.hasType u = true) : t = u := by
  cases value <;> cases t <;> cases u <;> first | rfl | simp [hasType] at ht hu

namespace Schema

/-- Whether a row fits is a matter of the types of the columns. -/
theorem fits_iff_types {schema : Schema} {row : List Value} : schema.Fits row ↔
    List.Forall₂ (fun type value => Value.hasType value type = true) (schema.columns.map Column.type)
      row := by
  rw [Fits, List.forall₂_map_left_iff]

/-- The type of the column that a name counts for. -/
def typeOf (schema : Schema) (name : String) : Option DataType :=
  match schema.columnNames.get? name with
  | some i => schema.columns[i]?.map Column.type
  | none => none

/-- Rows one behind the other fit the columns one behind the other. -/
theorem Fits.append {left right : Schema} {l r : List Value} (hl : left.Fits l) (hr : right.Fits r) :
    Fits ⟨left.columns ++ right.columns⟩ (l ++ r) :=
  List.rel_append hl hr

/-- The value under a name has the type under the name. -/
theorem Fits.hasType_lookup {schema : Schema} {row : List Value} (h : schema.Fits row) {name : String}
    {value : Value} (hvalue : Expr.lookup schema row name = some value) :
    ∃ type, schema.typeOf name = some type ∧ value.hasType type = true := by
  unfold Expr.lookup at hvalue
  unfold typeOf
  cases hname : schema.columnNames.get? name with
  | none => simp [hname] at hvalue
  | some i =>
      rw [hname] at hvalue
      obtain ⟨column, hcolumn, -⟩ := getElem?_of_columnNames hname
      refine ⟨column.type, by simp [hcolumn], ?_⟩
      obtain ⟨hi, rfl⟩ := List.getElem?_eq_some_iff.mp hcolumn
      obtain ⟨hi', rfl⟩ := List.getElem?_eq_some_iff.mp hvalue
      exact List.Forall₂.get h hi hi'

end Schema

namespace Table

variable {τ : Type}

/-- Every stored row that can be read fits the schema of the table. -/
def RowsMatch (table : Table τ) : Prop :=
  ∀ item ∈ table.heapFile, ∀ record, table.schema.deserialize item.2 item.1 = .ok record →
    table.schema.Fits record.values

theorem fits_scanSchema {table : Table τ} {row : List Value} :
    table.scanSchema.Fits row ↔ table.schema.Fits row := by
  rw [Schema.Fits, scanSchema, List.forall₂_map_left_iff]
  rfl

theorem RowsMatch.scan {table : Table τ} (h : table.RowsMatch) {record : Record}
    (hrecord : record ∈ table.scan.items) : table.scanSchema.Fits record.values := by
  obtain ⟨item, hitem, hrecord⟩ := Generator.mem_items_forEach hrecord
  rw [Generator.items_ofList] at hitem
  obtain ⟨read, hread, hrecord⟩ := Generator.mem_items_after hrecord
  obtain rfl : record = read := by simpa using hrecord
  exact fits_scanSchema.mpr (h item hitem record hread)

theorem RowsMatch.get {table : Table τ} (h : table.RowsMatch) {rid : Rid} {record : Record}
    (hrecord : table.get rid = .ok record) : table.scanSchema.Fits record.values := by
  rw [fits_scanSchema]
  unfold Table.get getTuple at hrecord
  cases hraw : Dict.get? table.heapFile rid with
  | some raw =>
      rw [hraw] at hrecord
      exact h (rid, raw) (Dict.mem_of_get? hraw) record hrecord
  | none =>
      simp only [hraw] at hrecord
      split at hrecord
      · rename_i hempty
        obtain rfl := Except.ok.inj hrecord
        rw [Schema.Fits, List.isEmpty_iff.mp hempty]
        exact .nil
      · simp at hrecord

end Table

/-! ## Scans, filters and joins -/

/-- Every row that an operator yields fits its output schema. -/
def Operator.RowsFit {τ : Type} [IndexTree τ] (operator : Operator τ) : Prop :=
  ∀ row ∈ operator.next.items, operator.outputSchema.Fits row

theorem Record.mem_emit {predicate : Option (Expr Nat)} {record : Record} {row : List Value}
    (h : row ∈ (record.emit predicate false).items) : row = record.values := by
  obtain ⟨accepted, -, h⟩ := Generator.mem_items_after h
  split at h
  · simpa [Record.item] using h
  · simp at h

namespace HashTable

/-- The rows in a hash table. -/
def rows (table : HashTable) : List (List Value) := table.flatMap Prod.snd

theorem mem_rows_add {table : HashTable} {key : Value} {record row : List Value}
    (h : row ∈ rows (table.add key record)) : row ∈ rows table ∨ row = record := by
  induction table with
  | nil => exact .inr (by simpa [rows, add] using h)
  | cons item table ih =>
      rw [add] at h
      split at h
      · simp only [rows, List.flatMap_cons, List.mem_append, List.mem_singleton] at h ⊢
        tauto
      · simp only [rows, List.flatMap_cons, List.mem_append] at h ih ⊢
        rcases h with h | h
        · exact .inl (.inl h)
        · exact (ih h).imp_left .inr

theorem mem_rows_of_get? {table : HashTable} {key : Value} {found : List (List Value)}
    (h : table.get? key = some found) {row : List Value} (hrow : row ∈ found) : row ∈ rows table := by
  obtain ⟨item, hitem, rfl⟩ := Option.map_eq_some_iff.mp h
  exact List.mem_flatMap.mpr ⟨item, List.mem_of_find?_eq_some hitem, hrow⟩

end HashTable

namespace Operator

variable {τ : Type} [IndexTree τ]

/-- The hash table holds rows of the left input. -/
theorem mem_rows_buildHashTable {i : Nat} {g : Generator PyErr (List Value)} {row : List Value} :
    ∀ {table built : HashTable}, buildHashTable i g table = .ok built → row ∈ built.rows →
      row ∈ table.rows ∨ row ∈ g.items := by
  induction g with
  | done =>
      intro table built h hrow
      obtain rfl := Except.ok.inj h
      exact .inl hrow
  | raised e =>
      intro table built h
      simp [buildHashTable] at h
  | yield record rest ih =>
      intro table built h hrow
      obtain ⟨key, -, h⟩ := bind_eq_ok.mp h
      rw [Generator.items_yield, List.mem_cons]
      rcases ih h hrow with hrow | hrow
      · exact (HashTable.mem_rows_add hrow).imp_right .inl
      · exact .inr (.inr hrow)

theorem rowsFit_seqScan {table : Table τ} (h : table.RowsMatch) (predicate : Option (Expr Nat)) :
    (seqScan table table.scanSchema predicate false).RowsFit := by
  intro row hrow
  obtain ⟨record, hrecord, hrow⟩ := Generator.mem_items_forEach hrow
  rw [Record.mem_emit hrow]
  exact h.scan hrecord

theorem rowsFit_indexScan {table : Table τ} (h : table.RowsMatch) (tree : τ) (lookup : Lookup)
    (predicate : Option (Expr Nat)) :
    (indexScan table tree lookup table.scanSchema predicate false).RowsFit := by
  intro row hrow
  obtain ⟨rids, -, hrow⟩ := Generator.mem_items_after hrow
  obtain ⟨rid, -, hrow⟩ := Generator.mem_items_forEach hrow
  obtain ⟨record, hrecord, hrow⟩ := Generator.mem_items_after hrow
  rw [Record.mem_emit hrow]
  exact h.get hrecord

theorem RowsFit.filter {child : Operator τ} (h : child.RowsFit) (predicate : Expr Nat) :
    (filter child predicate).RowsFit := by
  intro row hrow
  obtain ⟨values, hvalues, hrow⟩ := Generator.mem_items_forEach hrow
  obtain ⟨accepted, -, hrow⟩ := Generator.mem_items_after hrow
  split at hrow
  · obtain rfl : row = values := by simpa using hrow
    exact h row hvalues
  · simp at hrow

theorem RowsFit.indexJoin {left : Operator τ} (hleft : left.RowsFit) {right : Table τ}
    (hright : right.RowsMatch) (index : τ) (leftIndex : Nat) :
    (indexJoin index left leftIndex right left.outputSchema right.scanSchema).RowsFit := by
  intro row hrow
  obtain ⟨values, hvalues, hrow⟩ := Generator.mem_items_forEach hrow
  obtain ⟨key, -, hrow⟩ := Generator.mem_items_after hrow
  obtain ⟨rids, -, hrow⟩ := Generator.mem_items_after hrow
  obtain ⟨rid, -, hrow⟩ := Generator.mem_items_forEach hrow
  obtain ⟨record, hrecord, hrow⟩ := Generator.mem_items_after hrow
  obtain rfl : row = values ++ record.values := by simpa using hrow
  exact (hleft values hvalues).append (hright.get hrecord)

theorem RowsFit.hashJoin {left right : Operator τ} (hleft : left.RowsFit) (hright : right.RowsFit)
    {i : Nat} {built : HashTable} (hbuilt : buildHashTable i left.next [] = .ok built) (j : Nat) :
    (hashJoin built right j left.outputSchema right.outputSchema).RowsFit := by
  intro row hrow
  obtain ⟨record, hrecord, hrow⟩ := Generator.mem_items_forEach hrow
  obtain ⟨key, -, hrow⟩ := Generator.mem_items_after hrow
  split at hrow
  · simp at hrow
  · rename_i lefts hlefts
    rw [Generator.items_ofList, List.mem_map] at hrow
    obtain ⟨values, hvalues, rfl⟩ := hrow
    rcases mem_rows_buildHashTable hbuilt (HashTable.mem_rows_of_get? hlefts hvalues) with hmem | hmem
    · simp [HashTable.rows] at hmem
    · exact (hleft values hmem).append (hright record hrecord)

/-! ## Projections -/

/-- The type that a projection gives the column of an expression. -/
def declaredType (schema : Schema) (e : Expr String) : DataType :=
  match sourceColumn schema e with
  | some column => column.type
  | none => .varchar

theorem fits_buildOutputSchema {schema : Schema} {projections : List (Expr String × String)}
    {row : List Value} : (buildOutputSchema schema projections).Fits row ↔
      List.Forall₂ (fun item value => Value.hasType value (declaredType schema item.1) = true)
        projections row := by
  have htypes : (buildOutputSchema schema projections).columns.map Column.type =
      projections.map fun item => declaredType schema item.1 := by
    rw [buildOutputSchema, List.map_map]
    refine List.map_congr_left fun item _ => ?_
    rw [declaredType, Function.comp_apply]
    cases sourceColumn schema item.1 <;> rfl
  rw [Schema.fits_iff_types, htypes, List.forall₂_map_left_iff]

theorem declaredType_of_not_columnRef {schema : Schema} {e : Expr String}
    (h : ∀ name, e = .columnRef name → False) : declaredType schema e = .varchar := by
  cases e with
  | columnRef name => exact (h name rfl).elim
  | _ => rfl

/-- The rows of its child that a projection gets to: all before the first on which its
list raises. -/
def reached (child : Operator τ) (projections : List (Expr String × String)) : List (List Value) :=
  child.next.items.takeWhile fun row =>
    projections.all fun item => item.1.definedOn child.outputSchema row

/-- The expression of a select list that keeps the declared type: a column whose bare
name stands for a column of the same type, anything else if it gives texts. -/
def ItemFits (schema : Schema) (rows : List (List Value)) : Expr String → Prop
  | .columnRef name => schema.typeOf name = some (declaredType schema (.columnRef name))
  | e => ∀ row ∈ rows, ∀ value, e.valueIn schema row = some value → value.hasType .varchar = true

/-- A projection that gets to no row, or whose expressions all keep their types. -/
def ProjectionFits (child : Operator τ) (projections : List (Expr String × String)) : Prop :=
  child.reached projections = [] ∨
    ∀ item ∈ projections, ItemFits child.outputSchema (child.reached projections) item.1

theorem valueIn_of_bind {schema : Schema} {e : Expr String} {bound : Expr Nat}
    (h : e.bind schema = .ok bound) (row : List Value) :
    e.valueIn schema row = (bound.evaluate row).toOption := by
  rw [Expr.valueIn_eq, h]
  rfl

/-- The values of a bound select list are those of its expressions. -/
theorem mapM_evaluate_eq_ok {schema : Schema} {values : List Value}
    {projections : List (Expr String × String)} {expressions : List (Expr Nat)}
    (hbind : projections.mapM (fun item => item.1.bind schema) = .ok expressions) {row : List Value} :
    expressions.mapM (Expr.evaluate values) = .ok row ↔
      List.Forall₂ (fun item value => item.1.valueIn schema values = some value) projections row := by
  rw [mapM_eq_ok]
  replace hbind := mapM_eq_ok.mp hbind
  induction hbind generalizing row with
  | nil => rw [List.forall₂_nil_left_iff, List.forall₂_nil_left_iff]
  | @cons item e projections expressions he _ ih =>
      cases row with
      | nil => simp
      | cons value row =>
          rw [List.forall₂_cons, List.forall₂_cons, valueIn_of_bind he]
          refine and_congr ?_ ih
          cases e.evaluate values <;> simp [Except.toOption]

/-- A select list has values on a row where all of its expressions evaluate. -/
theorem isSome_mapM_evaluate {schema : Schema} {values : List Value}
    {projections : List (Expr String × String)} {expressions : List (Expr Nat)}
    (hbind : projections.mapM (fun item => item.1.bind schema) = .ok expressions) :
    (expressions.mapM (Expr.evaluate values)).toOption.isSome =
      projections.all fun item => item.1.definedOn schema values := by
  have hiff : (∃ row, expressions.mapM (Expr.evaluate values) = .ok row) ↔
      ∀ item ∈ projections, item.1.definedOn schema values = true := by
    simp only [mapM_evaluate_eq_ok hbind, exists_forall₂, Expr.definedOn, Option.isSome_iff_exists]
  rw [Bool.eq_iff_iff, List.all_eq_true, ← hiff]
  cases expressions.mapM (Expr.evaluate values) <;> simp [Except.toOption]

/-- A projection yields the values of its list on the rows that it gets to. -/
theorem mem_items_projection {child : Operator τ} {projections : List (Expr String × String)}
    {expressions : List (Expr Nat)} {schema : Schema}
    (hbind : projections.mapM (fun item => item.1.bind child.outputSchema) = .ok expressions)
    {row : List Value} : row ∈ (projection child expressions schema).next.items ↔
      ∃ values ∈ child.reached projections,
        List.Forall₂ (fun item value => item.1.valueIn child.outputSchema values = some value)
          projections row := by
  have hitems := Generator.items_forEach_yield child.next fun values =>
    expressions.mapM (Expr.evaluate values)
  have hreached : (child.reached projections) = child.next.items.takeWhile fun values =>
      (expressions.mapM (Expr.evaluate values)).toOption.isSome := by
    rw [reached]
    congr 1
    funext values
    exact (isSome_mapM_evaluate hbind).symm
  rw [List.takeWhile_map, Function.comp_def, ← hreached] at hitems
  have hmem : row ∈ (projection child expressions schema).next.items ↔
      Except.ok row ∈ (child.reached projections).map fun values =>
        expressions.mapM (Expr.evaluate values) := by
    rw [← hitems, List.mem_map_of_injective fun _ _ => Except.ok.inj]
    rfl
  rw [hmem, List.mem_map]
  exact exists_congr fun values => and_congr_right fun _ => mapM_evaluate_eq_ok hbind

/-- The rows that a projection gets to have values for all of its expressions. -/
theorem mem_reached {child : Operator τ} {projections : List (Expr String × String)}
    {values : List Value} (h : values ∈ child.reached projections) : values ∈ child.next.items ∧
      ∀ item ∈ projections, ∃ value, item.1.valueIn child.outputSchema values = some value := by
  refine ⟨(List.takeWhile_prefix _).subset h, fun item hitem => ?_⟩
  have hdefined := List.mem_takeWhile_imp h
  exact Option.isSome_iff_exists.mp (List.all_eq_true.mp hdefined item hitem)

/-- The rows of a projection fit when every value on a row that it gets to has the
declared type. -/
theorem rowsFit_projection_iff_values {child : Operator τ} {projections : List (Expr String × String)}
    {expressions : List (Expr Nat)}
    (hbind : projections.mapM (fun item => item.1.bind child.outputSchema) = .ok expressions) :
    (projection child expressions (buildOutputSchema child.outputSchema projections)).RowsFit ↔
      ∀ values ∈ child.reached projections, ∀ item ∈ projections, ∀ value,
        item.1.valueIn child.outputSchema values = some value →
          value.hasType (declaredType child.outputSchema item.1) = true := by
  have hrow : ∀ {values row : List Value},
      List.Forall₂ (fun item value => item.1.valueIn child.outputSchema values = some value)
        projections row → ((buildOutputSchema child.outputSchema projections).Fits row ↔
          ∀ item ∈ projections, ∀ value, item.1.valueIn child.outputSchema values = some value →
            value.hasType (declaredType child.outputSchema item.1) = true) := by
    intro values row hvalues
    rw [fits_buildOutputSchema]
    refine forall₂_iff hvalues fun item _ value hvalue => ⟨fun h value' hvalue' => ?_, fun h => h value hvalue⟩
    obtain rfl := Option.some.inj (hvalue.symm.trans hvalue')
    exact h
  constructor
  · intro hfits values hvalues
    obtain ⟨row, hforall⟩ := exists_forall₂.mpr (mem_reached hvalues).2
    exact (hrow hforall).mp (hfits row ((mem_items_projection hbind).mpr ⟨values, hvalues, hforall⟩))
  · intro h row hmem
    obtain ⟨values, hvalues, hforall⟩ := (mem_items_projection hbind).mp hmem
    exact (hrow hforall).mpr (h values hvalues)

/-- Over a child whose rows fit, the rows of a projection fit exactly when it gets to no
row or its expressions keep their types. -/
theorem rowsFit_projection_iff {child : Operator τ} (hchild : child.RowsFit)
    {projections : List (Expr String × String)} {expressions : List (Expr Nat)}
    (hbind : projections.mapM (fun item => item.1.bind child.outputSchema) = .ok expressions) :
    (projection child expressions (buildOutputSchema child.outputSchema projections)).RowsFit ↔
      child.ProjectionFits projections := by
  rw [rowsFit_projection_iff_values hbind, ProjectionFits, or_iff_not_imp_left]
  constructor
  · intro hvalues hreached item hitem
    obtain ⟨values, hmem⟩ := List.exists_mem_of_ne_nil _ hreached
    obtain ⟨hnext, hdefined⟩ := mem_reached hmem
    obtain ⟨value, hvalue⟩ := hdefined item hitem
    have hdeclared := hvalues values hmem item hitem value hvalue
    unfold ItemFits
    split
    · rename_i name hname
      rw [hname] at hvalue hdeclared
      obtain ⟨type, htype, hhas⟩ := (hchild values hnext).hasType_lookup hvalue
      rw [htype, Value.hasType_unique hhas hdeclared]
    · rename_i hother
      intro row hrow value' hvalue'
      have hvarchar := hvalues row hrow item hitem value' hvalue'
      rwa [declaredType_of_not_columnRef hother] at hvarchar
  · intro hitems values hmem item hitem value hvalue
    have hfits := hitems (List.ne_nil_of_mem hmem) item hitem
    unfold ItemFits at hfits
    split at hfits
    · rename_i name hname
      rw [hname] at hvalue ⊢
      obtain ⟨type, htype, hhas⟩ := (hchild values (mem_reached hmem).1).hasType_lookup hvalue
      obtain rfl := Option.some.inj (htype.symm.trans hfits)
      exact hhas
    · rename_i hother
      rw [declaredType_of_not_columnRef hother]
      exact hfits values hmem value hvalue

end Operator

/-! ## Planned trees -/

namespace LogicalNode

/-- No scan of a tree yields record ids. -/
def ValueMode : LogicalNode → Prop
  | scan node => node.yieldRid = false
  | filter child _ => child.ValueMode
  | projection child _ => child.ValueMode
  | join left right _ => left.ValueMode ∧ right.ValueMode

end LogicalNode

namespace PhysicalPlanner

variable {τ : Type} [IndexTree τ]

/-- Every row that the operator planned for a node yields fits its output schema. -/
def PlannedFits (catalog : Catalog τ) (node : LogicalNode) : Prop :=
  ∀ operator, plan catalog node = .ok operator → operator.RowsFit

/-- The same of a node and of all nodes below it. -/
def EveryRowFits (catalog : Catalog τ) : LogicalNode → Prop
  | .scan node => PlannedFits catalog (.scan node)
  | .filter child predicate =>
      PlannedFits catalog (.filter child predicate) ∧ EveryRowFits catalog child
  | .projection child projections =>
      PlannedFits catalog (.projection child projections) ∧ EveryRowFits catalog child
  | .join left right condition => PlannedFits catalog (.join left right condition) ∧
      EveryRowFits catalog left ∧ EveryRowFits catalog right

/-- Every projection of a tree that can be planned gets to no row, or keeps the types. -/
def ProjectionsFit (catalog : Catalog τ) : LogicalNode → Prop
  | .scan _ => True
  | .filter child _ => ProjectionsFit catalog child
  | .projection child projections => ProjectionsFit catalog child ∧
      ∀ operator, plan catalog child = .ok operator →
        (∀ item ∈ projections, item.1.binds operator.outputSchema = true) →
          operator.ProjectionFits projections
  | .join left right _ => ProjectionsFit catalog left ∧ ProjectionsFit catalog right

theorem EveryRowFits.plannedFits {catalog : Catalog τ} {node : LogicalNode}
    (h : EveryRowFits catalog node) : PlannedFits catalog node := by
  cases node with
  | scan node => exact h
  | filter child predicate => exact h.1
  | projection child projections => exact h.1
  | join left right condition => exact h.1

/-- The stored rows of all tables match their schemas. -/
def TablesMatch (catalog : Catalog τ) : Prop :=
  ∀ name table, catalog.tables.get? name = some table → table.RowsMatch

section Nodes

variable {catalog : Catalog τ}

theorem plannedFits_scan (hmatch : TablesMatch catalog) {node : LogicalScan}
    (hvalues : node.yieldRid = false) : PlannedFits catalog (.scan node) := by
  intro operator h
  obtain ⟨table, htable, h⟩ := bind_eq_ok.mp h
  obtain ⟨found, -, h⟩ := bind_eq_ok.mp h
  have hrows := hmatch _ _ (get?_of_tableAt htable)
  cases found with
  | none =>
      obtain ⟨predicate, -, h⟩ := bind_eq_ok.mp h
      obtain rfl := Except.ok.inj h
      rw [hvalues]
      exact Operator.rowsFit_seqScan hrows predicate
  | some found =>
      obtain ⟨tree, ⟨start, stop⟩, residual⟩ := found
      obtain ⟨predicate, -, h⟩ := bind_eq_ok.mp h
      obtain rfl := Except.ok.inj h
      rw [hvalues]
      exact Operator.rowsFit_indexScan hrows tree _ predicate

theorem plannedFits_filter {child : LogicalNode} (hchild : PlannedFits catalog child)
    (predicate : Expr String) : PlannedFits catalog (.filter child predicate) := by
  intro operator h
  obtain ⟨below, hbelow, h⟩ := bind_eq_ok.mp h
  obtain ⟨bound, -, h⟩ := bind_eq_ok.mp h
  obtain rfl := Except.ok.inj h
  exact (hchild below hbelow).filter bound

omit [IndexTree τ] in
theorem exists_get?_of_tableOf {node : LogicalNode} {table : Table τ}
    (h : tableOf catalog node = .ok table) : ∃ name, catalog.tables.get? name = some table := by
  induction node with
  | scan node => exact ⟨node.tableName, get?_of_getTable h⟩
  | filter child predicate ih => exact ih h
  | projection child projections ih => exact ih h
  | join left right condition ih => exact ih h

theorem plannedFits_join (hmatch : TablesMatch catalog) {left right : LogicalNode}
    (hleft : PlannedFits catalog left) (hright : PlannedFits catalog right) (condition : Expr String) :
    PlannedFits catalog (.join left right condition) := by
  intro operator h
  obtain ⟨l, hl, h⟩ := bind_eq_ok.mp h
  obtain ⟨r, hr, h⟩ := bind_eq_ok.mp h
  obtain ⟨⟨leftKey, rightKey⟩, -, h⟩ := bind_eq_ok.mp h
  obtain ⟨leftTable, hleftTable, h⟩ := bind_eq_ok.mp h
  obtain ⟨rightTable, hrightTable, h⟩ := bind_eq_ok.mp h
  obtain ⟨leftName, hleftTable⟩ := exists_get?_of_tableOf hleftTable
  obtain ⟨rightName, hrightTable⟩ := exists_get?_of_tableOf hrightTable
  rcases joinOperators_eq_ok h with ⟨index, -, hopen⟩ | ⟨-, index, -, hopen⟩ | ⟨-, -, hopen⟩
  · obtain ⟨i, j, -, -, rfl⟩ := openIndexJoin_eq_ok hopen
    exact (hleft l hl).indexJoin (hmatch _ _ hrightTable) index.tree i
  · obtain ⟨i, j, -, -, rfl⟩ := openIndexJoin_eq_ok hopen
    exact (hright r hr).indexJoin (hmatch _ _ hleftTable) index.tree i
  · obtain ⟨i, j, hashTable, -, hbuilt, -, rfl⟩ := openHashJoin_eq_ok hopen
    exact (hleft l hl).hashJoin (hright r hr) hbuilt j

theorem plannedFits_projection_iff {child : LogicalNode} (hchild : PlannedFits catalog child)
    (projections : List (Expr String × String)) :
    PlannedFits catalog (.projection child projections) ↔
      ∀ operator, plan catalog child = .ok operator →
        (∀ item ∈ projections, item.1.binds operator.outputSchema = true) →
          operator.ProjectionFits projections := by
  have hbinds : ∀ schema : Schema, (∀ item ∈ projections, item.1.binds schema = true) ↔
      ∃ expressions, projections.mapM (fun item => item.1.bind schema) = .ok expressions := by
    intro schema
    rw [exists_mapM_eq_ok]
    refine forall_congr' fun item => forall_congr' fun _ => ?_
    rw [Expr.binds]
    cases item.1.bind schema <;> simp
  constructor
  · intro h operator hplan hall
    obtain ⟨expressions, hbind⟩ := (hbinds _).mp hall
    refine (Operator.rowsFit_projection_iff (hchild operator hplan) hbind).mp (h _ ?_)
    exact bind_eq_ok.mpr ⟨operator, hplan, bind_eq_ok.mpr ⟨expressions, hbind, rfl⟩⟩
  · intro h operator hplan
    obtain ⟨below, hbelow, hplan⟩ := bind_eq_ok.mp hplan
    obtain ⟨expressions, hbind, hplan⟩ := bind_eq_ok.mp hplan
    obtain rfl := Except.ok.inj hplan
    exact (Operator.rowsFit_projection_iff (hchild below hbelow) hbind).mpr
      (h below hbelow ((hbinds _).mpr ⟨expressions, hbind⟩))

end Nodes

/-- Over tables whose stored rows match their schemas, every row of every operator in a
planned tree fits its output schema exactly if every projection in the tree gets to no
row or keeps the types: a column whose bare name stands for a column of the same
type, any other expression with texts for values. -/
theorem everyRowFits_iff (catalog : Catalog τ) (hmatch : TablesMatch catalog) (node : LogicalNode)
    (hvalues : node.ValueMode) : EveryRowFits catalog node ↔ ProjectionsFit catalog node := by
  induction node with
  | scan node => exact iff_true_intro (plannedFits_scan hmatch hvalues)
  | filter child predicate ih =>
      rw [EveryRowFits, ProjectionsFit, ← ih hvalues]
      exact and_iff_right_of_imp fun hchild => plannedFits_filter hchild.plannedFits predicate
  | projection child projections ih =>
      rw [EveryRowFits, ProjectionsFit, ← ih hvalues, and_comm]
      exact and_congr_right fun hchild => plannedFits_projection_iff hchild.plannedFits projections
  | join left right condition ihl ihr =>
      rw [EveryRowFits, ProjectionsFit, ← ihl hvalues.1, ← ihr hvalues.2]
      exact and_iff_right_of_imp fun hboth =>
        plannedFits_join hmatch hboth.1.plannedFits hboth.2.plannedFits condition

/-! ## A column that becomes a text -/

/-- `SELECT t.k FROM t` -/
def selectSix : LogicalNode :=
  .projection (.scan { tableName := "t" }) [(.columnRef "t.k", "t.k")]

theorem sixCatalog_matches : TablesMatch sixCatalog := by
  intro name table htable item hitem record hrecord
  obtain ⟨rfl, rfl⟩ : name = "t" ∧ table = sixTable := by
    by_cases hname : "t" = name
    · subst hname
      exact ⟨rfl, (Option.some.inj htable).symm⟩
    · simp [sixCatalog, Dict.get?, hname] at htable
  obtain rfl : item = ((1, 0), [6, 0, 0, 0]) := by simpa [sixTable] using hitem
  have hread : sixTable.schema.deserialize [6, 0, 0, 0] (1, 0) = .ok ⟨[.int 6], (1, 0)⟩ := rfl
  obtain rfl := Except.ok.inj (hread.symm.trans hrecord)
  exact .cons rfl .nil

theorem everyRowFits_iff_six :
    EveryRowFits sixCatalog selectSix ↔ ProjectionsFit sixCatalog selectSix :=
  everyRowFits_iff sixCatalog sixCatalog_matches selectSix rfl

/-- The row has the integer 6, the column that shows it has the type of texts, and the
column that it was read from has the type of integers. -/
theorem six_shown_as_text : ∃ operator, TablesMatch sixCatalog ∧ selectSix.ValueMode ∧
    plan sixCatalog selectSix = .ok operator ∧ operator.next.items = [[.int 6]] ∧
    operator.outputSchema = ⟨[⟨"t.k", .varchar, none⟩]⟩ ∧
    sixTable.scanSchema.typeOf "t.k" = some .int ∧ ¬ operator.RowsFit := by
  refine ⟨_, sixCatalog_matches, rfl, rfl, rfl, rfl, rfl, fun hfits => ?_⟩
  have hrow := hfits [.int 6] List.mem_cons_self
  exact absurd (List.forall₂_cons.mp hrow).1 (by decide)

end PhysicalPlanner

end DBEngine
