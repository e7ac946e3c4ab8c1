import DBEngine.Execution.PhysicalPlanner

/-!
# The columns of a multi-way join

What the planner makes of a left-deep tree of joins, column by column.  The
columns of every table are there exactly if no step from the second join on is
answered from an index of the first table: such a step reads the first table
and the new one, and forgets what was joined between them.
-/

set_option autoImplicit false

namespace DBEngine

namespace PhysicalPlanner

variable {τ : Type}

/-! ## What planning a scan and a join gives -/

/-- A planned scan reads its table and shows the columns of the table. -/
theorem planScan_outputSchema {catalog : Catalog τ} {node : LogicalScan} {operator : Operator τ}
    (h : planScan catalog node = .ok operator) : ∃ table,
      catalog.tableAt node.tableName = .ok table ∧ operator.outputSchema = table.scanSchema := by
  obtain ⟨table, htable, h⟩ := bind_eq_ok.mp h
  obtain ⟨found, -, h⟩ := bind_eq_ok.mp h
  refine ⟨table, htable, ?_⟩
  cases found with
  | none =>
      obtain ⟨predicate, -, h⟩ := bind_eq_ok.mp h
      obtain rfl := Except.ok.inj h
      rfl
  | some found =>
      obtain ⟨tree, ⟨start, stop⟩, residual⟩ := found
      obtain ⟨predicate, -, h⟩ := bind_eq_ok.mp h
      obtain rfl := Except.ok.inj h
      rfl

theorem openIndexJoin_eq_ok {index : τ} {left : Operator τ} {leftKey : String} {right : Table τ}
    {rightKey : String} {operator : Operator τ}
    (h : Operator.openIndexJoin index left leftKey right rightKey = .ok operator) :
    ∃ i j, left.outputSchema.getIndex leftKey = .ok i ∧ right.scanSchema.getIndex rightKey = .ok j ∧
      operator = .indexJoin index left i right left.outputSchema right.scanSchema := by
  obtain ⟨i, hi, h⟩ := bind_eq_ok.mp h
  obtain ⟨j, hj, h⟩ := bind_eq_ok.mp h
  exact ⟨i, j, hi, hj, (Except.ok.inj h).symm⟩

theorem openHashJoin_eq_ok [IndexTree τ] {left : Operator τ} {leftKey : String} {right : Operator τ}
    {rightKey : String} {operator : Operator τ}
    (h : Operator.openHashJoin left leftKey right rightKey = .ok operator) :
    ∃ i j hashTable, left.outputSchema.getIndex leftKey = .ok i ∧
      Operator.buildHashTable i left.next [] = .ok hashTable ∧
      right.outputSchema.getIndex rightKey = .ok j ∧
      operator = .hashJoin hashTable right j left.outputSchema right.outputSchema := by
  obtain ⟨i, hi, h⟩ := bind_eq_ok.mp h
  obtain ⟨hashTable, hbuild, h⟩ := bind_eq_ok.mp h
  obtain ⟨j, hj, h⟩ := bind_eq_ok.mp h
  exact ⟨i, j, hashTable, hi, hbuild, hj, (Except.ok.inj h).symm⟩

/-- The three ways to plan a join: with the index of the right table under the
name of the right key, with that of the left table under the same name, or with
a hash table. -/
theorem joinOperators_eq_ok [IndexTree τ] {left right : Operator τ} {leftTable rightTable : Table τ}
    {leftKey rightKey : String} {operator : Operator τ}
    (h : joinOperators left right leftTable rightTable leftKey rightKey = .ok operator) :
    (∃ index, rightTable.indices.get? (lastPart rightKey) = some index ∧
      Operator.openIndexJoin index.tree left leftKey rightTable rightKey = .ok operator) ∨
    (rightTable.indices.get? (lastPart rightKey) = none ∧
      ∃ index, leftTable.indices.get? (lastPart rightKey) = some index ∧
        Operator.openIndexJoin index.tree right rightKey leftTable leftKey = .ok operator) ∨
    (rightTable.indices.get? (lastPart rightKey) = none ∧
      leftTable.indices.get? (lastPart rightKey) = none ∧
        Operator.openHashJoin left leftKey right rightKey = .ok operator) := by
  obtain ⟨tried, htried, h⟩ := bind_eq_ok.mp h
  cases hright : rightTable.indices.get? (lastPart rightKey) with
  | some index =>
      simp only [tryIndexJoin, hright] at htried
      obtain ⟨joined, hopen, htried⟩ := bind_eq_ok.mp htried
      obtain rfl := Except.ok.inj htried
      obtain rfl := Except.ok.inj h
      exact .inl ⟨index, rfl, hopen⟩
  | none =>
      simp only [tryIndexJoin, hright] at htried
      obtain rfl := Except.ok.inj htried
      obtain ⟨tried, htried, h⟩ := bind_eq_ok.mp h
      cases hleft : leftTable.indices.get? (lastPart rightKey) with
      | some index =>
          simp only [tryIndexJoin, hleft] at htried
          obtain ⟨joined, hopen, htried⟩ := bind_eq_ok.mp htried
          obtain rfl := Except.ok.inj htried
          obtain rfl := Except.ok.inj h
          exact .inr (.inl ⟨rfl, index, rfl, hopen⟩)
      | none =>
          simp only [tryIndexJoin, hleft] at htried
          obtain rfl := Except.ok.inj htried
          exact .inr (.inr ⟨rfl, rfl, h⟩)

/-! ## Left-deep trees -/

/-- One more table of a left-deep tree: its scan, and the two sides of the `ON`
condition. -/
structure JoinStep where
  scan : LogicalScan
  leftKey : String
  rightKey : String

/-- The condition of a step. -/
def JoinStep.condition (step : JoinStep) : Expr String :=
  .comparison (.columnRef step.leftKey) .eq (.columnRef step.rightKey)

/-- The tree that `_plan_select` builds from the tables of a `FROM` and its `JOIN`s. -/
def leftDeep (first : LogicalScan) (steps : List JoinStep) : LogicalNode :=
  steps.foldl (fun tree step => .join tree (.scan step.scan) step.condition) (.scan first)

theorem leftDeep_append (first : LogicalScan) (steps : List JoinStep) (step : JoinStep) :
    leftDeep first (steps ++ [step]) = .join (leftDeep first steps) (.scan step.scan) step.condition := by
  simp [leftDeep]

theorem tableOf_leftDeep (catalog : Catalog τ) (first : LogicalScan) (steps : List JoinStep) :
    tableOf catalog (leftDeep first steps) = catalog.getTable first.tableName := by
  induction steps using List.reverseRecOn with
  | nil => rfl
  | append_singleton steps step ih => rw [leftDeep_append, tableOf, ih]

/-- The columns of a table under their qualified names. -/
def columnsOf (catalog : Catalog τ) (name : String) : List Column :=
  match catalog.tables.get? name with
  | some table => table.scanSchema.columns
  | none => []

/-- The columns of all tables of a left-deep tree. -/
def allColumns (catalog : Catalog τ) (first : LogicalScan) (steps : List JoinStep) : List Column :=
  columnsOf catalog first.tableName ++ steps.flatMap fun step => columnsOf catalog step.scan.tableName

/-- A table has an index under the last part of a key. -/
def IndexedUnder (catalog : Catalog τ) (name key : String) : Prop :=
  ∃ table index, catalog.tables.get? name = some table ∧
    table.indices.get? (lastPart key) = some index

/-- A step that is answered from an index of the first table: the first table has an
index under the name of the right key and the new one has none. -/
def ProbesFirst (catalog : Catalog τ) (first : LogicalScan) (step : JoinStep) : Prop :=
  IndexedUnder catalog first.tableName step.rightKey ∧
    ¬ IndexedUnder catalog step.scan.tableName step.rightKey

theorem get?_of_tableAt {catalog : Catalog τ} {name : String} {table : Table τ}
    (h : catalog.tableAt name = .ok table) : catalog.tables.get? name = some table := by
  cases hget : catalog.tables.get? name with
  | none => simp [Catalog.tableAt, hget] at h
  | some found => simpa [Catalog.tableAt, hget] using h

theorem get?_of_getTable {catalog : Catalog τ} {name : String} {table : Table τ}
    (h : catalog.getTable name = .ok table) : catalog.tables.get? name = some table := by
  cases hget : catalog.tables.get? name with
  | none => simp [Catalog.getTable, hget] at h
  | some found => simpa [Catalog.getTable, hget] using h

theorem columnsOf_eq {catalog : Catalog τ} {name : String} {table : Table τ}
    (h : catalog.tables.get? name = some table) :
    columnsOf catalog name = table.scanSchema.columns := by
  rw [columnsOf, h]

theorem indexedUnder_iff {catalog : Catalog τ} {name key : String} {table : Table τ}
    (h : catalog.tables.get? name = some table) :
    IndexedUnder catalog name key ↔ ∃ index, table.indices.get? (lastPart key) = some index := by
  constructor
  · rintro ⟨found, index, hfound, hindex⟩
    obtain rfl := Option.some.inj (hfound.symm.trans h)
    exact ⟨index, hindex⟩
  · rintro ⟨index, hindex⟩
    exact ⟨table, index, h, hindex⟩

theorem columns_ne_nil {schema : Schema} {name : String} {i : Nat} (h : schema.getIndex name = .ok i) :
    schema.columns ≠ [] := by
  intro hnil
  simp [Schema.getIndex, Schema.columnNames, hnil, Dict.get?] at h

theorem getIndex_of_scan {catalog : Catalog τ} {node : LogicalScan} {operator : Operator τ}
    (hplan : planScan catalog node = .ok operator) {name : String} {i : Nat}
    (h : operator.outputSchema.getIndex name = .ok i) : columnsOf catalog node.tableName ≠ [] := by
  obtain ⟨table, htable, hschema⟩ := planScan_outputSchema hplan
  rw [columnsOf_eq (get?_of_tableAt htable), ← hschema]
  exact columns_ne_nil h

/-- What one more join makes of the columns. -/
theorem plan_step [IndexTree τ] {catalog : Catalog τ} {first : LogicalScan} {steps : List JoinStep}
    {step : JoinStep} {operator : Operator τ}
    (h : plan catalog (leftDeep first (steps ++ [step])) = .ok operator) :
    ∃ left, plan catalog (leftDeep first steps) = .ok left ∧
      columnsOf catalog step.scan.tableName ≠ [] ∧
      ((¬ ProbesFirst catalog first step ∧ operator.outputSchema.columns =
          left.outputSchema.columns ++ columnsOf catalog step.scan.tableName) ∨
        (ProbesFirst catalog first step ∧ operator.outputSchema.columns =
          columnsOf catalog step.scan.tableName ++ columnsOf catalog first.tableName)) := by
  rw [leftDeep_append, plan] at h
  obtain ⟨left, hleft, h⟩ := bind_eq_ok.mp h
  obtain ⟨right, hright, h⟩ := bind_eq_ok.mp h
  obtain ⟨keys, hkeys, h⟩ := bind_eq_ok.mp h
  obtain rfl := Except.ok.inj hkeys
  obtain ⟨leftTable, hleftTable, h⟩ := bind_eq_ok.mp h
  obtain ⟨rightTable, hrightTable, h⟩ := bind_eq_ok.mp h
  rw [tableOf_leftDeep] at hleftTable
  have hfirst := get?_of_getTable hleftTable
  have hnew := get?_of_getTable hrightTable
  have hscan : planScan catalog step.scan = .ok right := hright
  have hcolumns : right.outputSchema = rightTable.scanSchema := by
    obtain ⟨table, htable, hschema⟩ := planScan_outputSchema hscan
    obtain rfl := Option.some.inj ((get?_of_tableAt htable).symm.trans hnew)
    exact hschema
  have hprobes : ProbesFirst catalog first step ↔
      (∃ index, leftTable.indices.get? (lastPart step.rightKey) = some index) ∧
        rightTable.indices.get? (lastPart step.rightKey) = none := by
    rw [ProbesFirst, indexedUnder_iff hfirst, indexedUnder_iff hnew, not_exists,
      ← Option.eq_none_iff_forall_ne_some]
  refine ⟨left, hleft, ?_⟩
  rw [hprobes, columnsOf_eq hfirst, columnsOf_eq hnew]
  rcases joinOperators_eq_ok h with ⟨index, hindex, hopen⟩ | ⟨hnone, index, hindex, hopen⟩ |
    ⟨hnone, hnone', hopen⟩
  · obtain ⟨i, j, -, hj, rfl⟩ := openIndexJoin_eq_ok hopen
    exact ⟨columns_ne_nil hj, .inl ⟨fun hprobe => by simp [hindex] at hprobe, rfl⟩⟩
  · obtain ⟨i, j, hi, -, rfl⟩ := openIndexJoin_eq_ok hopen
    rw [hcolumns] at hi
    refine ⟨columns_ne_nil hi, .inr ⟨⟨⟨index, hindex⟩, hnone⟩, ?_⟩⟩
    simp only [Operator.outputSchema, hcolumns]
  · obtain ⟨i, j, hashTable, -, -, hj, rfl⟩ := openHashJoin_eq_ok hopen
    rw [hcolumns] at hj
    refine ⟨columns_ne_nil hj, .inl ⟨fun hprobe => by simp [hnone'] at hprobe, ?_⟩⟩
    simp only [Operator.outputSchema, hcolumns]

/-- Every table joined has a column. -/
theorem columnsOf_ne_nil [IndexTree τ] {catalog : Catalog τ} {first : LogicalScan}
    {steps : List JoinStep} : ∀ {operator : Operator τ},
    plan catalog (leftDeep first steps) = .ok operator →
      ∀ step ∈ steps, columnsOf catalog step.scan.tableName ≠ [] := by
  induction steps using List.reverseRecOn with
  | nil =>
      intro _ _ step hstep
      simp at hstep
  | append_singleton steps last ih =>
      intro operator h step hstep
      obtain ⟨left, hleft, hnew, -⟩ := plan_step h
      rcases List.mem_append.mp hstep with hstep | hstep
      · exact ih hleft step hstep
      · rw [List.mem_singleton.mp hstep]
        exact hnew

theorem plan_first [IndexTree τ] {catalog : Catalog τ} {first : LogicalScan} {operator : Operator τ}
    (h : plan catalog (leftDeep first []) = .ok operator) :
    operator.outputSchema.columns = allColumns catalog first [] := by
  have hscan : planScan catalog first = .ok operator := h
  obtain ⟨table, htable, hschema⟩ := planScan_outputSchema hscan
  rw [hschema, allColumns, columnsOf_eq (get?_of_tableAt htable)]
  simp

theorem allColumns_append (catalog : Catalog τ) (first : LogicalScan) (steps : List JoinStep)
    (step : JoinStep) : allColumns catalog first (steps ++ [step]) =
      allColumns catalog first steps ++ columnsOf catalog step.scan.tableName := by
  simp [allColumns]

/-- From the second join on, no step is answered from an index of the first table. -/
def KeepsTables (catalog : Catalog τ) (first : LogicalScan) (steps : List JoinStep) : Prop :=
  ∀ step ∈ steps.tail, ¬ ProbesFirst catalog first step

/-- With such steps all columns are there; else some are missing. -/
theorem columns_of_plan [IndexTree τ] {catalog : Catalog τ} {first : LogicalScan}
    {steps : List JoinStep} : ∀ {operator : Operator τ},
    plan catalog (leftDeep first steps) = .ok operator →
    (KeepsTables catalog first steps →
      operator.outputSchema.columns.Perm (allColumns catalog first steps)) ∧
    operator.outputSchema.columns.length ≤ (allColumns catalog first steps).length ∧
    (¬ KeepsTables catalog first steps →
      operator.outputSchema.columns.length < (allColumns catalog first steps).length) := by
  induction steps using List.reverseRecOn with
  | nil =>
      intro operator h
      rw [plan_first h]
      exact ⟨fun _ => .refl _, le_rfl, fun hkeeps => absurd (by simp [KeepsTables]) hkeeps⟩
  | append_singleton steps step ih =>
      intro operator h
      obtain ⟨left, hleft, hnew, hcolumns⟩ := plan_step h
      obtain ⟨hperm, hle, hlt⟩ := ih hleft
      have hfirst : (columnsOf catalog first.tableName).length ≤ (allColumns catalog first steps).length := by
        simp [allColumns]
      have hpos : 0 < (columnsOf catalog step.scan.tableName).length := List.length_pos_iff.mpr hnew
      rw [allColumns_append]
      rcases steps with _ | ⟨second, steps⟩
      · -- the first join shows both tables, in one order or the other
        have hkeeps : KeepsTables catalog first ([] ++ [step]) := by simp [KeepsTables]
        have hall : allColumns catalog first [] = columnsOf catalog first.tableName := by simp [allColumns]
        have hperm' : operator.outputSchema.columns.Perm
            (allColumns catalog first [] ++ columnsOf catalog step.scan.tableName) := by
          rcases hcolumns with ⟨-, heq⟩ | ⟨-, heq⟩
          · rw [heq, plan_first hleft]
          · rw [heq, hall]
            exact List.perm_append_comm
        exact ⟨fun _ => hperm', hperm'.length_eq.le, fun h => absurd hkeeps h⟩
      · have hsecond : (columnsOf catalog first.tableName).length <
            (allColumns catalog first (second :: steps)).length := by
          have hpos := List.length_pos_iff.mpr (columnsOf_ne_nil hleft second List.mem_cons_self)
          simp only [allColumns, List.flatMap_cons, List.length_append]
          omega
        have hkeeps : KeepsTables catalog first (second :: steps ++ [step]) ↔
            KeepsTables catalog first (second :: steps) ∧ ¬ ProbesFirst catalog first step := by
          simp [KeepsTables, or_imp, forall_and]
        rw [hkeeps, List.length_append]
        rcases hcolumns with ⟨hprobe, heq⟩ | ⟨hprobe, heq⟩
        · rw [heq, List.length_append]
          refine ⟨fun h => (hperm h.1).append_right _, by omega, fun h => ?_⟩
          have := hlt fun hprev => h ⟨hprev, hprobe⟩
          omega
        · rw [heq, List.length_append]
          exact ⟨fun h => absurd hprobe h.2, by omega, fun _ => by omega⟩

/-- Three tables without rows; the first has an index on `id`. -/
def starCatalog : Catalog EntryList :=
  ⟨[("a", ⟨"a", ⟨[⟨"id", .int, none⟩]⟩, [], [("id", ⟨3, "by_id", IndexTree.new⟩)]⟩),
    ("b", ⟨"b", ⟨[⟨"aid", .int, none⟩]⟩, [], []⟩),
    ("c", ⟨"c", ⟨[⟨"id", .int, none⟩]⟩, [], []⟩)]⟩

/-- `JOIN b ON a.id = b.aid` -/
def joinB : JoinStep := ⟨{ tableName := "b" }, "a.id", "b.aid"⟩

/-- `JOIN c ON a.id = c.id` -/
def joinC : JoinStep := ⟨{ tableName := "c" }, "a.id", "c.id"⟩

end PhysicalPlanner

end DBEngine
