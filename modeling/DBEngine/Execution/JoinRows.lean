import DBEngine.Execution.JoinSchemas
import DBEngine.Execution.IndexSelection
import DBEngine.Execution.JoinOperators

/-!
# The rows of a two-table join

A join of two tables on an equality between a column of each.  The planner looks
for an index under the bare name of the key on the right of the condition, first
of the right table, where it is the column compared, then of the left table,
where it may be another column.
-/

set_option autoImplicit false

namespace DBEngine

/-! ## Names of a scan -/

theorem qualified_right_inj {table column column' : String}
    (h : qualified table column = qualified table column') : column = column' := by
  have hlist := congrArg String.toList h
  rw [toList_qualified, toList_qualified] at hlist
  exact String.toList_inj.mp (List.cons.inj (List.append_cancel_left hlist)).2

/-- A column of a scan is found under its qualified name where the column of the table
is found under its own. -/
theorem get?_scanSchema {τ : Type} (table : Table τ) (name : String) :
    table.scanSchema.columnNames.get? (qualified table.tableName name) =
      table.schema.columnNames.get? name := by
  obtain ⟨tableName, ⟨columns⟩, heapFile, indices⟩ := table
  change (Schema.columnNames ⟨columns.map _⟩).get? (qualified tableName name) =
    (Schema.columnNames ⟨columns⟩).get? name
  induction columns using List.reverseRecOn with
  | nil => rfl
  | append_singleton columns column ih =>
      rw [List.map_append, List.map_singleton, Schema.get?_columnNames_append,
        Schema.get?_columnNames_append, ih, List.length_map]
      have hname : qualified tableName column.name = qualified tableName name ↔ column.name = name :=
        ⟨qualified_right_inj, fun h => by rw [h]⟩
      simp only [hname]

theorem lookup_scanSchema {τ : Type} (table : Table τ) (row : List Value) (name : String) :
    Expr.lookup table.scanSchema row (qualified table.tableName name) =
      Expr.lookup table.schema row name := by
  rw [Expr.lookup, Expr.lookup, get?_scanSchema]

namespace PhysicalPlanner

variable {τ : Type}

/-! ## What the planner builds -/

theorem planScan_plain {catalog : Catalog τ} {node : LogicalScan} {table : Table τ}
    (hcatalog : catalog.tables.get? node.tableName = some table) (hnode : node.predicate = none) :
    planScan catalog node = .ok (.seqScan table table.scanSchema none node.yieldRid) := by
  rw [planScan_eq hcatalog, hnode]
  rfl

variable [IndexTree τ]

theorem collect_seqScan {table : Table τ} {records : List Record} (hrows : table.Holds records)
    (schema : Schema) : (Operator.seqScan table schema none false).next.collect =
      .ok (records.map Record.values) := by
  rw [Operator.next, List.map_eq_flatMap]
  exact Generator.collect_forEach_ok hrows.scan fun r _ => rfl

theorem joinOperators_right {left right : Operator τ} {leftTable rightTable : Table τ}
    {leftKey rightKey : String} {index : IndexMeta τ}
    (h : rightTable.indices.get? (lastPart rightKey) = some index) :
    joinOperators left right leftTable rightTable leftKey rightKey =
      Operator.openIndexJoin index.tree left leftKey rightTable rightKey := by
  simp only [joinOperators, tryIndexJoin, h, Option.getD_none]
  cases Operator.openIndexJoin index.tree left leftKey rightTable rightKey <;> rfl

theorem joinOperators_left {left right : Operator τ} {leftTable rightTable : Table τ}
    {leftKey rightKey : String} {index : IndexMeta τ}
    (hnone : rightTable.indices.get? (lastPart rightKey) = none)
    (h : leftTable.indices.get? (lastPart rightKey) = some index) :
    joinOperators left right leftTable rightTable leftKey rightKey =
      Operator.openIndexJoin index.tree right rightKey leftTable leftKey := by
  simp only [joinOperators, tryIndexJoin, hnone, h, Option.getD_some]
  cases Operator.openIndexJoin index.tree right rightKey leftTable leftKey <;> rfl

theorem joinOperators_hash {left right : Operator τ} {leftTable rightTable : Table τ}
    {leftKey rightKey : String} (hnone : rightTable.indices.get? (lastPart rightKey) = none)
    (hnone' : leftTable.indices.get? (lastPart rightKey) = none) :
    joinOperators left right leftTable rightTable leftKey rightKey =
      Operator.openHashJoin left leftKey right rightKey := by
  simp only [joinOperators, tryIndexJoin, hnone, hnone']
  rfl

/-! ## Two tables -/

section TwoTables

variable {catalog : Catalog τ} {leftNode rightNode : LogicalScan} {left right : Table τ}

theorem plan_join (hleft : catalog.tables.get? leftNode.tableName = some left)
    (hright : catalog.tables.get? rightNode.tableName = some right)
    (hleftNode : leftNode.predicate = none) (hrightNode : rightNode.predicate = none)
    (leftKey rightKey : String) (op : ComparisonOp) :
    plan catalog (.join (.scan leftNode) (.scan rightNode)
        (.comparison (.columnRef leftKey) op (.columnRef rightKey))) =
      joinOperators (.seqScan left left.scanSchema none leftNode.yieldRid)
        (.seqScan right right.scanSchema none rightNode.yieldRid) left right leftKey rightKey := by
  have hleftTable : catalog.getTable leftNode.tableName = .ok left := by
    rw [Catalog.getTable, hleft]
  have hrightTable : catalog.getTable rightNode.tableName = .ok right := by
    rw [Catalog.getTable, hright]
  simp only [plan, tableOf, joinKeys, planScan_plain hleft hleftNode, planScan_plain hright hrightNode,
    hleftTable, hrightTable]
  rfl

/-- The columns of the joined rows. -/
def pairSchema (left right : Table τ) : Schema :=
  ⟨left.scanSchema.columns ++ right.scanSchema.columns⟩

/-- No qualified column name belongs to both tables. -/
def NamesApart (left right : Table τ) : Prop :=
  ∀ c ∈ left.scanSchema.columns, ∀ d ∈ right.scanSchema.columns, c.name ≠ d.name

/-- The values of two rows in a column of the left and a column of the right table are
equal. -/
def equalIn (left right : Table τ) (c d : String) (pair : Record × Record) : Bool :=
  match Expr.lookup left.schema pair.1.values c, Expr.lookup right.schema pair.2.values d with
  | some a, some b => a.eq b
  | _, _ => false

/-- A joined row, read by qualified names. -/
def pairRow (left right : Table τ) (pair : Record × Record) : String → Option Value :=
  Expr.lookup (pairSchema left right) (pair.1.values ++ pair.2.values)

variable {ls rs : List Record} {c d : String} {i j : Nat}

omit [IndexTree τ] in
theorem equalIn_eq (hc : left.schema.columnNames.get? c = some i)
    (hd : right.schema.columnNames.get? d = some j) (pair : Record × Record) :
    equalIn left right c d pair = equalAt i j pair.1.values pair.2.values := by
  rw [equalIn, Expr.lookup, Expr.lookup, hc, hd]
  rfl

omit [IndexTree τ] in
/-- A column of the left table has its value in a joined row. -/
theorem pairRow_left (hls : left.Holds ls) (hapart : NamesApart left right)
    (hc : left.schema.columnNames.get? c = some i) {pair : Record × Record} (hpair : pair.1 ∈ ls) :
    pairRow left right pair (qualified left.tableName c) = Expr.lookup left.schema pair.1.values c := by
  obtain ⟨column, hcolumn, hname⟩ := Schema.getElem?_of_columnNames ((get?_scanSchema left c).trans hc)
  have hlength : pair.1.values.length = left.scanSchema.columns.length := by
    simpa [Table.scanSchema] using hls.length_values hpair
  rw [pairRow, pairSchema, Expr.lookup_append_left hlength, lookup_scanSchema]
  intro other hother heq
  exact hapart column (List.mem_of_getElem? hcolumn) other hother (hname.trans heq.symm)

omit [IndexTree τ] in
/-- A column of the right table has its value in a joined row. -/
theorem pairRow_right (hls : left.Holds ls) (hapart : NamesApart left right)
    (hd : right.schema.columnNames.get? d = some j) {pair : Record × Record} (hpair : pair.1 ∈ ls) :
    pairRow left right pair (qualified right.tableName d) =
      Expr.lookup right.schema pair.2.values d := by
  obtain ⟨column, hcolumn, hname⟩ := Schema.getElem?_of_columnNames ((get?_scanSchema right d).trans hd)
  have hlength : pair.1.values.length = left.scanSchema.columns.length := by
    simpa [Table.scanSchema] using hls.length_values hpair
  rw [pairRow, pairSchema, Expr.lookup_append_right hlength, lookup_scanSchema]
  intro other hother heq
  exact hapart other hother column (List.mem_of_getElem? hcolumn) (heq.trans hname.symm)

omit [IndexTree τ] in
/-- The joined row with the right table first reads the same. -/
theorem pairRow_swap (hls : left.Holds ls) (hrs : right.Holds rs) (hapart : NamesApart left right)
    {pair : Record × Record} (hpair : pair.1 ∈ ls) (hpair' : pair.2 ∈ rs) :
    Expr.lookup ⟨right.scanSchema.columns ++ left.scanSchema.columns⟩ (pair.2.values ++ pair.1.values) =
      pairRow left right pair := by
  have hlength : pair.1.values.length = left.scanSchema.columns.length := by
    simpa [Table.scanSchema] using hls.length_values hpair
  have hlength' : pair.2.values.length = right.scanSchema.columns.length := by
    simpa [Table.scanSchema] using hrs.length_values hpair'
  funext name
  unfold pairRow pairSchema
  by_cases hname : ∃ column ∈ left.scanSchema.columns, column.name = name
  · obtain ⟨column, hcolumn, rfl⟩ := hname
    have hother : ∀ other ∈ right.scanSchema.columns, other.name ≠ column.name :=
      fun other hother heq => hapart column hcolumn other hother heq.symm
    rw [Expr.lookup_append_left hlength hother, Expr.lookup_append_right hlength' hother]
  · have hother : ∀ other ∈ left.scanSchema.columns, other.name ≠ name :=
      fun other hother heq => hname ⟨other, hother, heq⟩
    rw [Expr.lookup_append_right hlength hother, Expr.lookup_append_left hlength' hother]

omit [IndexTree τ] in
/-- Joined rows that read the same have the same columns equal. -/
theorem factors_equalIn (hls : left.Holds ls) (hapart : NamesApart left right)
    (hc : left.schema.columnNames.get? c = some i) (hd : right.schema.columnNames.get? d = some j) :
    Selection.Factors ((ls : Multiset Record) ×ˢ (rs : Multiset Record)) (pairRow left right)
      fun pair => equalIn left right c d pair = true := by
  intro pair hpair pair' hpair' hrow hequal
  have hmem := (Multiset.mem_product.mp hpair).1
  have hmem' := (Multiset.mem_product.mp hpair').1
  unfold equalIn at hequal ⊢
  rwa [← pairRow_left hls hapart hc hmem', ← pairRow_right hls hapart hd hmem', ← hrow,
    pairRow_left hls hapart hc hmem, pairRow_right hls hapart hd hmem]

/-- What is planned yields, read by qualified names, the pairs of a left row and a right
row with equal values in the two columns. -/
def YieldsPairs (planned : Except PyErr (Operator τ)) (left right : Table τ) (ls rs : List Record)
    (c d : String) : Prop :=
  ∃ (operator : Operator τ) (rows : List (List Value)), planned = .ok operator ∧
    operator.next.collect = .ok rows ∧
    (rows : Multiset (List Value)).map (Expr.lookup operator.outputSchema) =
      (((ls : Multiset Record) ×ˢ (rs : Multiset Record)).filter fun pair =>
        equalIn left right c d pair = true).map (pairRow left right)

/-- An operator that yields the pairs selected by `p` once its searches return yields the
pairs wanted exactly when they do and `p` selects the pairs with equal columns. -/
theorem yieldsPairs_iff {planned : Except PyErr (Operator τ)} {operator : Operator τ}
    (hplanned : planned = .ok operator) {searches : Prop} {p : Record × Record → Bool}
    (hsearches : ∀ rows, operator.next.collect = .ok rows → searches)
    (hrun : searches → ∃ rows : List (List Value), operator.next.collect = .ok rows ∧
      (rows : Multiset (List Value)).map (Expr.lookup operator.outputSchema) =
        (((ls : Multiset Record) ×ˢ (rs : Multiset Record)).filter fun pair => p pair = true).map
          (pairRow left right))
    (hp : Selection.Factors ((ls : Multiset Record) ×ˢ (rs : Multiset Record)) (pairRow left right)
      fun pair => p pair = true)
    (hequal : Selection.Factors ((ls : Multiset Record) ×ˢ (rs : Multiset Record)) (pairRow left right)
      fun pair => equalIn left right c d pair = true) :
    YieldsPairs planned left right ls rs c d ↔
      searches ∧ ∀ l ∈ ls, ∀ r ∈ rs, (p (l, r) = true ↔ equalIn left right c d (l, r) = true) := by
  constructor
  · rintro ⟨operator', rows, hplanned', hcollect, hpairs⟩
    obtain rfl := Except.ok.inj (hplanned.symm.trans hplanned')
    have hsearch := hsearches rows hcollect
    obtain ⟨rows', hcollect', hselected⟩ := hrun hsearch
    obtain rfl := Except.ok.inj (hcollect.symm.trans hcollect')
    rw [hselected, Selection.map_filter_eq_iff hp hequal] at hpairs
    exact ⟨hsearch, fun l hl r hr => hpairs (l, r) (Multiset.mem_product.mpr ⟨hl, hr⟩)⟩
  · rintro ⟨hsearch, hagree⟩
    obtain ⟨rows, hcollect, hselected⟩ := hrun hsearch
    refine ⟨operator, rows, hplanned, hcollect, ?_⟩
    rw [hselected, Selection.map_filter_eq_iff hp hequal]
    intro pair hpair
    obtain ⟨hl, hr⟩ := Multiset.mem_product.mp hpair
    exact hagree pair.1 hl pair.2 hr

omit [IndexTree τ] in
theorem getIndex_scanSchema (hc : left.schema.columnNames.get? c = some i) :
    left.scanSchema.getIndex (qualified left.tableName c) = .ok i :=
  Schema.getIndex_eq_ok.mpr ((get?_scanSchema left c).trans hc)

omit [IndexTree τ] in
theorem lt_length_values (hls : left.Holds ls) (hc : left.schema.columnNames.get? c = some i) :
    ∀ values ∈ ls.map Record.values, i < values.length := by
  intro values hvalues
  obtain ⟨l, hl, rfl⟩ := List.mem_map.mp hvalues
  obtain ⟨column, hcolumn, -⟩ := Schema.getElem?_of_columnNames hc
  rw [hls.length_values hl]
  exact (List.getElem?_eq_some_iff.mp hcolumn).1

theorem equalAt_comm (i j : Nat) (l r : List Value) : equalAt i j l r = equalAt j i r l := by
  unfold equalAt
  cases l[i]? <;> cases r[j]? <;> simp only [Value.eq_comm]

variable [Multimap τ] {item : String × IndexMeta τ}

/-- An index join that probes the right table. -/
theorem yieldsPairs_probeRight (hls : left.Holds ls) (hrs : right.Holds rs)
    (hindexed : right.Indexed rs) (hitem : item ∈ right.indices) (hapart : NamesApart left right)
    (hc : left.schema.columnNames.get? c = some i) (hd : right.schema.columnNames.get? d = some j) :
    YieldsPairs (Operator.openIndexJoin item.2.tree (.seqScan left left.scanSchema none false)
        (qualified left.tableName c) right (qualified right.tableName d)) left right ls rs c d ↔
      (∀ l ∈ ls, ∃ rids, IndexTree.search item.2.tree (Expr.lookup left.schema l.values c) = .ok rids) ∧
        ∀ l ∈ ls, ∀ r ∈ rs, (equalIn left right c item.1 (l, r) = true ↔
          equalIn left right c d (l, r) = true) := by
  obtain ⟨k, -, hk, -, -⟩ := hindexed.column item hitem
  have hkey : ∀ l : Record, Expr.lookup left.schema l.values c = l.values[i]? := by
    intro l
    rw [Expr.lookup, hc]
  have hlefts := collect_seqScan hls left.scanSchema
  have hwidth := lt_length_values hls hc
  have hopen : Operator.openIndexJoin item.2.tree (.seqScan left left.scanSchema none false)
      (qualified left.tableName c) right (qualified right.tableName d) =
      .ok (.indexJoin item.2.tree (.seqScan left left.scanSchema none false) i right left.scanSchema
        right.scanSchema) := by
    rw [Operator.openIndexJoin, Operator.outputSchema, getIndex_scanSchema hc, getIndex_scanSchema hd]
    rfl
  refine yieldsPairs_iff hopen (fun rows hcollect l hl => ?_) (fun hsearch => ?_)
    (factors_equalIn hls hapart hc hk) (factors_equalIn hls hapart hc hd)
  · rw [hkey]
    exact Operator.search_of_collect_indexJoin hlefts hwidth hcollect l.values (List.mem_map_of_mem hl)
  · obtain ⟨rows, hcollect, hrows⟩ := Operator.collect_indexJoin hrs
      (hrs.indexesColumn hindexed hitem hk) hlefts hwidth
      left.scanSchema right.scanSchema (by
        intro values hvalues
        obtain ⟨l, hl, rfl⟩ := List.mem_map.mp hvalues
        rw [← hkey]
        exact hsearch l hl)
    refine ⟨rows, hcollect, ?_⟩
    rw [hrows, ← Multiset.map_coe, Multiset.bind_map, Selection.bind_filter_map, Multiset.map_map]
    simp only [← equalIn_eq hc hk]
    rfl

/-- An index join that probes the left table. -/
theorem yieldsPairs_probeLeft (hls : left.Holds ls) (hrs : right.Holds rs)
    (hindexed : left.Indexed ls) (hitem : item ∈ left.indices) (hapart : NamesApart left right)
    (hc : left.schema.columnNames.get? c = some i) (hd : right.schema.columnNames.get? d = some j) :
    YieldsPairs (Operator.openIndexJoin item.2.tree (.seqScan right right.scanSchema none false)
        (qualified right.tableName d) left (qualified left.tableName c)) left right ls rs c d ↔
      (∀ r ∈ rs, ∃ rids, IndexTree.search item.2.tree (Expr.lookup right.schema r.values d) = .ok rids) ∧
        ∀ l ∈ ls, ∀ r ∈ rs, (equalIn left right item.1 d (l, r) = true ↔
          equalIn left right c d (l, r) = true) := by
  obtain ⟨k, -, hk, -, -⟩ := hindexed.column item hitem
  have hkey : ∀ r : Record, Expr.lookup right.schema r.values d = r.values[j]? := by
    intro r
    rw [Expr.lookup, hd]
  have hrights := collect_seqScan hrs right.scanSchema
  have hwidth := lt_length_values hrs hd
  have hopen : Operator.openIndexJoin item.2.tree (.seqScan right right.scanSchema none false)
      (qualified right.tableName d) left (qualified left.tableName c) =
      .ok (.indexJoin item.2.tree (.seqScan right right.scanSchema none false) j left right.scanSchema
        left.scanSchema) := by
    rw [Operator.openIndexJoin, Operator.outputSchema, getIndex_scanSchema hd, getIndex_scanSchema hc]
    rfl
  refine yieldsPairs_iff hopen (fun rows hcollect r hr => ?_) (fun hsearch => ?_)
    (factors_equalIn hls hapart hk hd) (factors_equalIn hls hapart hc hd)
  · rw [hkey]
    exact Operator.search_of_collect_indexJoin hrights hwidth hcollect r.values (List.mem_map_of_mem hr)
  · obtain ⟨rows, hcollect, hrows⟩ := Operator.collect_indexJoin hls
      (hls.indexesColumn hindexed hitem hk) hrights hwidth
      right.scanSchema left.scanSchema (by
        intro values hvalues
        obtain ⟨r, hr, rfl⟩ := List.mem_map.mp hvalues
        rw [← hkey]
        exact hsearch r hr)
    refine ⟨rows, hcollect, ?_⟩
    simp only [equalAt_comm j k] at hrows
    rw [hrows, ← Multiset.map_coe, Multiset.bind_map, Selection.bind_filter_map_swap, Multiset.map_map]
    simp only [← equalIn_eq hk hd]
    refine Multiset.map_congr rfl fun pair hpair => ?_
    obtain ⟨hl, hr⟩ := Multiset.mem_product.mp (Multiset.mem_filter.mp hpair).1
    exact pairRow_swap hls hrs hapart hl hr

omit [Multimap τ] in
/-- A hash join always yields the pairs wanted. -/
theorem yieldsPairs_hash (hls : left.Holds ls) (hrs : right.Holds rs)
    (hc : left.schema.columnNames.get? c = some i) (hd : right.schema.columnNames.get? d = some j) :
    YieldsPairs (Operator.openHashJoin (.seqScan left left.scanSchema none false)
      (qualified left.tableName c) (.seqScan right right.scanSchema none false)
      (qualified right.tableName d)) left right ls rs c d := by
  have hi : (Operator.seqScan left left.scanSchema none false).outputSchema.getIndex
      (qualified left.tableName c) = .ok i := getIndex_scanSchema hc
  have hj : (Operator.seqScan right right.scanSchema none false).outputSchema.getIndex
      (qualified right.tableName d) = .ok j := getIndex_scanSchema hd
  obtain ⟨operator, hopen, hschema, hcollect⟩ := Operator.collect_hashJoin hi hj
    (collect_seqScan hls left.scanSchema) (collect_seqScan hrs right.scanSchema)
    (lt_length_values hls hc) (lt_length_values hrs hd)
  refine ⟨operator, _, hopen, hcollect, ?_⟩
  have hrows : ∀ r ∈ (rs : Multiset Record), ((((ls.map Record.values).filter fun l =>
      equalAt i j l r.values).map fun l => l ++ r.values : List (List Value)) :
        Multiset (List Value)) = ((ls : Multiset Record).filter fun l =>
          equalAt i j l.values r.values = true).map fun l => l.values ++ r.values := by
    intro r _
    rw [Multiset.filter_coe, Multiset.map_coe, List.filter_map, List.map_map]
    simp only [Bool.decide_eq_true]
    rfl
  rw [← Multiset.coe_bind, ← Multiset.map_coe, Multiset.bind_map, Multiset.bind_congr hrows,
    Selection.bind_filter_map_swap, Multiset.map_map, hschema]
  simp only [← equalIn_eq hc hd]
  rfl

/-- `left.c = right.d`, or `right.d = left.c`. -/
def onCondition (left right : Table τ) (c d : String) (exchanged : Bool) : Expr String :=
  if exchanged then
    .comparison (.columnRef (qualified right.tableName d)) .eq (.columnRef (qualified left.tableName c))
  else .comparison (.columnRef (qualified left.tableName c)) .eq (.columnRef (qualified right.tableName d))

/-- The index probed, if there is one, answers every key it is probed with and pairs the
rows as the condition does.  It is under the last part of the right key. -/
def ProbeAgrees (left right : Table τ) (ls rs : List Record) (c d : String) : Prop :=
  let column := lastPart (qualified right.tableName d)
  match right.indices.get? column with
  | some index =>
      (∀ l ∈ ls, ∃ rids, IndexTree.search index.tree (Expr.lookup left.schema l.values c) = .ok rids) ∧
        ∀ l ∈ ls, ∀ r ∈ rs, (equalIn left right c column (l, r) = true ↔
          equalIn left right c d (l, r) = true)
  | none =>
      match left.indices.get? column with
      | some index =>
          (∀ r ∈ rs, ∃ rids,
              IndexTree.search index.tree (Expr.lookup right.schema r.values d) = .ok rids) ∧
            ∀ l ∈ ls, ∀ r ∈ rs, (equalIn left right column d (l, r) = true ↔
              equalIn left right c d (l, r) = true)
      | none => True

omit [IndexTree τ] [Multimap τ] in
/-- A column of the right table is no column of the left one. -/
theorem getIndex_apart (hapart : NamesApart left right)
    (hd : right.schema.columnNames.get? d = some j) (k : Nat) :
    left.scanSchema.getIndex (qualified right.tableName d) ≠ .ok k := by
  intro hk
  obtain ⟨column, hcolumn, hname⟩ := Schema.getElem?_of_columnNames (Schema.getIndex_eq_ok.mp hk)
  obtain ⟨column', hcolumn', hname'⟩ :=
    Schema.getElem?_of_columnNames ((get?_scanSchema right d).trans hd)
  exact hapart column (List.mem_of_getElem? hcolumn) column' (List.mem_of_getElem? hcolumn')
    (hname.trans hname'.symm)

/-- What is planned for the join of two tables on an equality between a column of each
yields the pairs of rows with equal values in the two columns exactly when the left side
of the condition is the column of the left table and the index probed, if any, pairs the
rows as the condition does. -/
theorem join_yields_pairs_iff (catalog : Catalog τ) (leftNode rightNode : LogicalScan)
    (hleft : catalog.tables.get? leftNode.tableName = some left)
    (hright : catalog.tables.get? rightNode.tableName = some right)
    (hleftNode : leftNode.predicate = none ∧ leftNode.yieldRid = false)
    (hrightNode : rightNode.predicate = none ∧ rightNode.yieldRid = false)
    (hls : left.Holds ls) (hrs : right.Holds rs) (hleftIndexed : left.Indexed ls)
    (hrightIndexed : right.Indexed rs) (hapart : NamesApart left right)
    (hc : left.schema.columnNames.get? c = some i) (hd : right.schema.columnNames.get? d = some j)
    (exchanged : Bool) :
    YieldsPairs (plan catalog (.join (.scan leftNode) (.scan rightNode)
        (onCondition left right c d exchanged))) left right ls rs c d ↔
      exchanged = false ∧ ProbeAgrees left right ls rs c d := by
  cases exchanged with
  | true =>
      refine iff_of_false (fun hpairs => ?_) fun h => Bool.false_ne_true h.1.symm
      obtain ⟨operator, -, hplan, -⟩ := hpairs
      rw [onCondition, if_pos rfl, plan_join hleft hright hleftNode.1 hrightNode.1] at hplan
      -- each kind of join looks for the right table's column in the left table first
      rcases joinOperators_eq_ok hplan with ⟨index, -, hopen⟩ | ⟨-, index, -, hopen⟩ | ⟨-, -, hopen⟩
      · obtain ⟨k, -, hk, -⟩ := openIndexJoin_eq_ok hopen
        exact getIndex_apart hapart hd k hk
      · obtain ⟨-, k, -, hk, -⟩ := openIndexJoin_eq_ok hopen
        exact getIndex_apart hapart hd k hk
      · obtain ⟨k, -, -, hk, -⟩ := openHashJoin_eq_ok hopen
        exact getIndex_apart hapart hd k hk
  | false =>
      rw [onCondition, if_neg Bool.false_ne_true, plan_join hleft hright hleftNode.1 hrightNode.1,
        hleftNode.2, hrightNode.2, eq_self, true_and]
      unfold ProbeAgrees
      cases hprobe : right.indices.get? (lastPart (qualified right.tableName d)) with
      | some index =>
          rw [joinOperators_right hprobe]
          simp only [hprobe]
          exact yieldsPairs_probeRight hls hrs hrightIndexed (Dict.mem_of_get? hprobe) hapart hc hd
      | none =>
          cases hprobe' : left.indices.get? (lastPart (qualified right.tableName d)) with
          | some index =>
              rw [joinOperators_left hprobe hprobe']
              simp only [hprobe, hprobe']
              exact yieldsPairs_probeLeft hls hrs hleftIndexed (Dict.mem_of_get? hprobe') hapart hc hd
          | none =>
              rw [joinOperators_hash hprobe hprobe']
              simp only [hprobe, hprobe']
              exact iff_of_true (yieldsPairs_hash hls hrs hc hd) trivial

end TwoTables

/-! ## An index of another column -/

/-- Columns `x` and `y`, one row, an index on `y`. -/
def indexedLeft : Table EntryList :=
  ⟨"a", ⟨[⟨"x", .int, none⟩, ⟨"y", .int, none⟩]⟩, [((1, 0), [1, 0, 0, 0, 2, 0, 0, 0])],
    [("y", ⟨3, "by_y", ⟨[(2, (1, 0))]⟩⟩)]⟩

/-- A column `y` and one row. -/
def plainRight : Table EntryList :=
  ⟨"b", ⟨[⟨"y", .int, none⟩]⟩, [((1, 0), [2, 0, 0, 0])], []⟩

def crossCatalog : Catalog EntryList := ⟨[("a", indexedLeft), ("b", plainRight)]⟩

def leftRows : List Record := [⟨[.int 1, .int 2], (1, 0)⟩]

def rightRows : List Record := [⟨[.int 2], (1, 0)⟩]

theorem indexedLeft_holds : indexedLeft.Holds leftRows := ⟨rfl, by decide⟩

theorem plainRight_holds : plainRight.Holds rightRows := ⟨rfl, by decide⟩

theorem indexedLeft_indexed : indexedLeft.Indexed leftRows where
  column := by
    intro item hitem
    obtain rfl := List.mem_singleton.mp hitem
    exact ⟨1, ⟨"y", .int, none⟩, by decide, rfl, rfl⟩
  entries := by
    intro item hitem i hi
    obtain rfl := List.mem_singleton.mp hitem
    have hone : indexedLeft.schema.columnNames.get? "y" = some 1 := by decide
    obtain rfl := Option.some.inj (hone.symm.trans hi)
    rfl

theorem plainRight_indexed : plainRight.Indexed rightRows where
  column := fun _ hitem => absurd hitem List.not_mem_nil
  entries := fun _ hitem => absurd hitem List.not_mem_nil

theorem crossTables_apart : NamesApart indexedLeft plainRight := by
  unfold NamesApart
  decide +kernel

/-- `a JOIN b ON a.column = b.y` -/
def crossJoin (column : String) : LogicalNode :=
  .join (.scan { tableName := "a" }) (.scan { tableName := "b" })
    (onCondition indexedLeft plainRight column "y" false)

/-- On `a.y = b.y` the index on `a.y` is the right one. -/
theorem join_yields_pairs_iff_cross :
    YieldsPairs (plan crossCatalog (crossJoin "y")) indexedLeft plainRight leftRows rightRows "y" "y" := by
  refine (join_yields_pairs_iff crossCatalog { tableName := "a" } { tableName := "b" } rfl rfl
    ⟨rfl, rfl⟩ ⟨rfl, rfl⟩ indexedLeft_holds plainRight_holds indexedLeft_indexed plainRight_indexed
    crossTables_apart (c := "y") (d := "y") (i := 1) (j := 0) (by decide) (by decide) false).mpr
    ⟨rfl, ?_⟩
  have hcolumn : lastPart (qualified plainRight.tableName "y") = "y" := by decide +kernel
  unfold ProbeAgrees
  rw [hcolumn]
  refine ⟨fun r hr => ?_, fun l _ r _ => Iff.rfl⟩
  rw [List.mem_singleton.mp hr]
  exact ⟨[(1, 0)], by decide +kernel⟩

/-- On `a.x = b.y` the index on `a.y` is probed: the pair it yields has `x = 1`, `y = 2`. -/
theorem join_probes_other_column :
    indexedLeft.Holds leftRows ∧ plainRight.Holds rightRows ∧ indexedLeft.Indexed leftRows ∧
      plainRight.Indexed rightRows ∧ NamesApart indexedLeft plainRight ∧
      ((plan crossCatalog (crossJoin "x")).toOption.bind fun operator =>
        operator.next.collect.toOption) = some [[.int 2, .int 1, .int 2]] ∧
      ¬ YieldsPairs (plan crossCatalog (crossJoin "x")) indexedLeft plainRight leftRows rightRows
        "x" "y" := by
  have hrun : ((plan crossCatalog (crossJoin "x")).toOption.bind fun operator =>
      operator.next.collect.toOption) = some [[.int 2, .int 1, .int 2]] := by decide +kernel
  refine ⟨indexedLeft_holds, plainRight_holds, indexedLeft_indexed, plainRight_indexed,
    crossTables_apart, hrun, ?_⟩
  rintro ⟨operator, rows, hplan, hcollect, hpairs⟩
  rw [hplan] at hrun
  change operator.next.collect.toOption = _ at hrun
  rw [hcollect] at hrun
  obtain rfl := Option.some.inj hrun
  have hcard := congrArg Multiset.card hpairs
  rw [Multiset.card_map, Multiset.card_map] at hcard
  exact absurd hcard (by decide +kernel)

end PhysicalPlanner

end DBEngine
