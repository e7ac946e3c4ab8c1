import DBEngine.Execution.JoinRows

/-!
# Equi-joins

The hash join and the index join both compute the nested loop over the pairs of
rows with equal keys, each in its own order.  A join is planned by the names of
its two columns alone, so the pairs are those with equal keys whatever operator
its condition has.
-/

set_option autoImplicit false

namespace DBEngine

/-- The nested loop over the rows of two inputs: the pairs with equal keys. -/
def nestedLoop (i j : Nat) (lefts rights : Multiset (List Value)) : Multiset (List Value) :=
  ((lefts ×ˢ rights).filter fun pair => equalAt i j pair.1 pair.2 = true).map fun pair =>
    pair.1 ++ pair.2

/-- The loop over the right rows. -/
theorem coe_rightLoop (i j : Nat) (lefts rights : List (List Value)) :
    ((rights.flatMap fun r => (lefts.filter fun l => equalAt i j l r).map fun l => l ++ r :
        List (List Value)) : Multiset (List Value)) = nestedLoop i j lefts rights := by
  have hswap := Selection.bind_filter_map_swap (lefts : Multiset (List Value)) (rights : Multiset (List Value))
    (fun l r => equalAt i j l r = true) fun l r => l ++ r
  rw [← Multiset.coe_bind, nestedLoop, ← hswap]
  refine Multiset.bind_congr fun r _ => ?_
  rw [Multiset.filter_coe, Multiset.map_coe]
  simp only [Bool.decide_eq_true]

/-- The loop over the left rows. -/
theorem leftLoop_eq (i j : Nat) (lefts : List (List Value)) (records : List Record) :
    ((lefts : Multiset (List Value)).bind fun l =>
        ((records : Multiset Record).filter fun r => equalAt i j l r.values = true).map fun r =>
          l ++ r.values) = nestedLoop i j lefts (records.map Record.values) := by
  have hloop := Selection.bind_filter_map (lefts : Multiset (List Value))
    (records.map Record.values : Multiset (List Value)) (fun l r => equalAt i j l r = true)
    fun l r => l ++ r
  rw [nestedLoop, ← hloop]
  refine Multiset.bind_congr fun l _ => ?_
  rw [← Multiset.map_coe, Multiset.filter_map, Multiset.map_map]
  rfl

namespace Operator

variable {τ : Type} [IndexTree τ]

omit [IndexTree τ] in
theorem openSeqScan_plain (table : Table τ) :
    openSeqScan table none false = .ok (.seqScan table table.scanSchema none false) := rfl

omit [IndexTree τ] in
/-- A column of a scan is a column of the table. -/
theorem exists_name_of_scanSchema {table : Table τ} {key : String} {j : Nat}
    (hj : table.scanSchema.getIndex key = .ok j) :
    ∃ name, table.schema.columnNames.get? name = some j ∧
      table.scanSchema.columns[j]?.map Column.type = table.schema.columns[j]?.map Column.type := by
  have hmap : table.scanSchema.columns[j]? = table.schema.columns[j]?.map fun column =>
      { column with name := qualified table.tableName column.name } := List.getElem?_map
  have hj : table.scanSchema.columnNames.get? key = some j := Schema.getIndex_eq_ok.mp hj
  obtain ⟨column, hcolumn, rfl⟩ := Schema.getElem?_of_columnNames hj
  change table.scanSchema.columns[j]? = some column at hcolumn
  rw [hmap] at hcolumn
  obtain ⟨original, horiginal, rfl⟩ := Option.map_eq_some_iff.mp hcolumn
  refine ⟨original.name, ?_, ?_⟩
  · rw [← get?_scanSchema]
    exact hj
  · rw [hmap, horiginal]
    rfl

/-- The hash join of an input with a scan of a table and the index join of the input
with the table yield the same rows, the pairs with equal keys, under the same columns. -/
theorem hashJoin_eq_indexJoin [Multimap τ] {left : Operator τ} {lefts : List (List Value)}
    {right : Table τ} {records : List Record} {tree : τ} {leftKey rightKey : String} {i j : Nat}
    (hlefts : left.next.collect = .ok lefts) (hi : left.outputSchema.getIndex leftKey = .ok i)
    (hkeys : ∀ l ∈ lefts, ∃ v : Int, l[i]? = some (.int v)) (hrows : right.Holds records)
    (hj : right.scanSchema.getIndex rightKey = .ok j)
    (htype : right.scanSchema.columns[j]?.map Column.type = some .int)
    (hentries : Multimap.entries tree =
      ((records : Multiset Record).map fun r => (r.intAt j, r.rid))) :
    ∃ (scan hashJoin indexJoin : Operator τ) (hashRows indexRows : List (List Value)),
      openSeqScan right none false = .ok scan ∧
      openHashJoin left leftKey scan rightKey = .ok hashJoin ∧
      openIndexJoin tree left leftKey right rightKey = .ok indexJoin ∧
      hashJoin.next.collect = .ok hashRows ∧ indexJoin.next.collect = .ok indexRows ∧
      (hashRows : Multiset (List Value)) = indexRows ∧
      (hashRows : Multiset (List Value)) = nestedLoop i j lefts (records.map Record.values) ∧
      hashJoin.outputSchema = indexJoin.outputSchema := by
  obtain ⟨name, hname, hcolumns⟩ := exists_name_of_scanSchema hj
  obtain ⟨column, hcolumn, hint⟩ := Option.map_eq_some_iff.mp (hcolumns ▸ htype)
  have hindex : IndexesColumn tree records j :=
    ⟨fun r hr => (hrows.int_of_column hname hcolumn hint hr).1, hentries⟩
  have hwidth : ∀ l ∈ lefts, i < l.length := by
    intro l hl
    obtain ⟨v, hv⟩ := hkeys l hl
    exact (List.getElem?_eq_some_iff.mp hv).1
  have hwidth' : ∀ r ∈ records.map Record.values, j < r.length := by
    intro values hvalues
    obtain ⟨r, hr, rfl⟩ := List.mem_map.mp hvalues
    exact (List.getElem?_eq_some_iff.mp (hindex.ints r hr)).1
  have hj' : (seqScan right right.scanSchema none false).outputSchema.getIndex rightKey = .ok j := hj
  obtain ⟨hashJoin, hhash, hschema, hhashRows⟩ := collect_hashJoin hi hj' hlefts
    (PhysicalPlanner.collect_seqScan hrows right.scanSchema) hwidth hwidth'
  have hsearch : ∀ l ∈ lefts, ∃ rids, IndexTree.search tree l[i]? = .ok rids := by
    intro l hl
    obtain ⟨v, hv⟩ := hkeys l hl
    rw [hv]
    refine Multimap.search_ok tree (.int v) ?_
    intro s
    simp [Value.key]
  obtain ⟨indexRows, hindexRows, hcoe⟩ := collect_indexJoin hrows hindex hlefts hwidth left.outputSchema
    right.scanSchema hsearch
  have hopen : openIndexJoin tree left leftKey right rightKey =
      .ok (.indexJoin tree left i right left.outputSchema right.scanSchema) := by
    rw [openIndexJoin, hi, hj]
    rfl
  refine ⟨_, hashJoin, _, _, indexRows, openSeqScan_plain right, hhash, hopen, hhashRows, hindexRows,
    ?_, coe_rightLoop i j lefts _, ?_⟩
  · rw [coe_rightLoop, hcoe, leftLoop_eq]
  · rw [hschema]
    rfl

end Operator

namespace PhysicalPlanner

/-- An index join of `b` with `a` on `b.y = a.y`, and the hash join. -/
theorem hashJoin_eq_indexJoin_cross :
    ∃ (scan hashJoin indexJoin : Operator EntryList) (hashRows indexRows : List (List Value)),
      Operator.openSeqScan indexedLeft none false = .ok scan ∧
      Operator.openHashJoin (.seqScan plainRight plainRight.scanSchema none false) "b.y" scan "a.y" =
        .ok hashJoin ∧
      Operator.openIndexJoin ⟨[(2, (1, 0))]⟩ (.seqScan plainRight plainRight.scanSchema none false) "b.y"
        indexedLeft "a.y" = .ok indexJoin ∧
      hashJoin.next.collect = .ok hashRows ∧ indexJoin.next.collect = .ok indexRows ∧
      (hashRows : Multiset (List Value)) = indexRows ∧
      (hashRows : Multiset (List Value)) =
        nestedLoop 0 1 ([[Value.int 2]] : List (List Value)) (leftRows.map Record.values) ∧
      hashJoin.outputSchema = indexJoin.outputSchema :=
  Operator.hashJoin_eq_indexJoin (collect_seqScan plainRight_holds plainRight.scanSchema)
    (by decide +kernel) (by simp) indexedLeft_holds (by decide +kernel) (by decide +kernel)
    rfl

/-! ## The operator of the condition -/

section Comparisons

variable {τ : Type} [IndexTree τ] {catalog : Catalog τ} {leftNode rightNode : LogicalScan}
  {left right : Table τ} {ls rs : List Record}

/-- A comparison between a column of the left and a column of the right table is true of
a pair of rows. -/
def comparesTrue (left right : Table τ) (leftKey rightKey : String) (op : ComparisonOp)
    (pair : Record × Record) : Bool :=
  match Expr.lookup left.scanSchema pair.1.values leftKey,
    Expr.lookup right.scanSchema pair.2.values rightKey with
  | some l, some r =>
      match op.apply l r with
      | .ok b => b
      | .error _ => false
  | _, _ => false

/-- What is planned raises, or yields the pairs of rows on which the comparison is true. -/
def HonoursOperator (planned : Except PyErr (Operator τ)) (left right : Table τ) (ls rs : List Record)
    (leftKey rightKey : String) (op : ComparisonOp) : Prop :=
  ∀ operator, planned = .ok operator → ∃ rows : List (List Value), operator.next.collect = .ok rows ∧
    (rows : Multiset (List Value)) =
      (((ls : Multiset Record) ×ˢ (rs : Multiset Record)).filter fun pair =>
        comparesTrue left right leftKey rightKey op pair = true).map fun pair =>
          pair.1.values ++ pair.2.values

omit [IndexTree τ] in
theorem comparesTrue_eq {leftKey rightKey : String} {i j : Nat}
    (hi : left.scanSchema.getIndex leftKey = .ok i) (hj : right.scanSchema.getIndex rightKey = .ok j)
    (pair : Record × Record) :
    comparesTrue left right leftKey rightKey .eq pair = equalAt i j pair.1.values pair.2.values := by
  rw [comparesTrue, Expr.lookup, Expr.lookup, Schema.getIndex_eq_ok.mp hi, Schema.getIndex_eq_ok.mp hj]
  rfl

omit [IndexTree τ] in
variable (right rs) in
/-- The values of a joined row are those of its two rows. -/
theorem factors_comparesTrue (hls : left.Holds ls) (leftKey rightKey : String) (op : ComparisonOp) :
    Selection.Factors ((ls : Multiset Record) ×ˢ (rs : Multiset Record))
      (fun pair => pair.1.values ++ pair.2.values)
      fun pair => comparesTrue left right leftKey rightKey op pair = true := by
  intro pair hpair pair' hpair' hrow htrue
  have hlength : pair.1.values.length = pair'.1.values.length := by
    rw [hls.length_values (Multiset.mem_product.mp hpair).1,
      hls.length_values (Multiset.mem_product.mp hpair').1]
  obtain ⟨hleft, hright⟩ := List.append_inj hrow hlength
  unfold comparesTrue at htrue ⊢
  rwa [← hleft, ← hright]

/-- What a join of two tables without indexes yields when both keys are found. -/
theorem collect_openHashJoin (hls : left.Holds ls) (hrs : right.Holds rs) {leftKey rightKey : String}
    {i j : Nat} (hi : left.scanSchema.getIndex leftKey = .ok i)
    (hj : right.scanSchema.getIndex rightKey = .ok j) :
    ∃ (operator : Operator τ) (rows : List (List Value)),
      Operator.openHashJoin (.seqScan left left.scanSchema none false) leftKey
        (.seqScan right right.scanSchema none false) rightKey = .ok operator ∧
      operator.next.collect = .ok rows ∧ (rows : Multiset (List Value)) =
        (((ls : Multiset Record) ×ˢ (rs : Multiset Record)).filter fun pair =>
          comparesTrue left right leftKey rightKey .eq pair = true).map fun pair =>
            pair.1.values ++ pair.2.values := by
  obtain ⟨name, hname, -⟩ := Operator.exists_name_of_scanSchema hi
  obtain ⟨name', hname', -⟩ := Operator.exists_name_of_scanSchema hj
  have hi' : (Operator.seqScan left left.scanSchema none false).outputSchema.getIndex leftKey = .ok i := hi
  have hj' : (Operator.seqScan right right.scanSchema none false).outputSchema.getIndex rightKey = .ok j :=
    hj
  obtain ⟨operator, hopen, -, hrows⟩ := Operator.collect_hashJoin hi' hj'
    (collect_seqScan hls left.scanSchema) (collect_seqScan hrs right.scanSchema)
    (lt_length_values hls hname) (lt_length_values hrs hname')
  refine ⟨operator, _, hopen, hrows, ?_⟩
  rw [coe_rightLoop, nestedLoop, ← Multiset.map_coe, ← Multiset.map_coe, Selection.map_product,
    Multiset.filter_map, Multiset.map_map]
  simp only [comparesTrue_eq hi hj]
  rfl

/-- The join of two tables without indexes raises or yields the pairs on which its
condition is true exactly when the condition is true of the pairs with equal keys. -/
theorem join_honours_operator_iff (catalog : Catalog τ) (leftNode rightNode : LogicalScan)
    (hleft : catalog.tables.get? leftNode.tableName = some left)
    (hright : catalog.tables.get? rightNode.tableName = some right)
    (hleftNode : leftNode.predicate = none ∧ leftNode.yieldRid = false)
    (hrightNode : rightNode.predicate = none ∧ rightNode.yieldRid = false)
    (hls : left.Holds ls) (hrs : right.Holds rs) (hleftIndices : left.indices = [])
    (hrightIndices : right.indices = []) (leftKey rightKey : String) (op : ComparisonOp) :
    HonoursOperator (plan catalog (.join (.scan leftNode) (.scan rightNode)
        (.comparison (.columnRef leftKey) op (.columnRef rightKey)))) left right ls rs leftKey rightKey op ↔
      ∀ l ∈ ls, ∀ r ∈ rs, (comparesTrue left right leftKey rightKey op (l, r) = true ↔
        comparesTrue left right leftKey rightKey .eq (l, r) = true) := by
  have hnone : right.indices.get? (lastPart rightKey) = none := by rw [hrightIndices]; rfl
  have hnone' : left.indices.get? (lastPart rightKey) = none := by rw [hleftIndices]; rfl
  rw [plan_join hleft hright hleftNode.1 hrightNode.1, hleftNode.2, hrightNode.2,
    joinOperators_hash hnone hnone']
  unfold HonoursOperator
  by_cases hkeys : (∃ i, left.scanSchema.getIndex leftKey = .ok i) ∧
      ∃ j, right.scanSchema.getIndex rightKey = .ok j
  · obtain ⟨⟨i, hi⟩, j, hj⟩ := hkeys
    obtain ⟨operator, rows, hopen, hcollect, hrows⟩ := collect_openHashJoin hls hrs hi hj
    have hselect := Selection.map_filter_eq_iff
      (factors_comparesTrue right rs hls leftKey rightKey op)
      (factors_comparesTrue right rs hls leftKey rightKey .eq)
    constructor
    · intro h l hl r hr
      obtain ⟨rows', hcollect', hrows'⟩ := h operator hopen
      obtain rfl := Except.ok.inj (hcollect.symm.trans hcollect')
      exact hselect.mp (hrows'.symm.trans hrows) (l, r) (Multiset.mem_product.mpr ⟨hl, hr⟩)
    · intro h operator' hopen'
      obtain rfl := Except.ok.inj (hopen.symm.trans hopen')
      refine ⟨rows, hcollect, hrows.trans (hselect.mpr fun pair hpair => ?_).symm⟩
      obtain ⟨hl, hr⟩ := Multiset.mem_product.mp hpair
      exact h pair.1 hl pair.2 hr
  · -- a key that is not found: opening the join raises, and the comparison is true of no pair
    have hfalse (op : ComparisonOp) (pair : Record × Record) :
        comparesTrue left right leftKey rightKey op pair = false := by
      unfold comparesTrue Expr.lookup
      cases hi : left.scanSchema.columnNames.get? leftKey with
      | none => rfl
      | some i =>
          cases hj : right.scanSchema.columnNames.get? rightKey with
          | none => simp
          | some j =>
              exact absurd ⟨⟨i, Schema.getIndex_eq_ok.mpr hi⟩, j, Schema.getIndex_eq_ok.mpr hj⟩ hkeys
    constructor
    · intro _ l _ r _
      rw [hfalse, hfalse]
    · intro _ operator hopen
      obtain ⟨i, j, _, hi, -, hj, -⟩ := openHashJoin_eq_ok hopen
      exact absurd ⟨⟨i, hi⟩, j, hj⟩ hkeys

end Comparisons

/-! ## A condition that is no equality -/

/-- A column `x` and one row. -/
def lowerLeft : Table EntryList := ⟨"a", ⟨[⟨"x", .int, none⟩]⟩, [((1, 0), [1, 0, 0, 0])], []⟩

def lowerRows : List Record := [⟨[.int 1], (1, 0)⟩]

theorem lowerLeft_holds : lowerLeft.Holds lowerRows := ⟨rfl, by decide⟩

def lowerCatalog : Catalog EntryList := ⟨[("a", lowerLeft), ("b", plainRight)]⟩

/-- `a JOIN b ON a.x op b.y` -/
def lowerJoin (op : ComparisonOp) : LogicalNode :=
  .join (.scan { tableName := "a" }) (.scan { tableName := "b" })
    (.comparison (.columnRef "a.x") op (.columnRef "b.y"))

/-- Of `a.x > b.y` no pair of the rows is true, and none has equal keys. -/
theorem join_honours_operator_iff_greater :
    HonoursOperator (plan lowerCatalog (lowerJoin .gt)) lowerLeft plainRight lowerRows rightRows "a.x" "b.y"
      .gt := by
  refine (join_honours_operator_iff lowerCatalog { tableName := "a" } { tableName := "b" } rfl rfl
    ⟨rfl, rfl⟩ ⟨rfl, rfl⟩ lowerLeft_holds plainRight_holds rfl rfl "a.x" "b.y" .gt).mpr ?_
  intro l hl r hr
  rw [List.mem_singleton.mp hl, List.mem_singleton.mp hr]
  decide +kernel

/-- Of `a.x < b.y` the pair of 1 and 2 is true, and the join yields no row. -/
theorem join_ignores_operator :
    lowerLeft.Holds lowerRows ∧ plainRight.Holds rightRows ∧
      comparesTrue lowerLeft plainRight "a.x" "b.y" .lt (⟨[.int 1], (1, 0)⟩, ⟨[.int 2], (1, 0)⟩) = true ∧
      ((plan lowerCatalog (lowerJoin .lt)).toOption.bind fun operator =>
        operator.next.collect.toOption) = some [] ∧
      ¬ HonoursOperator (plan lowerCatalog (lowerJoin .lt)) lowerLeft plainRight lowerRows rightRows
        "a.x" "b.y" .lt := by
  have hrun : ((plan lowerCatalog (lowerJoin .lt)).toOption.bind fun operator =>
      operator.next.collect.toOption) = some [] := by decide +kernel
  refine ⟨lowerLeft_holds, plainRight_holds, by decide +kernel, hrun, fun h => ?_⟩
  cases hplan : plan lowerCatalog (lowerJoin .lt) with
  | error e => simp [hplan, Except.toOption] at hrun
  | ok operator =>
      obtain ⟨rows, hcollect, hrows⟩ := h operator hplan
      rw [hplan] at hrun
      change operator.next.collect.toOption = _ at hrun
      rw [hcollect] at hrun
      obtain rfl := Option.some.inj hrun
      have hcard := congrArg Multiset.card hrows
      rw [Multiset.card_map] at hcard
      exact absurd hcard (by decide +kernel)

end PhysicalPlanner

end DBEngine
