import DBEngine.Execution.JoinSchemas
import DBEngine.Execution.Pushdown
import DBEngine.Execution.SelectedRows
import DBEngine.Execution.Statements

/-!
# The rows that a `DELETE` removes

A `DELETE` puts its whole predicate into the scan; a `SELECT` filters a scan, and the
optimizer pushes the conjuncts that mention one table into it.  Both read the same rows of
the table when the conjuncts that stay behind mention no column, which is the case for a
table whose name has no dot.
-/

set_option autoImplicit false

namespace DBEngine

namespace PhysicalPlanner

variable {τ : Type} {table : Table τ} {records : List Record}

/-! ## The rows that are read -/

/-- The choice of an index looks only at the conjuncts that are read as a comparison of a
column. -/
theorem chooseIndex_filter_reading (indices : Dict String (IndexMeta τ)) (conjuncts : List (Expr String)) :
    ∀ choice, chooseIndex indices (conjuncts.filter fun c => c.reading.isSome) choice =
      chooseIndex indices conjuncts choice := by
  induction conjuncts with
  | nil => exact fun _ => rfl
  | cons c rest ih =>
      intro choice
      rw [chooseIndex_cons indices c, List.filter_cons]
      cases hreading : c.reading with
      | none =>
          simp only [Option.isSome_none, Bool.false_eq_true, if_false]
          exact ih choice
      | some item =>
          simp only [Option.isSome_some, if_true]
          rw [chooseIndex_cons indices c, hreading]
          simp only [ih]

/-- The rows that a scan with the given conjuncts reads; nothing when no range can be made of
them, or when the index raises. -/
def rowsRead [IndexTree τ] (table : Table τ) (conjuncts : List (Expr String)) : Option (Record → Bool) :=
  match chooseIndex table.indices conjuncts none with
  | .error _ => none
  | .ok none => some fun _ => true
  | .ok (some found) =>
      match table.indices.get? found.indexCol, table.schema.columnNames.get? found.indexCol with
      | some index, some i =>
          match (lookupOf found.bounds).ask index.tree with
          | .ok _ => some fun record => (lookupOf found.bounds).visits (record.intAt i)
          | .error _ => none
      | _, _ => none

theorem rowsRead_congr [IndexTree τ] {conjuncts conjuncts' : List (Expr String)}
    (h : (conjuncts.filter fun c => c.reading.isSome) = conjuncts'.filter fun c => c.reading.isSome) :
    rowsRead table conjuncts = rowsRead table conjuncts' := by
  unfold rowsRead
  rw [← chooseIndex_filter_reading, h, chooseIndex_filter_reading]

/-- Whether a row is read depends on its values. -/
theorem rowsRead_values [IndexTree τ] {conjuncts : List (Expr String)} {reads : Record → Bool}
    (h : rowsRead table conjuncts = some reads) {r r' : Record} (hvalues : r.values = r'.values) :
    reads r = reads r' := by
  have hint : ∀ i, r.intAt i = r'.intAt i := fun i => by rw [Record.intAt, Record.intAt, hvalues]
  unfold rowsRead at h
  split at h
  · simp at h
  · obtain rfl := Option.some.inj h
    rfl
  · split at h
    · split at h
      · obtain rfl := Option.some.inj h
        simp only [hint]
      · simp at h
    · simp at h

/-- The conjuncts of a scan's predicate. -/
def conjunctsOf (predicate : Option (Expr String)) : List (Expr String) :=
  match predicate with
  | none => []
  | some p => p.splitConjuncts

/-- What holds of a predicate when it holds of its conjuncts. -/
theorem all_conjunctsOf {q : Expr String → Bool} (hand : ∀ l r, q (.and l r) = (q l && q r))
    (predicate : Option (Expr String)) : predicate.all q = (conjunctsOf predicate).all q := by
  cases predicate with
  | none => rfl
  | some p => exact Expr.eq_all_splitConjuncts hand p

theorem trueOn?_eq_all (schema : Schema) (row : List Value) (predicate : Option (Expr String)) :
    Expr.trueOn? schema row predicate = predicate.all fun e => e.TrueOn schema row := by
  cases predicate <;> rfl

/-- A planned scan yields what a scan of the rows that are read yields. -/
theorem answer_planScan_rowsRead [IndexTree τ] [Multimap τ] {catalog : Catalog τ} {node : LogicalScan}
    (hcatalog : catalog.tables.get? node.tableName = some table) (hrows : table.Holds records)
    (hindexed : table.Indexed records) : answerOf (planScan catalog node) =
      (rowsRead table (conjunctsOf node.predicate)).bind fun reads =>
        scanAnswer table.scanSchema node.predicate node.yieldRid
          ((records : Multiset Record).filter fun r => reads r = true) := by
  unfold rowsRead
  cases hp : node.predicate with
  | none =>
      rw [answer_planScan_whole hcatalog hrows (by simp [hp]), hp]
      simp [conjunctsOf, chooseIndex, pure, Except.pure]
  | some p =>
      rw [conjunctsOf]
      cases hchoice : chooseIndex table.indices p.splitConjuncts none with
      | error e =>
          have hfound : findIndexLookup table (some p) = .error e := by
            rw [findIndexLookup, hchoice]
            rfl
          rw [planScan_eq hcatalog, hp, hfound]
          rfl
      | ok choice =>
          cases choice with
          | none =>
              rw [answer_planScan_whole hcatalog hrows fun q hq => by
                obtain rfl := Option.some.inj (hp.symm.trans hq)
                exact hchoice, hp]
              simp
          | some found =>
              obtain ⟨_, -, hsome⟩ := findIndexLookup_some hchoice
              cases hget : table.indices.get? found.indexCol with
              | none =>
                  rw [findIndexLookup, hchoice] at hsome
                  simp [bind, Except.bind, hget, pure, Except.pure] at hsome
              | some index =>
                  have hfound : findIndexLookup table (some p) =
                      .ok (some (index.tree, found.bounds, Expr.combineConjuncts p.splitConjuncts)) := by
                    rw [findIndexLookup, hchoice]
                    simp only [bind, Except.bind, hget]
                    rfl
                  have hmem := Dict.mem_of_get? hget
                  obtain ⟨i, -, hi, -, -⟩ := hindexed.column _ hmem
                  simp only [hget, hi]
                  rw [planScan_eq hcatalog, hp, hfound]
                  change answerOf (Operator.openIndexScan table index.tree (lookupOf found.bounds)
                    (Expr.combineConjuncts p.splitConjuncts) node.yieldRid) = _
                  cases hask : (lookupOf found.bounds).ask index.tree with
                  | error e => exact answer_openIndexScan_error hask _ _
                  | ok rids =>
                      rw [answer_openIndexScan hrows hindexed hmem hi hask, scanAnswer_combine]
                      rfl

/-! ## Pushing into one scan -/

/-- A conjunct that mentions the table of a scan and no other. -/
def pushesInto (tableName : String) (c : Expr String) : Bool := c.referencedTables = [tableName]

theorem conjunctsOf_push (node : LogicalScan) (e : Expr String) :
    conjunctsOf (node.push e).predicate = conjunctsOf node.predicate ++ e.splitConjuncts := by
  rw [LogicalScan.push]
  cases node.predicate with
  | none => rfl
  | some p => rfl

theorem pushConjunct_scan (node : LogicalScan) (c : Expr String) :
    LogicalNode.pushConjunct (.scan node) c =
      if pushesInto node.tableName c = true then some (.scan (node.push c)) else none := by
  rw [LogicalNode.pushConjunct, pushesInto]
  split
  · rename_i name hname
    rw [LogicalNode.pushIntoScan, hname]
    simp [eq_comm]
  · rename_i hnot
    rw [if_neg]
    intro h
    exact hnot _ (of_decide_eq_true h)

/-- The loop of `push_filter` over one scan. -/
theorem pushConjuncts_scan (conjuncts : List (Expr String)) : ∀ node : LogicalScan,
    LogicalNode.pushConjuncts conjuncts (.scan node) =
      (.scan ((conjuncts.filter (pushesInto node.tableName)).foldl LogicalScan.push node),
        conjuncts.filter fun c => !pushesInto node.tableName c) := by
  induction conjuncts with
  | nil => exact fun _ => rfl
  | cons c rest ih =>
      intro node
      rw [LogicalNode.pushConjuncts, pushConjunct_scan, List.filter_cons, List.filter_cons]
      by_cases hc : pushesInto node.tableName c = true
      · simp only [hc, if_true, Bool.not_true, Bool.false_eq_true, if_false, List.foldl_cons]
        rw [ih, LogicalNode.tableName_push]
      · rw [Bool.not_eq_true] at hc
        simp only [hc, Bool.false_eq_true, if_false, Bool.not_false, if_true]
        rw [ih]

/-- What the scan has of the conjuncts pushed into it. -/
theorem foldl_push (conjuncts : List (Expr String)) : ∀ node : LogicalScan,
    (conjuncts.foldl LogicalScan.push node).tableName = node.tableName ∧
      (conjuncts.foldl LogicalScan.push node).yieldRid = node.yieldRid ∧
      conjunctsOf (conjuncts.foldl LogicalScan.push node).predicate =
        conjunctsOf node.predicate ++ conjuncts.flatMap Expr.splitConjuncts := by
  induction conjuncts with
  | nil => exact fun node => ⟨rfl, rfl, by simp⟩
  | cons c rest ih =>
      intro node
      obtain ⟨hname, hrid, hconjuncts⟩ := ih (node.push c)
      refine ⟨hname.trans (LogicalNode.tableName_push node c), hrid.trans ?_, ?_⟩
      · rw [LogicalScan.push]
        split <;> rfl
      · rw [List.foldl_cons, hconjuncts, conjunctsOf_push, List.append_assoc, List.flatMap_cons]

/-- A conjunct is not split any further. -/
theorem splitConjuncts_of_mem {p c : Expr String} (h : c ∈ p.splitConjuncts) : c.splitConjuncts = [c] := by
  induction p with
  | and left right ihl ihr => exact (List.mem_append.mp h).elim ihl ihr
  | columnRef _ => exact List.mem_singleton.mp h ▸ rfl
  | literal _ => exact List.mem_singleton.mp h ▸ rfl
  | comparison _ _ _ => exact List.mem_singleton.mp h ▸ rfl
  | or _ _ => exact List.mem_singleton.mp h ▸ rfl

theorem flatMap_splitConjuncts {p : Expr String} {conjuncts : List (Expr String)}
    (h : ∀ c ∈ conjuncts, c ∈ p.splitConjuncts) : conjuncts.flatMap Expr.splitConjuncts = conjuncts := by
  rw [List.flatMap_congr fun c hc => splitConjuncts_of_mem (h c hc), List.flatMap_singleton']

/-- What holds of all the conjuncts holds of those pushed and of those kept back. -/
theorem all_pushesInto (q : Expr String → Bool) (tableName : String) (conjuncts : List (Expr String)) :
    conjuncts.all q = ((conjuncts.filter (pushesInto tableName)).all q &&
      (conjuncts.filter fun c => !pushesInto tableName c).all q) := by
  induction conjuncts with
  | nil => rfl
  | cons c rest ih =>
      rw [List.all_cons, ih, List.filter_cons, List.filter_cons]
      by_cases hc : pushesInto tableName c = true
      · simp [hc, Bool.and_assoc]
      · simp [hc, Bool.and_left_comm]

/-! ## The rows of the two statements -/

/-- The scan of `DELETE FROM name WHERE p`. -/
def deleteScan (name : String) (p : Expr String) : LogicalScan :=
  { tableName := name, predicate := some p, yieldRid := true }

/-- The conjuncts of a predicate evaluate on every row. -/
def Evaluates (schema : Schema) (records : List Record) (p : Expr String) : Prop :=
  ∀ c ∈ p.splitConjuncts, ∀ r ∈ records, c.definedOn schema r.values = true

/-- A scan of some of the rows, with a predicate that evaluates on all of them. -/
theorem scanAnswer_evaluates {schema : Schema} {predicate : Option (Expr String)} {yieldRid : Bool}
    (hdefined : ∀ r ∈ records, predicate.all (fun e => e.definedOn schema r.values) = true)
    (reads : Record → Bool) :
    scanAnswer schema predicate yieldRid ((records : Multiset Record).filter fun r => reads r = true) =
      if predicate.all (fun e => e.binds schema) = true then
        some (((records : Multiset Record).filter fun r =>
          Expr.trueOn? schema r.values predicate = true ∧ reads r = true).map fun r => r.item yieldRid)
      else none := by
  unfold scanAnswer
  split
  · rw [emitAnswer, if_pos, Multiset.filter_filter]
    intro r hr
    exact hdefined r (Multiset.mem_filter.mp hr).1
  · rfl

section Answers

variable [IndexTree τ] [Multimap τ] {catalog : Catalog τ} {p : Expr String}

/-- A scan whose predicate evaluates on every row. -/
theorem answer_planScan_evaluates {node : LogicalScan}
    (hcatalog : catalog.tables.get? node.tableName = some table) (hrows : table.Holds records)
    (hindexed : table.Indexed records)
    (hdefined : ∀ r ∈ records, node.predicate.all (fun e => e.definedOn table.scanSchema r.values) = true) :
    answerOf (planScan catalog node) =
      if node.predicate.all (fun e => e.binds table.scanSchema) = true then
        (rowsRead table (conjunctsOf node.predicate)).map fun reads =>
          ((records : Multiset Record).filter fun r =>
            Expr.trueOn? table.scanSchema r.values node.predicate = true ∧ reads r = true).map
              fun r => r.item node.yieldRid
      else none := by
  rw [answer_planScan_rowsRead hcatalog hrows hindexed]
  cases rowsRead table (conjunctsOf node.predicate) with
  | none => rw [Option.bind_none, Option.map_none, ite_self]
  | some reads => exact scanAnswer_evaluates hdefined reads

omit [IndexTree τ] [Multimap τ] in
theorem Evaluates.definedOn (hp : Evaluates table.scanSchema records p) {r : Record} (hr : r ∈ records) :
    p.definedOn table.scanSchema r.values = true := by
  rw [Expr.eq_all_splitConjuncts (Expr.definedOn_and _ _), List.all_eq_true]
  exact fun c hc => hp c hc r hr

/-- What a `DELETE` asks its scan for. -/
theorem answer_deleteScan {name : String} (hcatalog : catalog.tables.get? name = some table)
    (hrows : table.Holds records) (hindexed : table.Indexed records)
    (hp : Evaluates table.scanSchema records p) :
    answerOf (planScan catalog (deleteScan name p)) =
      if p.binds table.scanSchema = true then
        (rowsRead table p.splitConjuncts).map fun reads => ((records : Multiset Record).filter fun r =>
          p.TrueOn table.scanSchema r.values = true ∧ reads r = true).map fun r => r.item true
      else none :=
  answer_planScan_evaluates hcatalog hrows hindexed fun _ hr => hp.definedOn hr

omit [Multimap τ] in
/-- A filter over a planned scan. -/
theorem answer_filter_planScan {node : LogicalScan}
    (hcatalog : catalog.tables.get? node.tableName = some table) (e : Expr String) :
    answerOf (plan catalog (.filter (.scan node) e)) =
      if e.binds table.scanSchema = true then (answerOf (planScan catalog node)).bind fun rows =>
        if ∀ row ∈ rows, e.definedOn table.scanSchema row = true then
          some (rows.filter fun row => e.TrueOn table.scanSchema row = true)
        else none
      else none := by
  rw [plan, plan]
  cases hplan : planScan catalog node with
  | error x =>
      change none = _
      split <;> rfl
  | ok child =>
      obtain ⟨table', htable, hschema⟩ := planScan_outputSchema hplan
      rw [Catalog.tableAt, hcatalog] at htable
      obtain rfl := Except.ok.inj htable
      exact answer_openFilter hschema e

/-- What a `SELECT` of all columns yields. -/
theorem answer_select {name : String} (hcatalog : catalog.tables.get? name = some table)
    (hrows : table.Holds records) (hindexed : table.Indexed records)
    (hp : Evaluates table.scanSchema records p) :
    answerOf (plan catalog (LogicalNode.filter (.scan { tableName := name }) p).pushDown) =
      if p.binds table.scanSchema = true then
        (rowsRead table (p.splitConjuncts.filter (pushesInto name))).map fun reads =>
          ((records : Multiset Record).filter fun r =>
            p.TrueOn table.scanSchema r.values = true ∧ reads r = true).map Record.values
      else none := by
  rw [LogicalNode.pushDown, LogicalNode.pushDown, LogicalNode.pushFilter, pushConjuncts_scan]
  obtain ⟨hname, hrid, hconjuncts⟩ :=
    foldl_push (p.splitConjuncts.filter (pushesInto name)) { tableName := name }
  rw [flatMap_splitConjuncts fun c hc => (List.mem_filter.mp hc).1] at hconjuncts
  generalize (p.splitConjuncts.filter (pushesInto name)).foldl LogicalScan.push { tableName := name } = node
    at hname hrid hconjuncts ⊢
  replace hconjuncts : conjunctsOf node.predicate = p.splitConjuncts.filter (pushesInto name) := hconjuncts
  generalize hkept : (p.splitConjuncts.filter fun c => !pushesInto name c) = kept
  -- what holds of the predicate holds of the scan's and of what is kept back
  have hboth : ∀ q : Expr String → Bool, (∀ l r, q (.and l r) = (q l && q r)) →
      p.splitConjuncts.all q = (node.predicate.all q && (Expr.combineConjuncts kept).all q) := by
    intro q hand
    rw [all_conjunctsOf hand, hconjuncts, Expr.combineConjuncts_eq_all hand, ← hkept, ← all_pushesInto]
  have hbinds : p.binds table.scanSchema =
      (node.predicate.all (fun e => e.binds table.scanSchema) &&
        (Expr.combineConjuncts kept).all fun e => e.binds table.scanSchema) := by
    rw [Expr.eq_all_splitConjuncts (Expr.binds_and _), hboth _ (Expr.binds_and _)]
  have htrue : ∀ row, p.TrueOn table.scanSchema row =
      (Expr.trueOn? table.scanSchema row node.predicate &&
        Expr.trueOn? table.scanSchema row (Expr.combineConjuncts kept)) := by
    intro row
    rw [Expr.trueOn_splitConjuncts, hboth _ (Expr.trueOn_and _ row), trueOn?_eq_all, trueOn?_eq_all]
  have hdefined : ∀ r ∈ records, (node.predicate.all (fun e => e.definedOn table.scanSchema r.values) &&
      (Expr.combineConjuncts kept).all fun e => e.definedOn table.scanSchema r.values) = true := by
    intro r hr
    rw [← hboth _ (Expr.definedOn_and _ _), List.all_eq_true]
    exact fun c hc => hp c hc r hr
  replace hcatalog : catalog.tables.get? node.tableName = some table := by rw [hname]; exact hcatalog
  have hchild := answer_planScan_evaluates hcatalog hrows hindexed
    fun r hr => (Bool.and_eq_true_iff.mp (hdefined r hr)).1
  rw [hconjuncts, hrid] at hchild
  change answerOf (plan catalog (match Expr.combineConjuncts kept with
    | none => .scan node
    | some combined => .filter (.scan node) combined)) = _
  cases hcombined : Expr.combineConjuncts kept with
  | none =>
      simp only [hcombined, Option.all_none, Bool.and_true, Expr.trueOn?] at hbinds htrue
      simp only [hbinds, htrue]
      exact hchild
  | some combined =>
      rw [hcombined] at hbinds hdefined htrue
      rw [answer_filter_planScan hcatalog, hchild]
      by_cases hpushed : node.predicate.all (fun e => e.binds table.scanSchema) = true
      · by_cases hrest : combined.binds table.scanSchema = true
        · rw [if_pos hrest, if_pos hpushed, if_pos (by rw [hbinds, hpushed, Option.all_some, hrest]; rfl)]
          cases rowsRead table (p.splitConjuncts.filter (pushesInto name)) with
          | none => rfl
          | some reads =>
              rw [Option.map_some, Option.map_some, Option.bind_some, if_pos, Multiset.filter_map,
                Multiset.filter_filter]
              · have hsame : ∀ r ∈ (records : Multiset Record),
                    (combined.TrueOn table.scanSchema r.values = true ∧
                        Expr.trueOn? table.scanSchema r.values node.predicate = true ∧ reads r = true ↔
                      p.TrueOn table.scanSchema r.values = true ∧ reads r = true) := by
                  intro r _
                  rw [htrue, Bool.and_eq_true, ← and_assoc, and_comm (a := Expr.TrueOn _ _ combined = true)]
                  rfl
                refine congrArg some ?_
                rw [← Multiset.filter_congr hsame]
                rfl
              · intro row hrow
                obtain ⟨r, hr, rfl⟩ := Multiset.mem_map.mp hrow
                exact (Bool.and_eq_true_iff.mp (hdefined r (Multiset.mem_filter.mp hr).1)).2
        · rw [if_neg hrest, if_neg (by rw [hbinds, Option.all_some]; simp [hrest])]
      · rw [if_neg hpushed, Option.bind_none, ite_self, if_neg (by rw [hbinds]; simp [hpushed])]

end Answers

/-! ## Which conjuncts are pushed -/

theorem plain_firstPart (name : String) : Plain (firstPart name) := by
  intro h
  rw [firstPart, String.toList_ofList] at h
  simpa using List.mem_takeWhile_imp h

theorem plain_of_mem_referencedTables {e : Expr String} {name : String}
    (h : name ∈ e.referencedTables) : Plain name := by
  induction e with
  | columnRef column => exact List.mem_singleton.mp h ▸ plain_firstPart column
  | literal value => simp [Expr.referencedTables] at h
  | comparison left op right ihl ihr => exact (List.mem_union_iff.mp h).elim ihl ihr
  | and left right ihl ihr => exact (List.mem_union_iff.mp h).elim ihl ihr
  | or left right ihl ihr => exact (List.mem_union_iff.mp h).elim ihl ihr

/-- Nothing is pushed into the scan of a table whose name has a dot. -/
theorem filter_pushesInto_of_not_plain {name : String} (h : ¬ Plain name) (conjuncts : List (Expr String)) :
    conjuncts.filter (pushesInto name) = [] := by
  refine List.filter_eq_nil_iff.mpr fun c _ hc => h ?_
  have hc : c.referencedTables = [name] := of_decide_eq_true hc
  exact plain_of_mem_referencedTables (hc ▸ List.mem_singleton_self name)

/-- A comparison that is read and can be bound mentions the table. -/
theorem pushesInto_of_reading {c : Expr String} (hplain : Plain table.tableName)
    (hbinds : c.binds table.scanSchema = true) (hreading : c.reading.isSome = true) :
    pushesInto table.tableName c = true := by
  have hname : ∀ {name : String}, (∃ i, table.scanSchema.getIndex name = .ok i) →
      firstPart name = table.tableName := by
    rintro name ⟨i, hi⟩
    obtain ⟨column, hcolumn, rfl⟩ := Schema.getElem?_of_columnNames (Schema.getIndex_eq_ok.mp hi)
    obtain ⟨column, -, rfl⟩ := List.mem_map.mp (List.mem_of_getElem? hcolumn)
    exact firstPart_qualified hplain column.name
  have hbound : ∃ e, c.bind table.scanSchema = .ok e := by
    rw [Expr.binds] at hbinds
    cases hbind : c.bind table.scanSchema with
    | ok e => exact ⟨e, rfl⟩
    | error x => simp [hbind] at hbinds
  obtain ⟨e, he⟩ := hbound
  unfold Expr.reading at hreading
  split at hreading
  · rename_i left op right
    obtain ⟨left', hleft, he⟩ := bind_eq_ok.mp he
    obtain ⟨right', hright, -⟩ := bind_eq_ok.mp he
    unfold asColAndLiteral at hreading
    split at hreading
    · obtain ⟨i, hi, -⟩ := bind_eq_ok.mp hleft
      refine decide_eq_true ?_
      simp [Expr.referencedTables, hname ⟨i, hi⟩]
    · obtain ⟨i, hi, -⟩ := bind_eq_ok.mp hright
      refine decide_eq_true ?_
      simp [Expr.referencedTables, hname ⟨i, hi⟩]
    · simp at hreading
  · simp at hreading

/-- What stays behind of a predicate on a table whose name has no dot is not read. -/
theorem rowsRead_pushed [IndexTree τ] {p : Expr String} (hplain : Plain table.tableName)
    (hbinds : p.binds table.scanSchema = true) :
    rowsRead table (p.splitConjuncts.filter (pushesInto table.tableName)) =
      rowsRead table p.splitConjuncts := by
  apply rowsRead_congr
  rw [List.filter_filter]
  refine List.filter_congr fun c hc => ?_
  rw [Expr.eq_all_splitConjuncts (Expr.binds_and _), List.all_eq_true] at hbinds
  cases hreading : c.reading.isSome with
  | false => rfl
  | true => rw [pushesInto_of_reading hplain (hbinds c hc) hreading, Bool.true_and]

end PhysicalPlanner

/-! ## The two statements -/

namespace Database

open PhysicalPlanner

variable {τ : Type} [IndexTree τ] {catalog : Catalog τ} {table : Table τ} {records : List Record}
  {condition : SqlExpr} {p : Expr String}

/-- `SELECT * FROM name WHERE condition` -/
def selectAll (name : String) (condition : SqlExpr) : SqlSelect :=
  { fromTable := { name := name }, whereClause := some condition }

/-- A `DELETE` with a condition deletes the rows that a `SELECT` with the condition shows, no
others, and counts them, and the indexes agree with what is left; it raises when the `SELECT`
does. -/
def DeletesShown [Multimap τ] (catalog : Catalog τ) (name : String) (records : List Record) (condition : SqlExpr) : Prop :=
  match select catalog (selectAll name condition), delete catalog ⟨name, some condition⟩ with
  | .ok (rows, _), .ok (table', message) =>
      rows.Perm ((records.filter fun r => r.values ∈ rows).map Record.values) ∧
        message = rowsAffected (records.filter fun r => r.values ∈ rows).length ∧
        table'.Holds (records.filter fun r => r.values ∉ rows) ∧
        table'.Indexed (records.filter fun r => r.values ∉ rows)
  | .error _, .error _ => True
  | _, _ => False

theorem toOption_select (hp : LogicalPlanner.planExpression (some table.tableName) condition = .ok p) :
    (select catalog (selectAll table.tableName condition)).toOption.map
        (fun result => (result.1 : Multiset (List Value))) =
      answerOf (plan catalog (LogicalNode.filter (.scan { tableName := table.tableName }) p).pushDown) := by
  have hplan : LogicalPlanner.planSelect (selectAll table.tableName condition) =
      .ok (.filter (.scan { tableName := table.tableName }) p) := by
    simp only [LogicalPlanner.planSelect, selectAll, hp]
    rfl
  rw [select, hplan]
  change Option.map _ (Except.toOption (plan catalog _ >>= _)) = _
  unfold answerOf Generator.answer
  cases plan catalog (LogicalNode.filter (.scan { tableName := table.tableName }) p).pushDown with
  | error e => rfl
  | ok operator =>
      change Option.map _ (Except.toOption (operator.next.collect >>= _)) =
        operator.next.collect.toOption.map Multiset.ofList
      cases operator.next.collect <;> rfl

/-- What becomes of a `DELETE` once its scan is planned. -/
theorem delete_eq (hcatalog : catalog.tables.get? table.tableName = some table)
    (hp : LogicalPlanner.planExpression (some table.tableName) condition = .ok p) :
    delete catalog ⟨table.tableName, some condition⟩ =
      planScan catalog (deleteScan table.tableName p) >>=
        fun child => child.executeDelete table := by
  have hplan : LogicalPlanner.planDelete ⟨table.tableName, some condition⟩ =
      .ok ⟨.scan (deleteScan table.tableName p), table.tableName⟩ := by
    simp only [LogicalPlanner.planDelete, hp]
    rfl
  have htable : catalog.tableAt table.tableName = .ok table := by
    rw [Catalog.tableAt, hcatalog]
  rw [delete, hplan]
  change (catalog.tableAt table.tableName >>= _) = _
  rw [htable]
  rfl

theorem mapM_asRid (gone : List Record) :
    (gone.map fun r => r.item true).mapM asRid = .ok (gone.map Record.rid) := by
  refine mapM_eq_ok.mpr ?_
  induction gone with
  | nil => exact .nil
  | cons record gone ih => exact .cons rfl ih

/-- A `DELETE` whose scan yields the record ids of some rows deletes these. -/
theorem delete_selected [Multimap τ] (hcatalog : catalog.tables.get? table.tableName = some table)
    (hrows : table.Holds records) (hindexed : table.Indexed records)
    (hp : LogicalPlanner.planExpression (some table.tableName) condition = .ok p) {selected : Record → Bool}
    (hanswer : answerOf (planScan catalog (deleteScan table.tableName p)) =
      some (((records : Multiset Record).filter fun r => selected r = true).map fun r => r.item true)) :
    ∃ table', delete catalog ⟨table.tableName, some condition⟩ =
        .ok (table', rowsAffected (records.filter selected).length) ∧
      table'.Holds (records.filter fun r => !selected r) ∧
      table'.Indexed (records.filter fun r => !selected r) := by
  rw [delete_eq hcatalog hp]
  cases hplan : planScan catalog (deleteScan table.tableName p) with
  | error e =>
      rw [hplan] at hanswer
      simp [answerOf, Except.toOption] at hanswer
  | ok child =>
      rw [hplan] at hanswer
      change child.next.collect.toOption.map Multiset.ofList = _ at hanswer
      obtain ⟨items, hitems, hcoe⟩ := Option.map_eq_some_iff.mp hanswer
      obtain ⟨gone, rfl, hgone⟩ := Selection.exists_map_eq hcoe
      have hperm : gone.Perm (records.filter selected) := by
        rw [← Multiset.coe_eq_coe, hgone, Multiset.filter_coe]
        simp
      have hcollect : child.next.collect = .ok (gone.map fun r => r.item true) := by
        cases hc : child.next.collect with
        | error e => simp [hc, Except.toOption] at hitems
        | ok items =>
            rw [hc] at hitems
            rw [Option.some.inj hitems]
      have hmem : ∀ r, r ∈ gone ↔ r ∈ records ∧ selected r = true := fun r =>
        hperm.mem_iff.trans List.mem_filter
      have hnodup : (gone.map Record.rid).Nodup :=
        (hperm.map Record.rid).nodup_iff.mpr (hrows.nodup_rid.sublist (List.filter_sublist.map _))
      obtain ⟨table', htable', hkept⟩ := hrows.foldlM_delete gone hindexed
        (fun r hr => ((hmem r).mp hr).1) hnodup
      have hothers : (records.filter fun r => r.rid ∉ gone.map Record.rid) =
          records.filter fun r => !selected r := by
        refine List.filter_congr fun r hr => ?_
        have hgone : r.rid ∈ gone.map Record.rid ↔ selected r = true := by
          constructor
          · intro h
            obtain ⟨g, hg, hrid⟩ := List.mem_map.mp h
            obtain ⟨hg, hselected⟩ := (hmem g).mp hg
            exact List.inj_on_of_nodup_map hrows.nodup_rid hg hr hrid ▸ hselected
          · intro h
            exact List.mem_map_of_mem ((hmem r).mpr ⟨hr, h⟩)
        simp [hgone]
      refine ⟨table', ?_, hothers ▸ hkept⟩
      change (child.next.collect >>= _) = _
      rw [hcollect]
      change ((gone.map fun r => r.item true).mapM asRid >>= _) = _
      rw [mapM_asRid]
      change ((gone.map Record.rid).foldlM Table.delete table >>= _) = _
      rw [htable']
      change Except.ok (table', rowsAffected (gone.map Record.rid).length) = _
      rw [List.length_map, hperm.length_eq]

/-- A `DELETE` whose scan raises raises. -/
theorem delete_raises (hcatalog : catalog.tables.get? table.tableName = some table)
    (hp : LogicalPlanner.planExpression (some table.tableName) condition = .ok p)
    (hanswer : answerOf (planScan catalog (deleteScan table.tableName p)) =
      none) : ∃ e, delete catalog ⟨table.tableName, some condition⟩ = .error e := by
  rw [delete_eq hcatalog hp]
  cases hplan : planScan catalog (deleteScan table.tableName p) with
  | error e => exact ⟨e, rfl⟩
  | ok child =>
      rw [hplan] at hanswer
      change child.next.collect.toOption.map Multiset.ofList = none at hanswer
      cases hcollect : child.next.collect with
      | error e =>
          refine ⟨e, ?_⟩
          change (child.next.collect >>= _) = _
          rw [hcollect]
          rfl
      | ok items => simp [hcollect, Except.toOption] at hanswer

/-- The rows with the values of rows that are shown are the rows that are shown. -/
theorem filter_mem_values {rows : List (List Value)} {selected : Record → Bool}
    (hvalues : ∀ r r' : Record, r.values = r'.values → selected r = selected r')
    (hrows : (rows : Multiset (List Value)) =
      ((records : Multiset Record).filter fun r => selected r = true).map Record.values) {r : Record}
    (hr : r ∈ records) : r.values ∈ rows ↔ selected r = true := by
  rw [← Multiset.mem_coe, hrows, Multiset.mem_map]
  constructor
  · rintro ⟨r', hr', hsame⟩
    rw [← hvalues r' r hsame]
    exact (Multiset.mem_filter.mp hr').2
  · intro hselected
    exact ⟨r, Multiset.mem_filter.mpr ⟨hr, hselected⟩, rfl⟩

/-- When both statements read the rows, the rows shown are deleted exactly if both statements
read the same of the rows that the condition is true of. -/
theorem deletesShown_iff_reads [Multimap τ] (hcatalog : catalog.tables.get? table.tableName = some table)
    (hrows : table.Holds records) (hindexed : table.Indexed records)
    (hp : LogicalPlanner.planExpression (some table.tableName) condition = .ok p)
    (hevaluates : Evaluates table.scanSchema records p) (hbinds : p.binds table.scanSchema = true)
    {shows reads : Record → Bool}
    (hshows : rowsRead table (p.splitConjuncts.filter (pushesInto table.tableName)) = some shows)
    (hreads : rowsRead table p.splitConjuncts = some reads) :
    DeletesShown catalog table.tableName records condition ↔
      ∀ r ∈ records, p.TrueOn table.scanSchema r.values = true → (shows r = true ↔ reads r = true) := by
  have hshown := answer_select hcatalog hrows hindexed hevaluates
  rw [if_pos hbinds, hshows, Option.map_some, ← toOption_select hp] at hshown
  obtain ⟨⟨rows, schema⟩, hselect, hcoe⟩ := Option.map_eq_some_iff.mp hshown
  have hscan := answer_deleteScan hcatalog hrows hindexed hevaluates
  rw [if_pos hbinds, hreads, Option.map_some] at hscan
  -- the rows of both statements as tests of a row
  have htest : ∀ reads : Record → Bool, ((records : Multiset Record).filter fun r =>
      p.TrueOn table.scanSchema r.values = true ∧ reads r = true) =
        (records : Multiset Record).filter fun r =>
          (p.TrueOn table.scanSchema r.values && reads r) = true := fun reads =>
    Multiset.filter_congr fun r _ => (Bool.and_eq_true _ _).to_iff.symm
  rw [htest] at hcoe hscan
  obtain ⟨table', hdelete, hholds, hindexed'⟩ := delete_selected hcatalog hrows hindexed hp hscan
  have hvalues : ∀ r r' : Record, r.values = r'.values →
      (p.TrueOn table.scanSchema r.values && shows r) = (p.TrueOn table.scanSchema r'.values && shows r') :=
    fun r r' h => by rw [h, rowsRead_values hshows h]
  have hmem : ∀ r ∈ records, (r.values ∈ rows ↔ (p.TrueOn table.scanSchema r.values && shows r) = true) :=
    fun r hr => filter_mem_values hvalues hcoe hr
  unfold DeletesShown
  cases hselected : select catalog (selectAll table.tableName condition) with
  | error e => simp [hselected, Except.toOption] at hselect
  | ok result =>
      rw [hselected] at hselect
      obtain rfl := Option.some.inj hselect
      rw [hdelete]
      have hshow : (records.filter fun r => r.values ∈ rows) =
          records.filter fun r => p.TrueOn table.scanSchema r.values && shows r :=
        List.filter_congr fun r hr => by rw [← Bool.decide_coe (_ && _)]; exact decide_eq_decide.mpr (hmem r hr)
      have hkeep : (records.filter fun r => r.values ∉ rows) =
          records.filter fun r => !(p.TrueOn table.scanSchema r.values && shows r) := by
        refine List.filter_congr fun r hr => ?_
        rw [decide_not, ← Bool.decide_coe (_ && _)]
        exact congrArg _ (decide_eq_decide.mpr (hmem r hr))
      constructor
      · rintro ⟨-, -, hleft, -⟩
        rw [hkeep] at hleft
        have hsame := Except.ok.inj (hleft.scan.symm.trans hholds.scan)
        intro r hr htrue
        have hr' : (r ∈ records.filter fun r => !(p.TrueOn table.scanSchema r.values && shows r)) ↔
            r ∈ records.filter fun r => !(p.TrueOn table.scanSchema r.values && reads r) := by rw [hsame]
        simpa [List.mem_filter, hr, htrue, not_iff_not] using hr'
      · intro h
        have hboth : ∀ r ∈ records, (p.TrueOn table.scanSchema r.values && shows r) =
            (p.TrueOn table.scanSchema r.values && reads r) := by
          intro r hr
          cases htrue : p.TrueOn table.scanSchema r.values with
          | false => rfl
          | true => exact Bool.eq_iff_iff.mpr (h r hr htrue)
        have hdeleted := List.filter_congr hboth
        have hothers : (records.filter fun r => !(p.TrueOn table.scanSchema r.values && shows r)) =
            records.filter fun r => !(p.TrueOn table.scanSchema r.values && reads r) :=
          List.filter_congr fun r hr => by rw [hboth r hr]
        refine ⟨?_, ?_, ?_, ?_⟩
        · rw [hshow, ← Multiset.coe_eq_coe, hcoe, ← Multiset.map_coe, Multiset.filter_coe]
          simp
        · rw [hshow, hdeleted]
        · rw [hkeep, hothers]
          exact hholds
        · rw [hkeep, hothers]
          exact hindexed'

/-- A `DELETE` that raises does so when the `SELECT` does. -/
theorem deletesShown_iff_raises [Multimap τ] (hcatalog : catalog.tables.get? table.tableName = some table)
    (hp : LogicalPlanner.planExpression (some table.tableName) condition = .ok p)
    (hscan : answerOf (planScan catalog (deleteScan table.tableName p)) = none) :
    DeletesShown catalog table.tableName records condition ↔ answerOf (plan catalog
      (LogicalNode.filter (.scan { tableName := table.tableName }) p).pushDown) = none := by
  obtain ⟨e, hdelete⟩ := delete_raises hcatalog hp hscan
  rw [← toOption_select hp, DeletesShown, hdelete]
  cases select catalog (selectAll table.tableName condition) with
  | error x => exact iff_of_true trivial rfl
  | ok result => exact iff_of_false id (by simp [Except.toOption])

/-- A `DELETE` deletes what a `SELECT` with the same condition shows exactly if the name of the
table has no dot, or every row that the condition is true of is in the range of keys read off the
whole condition. -/
theorem deletesShown_iff [Multimap τ] (hcatalog : catalog.tables.get? table.tableName = some table)
    (hrows : table.Holds records) (hindexed : table.Indexed records)
    (hp : LogicalPlanner.planExpression (some table.tableName) condition = .ok p)
    (hevaluates : Evaluates table.scanSchema records p) :
    DeletesShown catalog table.tableName records condition ↔
      Plain table.tableName ∨ (p.binds table.scanSchema = true → ∃ reads,
        rowsRead table p.splitConjuncts = some reads ∧
          ∀ r ∈ records, p.TrueOn table.scanSchema r.values = true → reads r = true) := by
  have hshown := answer_select hcatalog hrows hindexed hevaluates
  have hscan := answer_deleteScan hcatalog hrows hindexed hevaluates
  by_cases hbinds : p.binds table.scanSchema = true
  · rw [if_pos hbinds] at hshown hscan
    cases hreads : rowsRead table p.splitConjuncts with
    | some reads =>
        by_cases hplain : Plain table.tableName
        · have hshows := (rowsRead_pushed hplain hbinds).trans hreads
          rw [deletesShown_iff_reads hcatalog hrows hindexed hp hevaluates hbinds hshows hreads]
          exact iff_of_true (fun _ _ _ => Iff.rfl) (.inl hplain)
        · have hshows : rowsRead table (p.splitConjuncts.filter (pushesInto table.tableName)) =
              some fun _ => true := by
            rw [filter_pushesInto_of_not_plain hplain]
            rfl
          rw [deletesShown_iff_reads hcatalog hrows hindexed hp hevaluates hbinds hshows hreads]
          simp [hplain, hbinds]
    | none =>
        rw [hreads] at hscan
        rw [deletesShown_iff_raises hcatalog hp hscan, hshown]
        by_cases hplain : Plain table.tableName
        · rw [rowsRead_pushed hplain hbinds, hreads]
          exact iff_of_true rfl (.inl hplain)
        · rw [filter_pushesInto_of_not_plain hplain]
          refine iff_of_false (by simp [rowsRead, chooseIndex, pure, Except.pure]) ?_
          rintro (h | h)
          · exact hplain h
          · obtain ⟨_, hsome, -⟩ := h hbinds
            simp at hsome
  · rw [if_neg hbinds] at hshown hscan
    rw [deletesShown_iff_raises hcatalog hp hscan, hshown]
    exact iff_of_true rfl (.inr fun h => absurd h hbinds)

/-- `k > TRUE` -/
def aboveTrue : SqlExpr := .comparison .gt (.column "" ⟨"k", false⟩) (.boolean true)

theorem deletesShown_iff_six : DeletesShown sixCatalog "t" sixRows aboveTrue := by
  have hplan : LogicalPlanner.planExpression (some sixTable.tableName) aboveTrue =
      .ok (.comparison (.columnRef "t.k") .gt (.literal (.bool true))) := by decide +kernel
  refine (deletesShown_iff rfl sixTable_holds sixTable_indexed hplan ?_).mpr (.inl (by decide +kernel))
  intro c hc r hr
  rw [List.mem_singleton.mp hc, List.mem_singleton.mp hr]
  decide +kernel

/-- `TRUE < k` -/
def trueBelow : SqlExpr := .comparison .lt (.boolean true) (.column "" ⟨"k", false⟩)

/-- The same table under a name with a dot. -/
def dottedCatalog : Catalog EntryList := ⟨[("a.b", { sixTable with tableName := "a.b" })]⟩

/-- The scan of the `DELETE` reads `TRUE < k` as `k < TRUE`, the `SELECT` reads every row. -/
example : (select dottedCatalog (selectAll "a.b" trueBelow)).toOption.map Prod.fst = some [[.int 6]] ∧
    (delete dottedCatalog ⟨"a.b", some trueBelow⟩).toOption.map Prod.snd = some "Rows affected: 0" := by
  decide +kernel

end Database

end DBEngine
