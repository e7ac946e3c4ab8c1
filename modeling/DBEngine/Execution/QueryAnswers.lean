import DBEngine.Execution.EquiJoins
import DBEngine.Execution.Pushdown
import DBEngine.Execution.Statements
import DBEngine.Execution.WellTyped

/-!
# The answer of a query

Over tables without indexes a well-typed `SELECT` never raises, and what the planner, the
optimizer and the operators make of it yields the rows that its logical plan stands for, of any
number of joins.
-/

set_option autoImplicit false

namespace DBEngine

/-! ## Types under names -/

namespace Schema

theorem typeOf_append_left {left right : List Column} {name : String}
    (hname : ∀ column ∈ right, column.name ≠ name) : typeOf ⟨left ++ right⟩ name = typeOf ⟨left⟩ name := by
  rw [typeOf, typeOf, get?_columnNames_two, get?_columnNames_eq_none.mpr hname]
  cases hleft : (columnNames ⟨left⟩).get? name with
  | none => rfl
  | some i =>
      obtain ⟨column, hcolumn, -⟩ := getElem?_of_columnNames hleft
      have hi := (List.getElem?_eq_some_iff.mp hcolumn).1
      exact congrArg (Option.map Column.type) (List.getElem?_append_left hi)

theorem typeOf_append_right {left right : List Column} {name : String}
    (hname : ∀ column ∈ left, column.name ≠ name) : typeOf ⟨left ++ right⟩ name = typeOf ⟨right⟩ name := by
  rw [typeOf, typeOf, get?_columnNames_two, get?_columnNames_eq_none.mpr hname]
  cases hright : (columnNames ⟨right⟩).get? name with
  | none => rfl
  | some i =>
      change ((left ++ right)[left.length + i]?).map Column.type = (right[i]?).map Column.type
      rw [List.getElem?_append_right (by omega), Nat.add_sub_cancel_left]

theorem exists_getIndex_of_typeOf {schema : Schema} {name : String} (h : (schema.typeOf name).isSome = true) :
    ∃ i, schema.getIndex name = .ok i := by
  unfold typeOf at h
  cases hname : schema.columnNames.get? name with
  | none => simp [hname] at h
  | some i => exact ⟨i, getIndex_eq_ok.mpr hname⟩

end Schema

namespace Expr

variable {schema schema' : Schema}

/-- Kinds and types are a matter of the types under the names. -/
theorem kind?_congr {e : Expr String} (h : ∀ name ∈ e.names, schema.typeOf name = schema'.typeOf name) :
    e.kind? schema = e.kind? schema' := by
  induction e with
  | columnRef name => rw [kind?, kind?, h name (by simp [names])]
  | literal value => rfl
  | comparison left op right _ _ => rfl
  | and left right ihl ihr =>
      rw [kind?, kind?, ihl fun name hname => h name (by simp [names, hname]),
        ihr fun name hname => h name (by simp [names, hname])]
  | or left right ihl ihr =>
      rw [kind?, kind?, ihl fun name hname => h name (by simp [names, hname]),
        ihr fun name hname => h name (by simp [names, hname])]

theorem wellTyped_congr {e : Expr String} (h : ∀ name ∈ e.names, schema.typeOf name = schema'.typeOf name) :
    e.wellTyped schema = e.wellTyped schema' := by
  induction e with
  | columnRef name => rw [wellTyped, wellTyped, h name (by simp [names])]
  | literal value => rfl
  | comparison left op right ihl ihr =>
      have hl : ∀ name ∈ left.names, schema.typeOf name = schema'.typeOf name :=
        fun name hname => h name (by simp [names, hname])
      have hr : ∀ name ∈ right.names, schema.typeOf name = schema'.typeOf name :=
        fun name hname => h name (by simp [names, hname])
      rw [wellTyped, wellTyped, ihl hl, ihr hr, kind?_congr hl, kind?_congr hr]
  | and left right ihl ihr =>
      rw [wellTyped, wellTyped, ihl fun name hname => h name (by simp [names, hname]),
        ihr fun name hname => h name (by simp [names, hname])]
  | or left right ihl ihr =>
      rw [wellTyped, wellTyped, ihl fun name hname => h name (by simp [names, hname]),
        ihr fun name hname => h name (by simp [names, hname])]

end Expr

/-! ## Well-typed plans -/

namespace LogicalNode

variable {contents : Contents}

/-- The predicates and the select lists of a plan are well-typed, and every join is on an
equality between a column of its left side, which its right side has no column for, and a
column of its right side. -/
def WellTyped (contents : Contents) : LogicalNode → Prop
  | scan node => node.yieldRid = false ∧
      node.predicate.all (Expr.wellTyped ⟨scanColumns contents node.tableName⟩) = true
  | filter child predicate => child.WellTyped contents ∧
      predicate.wellTyped ⟨child.columns contents⟩ = true
  | projection child projections => child.WellTyped contents ∧
      ∀ item ∈ projections, item.1.wellTyped ⟨child.columns contents⟩ = true
  | join left right condition => left.WellTyped contents ∧ right.WellTyped contents ∧
      ∃ l r, condition = .comparison (.columnRef l) .eq (.columnRef r) ∧
        (Schema.typeOf ⟨left.columns contents⟩ l).isSome = true ∧
        (Schema.typeOf ⟨right.columns contents⟩ r).isSome = true ∧
        ∀ column ∈ right.columns contents, column.name ≠ l

/-- The rows of every table have the types of its columns. -/
def RowsTyped (contents : Contents) : Prop :=
  ∀ name, ∀ row ∈ (contents name).rows, (contents name).schema.Fits row

/-- The rows that a plan stands for have the types of its columns. -/
theorem fits_of_mem_rows (htyped : RowsTyped contents) {node : LogicalNode} (hnode : node.Unprojected) :
    ∀ {row : List Value}, row ∈ node.rows contents → Schema.Fits ⟨node.columns contents⟩ row := by
  induction node with
  | scan node =>
      intro row hrow
      have hfits := htyped _ row (List.mem_filter.mp hrow).1
      rw [Schema.Fits, columns, scanColumns, List.forall₂_map_left_iff]
      exact hfits
  | filter child predicate ih =>
      intro row hrow
      exact ih hnode (List.mem_filter.mp hrow).1
  | projection child _ _ => exact hnode.elim
  | join left right condition ihl ihr =>
      intro row hrow
      obtain ⟨l, hl, hrow⟩ := List.mem_flatMap.mp hrow
      obtain ⟨r, hr, rfl⟩ := List.mem_map.mp (List.mem_filter.mp hrow).1
      exact (ihl hnode.1 hl).append (ihr hnode.2 hr)

/-! ## Pushing well-typed predicates -/

variable {table : String} {e : Expr String}

/-- A well-typed predicate on one table is pushed into a well-typed plan. -/
theorem wellTyped_pushIntoScan {node : LogicalNode} (hnode : node.Unprojected)
    (hplain : ∀ name ∈ node.scanned, Plain name) (hnodup : node.scanned.Nodup)
    (hnames : ∀ name ∈ e.names, firstPart name = table) (htyped : node.WellTyped contents)
    (he : e.wellTyped ⟨node.columns contents⟩ = true) : ∀ {node' : LogicalNode},
    node.pushIntoScan table e = some node' → node'.WellTyped contents := by
  induction node with
  | scan node =>
      intro node' h
      rw [pushIntoScan] at h
      split at h
      · obtain rfl := Option.some.inj h
        refine ⟨?_, ?_⟩
        · rw [LogicalScan.push]
          split <;> exact htyped.1
        · have hpredicate := htyped.2
          rw [tableName_push]
          rw [LogicalScan.push]
          cases hp : node.predicate with
          | none => exact he
          | some p =>
              rw [hp] at hpredicate
              exact Bool.and_eq_true_iff.mpr ⟨hpredicate, he⟩
      · simp at h
  | filter child predicate ih =>
      intro node' h
      obtain ⟨child', hchild, rfl⟩ := Option.map_eq_some_iff.mp h
      refine ⟨ih hnode hplain hnodup htyped.1 he hchild, ?_⟩
      rw [(pushIntoScan_shape hchild).2.1]
      exact htyped.2
  | projection child projections ih => exact hnode.elim
  | join left right condition ihl ihr =>
      intro node' h
      rw [scanned] at hplain hnodup
      obtain ⟨hnodupl, hnodupr, hdisjoint⟩ := List.nodup_append.mp hnodup
      have hplainl : ∀ name ∈ left.scanned, Plain name := fun name hname =>
        hplain name (List.mem_append_left _ hname)
      have hplainr : ∀ name ∈ right.scanned, Plain name := fun name hname =>
        hplain name (List.mem_append_right _ hname)
      obtain ⟨hl, hr, l, r, hcondition, hltype, hrtype, hapart⟩ := htyped
      rw [pushIntoScan] at h
      split at h
      · rename_i left' hleft
        obtain rfl := Option.some.inj h
        have htable : table ∈ left.scanned := by
          by_contra hnot
          rw [pushIntoScan_eq_none.mpr hnot] at hleft
          simp at hleft
        have hright : table ∉ right.scanned := fun hmem => hdisjoint table htable table hmem rfl
        have hel : e.wellTyped ⟨left.columns contents⟩ = true := by
          rw [← he]
          refine (Expr.wellTyped_congr fun name hname => ?_).symm
          exact Schema.typeOf_append_left (name_ne_of_not_scanned hnode.2 hplainr hright (hnames name hname))
        refine ⟨ihl hnode.1 hplainl hnodupl hl hel hleft, hr, l, r, hcondition, ?_, hrtype, hapart⟩
        rw [(pushIntoScan_shape hleft).2.1]
        exact hltype
      · rename_i hnone
        obtain ⟨right', hright, rfl⟩ := Option.map_eq_some_iff.mp h
        have hleft : table ∉ left.scanned := pushIntoScan_eq_none.mp hnone
        have her : e.wellTyped ⟨right.columns contents⟩ = true := by
          rw [← he]
          refine (Expr.wellTyped_congr fun name hname => ?_).symm
          exact Schema.typeOf_append_right (name_ne_of_not_scanned hnode.1 hplainl hleft (hnames name hname))
        have hcolumns : right'.columns contents = right.columns contents := (pushIntoScan_shape hright).2.1
        refine ⟨hl, ihr hnode.2 hplainr hnodupr hr her hright, l, r, hcondition, hltype, ?_, ?_⟩
        · rw [hcolumns]
          exact hrtype
        · rw [hcolumns]
          exact hapart

theorem wellTyped_pushConjunct {node node' : LogicalNode} (hnode : node.Unprojected)
    (hplain : ∀ name ∈ node.scanned, Plain name) (hnodup : node.scanned.Nodup)
    (htyped : node.WellTyped contents) (he : e.wellTyped ⟨node.columns contents⟩ = true)
    (h : node.pushConjunct e = some node') : node'.WellTyped contents := by
  rw [pushConjunct] at h
  split at h
  · rename_i table htables
    refine wellTyped_pushIntoScan hnode hplain hnodup (fun name hname => ?_) htyped he h
    exact List.mem_singleton.mp (htables ▸ Expr.firstPart_mem_referencedTables hname)
  · simp at h

/-- The loop of `push_filter` leaves a well-typed plan, and keeps back some of its conjuncts. -/
theorem wellTyped_pushConjuncts (conjuncts : List (Expr String)) : ∀ {node : LogicalNode},
    node.Unprojected → (∀ name ∈ node.scanned, Plain name) → node.scanned.Nodup → node.WellTyped contents →
      (∀ c ∈ conjuncts, c.wellTyped ⟨node.columns contents⟩ = true) →
        (pushConjuncts conjuncts node).1.WellTyped contents ∧
          ∀ c ∈ (pushConjuncts conjuncts node).2, c ∈ conjuncts := by
  induction conjuncts with
  | nil => exact fun _ _ _ htyped _ => ⟨htyped, fun _ hc => hc⟩
  | cons conjunct rest ih =>
      intro node hnode hplain hnodup htyped hconjuncts
      have hrest : ∀ c ∈ rest, c.wellTyped ⟨node.columns contents⟩ = true :=
        fun c hc => hconjuncts c (List.mem_cons_of_mem _ hc)
      rw [pushConjuncts]
      split
      · rename_i node' hpush
        obtain ⟨hscanned, hcolumns, hunprojected⟩ := pushConjunct_shape contents hpush
        have htyped' := wellTyped_pushConjunct hnode hplain hnodup htyped
          (hconjuncts conjunct List.mem_cons_self) hpush
        obtain ⟨hnext, hkept⟩ := ih (hunprojected hnode) (hscanned ▸ hplain) (hscanned ▸ hnodup) htyped'
          (hcolumns.symm ▸ hrest)
        exact ⟨hnext, fun c hc => List.mem_cons_of_mem _ (hkept c hc)⟩
      · obtain ⟨hnext, hkept⟩ := ih hnode hplain hnodup htyped hrest
        refine ⟨hnext, fun c hc => ?_⟩
        rcases List.mem_cons.mp hc with rfl | hc
        · exact List.mem_cons_self
        · exact List.mem_cons_of_mem _ (hkept c hc)

theorem wellTyped_pushFilter {child : LogicalNode} {predicate : Expr String} (hchild : child.Unprojected)
    (hplain : ∀ name ∈ child.scanned, Plain name) (hnodup : child.scanned.Nodup)
    (htyped : child.WellTyped contents) (hpredicate : predicate.wellTyped ⟨child.columns contents⟩ = true) :
    (pushFilter child predicate).WellTyped contents := by
  have hand : ∀ l r : Expr String, (l.and r).wellTyped ⟨child.columns contents⟩ =
      (l.wellTyped ⟨child.columns contents⟩ && r.wellTyped ⟨child.columns contents⟩) := fun _ _ => rfl
  rw [Expr.eq_all_splitConjuncts hand, List.all_eq_true] at hpredicate
  obtain ⟨hnext, hkept⟩ := wellTyped_pushConjuncts predicate.splitConjuncts hchild hplain hnodup htyped hpredicate
  obtain ⟨-, hcolumns, -⟩ := pushConjuncts_shape contents predicate.splitConjuncts child
  rw [pushFilter]
  simp only
  split
  · exact hnext
  · rename_i combined hcombined
    refine ⟨hnext, ?_⟩
    have hall := Expr.combineConjuncts_eq_all hand (pushConjuncts predicate.splitConjuncts child).2
    rw [hcombined, Option.all_some] at hall
    rw [hcolumns, hall, List.all_eq_true]
    exact fun c hc => hpredicate c (hkept c hc)

/-- `push_down` leaves a well-typed plan without projections well-typed, with the same rows. -/
theorem pushDown_wellTyped {node : LogicalNode} (hnode : node.Unprojected)
    (hplain : ∀ name ∈ node.scanned, Plain name) (hnodup : node.scanned.Nodup)
    (htyped : node.WellTyped contents) :
    node.pushDown.WellTyped contents ∧ node.pushDown.rows contents = node.rows contents := by
  induction node with
  | scan node => exact ⟨htyped, rfl⟩
  | filter child predicate ih =>
      obtain ⟨hscanned, hcolumns, hunprojected⟩ := pushDown_shape contents child hnode
      obtain ⟨hchild, hrows⟩ := ih hnode hplain hnodup htyped.1
      rw [pushDown]
      constructor
      · refine wellTyped_pushFilter hunprojected (hscanned ▸ hplain) (hscanned ▸ hnodup) hchild ?_
        rw [hcolumns]
        exact htyped.2
      · rw [rows_pushFilter predicate hunprojected (hscanned ▸ hplain) (hscanned ▸ hnodup), rows, rows,
          hcolumns, hrows]
  | projection child projections ih => exact hnode.elim
  | join left right condition ihl ihr =>
      rw [scanned] at hplain hnodup
      obtain ⟨hnodupl, hnodupr, -⟩ := List.nodup_append.mp hnodup
      obtain ⟨hl, hr, l, r, hcondition, hltype, hrtype, hapart⟩ := htyped
      obtain ⟨hl', hrowsl⟩ := ihl hnode.1 (fun name hname => hplain name (List.mem_append_left _ hname))
        hnodupl hl
      obtain ⟨hr', hrowsr⟩ := ihr hnode.2 (fun name hname => hplain name (List.mem_append_right _ hname))
        hnodupr hr
      have hcolumnsl := (pushDown_shape contents left hnode.1).2.1
      have hcolumnsr := (pushDown_shape contents right hnode.2).2.1
      refine ⟨⟨hl', hr', l, r, hcondition, ?_, ?_, ?_⟩, ?_⟩
      · rw [hcolumnsl]
        exact hltype
      · rw [hcolumnsr]
        exact hrtype
      · rw [hcolumnsr]
        exact hapart
      · rw [pushDown, rows, rows, hrowsl, hrowsr, hcolumnsl, hcolumnsr]

end LogicalNode

/-! ## What the operators yield -/

namespace PhysicalPlanner

variable {τ : Type} [IndexTree τ] {catalog : Catalog τ} {contents : Contents}

/-- A table of the catalog without indexes, whose rows are the contents under its name. -/
def Shows (catalog : Catalog τ) (contents : Contents) (name : String) : Prop :=
  ∃ (table : Table τ) (records : List Record), catalog.tables.get? name = some table ∧
    table.tableName = name ∧ table.indices = [] ∧ table.Holds records ∧
      table.schema = (contents name).schema ∧ records.map Record.values = (contents name).rows

/-- An operator that yields given rows, in some order, under the given columns. -/
def Yields (planned : Except PyErr (Operator τ)) (columns : List Column) (rows : List (List Value)) : Prop :=
  ∃ (operator : Operator τ) (answer : List (List Value)), planned = .ok operator ∧
    operator.outputSchema = ⟨columns⟩ ∧ operator.next.collect = .ok answer ∧ answer.Perm rows

theorem yields_of_answer {planned : Except PyErr (Operator τ)} {columns : List Column}
    {rows : List (List Value)} (hanswer : answerOf planned = some (rows : Multiset (List Value)))
    (hcolumns : ∀ operator, planned = .ok operator → operator.outputSchema = ⟨columns⟩) :
    Yields planned columns rows := by
  cases hplanned : planned with
  | error e => simp [hplanned, answerOf, Except.toOption] at hanswer
  | ok operator =>
      rw [hplanned] at hanswer
      change operator.next.collect.toOption.map Multiset.ofList = _ at hanswer
      cases hcollect : operator.next.collect with
      | error e => simp [hcollect, Except.toOption] at hanswer
      | ok answer =>
          rw [hcollect] at hanswer
          exact ⟨operator, answer, rfl, hcolumns operator hplanned, hcollect,
            Multiset.coe_eq_coe.mp (Option.some.inj hanswer)⟩

theorem Yields.answer {planned : Except PyErr (Operator τ)} {columns : List Column}
    {rows : List (List Value)} (h : Yields planned columns rows) :
    answerOf planned = some (rows : Multiset (List Value)) := by
  obtain ⟨operator, answer, rfl, -, hcollect, hperm⟩ := h
  change operator.next.collect.toOption.map Multiset.ofList = _
  rw [hcollect]
  exact congrArg some (Multiset.coe_eq_coe.mpr hperm)

omit [IndexTree τ] in
/-- The columns of a scan. -/
theorem scanSchema_eq {table : Table τ} {name : String} (hname : table.tableName = name)
    (hschema : table.schema = (contents name).schema) :
    table.scanSchema = ⟨LogicalNode.scanColumns contents name⟩ := by
  rw [Table.scanSchema, LogicalNode.scanColumns, hname, hschema]

omit [IndexTree τ] in
/-- Without indexes none is chosen. -/
theorem chooseIndex_nil (conjuncts : List (Expr String)) :
    chooseIndex ([] : Dict String (IndexMeta τ)) conjuncts none = .ok none := by
  have hnone : indexColumn ([] : Dict String (IndexMeta τ)) conjuncts = none := by
    induction conjuncts with
    | nil => rfl
    | cons c rest ih =>
        rw [indexColumn]
        split
        · rw [if_neg (by simp [Dict.has])]
          exact ih
        · exact ih
  rw [chooseIndex_none, hnone]

/-- Without indexes a scan reads the whole table, and a predicate that is well-typed does not
raise. -/
theorem yields_planScan {node : LogicalScan} {table : Table τ} {records : List Record}
    (hcatalog : catalog.tables.get? node.tableName = some table) (hindices : table.indices = [])
    (hholds : table.Holds records) (hfits : ∀ r ∈ records, table.schema.Fits r.values)
    (htyped : node.predicate.all (Expr.wellTyped table.scanSchema) = true) :
    Yields (planScan catalog node) table.scanSchema.columns ((records.filter fun r =>
      Expr.trueOn? table.scanSchema r.values node.predicate).map fun r => r.item node.yieldRid) := by
  apply yields_of_answer
  · rw [answer_planScan_whole hcatalog hholds fun p _ => by rw [hindices, chooseIndex_nil]]
    have hbinds : node.predicate.all (fun e => e.binds table.scanSchema) = true := by
      cases hp : node.predicate with
      | none => rfl
      | some p =>
          rw [hp] at htyped
          exact Expr.binds_of_wellTyped htyped
    have hdefined : ∀ r ∈ (records : Multiset Record), node.predicate.all (fun e =>
        e.definedOn table.scanSchema r.values) = true := by
      intro r hr
      cases hp : node.predicate with
      | none => rfl
      | some p =>
          rw [hp] at htyped
          exact Expr.definedOn_of_wellTyped htyped (Table.fits_scanSchema.mpr (hfits r hr))
    rw [scanAnswer, if_pos hbinds, emitAnswer, if_pos hdefined, Multiset.filter_coe, Multiset.map_coe]
    simp only [Bool.decide_eq_true]
  · intro operator hoperator
    obtain ⟨table', htable, hscan⟩ := planScan_outputSchema hoperator
    rw [Catalog.tableAt, hcatalog] at htable
    obtain rfl := Except.ok.inj htable
    exact hscan

/-- A scan yields the rows that it stands for. -/
theorem yields_scan {node : LogicalScan} (htyped : (LogicalNode.scan node).WellTyped contents)
    (hshows : Shows catalog contents node.tableName) (hrows : LogicalNode.RowsTyped contents) :
    Yields (planScan catalog node) ((LogicalNode.scan node).columns contents)
      ((LogicalNode.scan node).rows contents) := by
  obtain ⟨table, records, hcatalog, hname, hindices, hholds, hschema, hvalues⟩ := hshows
  have hcolumns := scanSchema_eq hname hschema
  have hfits : ∀ r ∈ records, table.schema.Fits r.values := by
    intro r hr
    have hmem : r.values ∈ (contents node.tableName).rows := hvalues ▸ List.mem_map_of_mem hr
    exact hschema ▸ hrows _ _ hmem
  have hall : (LogicalNode.scan node).rows contents = (records.filter fun r =>
      Expr.trueOn? table.scanSchema r.values node.predicate).map fun r => r.item node.yieldRid := by
    rw [LogicalNode.rows, ← hvalues, List.filter_map, hcolumns, htyped.1]
    rfl
  have hyields := yields_planScan hcatalog hindices hholds hfits (hcolumns ▸ htyped.2)
  rwa [← hall, hcolumns] at hyields

/-- A filter keeps the rows that its predicate is true of. -/
theorem yields_filter {child : Operator τ} {columns : List Column} {rows : List (List Value)} {e : Expr String}
    (hchild : Yields (.ok child) columns rows) (he : e.wellTyped ⟨columns⟩ = true)
    (hfits : ∀ row ∈ rows, Schema.Fits ⟨columns⟩ row) :
    Yields (Operator.openFilter child e) columns (rows.filter fun row => e.TrueOn ⟨columns⟩ row) := by
  have hanswer := hchild.answer
  obtain ⟨_, _, hsame, hcolumns, -⟩ := hchild
  obtain rfl := Except.ok.inj hsame
  replace hanswer : Generator.answer child.next = some (rows : Multiset (List Value)) := hanswer
  have hdefined : ∀ row ∈ (rows : Multiset (List Value)), e.definedOn ⟨columns⟩ row = true :=
    fun row hrow => Expr.definedOn_of_wellTyped he (hfits row hrow)
  apply yields_of_answer
  · rw [answer_openFilter hcolumns, if_pos (Expr.binds_of_wellTyped he), hanswer, Option.bind_some,
      if_pos hdefined, Multiset.filter_coe]
    simp only [Bool.decide_eq_true]
  · intro operator hoperator
    obtain ⟨bound, -, hoperator⟩ := bind_eq_ok.mp hoperator
    obtain rfl := Except.ok.inj hoperator
    exact hcolumns

/-- The rows that a select list makes of some rows. -/
def projected (columns : List Column) (projections : List (Expr String × String))
    (rows : List (List Value)) : List (List Value) :=
  rows.filterMap fun row => projections.mapM fun item => item.1.valueIn ⟨columns⟩ row

theorem mapM_eq_some {α β : Type} {f : α → Option β} {as : List α} {bs : List β}
    (h : List.Forall₂ (fun a b => f a = some b) as bs) : as.mapM f = some bs := by
  induction h with
  | nil => rfl
  | cons hb _ ih =>
      rw [List.mapM_cons, hb, ih]
      rfl

/-- A projection evaluates its select list on every row. -/
theorem yields_projection {child : Operator τ} {columns : List Column} {rows : List (List Value)}
    {projections : List (Expr String × String)} (hchild : Yields (.ok child) columns rows)
    (htyped : ∀ item ∈ projections, item.1.wellTyped ⟨columns⟩ = true)
    (hfits : ∀ row ∈ rows, Schema.Fits ⟨columns⟩ row) :
    Yields (Operator.openProjection child projections)
      (Operator.buildOutputSchema ⟨columns⟩ projections).columns (projected columns projections rows) := by
  obtain ⟨_, answer, hsame, hcolumns, hcollect, hperm⟩ := hchild
  obtain rfl := Except.ok.inj hsame
  have hbinds : ∀ item ∈ projections, ∃ bound, item.1.bind ⟨columns⟩ = .ok bound :=
    fun item hitem => Expr.exists_bind_of_wellTyped (htyped item hitem)
  obtain ⟨expressions, hbind⟩ := exists_mapM_eq_ok.mpr hbinds
  have hopen : Operator.openProjection child projections =
      .ok (.projection child expressions (Operator.buildOutputSchema ⟨columns⟩ projections)) := by
    rw [Operator.openProjection, hcolumns, hbind]
    rfl
  have hvalues : ∀ row ∈ answer, ∃ values, expressions.mapM (Expr.evaluate row) = .ok values ∧
      projections.mapM (fun item => item.1.valueIn ⟨columns⟩ row) = some values := by
    intro row hrow
    have hfit := hfits row (hperm.mem_iff.mp hrow)
    have hdefined : ∀ item ∈ projections, ∃ value, item.1.valueIn ⟨columns⟩ row = some value :=
      fun item hitem => (Expr.valueIn_of_wellTyped (htyped item hitem) hfit).imp fun _ h => h.1
    have hexists : ∃ values, List.Forall₂ (fun (item : Expr String × String) value =>
        item.1.valueIn ⟨columns⟩ row = some value) projections values := exists_forall₂.mpr hdefined
    obtain ⟨values, hall⟩ := hexists
    exact ⟨values, (Operator.mapM_evaluate_eq_ok hbind).mpr hall, mapM_eq_some hall⟩
  let project : List Value → Option (List Value) := fun row =>
    projections.mapM fun item => item.1.valueIn ⟨columns⟩ row
  refine ⟨_, answer.flatMap fun row => (project row).toList, hopen, rfl, ?_, ?_⟩
  · rw [Operator.next]
    refine Generator.collect_forEach_ok hcollect fun row hrow => ?_
    obtain ⟨values, hevaluate, hvalue⟩ := hvalues row hrow
    have hproject : project row = some values := hvalue
    rw [hevaluate, hproject]
    rfl
  · rw [projected, List.filterMap_eq_flatMap_toList]
    exact hperm.flatMap_right _

/-- The pairs of two lists of rows with equal values in two columns. -/
theorem coe_flatMap_pairs (i j : Nat) (lefts rights : List (List Value)) (p : List Value → Bool)
    (hp : ∀ l ∈ lefts, ∀ r ∈ rights, p (l ++ r) = equalAt i j l r) :
    ((lefts.flatMap fun l => (rights.map fun r => l ++ r).filter p : List (List Value)) :
      Multiset (List Value)) = nestedLoop i j lefts rights := by
  have hloop := Selection.bind_filter_map (lefts : Multiset (List Value)) (rights : Multiset (List Value))
    (fun l r => equalAt i j l r = true) fun l r => l ++ r
  rw [← Multiset.coe_bind, nestedLoop, ← hloop]
  refine Multiset.bind_congr fun l hl => ?_
  have hsame : ((rights.map fun r => l ++ r).filter p) = (rights.filter fun r => equalAt i j l r).map fun r => l ++ r := by
    rw [List.filter_map]
    exact congrArg _ (List.filter_congr fun r hr => hp l hl r hr)
  rw [hsame, Multiset.filter_coe, Multiset.map_coe]
  simp only [Bool.decide_eq_true]

/-- A join yields the pairs that its condition is true of. -/
theorem yields_join {left right : Operator τ} {leftColumns rightColumns : List Column}
    {lefts rights : List (List Value)} {l r : String} (hleft : Yields (.ok left) leftColumns lefts)
    (hright : Yields (.ok right) rightColumns rights)
    (hl : (Schema.typeOf ⟨leftColumns⟩ l).isSome = true)
    (hr : (Schema.typeOf ⟨rightColumns⟩ r).isSome = true)
    (hapart : ∀ column ∈ rightColumns, column.name ≠ l)
    (hlefts : ∀ row ∈ lefts, Schema.Fits ⟨leftColumns⟩ row)
    (hrights : ∀ row ∈ rights, Schema.Fits ⟨rightColumns⟩ row) :
    Yields (Operator.openHashJoin left l right r) (leftColumns ++ rightColumns)
      (lefts.flatMap fun l' => (rights.map fun r' => l' ++ r').filter fun row =>
        Expr.TrueOn ⟨leftColumns ++ rightColumns⟩ row (.comparison (.columnRef l) .eq (.columnRef r))) := by
  obtain ⟨_, answer, hsame, hleftSchema, hcollect, hperm⟩ := hleft
  obtain rfl := Except.ok.inj hsame
  obtain ⟨_, answer', hsame, hrightSchema, hcollect', hperm'⟩ := hright
  obtain rfl := Except.ok.inj hsame
  obtain ⟨i, hi⟩ := Schema.exists_getIndex_of_typeOf hl
  obtain ⟨j, hj⟩ := Schema.exists_getIndex_of_typeOf hr
  have hwidth : ∀ {columns : List Column} {rows rows' : List (List Value)} {name : String} {k : Nat},
      rows'.Perm rows → (∀ row ∈ rows, Schema.Fits ⟨columns⟩ row) →
        Schema.getIndex ⟨columns⟩ name = .ok k → ∀ row ∈ rows', k < row.length := by
    intro columns rows rows' name k hperm hfits hk row hrow
    obtain ⟨column, hcolumn, -⟩ := Schema.getElem?_of_columnNames (Schema.getIndex_eq_ok.mp hk)
    rw [← List.Forall₂.length_eq (hfits row (hperm.mem_iff.mp hrow))]
    exact (List.getElem?_eq_some_iff.mp hcolumn).1
  obtain ⟨operator, hopen, hschema, hrows⟩ := Operator.collect_hashJoin (hleftSchema ▸ hi) (hrightSchema ▸ hj)
    hcollect hcollect' (hwidth hperm hlefts hi) (hwidth hperm' hrights hj)
  rw [hleftSchema, hrightSchema] at hschema
  refine ⟨operator, _, hopen, hschema, hrows, ?_⟩
  have hcondition : ∀ l' ∈ lefts, ∀ r' ∈ rights, Expr.TrueOn ⟨leftColumns ++ rightColumns⟩ (l' ++ r')
      (.comparison (.columnRef l) .eq (.columnRef r)) = equalAt i j l' r' := by
    intro l' hl' r' hr'
    have hlength : l'.length = leftColumns.length := (List.Forall₂.length_eq (hlefts l' hl')).symm
    have hlookup : Expr.lookup ⟨leftColumns ++ rightColumns⟩ (l' ++ r') l = l'[i]? := by
      rw [Expr.lookup_append_left hlength hapart, Expr.lookup, Schema.getIndex_eq_ok.mp hi]
    have hlookup' : Expr.lookup ⟨leftColumns ++ rightColumns⟩ (l' ++ r') r = r'[j]? := by
      rw [Expr.lookup, Schema.get?_columnNames_two, Schema.getIndex_eq_ok.mp hj]
      change (l' ++ r')[leftColumns.length + j]? = r'[j]?
      rw [← hlength, List.getElem?_append_right (by omega), Nat.add_sub_cancel_left]
    rw [Expr.trueOn_eq, Expr.valueIn, Expr.valueIn, Expr.valueIn, hlookup, hlookup', equalAt]
    cases l'[i]? with
    | none => rfl
    | some a => cases r'[j]? <;> rfl
  rw [← Multiset.coe_eq_coe, coe_rightLoop, coe_flatMap_pairs i j lefts rights _ hcondition,
    Multiset.coe_eq_coe.mpr hperm, Multiset.coe_eq_coe.mpr hperm']

omit [IndexTree τ] in
/-- The table that a join looks for indexes in has none. -/
theorem exists_tableOf {node : LogicalNode} (hshows : ∀ name ∈ node.scanned, Shows catalog contents name) :
    ∃ table, tableOf catalog node = .ok table ∧ table.indices = [] := by
  induction node with
  | scan node =>
      obtain ⟨table, _, hcatalog, -, hindices, -⟩ := hshows node.tableName (by simp [LogicalNode.scanned])
      exact ⟨table, by rw [tableOf, Catalog.getTable, hcatalog], hindices⟩
  | filter child predicate ih => exact ih hshows
  | projection child projections ih => exact ih hshows
  | join left right condition ihl _ =>
      exact ihl fun name hname => hshows name (by simp [LogicalNode.scanned, hname])

/-- What is planned of a well-typed plan without projections yields the rows it stands for. -/
theorem yields_plan (hrows : LogicalNode.RowsTyped contents) {node : LogicalNode} (hnode : node.Unprojected)
    (hshows : ∀ name ∈ node.scanned, Shows catalog contents name) (htyped : node.WellTyped contents) :
    Yields (plan catalog node) (node.columns contents) (node.rows contents) := by
  induction node with
  | scan node => exact yields_scan htyped (hshows _ (by simp [LogicalNode.scanned])) hrows
  | filter child predicate ih =>
      have hchild := ih hnode hshows htyped.1
      obtain ⟨operator, answer, hplan, hrest⟩ := hchild
      have hunprojected : child.Unprojected := hnode
      have hfits : ∀ row ∈ child.rows contents, Schema.Fits ⟨child.columns contents⟩ row :=
        fun _ hrow => LogicalNode.fits_of_mem_rows hrows hunprojected hrow
      rw [plan, hplan]
      exact yields_filter ⟨operator, answer, rfl, hrest⟩ htyped.2 hfits
  | projection child _ _ => exact hnode.elim
  | join left right condition ihl ihr =>
      have hshowsl : ∀ name ∈ left.scanned, Shows catalog contents name :=
        fun name hname => hshows name (by simp [LogicalNode.scanned, hname])
      have hshowsr : ∀ name ∈ right.scanned, Shows catalog contents name :=
        fun name hname => hshows name (by simp [LogicalNode.scanned, hname])
      obtain ⟨hl, hr, l, r, rfl, hltype, hrtype, hapart⟩ := htyped
      obtain ⟨leftOperator, lefts, hplanl, hleft⟩ := ihl hnode.1 hshowsl hl
      obtain ⟨rightOperator, rights, hplanr, hright⟩ := ihr hnode.2 hshowsr hr
      obtain ⟨leftTable, hleftTable, hleftIndices⟩ := exists_tableOf hshowsl
      obtain ⟨rightTable, hrightTable, hrightIndices⟩ := exists_tableOf hshowsr
      have hplan : plan catalog (.join left right (.comparison (.columnRef l) .eq (.columnRef r))) =
          Operator.openHashJoin leftOperator l rightOperator r := by
        simp only [plan, hplanl, hplanr, hleftTable, hrightTable]
        exact joinOperators_hash (by rw [hrightIndices]; rfl) (by rw [hleftIndices]; rfl)
      rw [hplan]
      exact yields_join ⟨leftOperator, lefts, rfl, hleft⟩ ⟨rightOperator, rights, rfl, hright⟩ hltype hrtype
        hapart (fun row hrow => LogicalNode.fits_of_mem_rows hrows hnode.1 hrow)
        fun row hrow => LogicalNode.fits_of_mem_rows hrows hnode.2 hrow

end PhysicalPlanner

/-! ## Statements -/

namespace LogicalPlanner

/-- The joins of a statement give a plan without projections. -/
theorem unprojected_foldlM (joins : List SqlJoin) : ∀ {plan tree : LogicalNode}, plan.Unprojected →
    joins.foldlM planJoin plan = .ok tree → tree.Unprojected := by
  induction joins with
  | nil =>
      intro plan tree hplan h
      obtain rfl := Except.ok.inj h
      exact hplan
  | cons join joins ih =>
      intro plan tree hplan h
      rw [List.foldlM_cons] at h
      obtain ⟨next, hnext, h⟩ := bind_eq_ok.mp h
      refine ih ?_ h
      rw [planJoin] at hnext
      split at hnext
      · simp at hnext
      · obtain ⟨condition, -, hnext⟩ := bind_eq_ok.mp hnext
        obtain rfl := Except.ok.inj hnext
        exact ⟨hplan, trivial⟩

/-- A `SELECT` is planned as scans, joins and filters, under one projection at most. -/
theorem planSelect_shape {node : SqlSelect} {tree : LogicalNode} (h : planSelect node = .ok tree) :
    tree.Unprojected ∨ ∃ child projections, tree = .projection child projections ∧ child.Unprojected ∧
      planProjections (some node.fromTable.name) node.expressions = .ok (some projections) := by
  obtain ⟨joined, hjoins, h⟩ := bind_eq_ok.mp h
  have hfrom : (planFrom node.fromTable).Unprojected := trivial
  have hjoined := unprojected_foldlM node.joins hfrom hjoins
  have hprojected : ∀ {plan : LogicalNode} {finish : Option (List (Expr String × String)) → Except PyErr LogicalNode},
      plan.Unprojected → finish none = pure plan →
      (∀ projections, finish (some projections) = pure (plan.projection projections)) →
      (planProjections (some node.fromTable.name) node.expressions >>= finish) = .ok tree →
      tree.Unprojected ∨ ∃ child projections, tree = .projection child projections ∧ child.Unprojected ∧
        planProjections (some node.fromTable.name) node.expressions = .ok (some projections) := by
    intro plan finish hnode hnone hsome h
    obtain ⟨projections, hprojections, h⟩ := bind_eq_ok.mp h
    cases projections with
    | none => exact .inl (Except.ok.inj (hnone.symm.trans h) ▸ hnode)
    | some projections =>
        exact .inr ⟨plan, projections, (Except.ok.inj ((hsome projections).symm.trans h)).symm, hnode, hprojections⟩
  cases hwhere : node.whereClause with
  | none =>
      rw [hwhere] at h
      exact hprojected hjoined rfl (fun _ => rfl) h
  | some condition =>
      rw [hwhere] at h
      obtain ⟨predicate, -, h⟩ := bind_eq_ok.mp h
      have hfilter : (LogicalNode.filter joined predicate).Unprojected := hjoined
      exact hprojected hfilter rfl (fun _ => rfl) h

end LogicalPlanner

namespace Database

open PhysicalPlanner

variable {τ : Type} [IndexTree τ]

/-- What is planned of a well-typed `SELECT` yields the rows that its logical plan stands for. -/
theorem yields_select {catalog : Catalog τ} {contents : Contents} {node : SqlSelect} {tree : LogicalNode}
    (hplan : LogicalPlanner.planSelect node = .ok tree) (hplain : ∀ name ∈ tree.scanned, Plain name)
    (hnodup : tree.scanned.Nodup) (hshows : ∀ name ∈ tree.scanned, Shows catalog contents name)
    (hrows : LogicalNode.RowsTyped contents) (htyped : tree.WellTyped contents) :
    Yields (plan catalog tree.pushDown) (tree.columns contents) (tree.rows contents) := by
  have hinner : ∀ {tree : LogicalNode}, tree.Unprojected → (∀ name ∈ tree.scanned, Plain name) →
      tree.scanned.Nodup → (∀ name ∈ tree.scanned, Shows catalog contents name) →
      tree.WellTyped contents →
        Yields (plan catalog tree.pushDown) (tree.columns contents) (tree.rows contents) := by
    intro tree hnode hplain hnodup hshows htyped
    obtain ⟨hpushed, hsame⟩ := LogicalNode.pushDown_wellTyped hnode hplain hnodup htyped
    obtain ⟨hscanned, hcolumns, hunprojected⟩ := LogicalNode.pushDown_shape contents tree hnode
    rw [← hcolumns, ← hsame]
    exact yields_plan hrows hunprojected (hscanned ▸ hshows) hpushed
  rcases LogicalPlanner.planSelect_shape hplan with hnode | ⟨child, projections, rfl, hnode, -⟩
  · exact hinner hnode hplain hnodup hshows htyped
  · obtain ⟨operator, answer, hchild, hrest⟩ := hinner hnode hplain hnodup hshows htyped.1
    rw [LogicalNode.pushDown, plan, hchild]
    exact yields_projection ⟨operator, answer, rfl, hrest⟩ htyped.2 fun row hrow =>
      LogicalNode.fits_of_mem_rows hrows hnode hrow

/-- A well-typed `SELECT` over different tables without indexes does not raise, and yields the
rows that its logical plan stands for, under the columns of that plan. -/
theorem select_yields_rows (catalog : Catalog τ) (contents : Contents) (node : SqlSelect)
    (tree : LogicalNode) (hplan : LogicalPlanner.planSelect node = .ok tree)
    (hplain : ∀ name ∈ tree.scanned, Plain name) (hnodup : tree.scanned.Nodup)
    (hshows : ∀ name ∈ tree.scanned, Shows catalog contents name)
    (hrows : LogicalNode.RowsTyped contents) (htyped : tree.WellTyped contents) :
    ∃ rows, select catalog node = .ok (rows, ⟨tree.columns contents⟩) ∧ rows.Perm (tree.rows contents) := by
  obtain ⟨operator, answer, hoperator, hcolumns, hcollect, hperm⟩ :=
    yields_select hplan hplain hnodup hshows hrows htyped
  refine ⟨answer, ?_, hperm⟩
  rw [select, hplan]
  change (plan catalog tree.pushDown >>= _) = _
  rw [hoperator]
  change (operator.next.collect >>= _) = _
  rw [hcollect, ← hcolumns]
  rfl

/-- The two tables `a` and `b` of one integer column each, with their rows. -/
def pairCatalog : Catalog EntryList :=
  ⟨[("a", ⟨"a", ⟨[⟨"x", .int, none⟩]⟩, [((1, 0), [1, 0, 0, 0]), ((1, 1), [2, 0, 0, 0])], []⟩),
    ("b", ⟨"b", ⟨[⟨"y", .int, none⟩]⟩, [((1, 0), [1, 0, 0, 0]), ((1, 1), [3, 0, 0, 0])], []⟩)]⟩

/-- `SELECT b.y FROM a JOIN b ON a.x = b.y WHERE a.x >= TRUE AND b.y <= TRUE` -/
def pairSelect : SqlSelect where
  fromTable := ⟨"a", ""⟩
  joins := [⟨"b", some (.comparison .eq (.column "a" ⟨"x", false⟩) (.column "b" ⟨"y", false⟩))⟩]
  whereClause := some (.and (.comparison .gte (.column "a" ⟨"x", false⟩) (.boolean true))
    (.comparison .lte (.column "b" ⟨"y", false⟩) (.boolean true)))
  expressions := [.expression (.column "b" ⟨"y", false⟩) "y"]

/-- Its logical plan. -/
def pairTree : LogicalNode :=
  .projection (.filter (.join (.scan { tableName := "a" }) (.scan { tableName := "b" })
      (.comparison (.columnRef "a.x") .eq (.columnRef "b.y")))
    (.and (.comparison (.columnRef "a.x") .gte (.literal (.bool true)))
      (.comparison (.columnRef "b.y") .lte (.literal (.bool true)))))
    [(.columnRef "b.y", "y")]

theorem pairCatalog_shows : ∀ name ∈ pairTree.scanned, Shows pairCatalog LogicalNode.pairContents name := by
  intro name hname
  have hcases : name = "a" ∨ name = "b" := by simpa [pairTree, LogicalNode.scanned] using hname
  rcases hcases with rfl | rfl
  · exact ⟨_, [⟨[.int 1], (1, 0)⟩, ⟨[.int 2], (1, 1)⟩], rfl, rfl, rfl, ⟨rfl, by decide⟩, rfl, rfl⟩
  · exact ⟨_, [⟨[.int 1], (1, 0)⟩, ⟨[.int 3], (1, 1)⟩], rfl, rfl, rfl, ⟨rfl, by decide⟩, rfl, rfl⟩

theorem pairContents_typed : LogicalNode.RowsTyped LogicalNode.pairContents := by
  intro name row hrow
  unfold LogicalNode.pairContents at hrow ⊢
  split at hrow
  · rename_i hname
    rw [if_pos hname]
    rcases List.mem_pair.mp hrow with rfl | rfl <;> exact .cons rfl .nil
  · rename_i hname
    rw [if_neg hname]
    rcases List.mem_pair.mp hrow with rfl | rfl <;> exact .cons rfl .nil

theorem select_yields_rows_pair : ∃ rows, select pairCatalog pairSelect =
    .ok (rows, ⟨pairTree.columns LogicalNode.pairContents⟩) ∧ rows.Perm [[.int 1]] := by
  have hplan : LogicalPlanner.planSelect pairSelect = .ok pairTree := by rfl
  have hrows : pairTree.rows LogicalNode.pairContents = [[.int 1]] := by decide +kernel
  rw [← hrows]
  refine select_yields_rows pairCatalog LogicalNode.pairContents pairSelect pairTree hplan
    (by decide +kernel) (by decide +kernel) pairCatalog_shows pairContents_typed ?_
  refine ⟨⟨⟨⟨rfl, rfl⟩, ⟨rfl, rfl⟩, "a.x", "b.y", rfl, ?_, ?_, ?_⟩, ?_⟩, ?_⟩
  all_goals decide +kernel

end Database

end DBEngine
