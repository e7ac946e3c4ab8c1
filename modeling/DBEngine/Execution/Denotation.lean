import DBEngine.Execution.Operators

/-!
# What a query means

The rows a logical plan stands for: a scan stands for the rows of its table
that satisfy its predicate, a join for the pairs that satisfy its condition, a
filter for the rows of its child for which its predicate is true, a projection
for what its expressions make of the rows of its child.  A predicate that raises
on a row is not true of it.
-/

set_option autoImplicit false

namespace DBEngine

/-- The rows of a table, each with one value for every column. -/
structure TableRows where
  schema : Schema
  rows : List (List Value)
  width : ∀ row ∈ rows, row.length = schema.columns.length

/-- The contents of the tables. -/
abbrev Contents : Type := String → TableRows

namespace Expr

/-- A predicate is true of a row. -/
def TrueOn (schema : Schema) (row : List Value) (e : Expr String) : Bool :=
  match e.bind schema >>= evaluate row with
  | .ok value => value.truthy
  | .error _ => false

/-- A scan's predicate is true of a row. -/
def trueOn? (schema : Schema) (row : List Value) : Option (Expr String) → Bool
  | none => true
  | some e => e.TrueOn schema row

/-! ## Evaluation by names -/

/-- The column names in an expression. -/
def names : Expr String → List String
  | columnRef name => [name]
  | literal _ => []
  | comparison left _ right => left.names ++ right.names
  | and left right => left.names ++ right.names
  | or left right => left.names ++ right.names

/-- The value of a row under a name. -/
def lookup (schema : Schema) (row : List Value) (name : String) : Option Value :=
  match schema.columnNames.get? name with
  | some i => row[i]?
  | none => none

/-- The value of an expression, when it has one. -/
def valueIn (schema : Schema) (row : List Value) : Expr String → Option Value
  | columnRef name => lookup schema row name
  | literal value => some value
  | comparison left op right =>
      match left.valueIn schema row, right.valueIn schema row with
      | some l, some r =>
          match op.apply l r with
          | .ok b => some (.bool b)
          | .error _ => none
      | _, _ => none
  | and left right =>
      match left.valueIn schema row, right.valueIn schema row with
      | some l, some r => some (if l.truthy then r else l)
      | _, _ => none
  | or left right =>
      match left.valueIn schema row, right.valueIn schema row with
      | some l, some r => some (if l.truthy then l else r)
      | _, _ => none

/-- Binding the two sides and then evaluating them is evaluating one bound side
after the other. -/
theorem toOption_binary (mk : Expr Nat → Expr Nat → Expr Nat) {f : Value → Value → Option Value}
    {schema : Schema} {row : List Value} {left right : Expr String}
    (hmk : ∀ l r, ((mk l r).evaluate row).toOption =
      match (l.evaluate row).toOption, (r.evaluate row).toOption with
      | some a, some b => f a b
      | _, _ => none) :
    ((do
        let l ← left.bind schema
        let r ← right.bind schema
        pure (mk l r)) >>= evaluate row).toOption =
      match (left.bind schema >>= evaluate row).toOption,
        (right.bind schema >>= evaluate row).toOption with
      | some a, some b => f a b
      | _, _ => none := by
  cases left.bind schema with
  | error e => rfl
  | ok l =>
      cases right.bind schema with
      | error e =>
          change none = match (l.evaluate row).toOption, none with
            | some a, some b => f a b
            | _, _ => none
          cases (l.evaluate row).toOption <;> rfl
      | ok r => exact hmk l r

/-- Evaluation after binding reads the values under their names. -/
theorem valueIn_eq (schema : Schema) (row : List Value) (e : Expr String) :
    e.valueIn schema row = (e.bind schema >>= evaluate row).toOption := by
  induction e with
  | columnRef name =>
      rw [valueIn, lookup]
      cases hname : schema.columnNames.get? name with
      | none =>
          simp only [bind, Schema.getIndex, hname]
          rfl
      | some i =>
          rw [bind, Schema.getIndex_eq_ok.mpr hname]
          change row[i]? = (Schema.valueAt row i).toOption
          rw [Schema.valueAt]
          cases row[i]? <;> rfl
  | literal v => rfl
  | comparison left op right ihl ihr =>
      rw [valueIn, ihl, ihr, bind]
      refine (toOption_binary (fun l r => comparison l op r) fun l r => ?_).symm
      rw [evaluate]
      cases l.evaluate row with
      | error e => rfl
      | ok a =>
          cases r.evaluate row with
          | error e => rfl
          | ok b =>
              change (op.apply a b >>= fun b => pure (Value.bool b)).toOption =
                match op.apply a b with
                | .ok b => some (Value.bool b)
                | .error _ => none
              cases op.apply a b <;> rfl
  | and left right ihl ihr =>
      rw [valueIn, ihl, ihr, bind]
      refine (toOption_binary and fun l r => ?_).symm
      rw [evaluate]
      cases l.evaluate row with
      | error e => rfl
      | ok a => cases r.evaluate row <;> rfl
  | or left right ihl ihr =>
      rw [valueIn, ihl, ihr, bind]
      refine (toOption_binary or fun l r => ?_).symm
      rw [evaluate]
      cases l.evaluate row with
      | error e => rfl
      | ok a => cases r.evaluate row <;> rfl

theorem trueOn_eq (schema : Schema) (row : List Value) (e : Expr String) :
    e.TrueOn schema row = (e.valueIn schema row).any Value.truthy := by
  rw [TrueOn, valueIn_eq]
  cases e.bind schema >>= evaluate row <;> rfl

/-- A conjunction is true where both sides are. -/
theorem trueOn_and (schema : Schema) (row : List Value) (left right : Expr String) :
    (left.and right).TrueOn schema row = (left.TrueOn schema row && right.TrueOn schema row) := by
  simp only [trueOn_eq, valueIn]
  cases left.valueIn schema row with
  | none => rfl
  | some l =>
      cases right.valueIn schema row with
      | none => simp
      | some r => cases hl : l.truthy <;> simp [hl]

/-- An expression reads a row only through the names in it. -/
theorem valueIn_congr {schema schema' : Schema} {row row' : List Value} {e : Expr String}
    (h : ∀ name ∈ e.names, lookup schema row name = lookup schema' row' name) :
    e.valueIn schema row = e.valueIn schema' row' := by
  induction e with
  | columnRef name => exact h name (by simp [names])
  | literal v => rfl
  | comparison left op right ihl ihr =>
      rw [valueIn, valueIn, ihl fun name hname => h name (by simp [names, hname]),
        ihr fun name hname => h name (by simp [names, hname])]
  | and left right ihl ihr =>
      rw [valueIn, valueIn, ihl fun name hname => h name (by simp [names, hname]),
        ihr fun name hname => h name (by simp [names, hname])]
  | or left right ihl ihr =>
      rw [valueIn, valueIn, ihl fun name hname => h name (by simp [names, hname]),
        ihr fun name hname => h name (by simp [names, hname])]

theorem trueOn_congr {schema schema' : Schema} {row row' : List Value} {e : Expr String}
    (h : ∀ name ∈ e.names, lookup schema row name = lookup schema' row' name) :
    e.TrueOn schema row = e.TrueOn schema' row' := by
  rw [trueOn_eq, trueOn_eq, valueIn_congr h]

/-! ## Conjunctions -/

/-- A predicate is true where all its conjuncts are. -/
theorem trueOn_splitConjuncts (schema : Schema) (row : List Value) (e : Expr String) :
    e.TrueOn schema row = e.splitConjuncts.all fun c => c.TrueOn schema row :=
  eq_all_splitConjuncts (trueOn_and schema row) e

/-- What `combine_conjuncts` gives is true where all the conjuncts are. -/
theorem trueOn_combineConjuncts (schema : Schema) (row : List Value) (conjuncts : List (Expr String)) :
    trueOn? schema row (combineConjuncts conjuncts) = conjuncts.all fun c => c.TrueOn schema row := by
  rw [← combineConjuncts_eq_all (trueOn_and schema row)]
  cases combineConjuncts conjuncts <;> rfl

end Expr

/-! ## Plans -/

namespace LogicalNode

/-- The names of the tables scanned, from left to right. -/
def scanned : LogicalNode → List String
  | scan node => [node.tableName]
  | filter child _ => child.scanned
  | projection child _ => child.scanned
  | join left right _ => left.scanned ++ right.scanned

/-- A plan of scans, filters and joins. -/
def Unprojected : LogicalNode → Prop
  | scan _ => True
  | filter child _ => child.Unprojected
  | projection _ _ => False
  | join left right _ => left.Unprojected ∧ right.Unprojected

/-- The columns of a table under their qualified names. -/
def scanColumns (contents : Contents) (name : String) : List Column :=
  (contents name).schema.columns.map fun column => { column with name := qualified name column.name }

/-- The columns of the rows of a plan. -/
def columns (contents : Contents) : LogicalNode → List Column
  | scan node => scanColumns contents node.tableName
  | filter child _ => child.columns contents
  | projection child projections =>
      (Operator.buildOutputSchema ⟨child.columns contents⟩ projections).columns
  | join left right _ => left.columns contents ++ right.columns contents

/-- The rows a plan stands for. -/
def rows (contents : Contents) : LogicalNode → List (List Value)
  | scan node => (contents node.tableName).rows.filter fun row =>
      Expr.trueOn? ⟨scanColumns contents node.tableName⟩ row node.predicate
  | filter child predicate => (child.rows contents).filter fun row =>
      predicate.TrueOn ⟨child.columns contents⟩ row
  | projection child projections => (child.rows contents).filterMap fun row =>
      projections.mapM fun item => item.1.valueIn ⟨child.columns contents⟩ row
  | join left right condition => (left.rows contents).flatMap fun l =>
      ((right.rows contents).map fun r => l ++ r).filter fun row =>
        condition.TrueOn ⟨left.columns contents ++ right.columns contents⟩ row

theorem length_of_mapM_eq_some {α β : Type} {f : α → Option β} {as : List α} {bs : List β}
    (h : as.mapM f = some bs) : bs.length = as.length := by
  induction as generalizing bs with
  | nil =>
      obtain rfl := Option.some.inj h
      rfl
  | cons a as ih =>
      rw [List.mapM_cons] at h
      obtain ⟨b, -, h⟩ := Option.bind_eq_some_iff.mp h
      obtain ⟨bs, hbs, h⟩ := Option.bind_eq_some_iff.mp h
      obtain rfl := Option.some.inj h
      rw [List.length_cons, List.length_cons, ih hbs]

/-- Every row has one value for every column. -/
theorem length_of_mem_rows {contents : Contents} {node : LogicalNode} : ∀ {row : List Value},
    row ∈ node.rows contents → row.length = (node.columns contents).length := by
  induction node with
  | scan node =>
      intro row hrow
      simpa [columns, scanColumns] using (contents node.tableName).width row (List.mem_filter.mp hrow).1
  | filter child predicate ih =>
      intro row hrow
      exact ih (List.mem_filter.mp hrow).1
  | projection child projections ih =>
      intro row hrow
      obtain ⟨_, -, hrow⟩ := List.mem_filterMap.mp hrow
      simpa [columns, Operator.buildOutputSchema] using length_of_mapM_eq_some hrow
  | join left right condition ihl ihr =>
      intro row hrow
      obtain ⟨l, hl, hrow⟩ := List.mem_flatMap.mp hrow
      obtain ⟨r, hr, rfl⟩ := List.mem_map.mp (List.mem_filter.mp hrow).1
      rw [columns, List.length_append, List.length_append, ihl hl, ihr hr]

/-- Every column name starts with the name of a table scanned. -/
theorem firstPart_mem_scanned {contents : Contents} {node : LogicalNode} (hnode : node.Unprojected)
    (hplain : ∀ name ∈ node.scanned, Plain name) : ∀ column ∈ node.columns contents,
      firstPart column.name ∈ node.scanned := by
  induction node with
  | scan node =>
      intro column hcolumn
      obtain ⟨column, -, rfl⟩ := List.mem_map.mp hcolumn
      rw [firstPart_qualified (hplain _ (by simp [scanned]))]
      simp [scanned]
  | filter child predicate ih => exact ih hnode hplain
  | projection child _ ih => exact hnode.elim
  | join left right condition ihl ihr =>
      intro column hcolumn
      rw [scanned, List.mem_append]
      rcases List.mem_append.mp hcolumn with hcolumn | hcolumn
      · exact .inl (ihl hnode.1 (fun name hname => hplain name (by simp [scanned, hname])) column hcolumn)
      · exact .inr (ihr hnode.2 (fun name hname => hplain name (by simp [scanned, hname])) column hcolumn)

end LogicalNode

/-! ## Names in a joined row -/

namespace Expr

theorem lookup_append_left {left right : List Column} {l r : List Value} {name : String}
    (hl : l.length = left.length) (hname : ∀ column ∈ right, column.name ≠ name) :
    lookup ⟨left ++ right⟩ (l ++ r) name = lookup ⟨left⟩ l name := by
  rw [lookup, lookup, Schema.get?_columnNames_two, Schema.get?_columnNames_eq_none.mpr hname]
  cases hleft : (Schema.columnNames ⟨left⟩).get? name with
  | none => rfl
  | some i =>
      obtain ⟨column, hcolumn, -⟩ := Schema.getElem?_of_columnNames hleft
      have hi : i < l.length := hl ▸ (List.getElem?_eq_some_iff.mp hcolumn).1
      exact List.getElem?_append_left hi

theorem lookup_append_right {left right : List Column} {l r : List Value} {name : String}
    (hl : l.length = left.length) (hname : ∀ column ∈ left, column.name ≠ name) :
    lookup ⟨left ++ right⟩ (l ++ r) name = lookup ⟨right⟩ r name := by
  rw [lookup, lookup, Schema.get?_columnNames_two, Schema.get?_columnNames_eq_none.mpr hname]
  cases (Schema.columnNames ⟨right⟩).get? name with
  | none => rfl
  | some i =>
      change (l ++ r)[left.length + i]? = r[i]?
      rw [List.getElem?_append_right (by omega), hl, Nat.add_sub_cancel_left]

end Expr

end DBEngine
