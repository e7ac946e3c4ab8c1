import DBEngine.Execution.Operators

/-!
# The physical planner

Turns the nodes of a query into operators.  A scan with a predicate on an
indexed column becomes an index scan; a join becomes an index join when a table
on either side has an index under the name of the right key, else a hash join.
-/

set_option autoImplicit false

namespace DBEngine

/-- The tables of a catalog. -/
structure Catalog (τ : Type) where
  tables : Dict String (Table τ)

namespace Catalog

variable {τ : Type}

/-- `tables[name]`. -/
def tableAt (catalog : Catalog τ) (name : String) : Except PyErr (Table τ) :=
  match catalog.tables.get? name with
  | some table => .ok table
  | none => .error (.keyError s!"'{name}'")

/-- `get_table`. -/
def getTable (catalog : Catalog τ) (name : String) : Except PyErr (Table τ) :=
  match catalog.tables.get? name with
  | some table => .ok table
  | none => .error (.keyError s!"A table named {name} does not exist")

end Catalog

namespace PhysicalPlanner

variable {τ : Type}

/-! ## Index selection -/

/-- `_as_col_and_literal`. -/
def asColAndLiteral (left right : Expr String) : Option (String × Value) :=
  match left, right with
  | .columnRef name, .literal value => some (name, value)
  | .literal value, .columnRef name => some (name, value)
  | _, _ => none

/-- `x if bound is None else max(bound, x)`. -/
def maxBound (bound : Option Value) (x : Value) : Except PyErr Value :=
  match bound with
  | none => pure x
  | some b => do
      let less ← x.gt b
      pure (if less then x else b)

/-- `x if bound is None else min(bound, x)`. -/
def minBound (bound : Option Value) (x : Value) : Except PyErr Value :=
  match bound with
  | none => pure x
  | some b => do
      let less ← x.lt b
      pure (if less then x else b)

/-- `_tighten_bounds`. -/
def tightenBounds (op : ComparisonOp) (value : Value) (bounds : Option Value × Option Value) :
    Except PyErr (Option Value × Option Value) :=
  match op with
  | .eq => pure (some value, some value)
  | .gt => do
      let lower ← value.addOne
      let start ← maxBound bounds.1 lower
      pure (some start, bounds.2)
  | .gte => do
      let start ← maxBound bounds.1 value
      pure (some start, bounds.2)
  | .lt => do
      let upper ← value.subOne
      let stop ← minBound bounds.2 upper
      pure (bounds.1, some stop)
  | .lte => do
      let stop ← minBound bounds.2 value
      pure (bounds.1, some stop)
  | .neq => pure bounds

/-- What the loop of `_find_index_lookup` has found so far. -/
structure IndexChoice where
  indexCol : String
  bounds : Option Value × Option Value

/-- The loop of `_find_index_lookup` over the conjuncts. -/
def chooseIndex (indices : Dict String (IndexMeta τ)) :
    List (Expr String) → Option IndexChoice → Except PyErr (Option IndexChoice)
  | [], choice => pure choice
  | .comparison left op right :: rest, choice =>
      match asColAndLiteral left right with
      | none => chooseIndex indices rest choice
      | some (name, value) =>
          let colName := lastPart name
          if indices.has colName then
            match choice with
            | none => do
                let bounds ← tightenBounds op value (none, none)
                chooseIndex indices rest (some ⟨colName, bounds⟩)
            | some found =>
                if colName = found.indexCol then do
                  let bounds ← tightenBounds op value found.bounds
                  chooseIndex indices rest (some ⟨colName, bounds⟩)
                else chooseIndex indices rest choice
          else chooseIndex indices rest choice
  | _ :: rest, choice => chooseIndex indices rest choice

/-- `_find_index_lookup`: the tree, the bounds and the residual predicate. -/
def findIndexLookup (table : Table τ) (predicate : Option (Expr String)) :
    Except PyErr (Option (τ × (Option Value × Option Value) × Option (Expr String))) :=
  match predicate with
  | none => pure none
  | some predicate => do
      let conjuncts := predicate.splitConjuncts
      let choice ← chooseIndex table.indices conjuncts none
      match choice with
      | none => pure none
      | some found =>
          match table.indices.get? found.indexCol with
          | some index => pure (some (index.tree, found.bounds, Expr.combineConjuncts conjuncts))
          | none => pure none

/-- `start == end`. -/
def sameBound (start stop : Option Value) : Bool :=
  match start, stop with
  | some a, some b => a.eq b
  | none, none => true
  | _, _ => false

/-- `_plan_scan`. -/
def planScan (catalog : Catalog τ) (node : LogicalScan) : Except PyErr (Operator τ) := do
  let table ← catalog.tableAt node.tableName
  let found ← findIndexLookup table node.predicate
  match found with
  | none => Operator.openSeqScan table node.predicate node.yieldRid
  | some (tree, (start, stop), residual) =>
      let lookup := if sameBound start stop then .eq start else .range start stop
      Operator.openIndexScan table tree lookup residual node.yieldRid

/-! ## Joins -/

/-- `_table_of`. -/
def tableOf (catalog : Catalog τ) : LogicalNode → Except PyErr (Table τ)
  | .scan node => catalog.getTable node.tableName
  | .filter child _ => tableOf catalog child
  | .projection child _ => tableOf catalog child
  | .join left _ _ => tableOf catalog left

/-- `condition.left.column_name` and `condition.right.column_name`. -/
def joinKeys : Expr String → Except PyErr (String × String)
  | .comparison (.columnRef left) _ (.columnRef right) => pure (left, right)
  | .and (.columnRef left) (.columnRef right) => pure (left, right)
  | .or (.columnRef left) (.columnRef right) => pure (left, right)
  | _ => .error .attributeError

/-- `_try_index_join`: nothing when `indexedTable` has no index under the last part
of `indexedKey`. -/
def tryIndexJoin (indexedTable : Table τ) (indexedKey : String) (probeChild : Operator τ)
    (probeKey : String) (indexedOpenKey : Option String) : Except PyErr (Option (Operator τ)) :=
  match indexedTable.indices.get? (lastPart indexedKey) with
  | none => pure none
  | some index => do
      let operator ← Operator.openIndexJoin index.tree probeChild probeKey indexedTable
        (indexedOpenKey.getD indexedKey)
      pure (some operator)

/-- `_plan_join` of two children that are planned already. -/
def joinOperators [IndexTree τ] (left right : Operator τ) (leftTable rightTable : Table τ)
    (leftKey rightKey : String) : Except PyErr (Operator τ) := do
  let operator ← tryIndexJoin rightTable rightKey left leftKey none
  match operator with
  | some operator => pure operator
  | none => do
      let operator ← tryIndexJoin leftTable rightKey right rightKey (some leftKey)
      match operator with
      | some operator => pure operator
      | none => Operator.openHashJoin left leftKey right rightKey

/-- `plan` of a query. -/
def plan [IndexTree τ] (catalog : Catalog τ) : LogicalNode → Except PyErr (Operator τ)
  | .scan node => planScan catalog node
  | .filter child predicate => do
      let child ← plan catalog child
      Operator.openFilter child predicate
  | .projection child projections => do
      let child ← plan catalog child
      Operator.openProjection child projections
  | .join leftNode rightNode condition => do
      let left ← plan catalog leftNode
      let right ← plan catalog rightNode
      let (leftKey, rightKey) ← joinKeys condition
      let leftTable ← tableOf catalog leftNode
      let rightTable ← tableOf catalog rightNode
      joinOperators left right leftTable rightTable leftKey rightKey

end PhysicalPlanner

end DBEngine
