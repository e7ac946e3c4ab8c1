import DBEngine.Execution.Logical

/-!
# The query optimizer

`push_down` moves the conjuncts of a filter that mention exactly one table into
the scan of that table.
-/

set_option autoImplicit false

namespace DBEngine

/-- `referenced_tables`: the first parts of the column names, each once. -/
def Expr.referencedTables : Expr String → List String
  | .columnRef name => [firstPart name]
  | .literal _ => []
  | .comparison left _ right => left.referencedTables ∪ right.referencedTables
  | .and left right => left.referencedTables ∪ right.referencedTables
  | .or left right => left.referencedTables ∪ right.referencedTables

/-- `push_into_scan`. -/
def LogicalScan.push (node : LogicalScan) (predicate : Expr String) : LogicalScan :=
  match node.predicate with
  | none => { node with predicate := some predicate }
  | some e => { node with predicate := some (.and e predicate) }

namespace LogicalNode

/-- `find_scan` for a table and `push_into_scan` of the scan found; nothing when
there is none. -/
def pushIntoScan (table : String) (predicate : Expr String) : LogicalNode → Option LogicalNode
  | scan node => if node.tableName = table then some (scan (node.push predicate)) else none
  | filter child e => (child.pushIntoScan table predicate).map fun child => filter child e
  | projection child es => (child.pushIntoScan table predicate).map fun child => projection child es
  | join left right condition =>
      match left.pushIntoScan table predicate with
      | some left => some (join left right condition)
      | none => (right.pushIntoScan table predicate).map fun right => join left right condition

/-- What the loop of `push_filter` does with one conjunct: pushed into a scan, or
kept back. -/
def pushConjunct (child : LogicalNode) (conjunct : Expr String) : Option LogicalNode :=
  match conjunct.referencedTables with
  | [table] => child.pushIntoScan table conjunct
  | _ => none

/-- The loop of `push_filter`: the child, and the conjuncts kept back. -/
def pushConjuncts : List (Expr String) → LogicalNode → LogicalNode × List (Expr String)
  | [], child => (child, [])
  | conjunct :: rest, child =>
      match pushConjunct child conjunct with
      | some child => pushConjuncts rest child
      | none =>
          let (child, residual) := pushConjuncts rest child
          (child, conjunct :: residual)

/-- `push_filter`. -/
def pushFilter (child : LogicalNode) (predicate : Expr String) : LogicalNode :=
  let (child, residual) := pushConjuncts predicate.splitConjuncts child
  match Expr.combineConjuncts residual with
  | none => child
  | some combined => filter child combined

/-- `push_down`. -/
def pushDown : LogicalNode → LogicalNode
  | scan node => scan node
  | filter child predicate => pushFilter child.pushDown predicate
  | projection child projections => projection child.pushDown projections
  | join left right condition => join left.pushDown right.pushDown condition

end LogicalNode

end DBEngine
