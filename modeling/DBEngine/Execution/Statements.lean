import DBEngine.Execution.LogicalPlanner
import DBEngine.Execution.PhysicalPlanner
import DBEngine.Execution.QueryOptimizer

/-!
# Statements

What `Database.execute` makes of a `SELECT` and of a `DELETE`: the statement is
planned, its filters are pushed down, and the physical plan is run to its end.
-/

set_option autoImplicit false

namespace DBEngine

variable {τ : Type} [IndexTree τ]

/-! ## The `Delete` operator -/

/-- A record id that a scan yields; `get_tuple` takes no other item apart. -/
def asRid : List Value → Except PyErr Rid
  | [.int page, .int slot] => .ok (page.toNat, slot.toNat)
  | _ => .error (.typeError "no record id")

/-- `f'Rows affected: {n}'`. -/
def rowsAffected (n : Nat) : String := s!"Rows affected: {n}"

/-- `Delete.execute`: the message, and the table afterwards.  The child is read to its
end before the first row is deleted. -/
def Operator.executeDelete (child : Operator τ) (table : Table τ) : Except PyErr (Table τ × String) := do
  let items ← child.next.collect
  let rids ← items.mapM asRid
  let table ← rids.foldlM Table.delete table
  pure (table, rowsAffected rids.length)

/-- `_plan_delete`. -/
def PhysicalPlanner.planDelete (catalog : Catalog τ) (node : LogicalDelete) :
    Except PyErr (Table τ × String) := do
  let table ← catalog.tableAt node.tableName
  let child ← plan catalog node.child
  child.executeDelete table

/-- `push_down` of a `LogicalDelete`. -/
def LogicalDelete.pushDown (node : LogicalDelete) : LogicalDelete :=
  { node with child := node.child.pushDown }

/-! ## `Database.execute` -/

namespace Database

/-- A `SELECT`: the rows and their schema. -/
def select (catalog : Catalog τ) (node : SqlSelect) : Except PyErr (List (List Value) × Schema) := do
  let tree ← LogicalPlanner.planSelect node
  let operator ← PhysicalPlanner.plan catalog tree.pushDown
  let rows ← operator.next.collect
  pure (rows, operator.outputSchema)

/-- A `DELETE`: the table afterwards and the message. -/
def delete (catalog : Catalog τ) (node : SqlDelete) : Except PyErr (Table τ × String) := do
  let tree ← LogicalPlanner.planDelete node
  PhysicalPlanner.planDelete catalog tree.pushDown

end Database

end DBEngine
