import DBEngine.Numerals
import DBEngine.Execution.Logical

/-!
# The logical planner

Turns the syntax trees of the SQL parser into logical plans.  A tree holds what
the planner reads of it: the kind of each node, its operands and its names.
-/

set_option autoImplicit false

namespace DBEngine

/-! ## Syntax trees -/

structure Identifier where
  name : String
  quoted : Bool := false
  deriving DecidableEq

/-- The arithmetic operators. -/
inductive ArithOp where
  | add
  | sub
  | mul
  | div
  | mod
  deriving DecidableEq, Repr

/-- An expression of the parser.  A column without a table has the empty text for
it; the last constructor is any other node, with the text of its class and of its
`this`. -/
inductive SqlExpr where
  | column (table : String) (name : Identifier)
  | number (text : String)
  | string (text : String)
  | boolean (value : Bool)
  | neg (operand : SqlExpr)
  | paren (operand : SqlExpr)
  | arith (op : ArithOp) (left right : SqlExpr)
  | comparison (op : ComparisonOp) (left right : SqlExpr)
  | and (left right : SqlExpr)
  | or (left right : SqlExpr)
  | other (className text : String)
  deriving DecidableEq

/-- A table with its alias, the empty text when it has none. -/
structure TableRef where
  name : String
  tableAlias : String := ""
  deriving DecidableEq

structure SqlJoin where
  name : String
  on : Option SqlExpr
  deriving DecidableEq

/-- An item of a select list; an expression comes with its `name`. -/
inductive SelectItem where
  | star
  | alias (expression : SqlExpr) (name : String)
  | expression (expression : SqlExpr) (name : String)
  deriving DecidableEq

structure SqlSelect where
  fromTable : TableRef
  joins : List SqlJoin := []
  whereClause : Option SqlExpr := none
  expressions : List SelectItem := [.star]
  deriving DecidableEq

structure SqlDelete where
  table : String
  whereClause : Option SqlExpr
  deriving DecidableEq

structure SqlInsert where
  table : String
  rows : List (List SqlExpr)
  deriving DecidableEq

/-- `str` of nodes. -/
structure SqlText where
  node : SqlExpr → String
  identifier : Identifier → String

namespace SqlExpr

/-- `str(val.this)`. -/
def thisText (text : SqlText) : SqlExpr → String
  | column _ name => text.identifier name
  | number digits => digits
  | string characters => characters
  | boolean value => if value then "True" else "False"
  | neg operand => text.node operand
  | paren operand => text.node operand
  | arith _ left _ => text.node left
  | comparison _ left _ => text.node left
  | and left _ => text.node left
  | or left _ => text.node left
  | other _ this => this

end SqlExpr

namespace LogicalPlanner

/-! ## Expressions -/

/-- The exception for a node of a class that the planner does not know. -/
def unsupported (className : String) : PyErr :=
  .notImplementedError s!"Unsupported expression type: <class 'sqlglot.expressions.{className}'>"

/-- The name of an arithmetic node's class. -/
def arithName : ArithOp → String
  | .add => "Add"
  | .sub => "Sub"
  | .mul => "Mul"
  | .div => "Div"
  | .mod => "Mod"

/-- `_plan_expression`.  A column without a table belongs to the table whose name
is passed, and `None` is written as any other value is. -/
def planExpression (tableName : Option String) : SqlExpr → Except PyErr (Expr String)
  | .column table name =>
      if table = "" then pure (.columnRef (qualified (tableName.getD "None") name.name))
      else pure (.columnRef (qualified table name.name))
  | .number text => do
      let value ← readFloat text
      pure (.literal (.float value))
  | .string text => pure (.literal (.str text))
  | .boolean value => pure (.literal (.bool value))
  | .comparison .neq _ _ => .error (unsupported "NEQ")
  | .comparison op left right => do
      let left ← planExpression tableName left
      let right ← planExpression tableName right
      pure (.comparison left op right)
  | .and left right => do
      let left ← planExpression tableName left
      let right ← planExpression tableName right
      pure (.and left right)
  | .or left right => do
      let left ← planExpression tableName left
      let right ← planExpression tableName right
      pure (.or left right)
  | .neg _ => .error (unsupported "Neg")
  | .paren _ => .error (unsupported "Paren")
  | .arith op _ _ => .error (unsupported (arithName op))
  | .other className _ => .error (unsupported className)

/-! ## Statements -/

/-- `_plan_from`. -/
def planFrom (table : TableRef) : LogicalNode :=
  .scan { tableName := table.name
          tableAlias := if table.tableAlias = "" then none else some table.tableAlias }

/-- The body of the loop of `_plan_select` over the joins. -/
def planJoin (plan : LogicalNode) (join : SqlJoin) : Except PyErr LogicalNode :=
  match join.on with
  | none => .error (.keyError "'on'")
  | some on => do
      let condition ← planExpression none on
      pure (.join plan (.scan { tableName := join.name }) condition)

/-- The body of the loop of `_plan_projections`. -/
def planProjection (tableName : Option String) : SelectItem → Except PyErr (Expr String × String)
  | .alias e name => do
      let e ← planExpression tableName e
      pure (e, name)
  | .expression e name => do
      let e ← planExpression tableName e
      pure (e, name)
  | .star => .error (unsupported "Star")

/-- `_plan_projections`: nothing when a star stands in the list. -/
def planProjections (tableName : Option String) (expressions : List SelectItem) :
    Except PyErr (Option (List (Expr String × String))) :=
  if expressions.any (· = .star) then pure none
  else do
    let projections ← expressions.mapM (planProjection tableName)
    pure (some projections)

/-- `_plan_select`. -/
def planSelect (node : SqlSelect) : Except PyErr LogicalNode := do
  let tableFromName := node.fromTable.name
  let plan ← node.joins.foldlM planJoin (planFrom node.fromTable)
  let plan ← match node.whereClause with
    | none => pure plan
    | some condition => do
        let predicate ← planExpression (some tableFromName) condition
        pure (.filter plan predicate)
  let projections ← planProjections (some tableFromName) node.expressions
  match projections with
  | none => pure plan
  | some projections => pure (.projection plan projections)

/-- `_plan_delete`. -/
def planDelete (node : SqlDelete) : Except PyErr LogicalDelete :=
  match node.whereClause with
  | none => .error .attributeError
  | some condition => do
      let predicate ← planExpression (some node.table) condition
      pure ⟨.scan { tableName := node.table, predicate := some predicate, yieldRid := true }, node.table⟩

/-- `_plan_insert`. -/
def planInsert (text : SqlText) (node : SqlInsert) : LogicalInsert :=
  ⟨node.table, node.rows.map fun row => row.map (SqlExpr.thisText text)⟩

end LogicalPlanner

end DBEngine
