import Mathlib.Data.List.DropRight
import DBEngine.Execution.Expressions

/-!
# Logical plans
-/

set_option autoImplicit false

namespace DBEngine

/-! ## Names of columns -/

/-- `f'{table}.{column}'`. -/
def qualified (table column : String) : String := table ++ "." ++ column

/-- `name.split('.')[0]`. -/
def firstPart (name : String) : String := String.ofList (name.toList.takeWhile (· ≠ '.'))

/-- `name.split('.')[-1]`. -/
def lastPart (name : String) : String := String.ofList (name.toList.rtakeWhile (· ≠ '.'))

/-- A name without a dot. -/
def Plain (name : String) : Prop := '.' ∉ name.toList

instance (name : String) : Decidable (Plain name) := inferInstanceAs (Decidable (¬ _))

theorem toList_qualified (table column : String) :
    (qualified table column).toList = table.toList ++ '.' :: column.toList := by
  simp [qualified]

theorem firstPart_qualified {table : String} (h : Plain table) (column : String) :
    firstPart (qualified table column) = table := by
  have hplain : ∀ c ∈ table.toList, decide (c ≠ '.') = true := by
    intro c hc
    rw [decide_eq_true_iff]
    rintro rfl
    exact h hc
  rw [firstPart, toList_qualified, List.takeWhile_append_of_pos hplain]
  simp

theorem lastPart_qualified (table : String) {column : String} (h : Plain column) :
    lastPart (qualified table column) = column := by
  have hplain : ∀ c ∈ column.toList.reverse, decide (c ≠ '.') = true := by
    intro c hc
    rw [decide_eq_true_iff]
    rintro rfl
    exact h (List.mem_reverse.mp hc)
  rw [lastPart, toList_qualified, List.rtakeWhile, List.reverse_append, List.reverse_cons,
    List.append_assoc, List.takeWhile_append_of_pos hplain]
  simp

/-- A qualified name determines its two parts. -/
theorem qualified_inj {table table' column column' : String} (ht : Plain table) (ht' : Plain table')
    (h : qualified table column = qualified table' column') : table = table' ∧ column = column' := by
  have htable : table = table' := by
    rw [← firstPart_qualified ht column, h, firstPart_qualified ht']
  subst htable
  have hlist := congrArg String.toList h
  rw [toList_qualified, toList_qualified] at hlist
  exact ⟨rfl, String.toList_inj.mp (List.cons.inj (List.append_cancel_left hlist)).2⟩

/-! ## Nodes -/

/-- A `LogicalScan`. -/
structure LogicalScan where
  tableName : String
  tableAlias : Option String := none
  predicate : Option (Expr String) := none
  yieldRid : Bool := false
  deriving DecidableEq

/-- The nodes of a query. -/
inductive LogicalNode where
  | scan (node : LogicalScan)
  | filter (child : LogicalNode) (predicate : Expr String)
  | projection (child : LogicalNode) (projections : List (Expr String × String))
  | join (left right : LogicalNode) (condition : Expr String)

/-- A `LogicalDelete`. -/
structure LogicalDelete where
  child : LogicalNode
  tableName : String

/-- A `LogicalInsert`. -/
structure LogicalInsert where
  tableName : String
  values : List (List String)

end DBEngine
