import DBEngine.Lib.Binary64
import DBEngine.Python

/-!
# Values

The Python objects that stand in rows and literals, and the comparisons the
engine makes between them.  Python compares an `int` with a `float` exactly; a
`bool` is one of the numbers 0 and 1; a text and a number are never equal and
cannot be ordered.
-/

set_option autoImplicit false

namespace DBEngine

open Binary64 (Extended rational)

/-- A value of a row or of a literal. -/
inductive Value where
  | int (v : Int)
  | float (x : Float)
  | bool (b : Bool)
  | str (s : String)
  deriving DecidableEq

/-- What a value is compared by. -/
inductive Key where
  | number (x : Extended)
  | nan
  | text (s : String)

namespace Value

/-- The name of a value's type in messages. -/
def typeName : Value → String
  | .int _ => "int"
  | .float _ => "float"
  | .bool _ => "bool"
  | .str _ => "str"

def key : Value → Key
  | .int v => .number (rational v)
  | .float x =>
      match Binary64.value x with
      | some y => .number y
      | none => .nan
  | .bool b => .number (rational (if b then 1 else 0))
  | .str s => .text s

/-- `bool(value)`. -/
def truthy : Value → Bool
  | .int v => v ≠ 0
  | .float x => Binary64.value x ≠ some (rational 0)
  | .bool b => b
  | .str s => s ≠ ""

/-- `a == b`. -/
def eq (a b : Value) : Bool :=
  match a.key, b.key with
  | .number x, .number y => x = y
  | .text s, .text t => s = t
  | _, _ => false

theorem eq_comm (a b : Value) : a.eq b = b.eq a := by
  unfold eq
  cases a.key <;> cases b.key <;> simp only [Eq.comm]

/-- Values that equal the same value equal each other. -/
theorem eq_trans {a b c : Value} (hab : a.eq b = true) (hbc : b.eq c = true) : a.eq c = true := by
  unfold eq at *
  cases ha : a.key <;> cases hb : b.key <;> cases hc : c.key <;> simp_all

/-- The exception for two values without an order. -/
def unordered (op : String) (a b : Value) : PyErr :=
  .typeError s!"'{op}' not supported between instances of '{a.typeName}' and '{b.typeName}'"

/-- An order comparison: `numbers` between numbers, `texts` between texts, and false
when a side is not a number. -/
def compareWith (op : String) (numbers : Extended → Extended → Bool) (texts : String → String → Bool)
    (a b : Value) : Except PyErr Bool :=
  match a.key, b.key with
  | .text s, .text t => .ok (texts s t)
  | .text _, _ => .error (unordered op a b)
  | _, .text _ => .error (unordered op a b)
  | .number x, .number y => .ok (numbers x y)
  | _, _ => .ok false

/-- `a < b`. -/
def lt (a b : Value) : Except PyErr Bool :=
  compareWith "<" (fun x y => x < y) (fun s t => s < t) a b

/-- `a <= b`. -/
def le (a b : Value) : Except PyErr Bool :=
  compareWith "<=" (fun x y => x ≤ y) (fun s t => s ≤ t) a b

/-- `a > b`. -/
def gt (a b : Value) : Except PyErr Bool :=
  compareWith ">" (fun x y => y < x) (fun s t => t < s) a b

/-- `a >= b`. -/
def ge (a b : Value) : Except PyErr Bool :=
  compareWith ">=" (fun x y => y ≤ x) (fun s t => t ≤ s) a b

/-- `value + 1`. -/
def addOne : Value → Except PyErr Value
  | .int v => .ok (.int (v + 1))
  | .float x => .ok (.float (x + 1))
  | .bool b => .ok (.int ((if b then 1 else 0) + 1))
  | .str _ => .error (.typeError "can only concatenate str (not \"int\") to str")

/-- `value - 1`. -/
def subOne : Value → Except PyErr Value
  | .int v => .ok (.int (v - 1))
  | .float x => .ok (.float (x - 1))
  | .bool b => .ok (.int ((if b then 1 else 0) - 1))
  | .str _ => .error (.typeError "unsupported operand type(s) for -: 'str' and 'int'")

end Value

end DBEngine
