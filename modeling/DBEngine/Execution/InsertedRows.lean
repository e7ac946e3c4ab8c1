import DBEngine.Catalog.Coercion
import DBEngine.Execution.LogicalPlanner

/-!
# The values that an `INSERT` stores

The planner reads one field of every value: the text of a literal, and of any
other expression the text of its operand.  What is stored is the number written
when that text spells no number, or when the operand is the same number as the
expression.
-/

set_option autoImplicit false

namespace DBEngine

open Binary64 (Extended rational)

/-! ## What expressions denote -/

/-- What dialects differ in: the quotient of two numbers, exact or whole, and their
remainder.  Nothing is divided by zero. -/
structure Division where
  quotient : ℚ → ℚ → Option ℚ
  remainder : ℚ → ℚ → Option ℚ

def ArithOp.apply (division : Division) : ArithOp → ℚ → ℚ → Option ℚ
  | .add, x, y => some (x + y)
  | .sub, x, y => some (x - y)
  | .mul, x, y => some (x * y)
  | .div, x, y => division.quotient x y
  | .mod, x, y => division.remainder x y

/-- An arithmetic operator between finite numbers. -/
def ArithOp.numbers (division : Division) (op : ArithOp) : Number → Number → Option Number
  | .finite x, .finite y => (op.apply division x y).map .finite
  | _, _ => none

namespace SqlExpr

/-- The number that an expression denotes, a text the number that it spells. -/
def denotes (division : Division) : SqlExpr → Option Number
  | number text => (readNumeral text).map Numeral.number
  | string text => (readNumeral text).map Numeral.number
  | neg operand => (operand.denotes division).map Number.neg
  | paren operand => operand.denotes division
  | arith op left right =>
      match left.denotes division, right.denotes division with
      | some x, some y => op.numbers division x y
      | _, _ => none
  | _ => none

/-- Number literals under negations, parentheses and arithmetic. -/
def IsNumeric : SqlExpr → Prop
  | number _ => True
  | neg operand => operand.IsNumeric
  | paren operand => operand.IsNumeric
  | arith _ left right => left.IsNumeric ∧ right.IsNumeric
  | _ => False

/-- The values of rows: literals and numeric expressions. -/
def IsRowValue : SqlExpr → Prop
  | string _ => True
  | boolean _ => True
  | e => e.IsNumeric

/-- The operand whose text the planner reads, of an expression that is no literal. -/
def operand? : SqlExpr → Option SqlExpr
  | neg operand => some operand
  | paren operand => some operand
  | arith _ left _ => some left
  | _ => none

end SqlExpr

/-! ## The text of expressions -/

def ArithOp.symbol : ArithOp → Char
  | .add => '+'
  | .sub => '-'
  | .mul => '*'
  | .div => '/'
  | .mod => '%'

/-- How the nodes of numeric expressions are written. -/
structure SqlText.Standard (text : SqlText) : Prop where
  number : ∀ digits, text.node (.number digits) = digits
  neg : ∀ operand, text.node (.neg operand) =
    if (text.node operand).toList.head? = some '-' then "- " ++ text.node operand
    else "-" ++ text.node operand
  paren : ∀ operand, text.node (.paren operand) = "(" ++ text.node operand ++ ")"
  arith : ∀ op left right, text.node (.arith op left right) =
    text.node left ++ " " ++ String.singleton op.symbol ++ " " ++ text.node right

theorem readNumeral_arith (op : ArithOp) (a b : String) :
    readNumeral (a ++ " " ++ String.singleton op.symbol ++ " " ++ b) = none := by
  cases op with
  | add => exact readNumeral_infix (by decide) (by decide) (by decide) a b
  | sub => exact readNumeral_infix (by decide) (by decide) (by decide) a b
  | mul => exact readNumeral_infix (by decide) (by decide) (by decide) a b
  | div => exact readNumeral_infix (by decide) (by decide) (by decide) a b
  | mod => exact readNumeral_infix (by decide) (by decide) (by decide) a b

theorem Numeral.number_neg (magnitude : Magnitude) :
    (Numeral.mk true magnitude).number = (Numeral.mk false magnitude).number.neg := by
  cases magnitude with
  | finite q => simp [number, Number.neg]
  | infinity => rfl
  | nan => rfl

/-- A numeric expression whose text spells a number denotes that number. -/
theorem SqlExpr.denotes_of_readNumeral {text : SqlText} (htext : text.Standard) (division : Division)
    {e : SqlExpr} (he : e.IsNumeric) {numeral : Numeral} (h : readNumeral (text.node e) = some numeral) :
    e.denotes division = some numeral.number := by
  induction e generalizing numeral with
  | number digits =>
      rw [htext.number] at h
      rw [denotes, h]
      rfl
  | neg operand ih =>
      rw [htext.neg] at h
      split at h
      · simp [readNumeral_minus_space] at h
      · obtain ⟨magnitude, rfl, hoperand⟩ := readNumeral_minus h
        rw [denotes, ih he hoperand, Numeral.number_neg]
        rfl
  | paren operand ih => simp [htext.paren, readNumeral_paren] at h
  | arith op left right ihl ihr =>
      rw [htext.arith, readNumeral_arith] at h
      simp at h
  | column _ _ => exact he.elim
  | string _ => exact he.elim
  | boolean _ => exact he.elim
  | comparison _ _ _ => exact he.elim
  | and _ _ => exact he.elim
  | or _ _ => exact he.elim
  | other _ _ => exact he.elim

/-! ## What is stored -/

/-- The types of numbers. -/
def DataType.IsNumber (type : DataType) : Prop := type = .int ∨ type = .float

/-- The texts that a column of a type takes. -/
def DataType.Takes : DataType → String → Prop
  | .int, text => (readInt text).isOk = true
  | .float, text => (readFloat text).isOk = true
  | _, _ => True

/-- Numbers that a column of a type does not tell apart. -/
def DataType.Same : DataType → Number → Number → Prop
  | .float, m, n => m.rounded = n.rounded
  | _, m, n => m = n

/-- A value is a number as a column of a type holds it: a float column the float
nearest to it. -/
def DataType.Stores : DataType → Value → Number → Prop
  | .int, .int v, n => n = .finite v
  | .float, .float x, n => Binary64.value x = n.rounded
  | _, _, _ => False

/-- The text that a value is coerced from. -/
def coerceText (column : Column) (text : String) : Except PyErr Value :=
  Schema.coerceField column (some (.str text))

theorem coerceText_eq_ok {column : Column} (htype : column.type.IsNumber) {text : String}
    {value : Value} (h : coerceText column text = .ok value) :
    ∃ numeral, readNumeral text = some numeral ∧
      ∀ n, column.type.Stores value n ↔ column.type.Same numeral.number n := by
  replace h := Schema.coerceField_eq_ok.mp h
  rcases htype with htype | htype
  · rw [htype] at h ⊢
    cases hread : readInt text with
    | error e => simp [Schema.convert, Passed.toInt, hread, Except.map] at h
    | ok v =>
        obtain rfl : Value.int v = value := by
          simpa [Schema.convert, Passed.toInt, hread, Except.map] using h
        obtain ⟨numeral, hnumeral, hnumber⟩ := readNumeral_of_readInt hread
        refine ⟨numeral, hnumeral, fun n => ?_⟩
        rw [DataType.Stores, hnumber]
        exact eq_comm
  · rw [htype] at h ⊢
    cases hnumeral : readNumeral text with
    | none => simp [Schema.convert, Passed.toFloat, readFloat, hnumeral, Except.map] at h
    | some numeral =>
        obtain rfl : Value.float numeral.toFloat = value := by
          simpa [Schema.convert, Passed.toFloat, readFloat, hnumeral, Except.map] using h
        refine ⟨numeral, rfl, fun n => ?_⟩
        rw [DataType.Stores, DataType.Same, Numeral.value_toFloat]

theorem exists_coerceText {column : Column} {text : String} :
    (∃ value, coerceText column text = .ok value) ↔ column.type.Takes text := by
  simp only [coerceText, Schema.coerceField_eq_ok]
  cases column.type with
  | int =>
      cases hread : readInt text <;>
        simp [Schema.convert, Passed.toInt, DataType.Takes, hread, Except.map, Except.isOk, Except.toBool]
  | float =>
      cases hread : readFloat text <;>
        simp [Schema.convert, Passed.toFloat, DataType.Takes, hread, Except.map, Except.isOk, Except.toBool]
  | bool => exact iff_of_true ⟨_, rfl⟩ trivial
  | varchar => exact iff_of_true ⟨_, rfl⟩ trivial

section Insert

variable (division : Division) (text : SqlText)

/-- The value stored for an expression is the number that the expression denotes. -/
def StoresDenoted (item : SqlExpr × Column) (value : Value) : Prop :=
  item.2.type.IsNumber → ∃ n, item.1.denotes division = some n ∧ item.2.type.Stores value n

/-- The operand whose text is stored is the same number as the expression. -/
def KeepsNumber (item : SqlExpr × Column) : Prop :=
  item.2.type.IsNumber → ∀ operand, item.1.operand? = some operand →
    ∃ m n, operand.denotes division = some m ∧ item.1.denotes division = some n ∧
      item.2.type.Same m n

variable {text}

/-- The text that the planner takes from a value, where it spells a number. -/
theorem denotes_of_thisText (htext : text.Standard) {e : SqlExpr} (he : e.IsRowValue) {numeral : Numeral}
    (h : readNumeral (e.thisText text) = some numeral) :
    (e.operand?.getD e).denotes division = some numeral.number := by
  cases e with
  | number digits =>
      rw [SqlExpr.thisText] at h
      simp [SqlExpr.operand?, SqlExpr.denotes, h]
  | string characters =>
      rw [SqlExpr.thisText] at h
      simp [SqlExpr.operand?, SqlExpr.denotes, h]
  | boolean value =>
      have hword : readNumeral (if value then "True" else "False") = none := by
        cases value with
        | true => decide
        | false => decide
      rw [SqlExpr.thisText, hword] at h
      simp at h
  | neg operand => exact SqlExpr.denotes_of_readNumeral htext division (e := operand) he h
  | paren operand => exact SqlExpr.denotes_of_readNumeral htext division (e := operand) he h
  | arith op left right => exact SqlExpr.denotes_of_readNumeral htext division he.1 h
  | column _ _ => exact he.elim
  | comparison _ _ _ => exact he.elim
  | and _ _ => exact he.elim
  | or _ _ => exact he.elim
  | other _ _ => exact he.elim

theorem storesDenoted_iff (htext : text.Standard) {item : SqlExpr × Column} (he : item.1.IsRowValue)
    {value : Value} (h : coerceText item.2 (item.1.thisText text) = .ok value) :
    StoresDenoted division item value ↔ KeepsNumber division item := by
  unfold StoresDenoted KeepsNumber
  refine forall_congr' fun htype => ?_
  obtain ⟨numeral, hnumeral, hstores⟩ := coerceText_eq_ok htype h
  have hread := denotes_of_thisText division htext he hnumeral
  cases hoperand : item.1.operand? with
  | none =>
      -- a literal: the text is its own
      rw [hoperand] at hread
      refine iff_of_true ⟨numeral.number, hread, (hstores _).mpr ?_⟩ (by simp)
      cases item.2.type <;> rfl
  | some operand =>
      rw [hoperand] at hread
      constructor
      · rintro ⟨n, hn, hvalue⟩ operand' hoperand'
        obtain rfl := Option.some.inj hoperand'
        exact ⟨numeral.number, n, hread, hn, (hstores n).mp hvalue⟩
      · intro hkeeps
        obtain ⟨m, n, hm, hn, hsame⟩ := hkeeps operand rfl
        obtain rfl : numeral.number = m := Option.some.inj (hread.symm.trans hm)
        exact ⟨n, hn, (hstores n).mpr hsame⟩

/-- The rows as `coerce` makes them of a statement. -/
def coerceRows (text : SqlText) (schema : Schema) (node : SqlInsert) : Except PyErr (List (List Value)) :=
  (LogicalPlanner.planInsert text node).values.mapM fun row => schema.coerce (Schema.passedTexts row)

/-- A statement either raises, or the values of all its rows are the numbers that
their expressions denote. -/
def InsertsDenoted (text : SqlText) (schema : Schema) (node : SqlInsert) : Prop :=
  ∀ stored, coerceRows text schema node = .ok stored →
    List.Forall₂ (fun row values =>
      List.Forall₂ (StoresDenoted division) (row.zip schema.columns) values) node.rows stored

/-- The values of the rows of a statement, each with its column. -/
def rowFields (schema : Schema) (node : SqlInsert) : List (SqlExpr × Column) :=
  node.rows.flatMap fun row => row.zip schema.columns

/-- A row of the plan is coerced value by value. -/
theorem coerce_thisText (schema : Schema) (row : List SqlExpr) :
    schema.coerce (Schema.passedTexts (row.map (SqlExpr.thisText text))) =
      (row.zip schema.columns).mapM fun item => coerceText item.2 (item.1.thisText text) := by
  rw [Schema.coerce, Schema.passedTexts, List.map_map, List.zip_map_left, List.mapM_map]
  rfl

theorem coerceRows_eq (schema : Schema) (node : SqlInsert) :
    coerceRows text schema node = node.rows.mapM fun row =>
      (row.zip schema.columns).mapM fun item => coerceText item.2 (item.1.thisText text) := by
  rw [coerceRows, LogicalPlanner.planInsert, List.mapM_map]
  simp only [Function.comp_def, coerce_thisText]

/-- A statement raises when a column does not take the text of a value. -/
theorem exists_coerceRows {schema : Schema} {node : SqlInsert} :
    (∃ stored, coerceRows text schema node = .ok stored) ↔
      ∀ item ∈ rowFields schema node, item.2.type.Takes (item.1.thisText text) := by
  simp only [coerceRows_eq, exists_mapM_eq_ok, exists_coerceText, rowFields, List.mem_flatMap]
  constructor
  · rintro h item ⟨row, hrow, hitem⟩
    exact h row hrow item hitem
  · intro h row hrow item hitem
    exact h item ⟨row, hrow, hitem⟩

/-- An `INSERT` stores the numbers that were written exactly when it raises because
a column does not take the text of a value, or when the operand of every value that
is no literal is the same number as the value itself. -/
theorem insertsDenoted_iff (text : SqlText) (htext : text.Standard) (schema : Schema) (node : SqlInsert)
    (hnode : ∀ row ∈ node.rows, ∀ e ∈ row, e.IsRowValue) :
    InsertsDenoted division text schema node ↔
      (∃ item ∈ rowFields schema node, ¬ item.2.type.Takes (item.1.thisText text)) ∨
        ∀ item ∈ rowFields schema node, KeepsNumber division item := by
  by_cases htakes : ∀ item ∈ rowFields schema node, item.2.type.Takes (item.1.thisText text)
  · obtain ⟨stored, hstored⟩ := exists_coerceRows.mpr htakes
    have hrows := coerceRows_eq schema node ▸ hstored
    -- a row at a time, and in a row a value at a time
    have hrow : ∀ row ∈ node.rows, ∀ values,
        ((row.zip schema.columns).mapM fun item =>
          coerceText item.2 (item.1.thisText text)) = .ok values →
        (List.Forall₂ (StoresDenoted division) (row.zip schema.columns) values ↔
          ∀ item ∈ row.zip schema.columns, KeepsNumber division item) := by
      intro row hmem values hvalues
      refine forall₂_iff_of_mapM hvalues fun item hitem value hvalue => ?_
      exact storesDenoted_iff division htext (hnode row hmem _ (List.of_mem_zip hitem).1) hvalue
    have hall := forall₂_iff_of_mapM hrows hrow
    have hfields : (∀ row ∈ node.rows, ∀ item ∈ row.zip schema.columns, KeepsNumber division item) ↔
        ∀ item ∈ rowFields schema node, KeepsNumber division item := by
      simp only [rowFields, List.mem_flatMap]
      constructor
      · rintro h item ⟨row, hmem, hitem⟩
        exact h row hmem item hitem
      · intro h row hmem item hitem
        exact h item ⟨row, hmem, hitem⟩
    have hraises : ¬ ∃ item ∈ rowFields schema node, ¬ item.2.type.Takes (item.1.thisText text) := by
      rintro ⟨item, hitem, hno⟩
      exact hno (htakes item hitem)
    rw [or_iff_right hraises, ← hfields, ← hall]
    constructor
    · intro h
      exact h stored hstored
    · intro h stored' hstored'
      obtain rfl := Except.ok.inj (hstored.symm.trans hstored')
      exact h
  · have hraises : InsertsDenoted division text schema node := by
      intro stored hstored
      exact absurd (exists_coerceRows.mp ⟨stored, hstored⟩) htakes
    exact iff_of_true hraises (.inl (by simpa using htakes))

end Insert

/-! ## A negative number -/

/-- The standard text of numeric expressions. -/
def standardNode : SqlExpr → String
  | .number digits => digits
  | .neg operand =>
      if (standardNode operand).toList.head? = some '-' then "- " ++ standardNode operand
      else "-" ++ standardNode operand
  | .paren operand => "(" ++ standardNode operand ++ ")"
  | .arith op left right =>
      standardNode left ++ " " ++ String.singleton op.symbol ++ " " ++ standardNode right
  | _ => ""

def standardText : SqlText := ⟨standardNode, Identifier.name⟩

theorem standard_standardText : standardText.Standard :=
  ⟨fun _ => rfl, fun _ => rfl, fun _ => rfl, fun _ _ _ => rfl⟩

/-- Exact quotients, and remainders with the sign of the dividend. -/
def exactDivision : Division where
  quotient x y := if y = 0 then none else some (x / y)
  remainder x y := if y = 0 then none else some (x - y * (x / y).num.tdiv (x / y).den)

/-- A table with one `INT` column. -/
def integerSchema : Schema := ⟨[⟨"k", .int, none⟩]⟩

/-- `INSERT INTO t VALUES (-5)`. -/
def insertMinusFive : SqlInsert := ⟨"t", [[.neg (.number "5")]]⟩

/-- `INSERT INTO t VALUES (-0)`. -/
def insertMinusZero : SqlInsert := ⟨"t", [[.neg (.number "0")]]⟩

theorem denotes_five : SqlExpr.denotes exactDivision (.neg (.number "5")) = some (.finite (-5)) := by
  decide +kernel

/-- Zero is its own negation: `-0` is stored as it was written. -/
theorem insertsDenoted_iff_minus_zero :
    InsertsDenoted exactDivision standardText integerSchema insertMinusZero := by
  have hvalues : ∀ row ∈ insertMinusZero.rows, ∀ e ∈ row, e.IsRowValue := by
    simp [insertMinusZero, SqlExpr.IsRowValue, SqlExpr.IsNumeric]
  refine (insertsDenoted_iff exactDivision standardText standard_standardText integerSchema
    insertMinusZero hvalues).mpr (.inr ?_)
  intro item hitem htype operand hoperand
  obtain rfl : item = (.neg (.number "0"), ⟨"k", .int, none⟩) := by
    simpa [rowFields, insertMinusZero, integerSchema] using hitem
  obtain rfl : SqlExpr.number "0" = operand := Option.some.inj hoperand
  exact ⟨.finite 0, .finite 0, by decide +kernel, by decide +kernel, rfl⟩

/-- Of `-5` the planner reads the operand: the row that is stored holds 5. -/
theorem insert_drops_sign :
    (∀ row ∈ insertMinusFive.rows, ∀ e ∈ row, e.IsRowValue) ∧
      coerceRows standardText integerSchema insertMinusFive = .ok [[.int 5]] ∧
      ¬ InsertsDenoted exactDivision standardText integerSchema insertMinusFive := by
  have hstored : coerceRows standardText integerSchema insertMinusFive = .ok [[.int 5]] := by
    decide +kernel
  refine ⟨?_, hstored, ?_⟩
  · simp [insertMinusFive, SqlExpr.IsRowValue, SqlExpr.IsNumeric]
  · intro h
    have hrows := h _ hstored
    simp only [insertMinusFive, integerSchema, List.zip_cons_cons, List.zip_nil_left,
      List.forall₂_cons, List.forall₂_nil_left_iff, and_true] at hrows
    obtain ⟨n, hn, hvalue⟩ := hrows (.inl rfl)
    rw [denotes_five] at hn
    obtain rfl := Option.some.inj hn
    have hfive : (-5 : ℚ) = (5 : ℤ) := Number.finite.inj hvalue
    norm_num at hfive

end DBEngine
