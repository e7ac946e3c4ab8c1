import Mathlib.Data.List.Induction
import DBEngine.Catalog.Value
import DBEngine.Storage.DiskManager

/-!
# Schemas

The columns of a table or of an operator's output, and the row codec: a row is
stored as the lengths of its texts followed by its fields in column order.
-/

set_option autoImplicit false

namespace DBEngine

open ByteBuffer

inductive DataType where
  | int
  | float
  | bool
  | varchar
  deriving DecidableEq, Repr

structure Column where
  name : String
  type : DataType
  maxLength : Option Nat
  deriving DecidableEq, Repr

/-- A `Record`. -/
structure Record where
  values : List Value
  rid : Rid
  deriving DecidableEq

structure Schema where
  columns : List Column
  deriving DecidableEq, Repr

namespace Schema

/-- `num_of_varchars`. -/
def numOfVarchars (schema : Schema) : Nat := schema.columns.countP (·.type = .varchar)

/-- `column_names`: the last column of a name counts. -/
def columnNames (schema : Schema) : Dict String Nat :=
  schema.columns.zipIdx.foldl (fun names item => names.set item.1.name item.2) []

/-- `get_index`. -/
def getIndex (schema : Schema) (columnName : String) : Except PyErr Nat :=
  match schema.columnNames.get? columnName with
  | some i => .ok i
  | none => .error (.keyError s!"Column '{columnName}' not found in schema")

/-- One more column: it counts for its name, whatever stood before. -/
theorem columnNames_append (columns : List Column) (column : Column) :
    columnNames ⟨columns ++ [column]⟩ = (columnNames ⟨columns⟩).set column.name columns.length := by
  simp [columnNames, List.zipIdx_append]

theorem get?_columnNames_append (columns : List Column) (column : Column) (name : String) :
    (columnNames ⟨columns ++ [column]⟩).get? name =
      if column.name = name then some columns.length else (columnNames ⟨columns⟩).get? name := by
  rw [columnNames_append, Dict.get?_set]

theorem get?_columnNames_eq_none {columns : List Column} {name : String} :
    (columnNames ⟨columns⟩).get? name = none ↔ ∀ column ∈ columns, column.name ≠ name := by
  induction columns using List.reverseRecOn with
  | nil => simp [columnNames]
  | append_singleton columns column ih =>
      rw [get?_columnNames_append]
      by_cases hname : column.name = name
      · simp [hname]
      · rw [if_neg hname, ih]
        simp [or_imp, forall_and, hname]

/-- The columns of two schemas one behind the other: a name of the second one
counts there, any other name in the first one. -/
theorem get?_columnNames_two (left right : List Column) (name : String) :
    (columnNames ⟨left ++ right⟩).get? name =
      match (columnNames ⟨right⟩).get? name with
      | some i => some (left.length + i)
      | none => (columnNames ⟨left⟩).get? name := by
  induction right using List.reverseRecOn with
  | nil => simp [columnNames]
  | append_singleton right column ih =>
      rw [← List.append_assoc, get?_columnNames_append, get?_columnNames_append, ih]
      by_cases hname : column.name = name
      · simp [hname]
      · simp [hname]

/-- The position of a name has a column of that name. -/
theorem getElem?_of_columnNames {columns : List Column} {name : String} {i : Nat}
    (h : (columnNames ⟨columns⟩).get? name = some i) :
    ∃ column, columns[i]? = some column ∧ column.name = name := by
  induction columns using List.reverseRecOn with
  | nil => simp [columnNames] at h
  | append_singleton columns column ih =>
      rw [get?_columnNames_append] at h
      split at h
      · rename_i hname
        obtain rfl := Option.some.inj h
        exact ⟨column, by simp, hname⟩
      · obtain ⟨found, hfound, hname⟩ := ih h
        refine ⟨found, ?_, hname⟩
        rw [List.getElem?_append_left (List.getElem?_eq_some_iff.mp hfound).1, hfound]

/-- Behind the position of a name no column has the name. -/
theorem ne_of_mem_drop {columns : List Column} {name : String} {i : Nat}
    (h : (columnNames ⟨columns⟩).get? name = some i) :
    ∀ column ∈ columns.drop (i + 1), column.name ≠ name := by
  induction columns using List.reverseRecOn with
  | nil => simp
  | append_singleton columns last ih =>
      intro column hcolumn
      rw [get?_columnNames_append] at h
      split at h
      · obtain rfl := Option.some.inj h
        simp at hcolumn
      · rename_i hlast
        obtain ⟨_, hi, -⟩ := getElem?_of_columnNames h
        have hlt := (List.getElem?_eq_some_iff.mp hi).1
        rw [List.drop_append_of_le_length (by omega)] at hcolumn
        rcases List.mem_append.mp hcolumn with hcolumn | hcolumn
        · exact ih h column hcolumn
        · rwa [List.mem_singleton.mp hcolumn]

theorem getIndex_eq_ok {schema : Schema} {name : String} {i : Nat} :
    schema.getIndex name = .ok i ↔ schema.columnNames.get? name = some i := by
  rw [getIndex]
  split
  · rename_i j hj
    simp [hj]
  · rename_i hnone
    simp [hnone]

/-! ## The row codec -/

/-- `struct.pack('i', value)`, in bytes. -/
def packInt (v : Int) : Except PyErr Bytes :=
  if formati.Fits v then .ok (formati.encode v) else .error .structError

/-- `struct.pack('d', value)` of a float, in bytes. -/
def packDouble (x : Float) : Bytes := formatd.encode x.toBits.toNat

/-- `struct.pack(column.type.value, value)`. -/
def packField (type : DataType) (value : Value) : Except PyErr Bytes :=
  match type, value with
  | .int, .int v => packInt v
  | .int, .bool b => packInt (if b then 1 else 0)
  | .int, _ => .error .structError
  | .float, .float x => .ok (packDouble x)
  | .float, .int v =>
      let x := Float.ofInt v
      if x.isFinite then .ok (packDouble x) else .error .structError
  | .float, .bool b => .ok (packDouble (if b then 1 else 0))
  | .float, .str _ => .error .structError
  | .bool, value => .ok (formatBool.encode (if value.truthy then 1 else 0))
  | .varchar, _ => .error .structError

/-- `row.values[col_index]`. -/
def valueAt (values : List Value) (colIndex : Nat) : Except PyErr Value :=
  match values[colIndex]? with
  | some value => .ok value
  | none => .error .indexError

/-- `column.max_length and len(text) > column.max_length`. -/
def tooLong (column : Column) (text : String) : Bool :=
  match column.maxLength with
  | some n => n ≠ 0 && n < text.length
  | none => false

/-- What a value that is no text raises in a `VARCHAR` column: from `len` when the
column has a maximal length, else from `encode`. -/
def notText (column : Column) (value : Value) : PyErr :=
  match column.maxLength with
  | some (_ + 1) => .typeError s!"object of type '{value.typeName}' has no len()"
  | _ => .attributeError

/-- `text.encode('utf-8')`. -/
def encodeText (text : String) : Bytes := text.toByteArray.data.toList

/-- `raw.decode()`. -/
def decodeText (raw : Bytes) : Except PyErr String :=
  match String.fromUTF8? raw.toByteArray with
  | some text => .ok text
  | none => .error .unicodeDecodeError

/-- `struct.pack('H', length)`. -/
def packLength (n : Nat) : Except PyErr Bytes :=
  if formatH.Fits n then .ok (formatH.encode n) else .error .structError

/-- The loop of `serialize` over the columns: the header, and the fields written so
far, `none` where the initial `''` still stands.  The result is `none` where the
source returns `False`. -/
def serializeColumns (schema : Schema) (values : List Value) :
    List Column → List Bytes → List (Option Bytes) →
      Except PyErr (Option (List Bytes × List (Option Bytes)))
  | [], header, rawArr => pure (some (header, rawArr))
  | column :: rest, header, rawArr => do
      let colIndex ← schema.getIndex column.name
      let value ← valueAt values colIndex
      if column.type = .varchar then
        match value with
        | .str text =>
            if tooLong column text then pure none
            else do
              let rawData := encodeText text
              let rawLength ← packLength rawData.length
              serializeColumns schema values rest (header ++ [rawLength])
                (rawArr.set colIndex (some rawData))
        | value => .error (notText column value)
      else do
        let rawData ← packField column.type value
        serializeColumns schema values rest header (rawArr.set colIndex (some rawData))

/-- `b"".join(items)`, where `k` items were joined before. -/
def join : Nat → List (Option Bytes) → Except PyErr Bytes
  | _, [] => pure []
  | k, none :: _ =>
      .error (.typeError s!"sequence item {k}: expected a bytes-like object, str found")
  | k, some raw :: rest => do
      let bytes ← join (k + 1) rest
      pure (raw ++ bytes)

/-- `serialize`; `none` stands for `False`. -/
def serialize (schema : Schema) (values : List Value) : Except PyErr (Option Bytes) := do
  let fields ← serializeColumns schema values schema.columns []
    (List.replicate schema.columns.length none)
  match fields with
  | none => pure none
  | some (header, rawArr) => do
      let raw ← join 0 (header.map some ++ rawArr)
      pure (some raw)

/-- `struct.unpack_from(fmt, raw, offset)[0]`. -/
def unpackAt (fmt : Format) (raw : Bytes) (offset : Nat) : Except PyErr Int :=
  (unpackFrom fmt offset raw).1

/-- `struct.calcsize(type.value)`. -/
def calcsize : DataType → Nat
  | .int => formati.width
  | .float => formatd.width
  | .bool => formatBool.width
  | .varchar => 1

/-- `struct.unpack_from(column.type.value, raw, offset)[0]` of a field that is no
text. -/
def unpackField (type : DataType) (raw : Bytes) (offset : Nat) : Except PyErr Value :=
  match type with
  | .int => do
      let v ← unpackAt formati raw offset
      pure (.int v)
  | .float => do
      let bits ← unpackAt formatd raw offset
      pure (.float (Float.ofBits (UInt64.ofNat bits.toNat)))
  | .bool => do
      let v ← unpackAt formatBool raw offset
      pure (.bool (v ≠ 0))
  | .varchar => .error .structError

/-- The loop of `deserialize` over the columns, with the lengths of the texts still
to be read. -/
def deserializeColumns (schema : Schema) (raw : Bytes) :
    List Column → List Nat → Nat → List Value → Except PyErr (List Value)
  | [], _, _, values => pure values
  | column :: rest, lengths, offset, values => do
      let colIndex ← schema.getIndex column.name
      if column.type = .varchar then
        match lengths with
        | [] => .error .indexError
        | length :: lengths => do
            let text ← decodeText (slice raw offset length)
            deserializeColumns schema raw rest lengths (offset + length)
              (values.set colIndex (.str text))
      else do
        let value ← unpackField column.type raw offset
        deserializeColumns schema raw rest lengths (offset + calcsize column.type)
          (values.set colIndex value)

/-- `deserialize`. -/
def deserialize (schema : Schema) (raw : Bytes) (rid : Rid) : Except PyErr Record := do
  let lengths ← (List.range schema.numOfVarchars).mapM fun i => unpackAt formatH raw (2 * i)
  let values ← deserializeColumns schema raw schema.columns (lengths.map Int.toNat)
    (2 * schema.numOfVarchars) ((List.range schema.columns.length).map fun i => .int i)
  pure ⟨values, rid⟩

end Schema

end DBEngine
