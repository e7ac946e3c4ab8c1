import DBEngine.Catalog.RowCodec
import DBEngine.Numerals

/-!
# Coercion

`coerce` makes values of the types of the columns out of what a statement
passes.  What it returns can be stored when there is one value for every column
and each is within the limits of its column, which it does not look at.
-/

set_option autoImplicit false

namespace DBEngine

/-- A Python value that is passed for a column: `None`, or a value. -/
abbrev Passed : Type := Option Value

namespace Passed

/-- `int(value)`. -/
def toInt : Passed → Except PyErr Int
  | none => .error (.typeError
      "int() argument must be a string, a bytes-like object or a real number, not 'NoneType'")
  | some (.int v) => .ok v
  | some (.bool b) => .ok (if b then 1 else 0)
  | some (.float x) =>
      match x.toModel.unpack with
      | .notANumber => .error .valueError
      | .infinity _ => .error .overflowError
      | .zero _ => .ok 0
      | .finite sign m e _ => .ok (sign.apply (m * 2 ^ e.toNat / 2 ^ (-e).toNat : Nat))
  | some (.str text) => readInt text

/-- `float(value)`. -/
def toFloat : Passed → Except PyErr Float
  | none => .error (.typeError "float() argument must be a string or a real number, not 'NoneType'")
  | some (.int v) =>
      let x := Float.ofInt v
      if x.isFinite then .ok x else .error .overflowError
  | some (.bool b) => .ok (if b then 1 else 0)
  | some (.float x) => .ok x
  | some (.str text) => readFloat text

/-- `str(value)`. -/
def toStr : Passed → Except PyErr String
  | none => .ok "None"
  | some (.int v) => writeInt v
  | some (.bool b) => .ok (if b then "True" else "False")
  | some (.float x) => .ok (writeFloat x)
  | some (.str text) => .ok text

end Passed

/-- `type.name`. -/
def DataType.name : DataType → String
  | .int => "INT"
  | .float => "FLOAT"
  | .bool => "BOOL"
  | .varchar => "VARCHAR"

namespace Schema

/-- What the loop of `coerce` appends for a value, unless it raises. -/
def convert (type : DataType) (value : Passed) : Except PyErr Value :=
  match type with
  | .int => value.toInt.map .int
  | .float => value.toFloat.map .float
  | .varchar => value.toStr.map .str
  | .bool =>
      match value with
      | some (.bool b) => .ok (.bool b)
      | value => value.toStr.map fun text => .bool (text.toLower = "1" || text.toLower = "true")

/-- The body of the loop of `coerce`.  The message formats the value, which may raise
itself. -/
def coerceField (column : Column) (value : Passed) : Except PyErr Value :=
  match convert column.type value with
  | .ok result => .ok result
  | .error _ => do
      let text ← value.toStr
      .error (.typeError s!"Cannot coerce {text} to {column.type.name} for column {column.name}")

/-- `coerce`. -/
def coerce (schema : Schema) (values : List Passed) : Except PyErr (List Value) :=
  (values.zip schema.columns).mapM fun item => coerceField item.2 item.1

/-- A row of texts, as it is passed. -/
def passedTexts (row : List String) : List Passed := row.map fun text => some (.str text)

/-- A value that was coerced was converted to the type of its column. -/
theorem coerceField_eq_ok {column : Column} {value : Passed} {result : Value} :
    coerceField column value = .ok result ↔ convert column.type value = .ok result := by
  unfold coerceField
  cases hconvert : convert column.type value with
  | ok other => rfl
  | error e =>
      refine iff_of_false (fun h => ?_) (fun h => nomatch h)
      obtain ⟨_, -, h⟩ := bind_eq_ok.mp h
      exact nomatch h

theorem hasType_of_convert {type : DataType} {value : Passed} {result : Value}
    (h : convert type value = .ok result) : result.hasType type = true := by
  have hmap {α : Type} {x : Except PyErr α} {f : α → Value} (hf : ∀ a, (f a).hasType type = true)
      (h : x.map f = .ok result) : result.hasType type = true := by
    cases x with
    | error e => exact nomatch h
    | ok a =>
        obtain rfl := Except.ok.inj h
        exact hf a
  cases type with
  | int => exact hmap (fun _ => rfl) h
  | float => exact hmap (fun _ => rfl) h
  | varchar => exact hmap (fun _ => rfl) h
  | bool =>
      unfold convert at h
      dsimp only at h
      split at h
      · obtain rfl := Except.ok.inj h
        rfl
      · exact hmap (fun _ => rfl) h

/-! ## What can be stored -/

/-- The integer or the text that a column makes of a value is within its limits. -/
def Storable (item : Passed × Column) : Prop :=
  match item.2.type with
  | .int => ∀ v, item.1.toInt = .ok v → item.2.InLimits (.int v)
  | .varchar => ∀ text, item.1.toStr = .ok text → item.2.InLimits (.str text)
  | _ => True

theorem inLimits_iff_storable {column : Column} {value : Passed} {result : Value}
    (h : coerceField column value = .ok result) : column.InLimits result ↔ Storable (value, column) := by
  replace h := coerceField_eq_ok.mp h
  have hmap {α : Type} {x : Except PyErr α} {f : α → Value} (h : x.map f = .ok result) :
      ∃ a, x = .ok a ∧ result = f a := by
    cases x with
    | error e => exact nomatch h
    | ok a => exact ⟨a, rfl, (Except.ok.inj h).symm⟩
  unfold Storable
  unfold convert at h
  cases htype : column.type with
  | int =>
      rw [htype] at h
      obtain ⟨v, hv, rfl⟩ := hmap h
      simp [hv]
  | varchar =>
      rw [htype] at h
      obtain ⟨text, htext, rfl⟩ := hmap h
      simp [htext]
  | float =>
      rw [htype] at h
      obtain ⟨x, -, rfl⟩ := hmap h
      exact iff_of_true trivial trivial
  | bool =>
      rw [htype] at h
      dsimp only at h
      split at h
      · obtain rfl := Except.ok.inj h
        exact iff_of_true trivial trivial
      · obtain ⟨text, -, rfl⟩ := hmap h
        exact iff_of_true trivial trivial

/-- The values of a row, stored as they are: one for every value passed and every column,
accepted by `serialize` and read back by `deserialize`. -/
def StoredAsIs (schema : Schema) (values : List Passed) (result : List Value) : Prop :=
  result.length = values.length ∧ result.length = schema.columns.length ∧
    ∃ raw, schema.serialize result = .ok (some raw) ∧
      ∀ rid, schema.deserialize raw rid = .ok ⟨result, rid⟩

theorem forall₂_coerce {schema : Schema} {values : List Passed} {result : List Value}
    (h : schema.coerce values = .ok result) :
    List.Forall₂ (fun item value => coerceField item.2 item.1 = .ok value)
      (values.zip schema.columns) result := mapM_eq_ok.mp h

/-- Each value of a coerced row with the column that it was made for. -/
theorem forall_zip_of_forall₂ {R : Passed × Column → Value → Prop} {columns : List Column} :
    ∀ {values : List Passed} {result : List Value}, columns.length = values.length →
      List.Forall₂ R (values.zip columns) result →
      ∀ item ∈ columns.zip result, ∃ value, (value, item.1) ∈ values.zip columns ∧ R (value, item.1) item.2 := by
  induction columns with
  | nil => simp
  | cons column columns ih =>
      intro values result hlength h item hitem
      cases values with
      | nil => simp at hlength
      | cons value values =>
          rw [List.zip_cons_cons] at h ⊢
          cases h with
          | cons hfirst hrest =>
              rw [List.zip_cons_cons] at hitem
              rcases List.mem_cons.mp hitem with rfl | hitem
              · exact ⟨value, List.mem_cons_self, hfirst⟩
              · obtain ⟨other, hother, hR⟩ := ih (by simpa using hlength) hrest item hitem
                exact ⟨other, List.mem_cons_of_mem _ hother, hR⟩

/-- A coerced row is stored as it is exactly when as many values were passed as there are
columns and what becomes of each is within the limits of its column. -/
theorem coerce_storedAsIs_iff (schema : Schema) (hdistinct : schema.Distinct) (values : List Passed)
    (result : List Value) (h : schema.coerce values = .ok result) :
    StoredAsIs schema values result ↔
      values.length = schema.columns.length ∧ ∀ item ∈ values.zip schema.columns, Storable item := by
  have hall := forall₂_coerce h
  have hlength : result.length = min values.length schema.columns.length := by
    rw [← hall.length_eq, List.length_zip]
  by_cases hcount : values.length = schema.columns.length
  · rw [and_iff_right hcount]
    have hresult : schema.columns.length = result.length := by omega
    have hfields := forall_zip_of_forall₂ hcount.symm hall
    have htypes : ∀ item ∈ schema.columns.zip result, item.2.hasType item.1.type = true := by
      intro item hitem
      obtain ⟨value, -, hvalue⟩ := hfields item hitem
      exact hasType_of_convert (coerceField_eq_ok.mp hvalue)
    have hserialize : StoredAsIs schema values result ↔
        ∃ raw, schema.serialize result = .ok (some raw) := by
      constructor
      · rintro ⟨-, -, raw, hraw, -⟩
        exact ⟨raw, hraw⟩
      · rintro ⟨raw, hraw⟩
        refine ⟨by omega, hresult.symm, raw, hraw, fun rid => ?_⟩
        have hread := deserialize_of_serialize hdistinct hraw [] rid
        rwa [List.append_nil, map_stored_eq hresult htypes] at hread
    rw [hserialize, exists_serialize_iff hdistinct hresult.le htypes]
    constructor
    · intro hlimits
      -- every value passed has become a value of the row
      have hzip : List.Forall₂ (fun (item : Passed × Column) value => item.2.InLimits value)
          (values.zip schema.columns) result := by
        rw [List.forall₂_iff_zip]
        refine ⟨hall.length_eq, fun {item value} hmem => ?_⟩
        have hcolumn : (item.2, value) ∈ schema.columns.zip result := by
          obtain ⟨i, hi⟩ := List.mem_iff_getElem?.mp hmem
          obtain ⟨hitem, hvalue⟩ := List.getElem?_zip_eq_some.mp hi
          obtain ⟨-, hcolumn⟩ := List.getElem?_zip_eq_some.mp hitem
          exact List.mem_iff_getElem?.mpr ⟨i, List.getElem?_zip_eq_some.mpr ⟨hcolumn, hvalue⟩⟩
        exact hlimits _ hcolumn
      have hstorable : ∀ item ∈ values.zip schema.columns, ∀ value,
          coerceField item.2 item.1 = .ok value → (item.2.InLimits value ↔ Storable item) :=
        fun _ _ _ hvalue => inLimits_iff_storable hvalue
      exact (forall₂_iff_of_mapM h hstorable).mp hzip
    · intro hstorable item hitem
      obtain ⟨value, hmem, hvalue⟩ := hfields item hitem
      exact (inLimits_iff_storable hvalue).mpr (hstorable _ hmem)
  · refine iff_of_false ?_ fun h => hcount h.1
    rintro ⟨hvalues, hcolumns, -⟩
    exact hcount (hvalues.symm.trans hcolumns)

/-- A coerced row that was serialized is read back as it is. -/
theorem deserialize_of_coerce {schema : Schema} {row : List Passed} {values : List Value}
    {raw : ByteBuffer.Bytes} (h : schema.coerce row = .ok values) (hraw : schema.serialize values = .ok (some raw)) (rid : Rid) :
    schema.deserialize raw rid = .ok ⟨values, rid⟩ := by
  have hdistinct := distinct_of_serialize hraw
  obtain ⟨datas, hpacks, -⟩ := (serialize_eq_ok hdistinct).mp hraw
  have hall := forall₂_coerce h
  have hlength : values.length = min row.length schema.columns.length := by
    rw [← hall.length_eq, List.length_zip]
  have hcount := hpacks.1
  have htypes : ∀ item ∈ schema.columns.zip values, item.2.hasType item.1.type = true := by
    intro item hitem
    have hrow : schema.columns.length ≤ row.length := by omega
    have htake : (row.take schema.columns.length).zip schema.columns = row.zip schema.columns := by
      conv => rhs; rw [List.zip_eq_zip_take_min]
      rw [Nat.min_eq_right hrow, List.take_length]
    rw [← htake] at hall
    obtain ⟨value, -, hvalue⟩ := forall_zip_of_forall₂ (by simp [hrow]) hall item hitem
    exact hasType_of_convert (coerceField_eq_ok.mp hvalue)
  have hread := deserialize_of_serialize hdistinct hraw [] rid
  rwa [List.append_nil, map_stored_eq (by omega) htypes] at hread

/-! ## A number that is too large -/

/-- An `INT` column. -/
def numberSchema : Schema := ⟨[⟨"n", .int, none⟩]⟩

theorem coerce_storedAsIs_iff_five : StoredAsIs numberSchema [some (.str "5")] [.int 5] := by
  refine (coerce_storedAsIs_iff numberSchema (by decide) [some (.str "5")] [.int 5] (by rfl)).mpr ⟨rfl, ?_⟩
  intro item hitem
  obtain rfl := List.mem_singleton.mp hitem
  intro v hv
  obtain rfl : (5 : Int) = v := Except.ok.inj hv
  exact fits_formati.mpr (by decide)

/-- `'3000000000'` is coerced to an integer that does not fit into four bytes. -/
theorem coerce_exceeds_column :
    numberSchema.Distinct ∧ numberSchema.coerce [some (.str "3000000000")] = .ok [.int 3000000000] ∧
      numberSchema.serialize [.int 3000000000] = .error .structError ∧
      ¬ StoredAsIs numberSchema [some (.str "3000000000")] [.int 3000000000] := by
  have hserialize : numberSchema.serialize [.int 3000000000] = .error .structError := by
    decide +kernel
  refine ⟨by decide, by decide +kernel, hserialize, ?_⟩
  rintro ⟨-, -, raw, hraw, -⟩
  exact nomatch hserialize.symm.trans hraw

end Schema

end DBEngine
