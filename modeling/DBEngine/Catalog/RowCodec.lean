import DBEngine.Catalog.Schema

/-!
# The row codec

A row that is serialized is read back: the bytes hold the lengths of the texts
and then the fields in column order, and whatever follows them does not matter.
-/

set_option autoImplicit false

namespace DBEngine

open ByteBuffer

/-- What a column gives back of a value that it has packed. -/
def Value.stored : DataType → Value → Value
  | .int, .bool b => .int (if b then 1 else 0)
  | .float, .int v => .float (Float.ofInt v)
  | .float, .bool b => .float (if b then 1 else 0)
  | .bool, value => .bool value.truthy
  | _, value => value

/-- The values of a type. -/
def Value.hasType : Value → DataType → Bool
  | .int _, .int => true
  | .float _, .float => true
  | .bool _, .bool => true
  | .str _, .varchar => true
  | _, _ => false

/-- The limits on what a column stores: integers of 32 bits, texts of the maximal
length and of at most 65535 bytes. -/
def Column.InLimits (column : Column) : Value → Prop
  | .int v => formati.Fits v
  | .str text => (Schema.encodeText text).length < 65536 ∧ Schema.tooLong column text = false
  | _ => True

/-- A value that a column is made for. -/
def Column.Admits (column : Column) (value : Value) : Prop :=
  value.hasType column.type = true ∧ column.InLimits value

namespace Schema

/-- No two columns have the same name. -/
def Distinct (schema : Schema) : Prop := (schema.columns.map Column.name).Nodup

instance (schema : Schema) : Decidable schema.Distinct := inferInstanceAs (Decidable (List.Nodup _))

/-! ## Fields -/

/-- The bytes of one field; `none` where `serialize` returns `False`. -/
def packColumn (column : Column) (value : Value) : Except PyErr (Option Bytes) :=
  if column.type = .varchar then
    match value with
    | .str text =>
        if tooLong column text then pure none
        else do
          let _ ← packLength (encodeText text).length
          pure (some (encodeText text))
    | value => .error (notText column value)
  else do
    let rawData ← packField column.type value
    pure (some rawData)

/-- What the header holds for a field. -/
def headerOf (item : Column × Bytes) : List Nat :=
  if item.1.type = .varchar then [item.2.length] else []

/-- The header of a row, as lengths. -/
def headers (items : List (Column × Bytes)) : List Nat := items.flatMap headerOf

/-- The bytes of a header. -/
def packHeaders (lengths : List Nat) : List Bytes := lengths.map fun (n : Nat) => formatH.encode (n : Int)

theorem decodeText_encodeText (text : String) : decodeText (encodeText text) = .ok text := by
  have hbytes : (encodeText text).toByteArray = text.toByteArray := by
    rw [encodeText]
    apply ByteArray.ext
    simp
  rw [decodeText, hbytes, String.fromUTF8?, dif_pos text.isValidUTF8]
  rfl

/-- A text that was packed. -/
theorem packColumn_text {column : Column} (htype : column.type = .varchar) {value : Value} {data : Bytes}
    (h : packColumn column value = .ok (some data)) :
    ∃ text, value = .str text ∧ data = encodeText text ∧ data.length < 65536 := by
  unfold packColumn at h
  rw [if_pos htype] at h
  cases value with
  | str text =>
      dsimp only at h
      split at h
      · simp [pure, Except.pure] at h
      · obtain ⟨bytes, hlength, h⟩ := bind_eq_ok.mp h
        obtain rfl : encodeText text = data := Option.some.inj (Except.ok.inj h)
        refine ⟨text, rfl, rfl, ?_⟩
        rw [packLength] at hlength
        split at hlength
        · rename_i hfits
          have := (fits_formatH.mp hfits).2
          omega
        · simp at hlength
  | int v => simp at h
  | float x => simp at h
  | bool b => simp at h

theorem unpackAt_append {fmt : Format} {v : Int} (hv : fmt.Fits v) (before after : Bytes) :
    unpackAt fmt (before ++ (fmt.encode v ++ after)) before.length = .ok v := by
  rw [unpackAt, unpackFrom, Buf.unpack_append rfl hv]

/-- A double is packed in bytes that hold its bits. -/
theorem unpackField_double (x : Float) (before after : Bytes) :
    unpackField .float (before ++ (packDouble x ++ after)) before.length = .ok (.float x) := by
  have hfits : formatd.Fits x.toBits.toNat := by
    have := x.toBits.toNat_lt
    simp only [Format.Fits, formatd]
    omega
  rw [unpackField, packDouble, unpackAt_append hfits]
  change Except.ok (Value.float (Float.ofBits (UInt64.ofNat (Int.toNat (x.toBits.toNat : Int))))) = _
  rw [Int.toNat_natCast, UInt64.ofNat_toNat, Binary64.ofBits_toBits]

theorem unpackField_packInt {v : Int} {data : Bytes} (h : packInt v = .ok data) (before after : Bytes) :
    unpackField .int (before ++ (data ++ after)) before.length = .ok (.int v) := by
  rw [packInt] at h
  split at h
  · rename_i hfits
    obtain rfl := Except.ok.inj h
    rw [unpackField, unpackAt_append hfits]
    rfl
  · simp at h

/-- A field that is no text is read back from where it was put. -/
theorem unpackField_packField {type : DataType} {value : Value} {data : Bytes}
    (h : packField type value = .ok data) (before after : Bytes) :
    unpackField type (before ++ (data ++ after)) before.length = .ok (value.stored type) := by
  cases type with
  | int =>
      cases value with
      | int v => exact unpackField_packInt h before after
      | bool b => exact unpackField_packInt h before after
      | float x => simp [packField] at h
      | str s => simp [packField] at h
  | float =>
      cases value with
      | float x =>
          obtain rfl := Except.ok.inj h
          exact unpackField_double x before after
      | int v =>
          simp only [packField] at h
          split at h
          · obtain rfl := Except.ok.inj h
            exact unpackField_double _ before after
          · simp at h
      | bool b =>
          obtain rfl := Except.ok.inj h
          exact unpackField_double _ before after
      | str s => simp [packField] at h
  | bool =>
      obtain rfl := Except.ok.inj h
      have hfits : formatBool.Fits (if value.truthy then 1 else 0) := by
        cases value.truthy <;> decide
      rw [unpackField, unpackAt_append hfits]
      cases htruthy : value.truthy <;> simp [Value.stored, htruthy, bind, Except.bind, pure, Except.pure]
  | varchar => simp [packField] at h

theorem length_packInt {v : Int} {data : Bytes} (h : packInt v = .ok data) : data.length = 4 := by
  rw [packInt] at h
  split at h
  · obtain rfl := Except.ok.inj h
    exact formati.length_encode v
  · simp at h

theorem length_packField {type : DataType} {value : Value} {data : Bytes}
    (h : packField type value = .ok data) : data.length = calcsize type := by
  cases type with
  | int =>
      cases value with
      | int v => exact length_packInt h
      | bool b => exact length_packInt h
      | float x => simp [packField] at h
      | str s => simp [packField] at h
  | float =>
      cases value with
      | float x =>
          obtain rfl := Except.ok.inj h
          exact formatd.length_encode _
      | int v =>
          simp only [packField] at h
          split at h
          · obtain rfl := Except.ok.inj h
            exact formatd.length_encode _
          · simp at h
      | bool b =>
          obtain rfl := Except.ok.inj h
          exact formatd.length_encode _
      | str s => simp [packField] at h
  | bool =>
      obtain rfl := Except.ok.inj h
      exact formatBool.length_encode _
  | varchar => simp [packField] at h

/-! ## `serialize` -/

section Serialize

variable {schema : Schema} {values : List Value}

/-- One pass of the loop: one field. -/
theorem serializeColumns_cons (column : Column) (rest : List Column) (header : List Bytes)
    (rawArr : List (Option Bytes)) :
    serializeColumns schema values (column :: rest) header rawArr =
      (schema.getIndex column.name >>= fun colIndex => valueAt values colIndex >>= fun value =>
        packColumn column value >>= fun packed =>
          match packed with
          | none => pure none
          | some data => serializeColumns schema values rest
              (header ++ packHeaders (headerOf (column, data))) (rawArr.set colIndex (some data))) := by
  rw [serializeColumns]
  refine bind_congr fun colIndex => bind_congr fun value => ?_
  unfold packColumn
  by_cases htype : column.type = .varchar
  · rw [if_pos htype, if_pos htype]
    cases value with
    | str text =>
        dsimp only
        split
        · rfl
        · cases hlength : packLength (encodeText text).length with
          | error e => rfl
          | ok bytes =>
              have hbytes : bytes = formatH.encode (encodeText text).length := by
                rw [packLength] at hlength
                split at hlength
                · exact (Except.ok.inj hlength).symm
                · simp at hlength
              have hheader : packHeaders (headerOf (column, encodeText text)) = [bytes] := by
                rw [headerOf, if_pos htype, hbytes]
                rfl
              change serializeColumns schema values rest (header ++ [bytes]) _ =
                serializeColumns schema values rest (header ++ packHeaders (headerOf (column, encodeText text))) _
              rw [hheader]
    | int v => rfl
    | float x => rfl
    | bool b => rfl
  · rw [if_neg htype, if_neg htype]
    cases packField column.type value with
    | error e => rfl
    | ok data =>
        have hheader : packHeaders (headerOf (column, data)) = [] := by
          rw [headerOf, if_neg htype]
          rfl
        change serializeColumns schema values rest header _ =
          serializeColumns schema values rest (header ++ packHeaders (headerOf (column, data))) _
        rw [hheader, List.append_nil]

/-- A column is found at its place. -/
theorem getIndex_of_distinct {before rest : List Column} {column : Column}
    (hcolumns : schema.columns = before ++ column :: rest) (hdistinct : schema.Distinct) :
    schema.getIndex column.name = .ok before.length := by
  rw [getIndex_eq_ok]
  obtain ⟨columns⟩ := schema
  obtain rfl : columns = before ++ column :: rest := hcolumns
  have hrest : (columnNames ⟨rest⟩).get? column.name = none := by
    rw [get?_columnNames_eq_none]
    intro other hother hname
    rw [Distinct, List.map_append, List.map_cons, List.nodup_append, List.nodup_cons] at hdistinct
    exact hdistinct.2.1.1 (hname ▸ List.mem_map_of_mem hother)
  rw [show before ++ column :: rest = (before ++ [column]) ++ rest by simp, get?_columnNames_two, hrest,
    get?_columnNames_append, if_pos rfl]

/-- The fields of a row. -/
def Packs (columns : List Column) (values : List Value) (datas : List Bytes) : Prop :=
  columns.length ≤ values.length ∧
    List.Forall₂ (fun item data => packColumn item.1 item.2 = .ok (some data)) (columns.zip values) datas

theorem Packs.cons_iff {column : Column} {rest : List Column} {value : Value} {datas : List Bytes} :
    Packs (column :: rest) (value :: values) datas ↔
      ∃ data datas', packColumn column value = .ok (some data) ∧ Packs rest values datas' ∧
        datas = data :: datas' := by
  unfold Packs
  rw [List.zip_cons_cons, List.length_cons, List.length_cons]
  constructor
  · rintro ⟨hlength, h⟩
    cases h with
    | cons hdata hrest => exact ⟨_, _, hdata, ⟨by omega, hrest⟩, rfl⟩
  · rintro ⟨data, datas', hdata, ⟨hlength, hrest⟩, rfl⟩
    exact ⟨by omega, .cons hdata hrest⟩

theorem Packs.length_eq {columns : List Column} {datas : List Bytes} (h : Packs columns values datas) :
    datas.length = columns.length := by
  rw [← h.2.length_eq, List.length_zip, Nat.min_eq_left h.1]

/-- The loop of `serialize` from some column on. -/
theorem serializeColumns_eq_ok (hdistinct : schema.Distinct) {rest : List Column} :
    ∀ (before : List Column) (done todo : List Value) (datas : List Bytes) (header : List Bytes)
      (result : List Bytes × List (Option Bytes)), schema.columns = before ++ rest →
      values = done ++ todo → done.length = before.length → datas.length = before.length →
      (serializeColumns schema values rest header
          (datas.map some ++ List.replicate rest.length none) = .ok (some result) ↔
        ∃ datas', Packs rest todo datas' ∧
          result = (header ++ packHeaders (headers (rest.zip datas')), (datas ++ datas').map some)) := by
  induction rest with
  | nil =>
      intro before done todo datas header result _ _ _ _
      constructor
      · intro h
        obtain rfl : (header, datas.map some ++ List.replicate 0 none) = result :=
          Option.some.inj (Except.ok.inj h)
        exact ⟨[], ⟨Nat.zero_le _, .nil⟩, by simp [headers, packHeaders]⟩
      · rintro ⟨datas', hpacks, rfl⟩
        obtain rfl := List.length_eq_zero_iff.mp hpacks.length_eq
        simp [serializeColumns, headers, packHeaders, pure, Except.pure]
  | cons column rest ih =>
      intro before done todo datas header result hcolumns hvalues hdone hdatas
      rw [serializeColumns_cons, getIndex_of_distinct hcolumns hdistinct]
      change (valueAt values before.length >>= _) = _ ↔ _
      cases todo with
      | nil =>
          have hmissing : valueAt values before.length = .error .indexError := by
            rw [valueAt, hvalues, List.append_nil, List.getElem?_eq_none (by omega)]
          rw [hmissing]
          refine iff_of_false (fun h => nomatch h) ?_
          rintro ⟨datas', ⟨hlength, -⟩, -⟩
          simp at hlength
      | cons value todo =>
          have hvalue : valueAt values before.length = .ok value := by
            rw [valueAt, hvalues, List.getElem?_append_right (by omega), hdone, Nat.sub_self]
            rfl
          rw [hvalue]
          change (packColumn column value >>= _) = _ ↔ _
          simp only [Packs.cons_iff]
          cases hpack : packColumn column value with
          | error e => exact iff_of_false (fun h => nomatch h) (by simp)
          | ok packed =>
              cases packed with
              | none =>
                  refine iff_of_false (fun h => ?_) (by simp)
                  exact nomatch (Except.ok.inj h : none = some result)
              | some data =>
                  have hset : (datas.map some ++ List.replicate (column :: rest).length none).set
                      before.length (some data) =
                      (datas ++ [data]).map some ++ List.replicate rest.length none := by
                    rw [List.length_cons, List.replicate_succ, ← hdatas, List.map_append,
                      List.append_assoc, List.set_append_right _ _ (by simp)]
                    simp
                  have hnext := ih (before ++ [column]) (done ++ [value]) todo (datas ++ [data])
                    (header ++ packHeaders (headerOf (column, data))) result (by simp [hcolumns]) (by simp [hvalues]) (by simp [hdone]) (by simp [hdatas])
                  change serializeColumns schema values rest _ _ = _ ↔ _
                  rw [hset, hnext]
                  have hheaders (datas' : List Bytes) : header ++ packHeaders (headerOf (column, data)) ++
                      packHeaders (headers (rest.zip datas')) =
                      header ++ packHeaders (headers ((column :: rest).zip (data :: datas'))) := by
                    simp [headers, packHeaders]
                  constructor
                  · rintro ⟨datas', hpacks, rfl⟩
                    exact ⟨data :: datas', ⟨data, datas', rfl, hpacks, rfl⟩, by
                      rw [hheaders, List.append_assoc]; rfl⟩
                  · rintro ⟨-, ⟨data', datas', hdata, hpacks, rfl⟩, rfl⟩
                    obtain rfl := Option.some.inj (Except.ok.inj hdata)
                    exact ⟨datas', hpacks, by rw [hheaders, List.append_assoc]; rfl⟩

theorem join_map_some (k : Nat) (items : List Bytes) : join k (items.map some) = .ok items.flatten := by
  induction items generalizing k with
  | nil => rfl
  | cons item items ih =>
      rw [List.map_cons, join, ih]
      rfl

/-- A place that no column has for its name stays empty. -/
theorem getElem?_serializeColumns {i : Nat} {rest : List Column}
    (hi : ∀ column ∈ rest, schema.getIndex column.name ≠ .ok i) :
    ∀ {header header' : List Bytes} {rawArr rawArr' : List (Option Bytes)},
      serializeColumns schema values rest header rawArr = .ok (some (header', rawArr')) →
      rawArr'[i]? = rawArr[i]? := by
  induction rest with
  | nil =>
      intro header header' rawArr rawArr' h
      obtain ⟨-, rfl⟩ := Prod.mk.inj (Option.some.inj (Except.ok.inj h))
      rfl
  | cons column rest ih =>
      intro header header' rawArr rawArr' h
      rw [serializeColumns_cons] at h
      obtain ⟨colIndex, hindex, h⟩ := bind_eq_ok.mp h
      obtain ⟨value, -, h⟩ := bind_eq_ok.mp h
      obtain ⟨packed, -, h⟩ := bind_eq_ok.mp h
      have hne : colIndex ≠ i := fun heq => hi column List.mem_cons_self (by rw [hindex, heq])
      cases packed with
      | none => exact nomatch (Except.ok.inj h : none = some (header', rawArr'))
      | some data =>
          rw [ih (fun other hother => hi other (List.mem_cons_of_mem _ hother)) h,
            List.getElem?_set_ne hne]

theorem ne_none_of_join {items : List (Option Bytes)} :
    ∀ {k : Nat} {bytes : Bytes}, join k items = .ok bytes → none ∉ items := by
  induction items with
  | nil => simp
  | cons item items ih =>
      intro k bytes h
      cases item with
      | none => exact nomatch h
      | some raw =>
          rw [join] at h
          obtain ⟨rest, hrest, -⟩ := bind_eq_ok.mp h
          simpa using ih hrest

/-- Where two columns have one name no row is stored: the place of the first one stays
empty. -/
theorem distinct_of_serialize {raw : Bytes} (h : schema.serialize values = .ok (some raw)) :
    schema.Distinct := by
  rw [Distinct, List.Nodup, List.pairwise_map, List.pairwise_iff_getElem]
  intro i j hi hj hij hname
  obtain ⟨fields, hfields, h⟩ := bind_eq_ok.mp h
  cases fields with
  | none => exact nomatch (Except.ok.inj h : none = some raw)
  | some fields =>
      obtain ⟨header, rawArr⟩ := fields
      obtain ⟨bytes, hjoin, -⟩ := bind_eq_ok.mp h
      have hplace : ∀ column ∈ schema.columns, schema.getIndex column.name ≠ .ok i := by
        intro column _ hindex
        have hget := getIndex_eq_ok.mp hindex
        obtain ⟨found, hfound, hsame⟩ := getElem?_of_columnNames hget
        obtain rfl : schema.columns[i] = found :=
          Option.some.inj ((List.getElem?_eq_getElem hi).symm.trans hfound)
        refine ne_of_mem_drop hget schema.columns[j] ?_ (hname.symm.trans hsame)
        exact List.mem_drop_iff_getElem.mpr ⟨j - (i + 1), by omega, by congr 1; omega⟩
      have hempty := getElem?_serializeColumns hplace hfields
      rw [List.getElem?_replicate, if_pos hi] at hempty
      exact ne_none_of_join hjoin (List.mem_append_right _ (List.mem_of_getElem? hempty))

/-- A row is serialized as its header and its fields. -/
theorem serialize_eq_ok (hdistinct : schema.Distinct) {raw : Bytes} :
    schema.serialize values = .ok (some raw) ↔ ∃ datas, Packs schema.columns values datas ∧
      raw = (packHeaders (headers (schema.columns.zip datas))).flatten ++ datas.flatten := by
  have hloop := fun result => serializeColumns_eq_ok hdistinct [] [] values [] [] result
    (List.nil_append schema.columns).symm (List.nil_append values).symm rfl rfl
  simp only [List.map_nil, List.nil_append] at hloop
  unfold serialize
  rw [bind_eq_ok]
  constructor
  · rintro ⟨fields, hfields, h⟩
    cases fields with
    | none => exact nomatch (Except.ok.inj h : none = some raw)
    | some result =>
        obtain ⟨datas, hpacks, rfl⟩ := (hloop result).mp hfields
        refine ⟨datas, hpacks, ?_⟩
        dsimp only at h
        rw [← List.map_append, join_map_some] at h
        have hraw := Option.some.inj (Except.ok.inj h)
        rw [← hraw, List.flatten_append]
  · rintro ⟨datas, hpacks, rfl⟩
    refine ⟨_, (hloop _).mpr ⟨datas, hpacks, rfl⟩, ?_⟩
    dsimp only
    rw [← List.map_append, join_map_some, List.flatten_append]
    rfl

end Serialize

/-! ## `deserialize` -/

section Deserialize

variable {schema : Schema} {values : List Value}

theorem headers_cons (column : Column) (columns : List Column) (data : Bytes) (datas : List Bytes) :
    headers ((column :: columns).zip (data :: datas)) =
      headerOf (column, data) ++ headers (columns.zip datas) := rfl

theorem length_headers {columns : List Column} : ∀ {datas : List Bytes}, datas.length = columns.length →
    (headers (columns.zip datas)).length = columns.countP fun column => column.type = .varchar := by
  induction columns with
  | nil =>
      intro datas _
      rfl
  | cons column columns ih =>
      intro datas hlength
      cases datas with
      | nil => simp at hlength
      | cons data datas =>
          rw [headers_cons, List.length_append, ih (by simpa using hlength), List.countP_cons, headerOf,
            Nat.add_comm]
          by_cases htype : column.type = .varchar
          · simp [htype]
          · simp [htype]

theorem Packs.lt_of_mem_headers {columns : List Column} : ∀ {values : List Value} {datas : List Bytes},
    Packs columns values datas → ∀ n ∈ headers (columns.zip datas), n < 65536 := by
  induction columns with
  | nil => simp [headers]
  | cons column columns ih =>
      intro values datas h n hn
      cases values with
      | nil => simp [Packs] at h
      | cons value values =>
          obtain ⟨data, datas', hdata, hrest, rfl⟩ := Packs.cons_iff.mp h
          rw [headers_cons, List.mem_append] at hn
          rcases hn with hn | hn
          · rw [headerOf] at hn
            split at hn
            · rename_i htype
              obtain ⟨-, -, -, hlt⟩ := packColumn_text htype hdata
              rwa [List.mem_singleton.mp hn]
            · simp at hn
          · exact ih hrest n hn

/-- The lengths in front of a row are read back. -/
theorem mapM_unpackAt {lengths : List Nat} (hlengths : ∀ n ∈ lengths, n < 65536) (rest : Bytes) :
    ((List.range lengths.length).mapM fun i =>
      unpackAt formatH ((packHeaders lengths).flatten ++ rest) (2 * i)) =
        .ok (lengths.map fun (n : Nat) => (n : Int)) := by
  let stored : List Int := lengths.map fun (n : Nat) => (n : Int)
  have hlength : stored.length = lengths.length := List.length_map _
  have hbytes : (packHeaders lengths).flatten = Buf.encodeAll formatH stored := by
    rw [packHeaders, ← List.flatMap_def, Buf.encodeAll, List.flatMap_map]
  have hslice : slice (Buf.encodeAll formatH stored ++ rest) 0 (formatH.width * stored.length) =
      Buf.encodeAll formatH stored := by
    simp [slice]
  have hend : 0 + formatH.width * stored.length ≤ (Buf.encodeAll formatH stored ++ rest).length := by
    simp
  rw [hbytes, mapM_eq_ok, List.forall₂_iff_get]
  refine ⟨by simp, fun i hi hi' => ?_⟩
  have hlt : i < stored.length := hi'
  have hfits : formatH.Fits stored[i] := by
    have hmem : stored[i] ∈ stored := List.getElem_mem hlt
    obtain ⟨n, hn, heq⟩ := List.mem_map.mp hmem
    rw [fits_formatH, ← heq]
    have := hlengths n hn
    omega
  have hread : Buf.unpack PyErr.structError formatH (0 + formatH.width * i)
      (Buf.encodeAll formatH stored ++ rest) = (.ok stored[i], Buf.encodeAll formatH stored ++ rest) :=
    Buf.unpack_of_slice hslice hend hlt hfits
  rw [Nat.zero_add] at hread
  rw [List.get_eq_getElem, List.get_eq_getElem, List.getElem_range]
  change (Buf.unpack PyErr.structError formatH (formatH.width * i) _).1 = _
  rw [hread]

/-- The loop of `deserialize` from some column on. -/
theorem deserializeColumns_eq (hdistinct : schema.Distinct) {rest : List Column} :
    ∀ (before : List Column) (todo done init : List Value) (datas : List Bytes) (front tail : Bytes),
      schema.columns = before ++ rest → Packs rest todo datas → done.length = before.length →
      init.length = rest.length →
      deserializeColumns schema (front ++ (datas.flatten ++ tail)) rest (headers (rest.zip datas))
          front.length (done ++ init) =
        .ok (done ++ (rest.zip todo).map fun item => item.2.stored item.1.type) := by
  induction rest with
  | nil =>
      intro before todo done init datas front tail _ _ _ hinit
      obtain rfl := List.length_eq_zero_iff.mp hinit
      rfl
  | cons column rest ih =>
      intro before todo done init datas front tail hcolumns hpacks hdone hinit
      cases todo with
      | nil => simp [Packs] at hpacks
      | cons value todo =>
          obtain ⟨data, datas', hdata, hrest, rfl⟩ := Packs.cons_iff.mp hpacks
          cases init with
          | nil => simp at hinit
          | cons first init =>
              have hset (v : Value) : (done ++ first :: init).set before.length v = (done ++ [v]) ++ init := by
                rw [← hdone, List.set_append_right _ _ (Nat.le_refl _)]
                simp
              have hraw : front ++ ((data :: datas').flatten ++ tail) =
                  (front ++ data) ++ (datas'.flatten ++ tail) := by
                simp
              have hnext := ih (before ++ [column]) todo (done ++ [value.stored column.type]) init datas'
                (front ++ data) tail (by simp [hcolumns]) hrest (by simp [hdone]) (by simpa using hinit)
              rw [List.length_append, ← hraw] at hnext
              rw [deserializeColumns, getIndex_of_distinct hcolumns hdistinct, headers_cons, headerOf]
              change (if column.type = .varchar then _ else _) = _
              by_cases htype : column.type = .varchar
              · obtain ⟨text, rfl, rfl, -⟩ := packColumn_text htype hdata
                rw [if_pos htype, if_pos htype]
                have hslice : slice (front ++ ((encodeText text :: datas').flatten ++ tail)) front.length
                    (encodeText text).length = encodeText text := by
                  rw [List.flatten_cons, List.append_assoc, slice_append_mid]
                have hstored : (Value.str text).stored column.type = .str text := by rw [htype]; rfl
                rw [hstored] at hnext
                change (decodeText (slice _ front.length (encodeText text).length) >>= _) = _
                rw [hslice, decodeText_encodeText]
                change deserializeColumns schema _ rest (headers (rest.zip datas'))
                  (front.length + (encodeText text).length) ((done ++ first :: init).set before.length _) = _
                rw [hset, hnext, List.zip_cons_cons, List.map_cons, hstored, List.append_assoc]
                rfl
              · rw [if_neg htype, if_neg htype, List.nil_append]
                unfold packColumn at hdata
                rw [if_neg htype] at hdata
                obtain ⟨data', hfield, hdata⟩ := bind_eq_ok.mp hdata
                obtain rfl := Option.some.inj (Except.ok.inj hdata)
                have hread := unpackField_packField hfield front (datas'.flatten ++ tail)
                rw [← List.append_assoc data', ← List.flatten_cons] at hread
                rw [hread]
                change deserializeColumns schema _ rest _ (front.length + calcsize column.type)
                  ((done ++ first :: init).set before.length _) = _
                rw [hset, ← length_packField hfield, hnext, List.zip_cons_cons, List.map_cons,
                  List.append_assoc]
                rfl

/-- A row that was serialized is read back, whatever follows it: every column gives back
what it stored. -/
theorem deserialize_of_serialize (hdistinct : schema.Distinct) {raw : Bytes}
    (h : schema.serialize values = .ok (some raw)) (rest : Bytes) (rid : Rid) :
    schema.deserialize (raw ++ rest) rid =
      .ok ⟨(schema.columns.zip values).map fun item => item.2.stored item.1.type, rid⟩ := by
  obtain ⟨datas, hpacks, rfl⟩ := (serialize_eq_ok hdistinct).mp h
  have hcount : schema.numOfVarchars = (headers (schema.columns.zip datas)).length :=
    (length_headers hpacks.length_eq).symm
  have hlengths := mapM_unpackAt hpacks.lt_of_mem_headers (datas.flatten ++ rest)
  have hfront : 2 * (headers (schema.columns.zip datas)).length =
      (packHeaders (headers (schema.columns.zip datas))).flatten.length := by
    rw [List.length_flatten, packHeaders, List.map_map]
    simp [Function.comp_def, Nat.mul_comm]
  have hcolumns := deserializeColumns_eq hdistinct [] values []
    ((List.range schema.columns.length).map fun i => .int i) datas
    (packHeaders (headers (schema.columns.zip datas))).flatten rest (List.nil_append schema.columns).symm
    hpacks rfl (by simp)
  have htoNat : ((headers (schema.columns.zip datas)).map fun (n : Nat) => (n : Int)).map Int.toNat =
      headers (schema.columns.zip datas) := by
    rw [List.map_map]
    simp [Function.comp_def]
  rw [deserialize, hcount, List.append_assoc, hlengths]
  change (deserializeColumns schema _ schema.columns (((headers _).map _).map Int.toNat) _ _ >>= _) = _
  rw [htoNat, hfront]
  rw [List.nil_append, List.nil_append] at hcolumns
  rw [hcolumns]
  rfl

end Deserialize

/-! ## Round trips -/

theorem exists_packs {columns : List Column} {values : List Value} :
    (∃ datas, Packs columns values datas) ↔ columns.length ≤ values.length ∧
      ∀ item ∈ columns.zip values, ∃ data, packColumn item.1 item.2 = .ok (some data) := by
  unfold Packs
  rw [exists_and_left, exists_forall₂]

/-- A column stores a value of its type as it is. -/
theorem stored_of_hasType {type : DataType} {value : Value} (h : value.hasType type = true) :
    value.stored type = value := by
  cases type with
  | int => cases value <;> first | rfl | simp [Value.hasType] at h
  | float => cases value <;> first | rfl | simp [Value.hasType] at h
  | bool => cases value <;> first | rfl | simp [Value.hasType] at h
  | varchar => cases value <;> rfl

/-- A value of its type is packed by a column when it is within the limits. -/
theorem exists_packColumn {column : Column} {value : Value} (h : value.hasType column.type = true) :
    (∃ data, packColumn column value = .ok (some data)) ↔ column.InLimits value := by
  unfold packColumn
  cases value with
  | int v =>
      have htype : column.type = .int := by
        revert h
        cases column.type <;> simp [Value.hasType]
      rw [if_neg (by simp [htype]), htype, packField, packInt, Column.InLimits]
      by_cases hfits : formati.Fits v
      · rw [if_pos hfits]
        exact iff_of_true ⟨_, rfl⟩ hfits
      · rw [if_neg hfits]
        exact iff_of_false (fun ⟨_, h⟩ => nomatch h) hfits
  | float x =>
      have htype : column.type = .float := by
        revert h
        cases column.type <;> simp [Value.hasType]
      rw [if_neg (by simp [htype]), htype]
      exact iff_of_true ⟨_, rfl⟩ trivial
  | bool b =>
      have htype : column.type = .bool := by
        revert h
        cases column.type <;> simp [Value.hasType]
      rw [if_neg (by simp [htype]), htype]
      exact iff_of_true ⟨_, rfl⟩ trivial
  | str text =>
      have htype : column.type = .varchar := by
        revert h
        cases column.type <;> simp [Value.hasType]
      rw [if_pos htype, Column.InLimits]
      dsimp only
      by_cases hlong : tooLong column text = true
      · rw [if_pos hlong, hlong]
        refine iff_of_false (fun ⟨_, h⟩ => ?_) (by simp)
        simp [pure, Except.pure] at h
      · rw [if_neg hlong, packLength]
        by_cases hlength : (encodeText text).length < 65536
        · rw [if_pos (fits_formatH.mpr ⟨by omega, by omega⟩)]
          exact iff_of_true ⟨_, rfl⟩ ⟨hlength, by simpa using hlong⟩
        · rw [if_neg (fun hfits => hlength (by have := (fits_formatH.mp hfits).2; omega))]
          exact iff_of_false (fun ⟨_, h⟩ => nomatch h) fun h => hlength h.1

/-- A row of values of the types of the columns is serialized when all are within the
limits of their columns. -/
theorem exists_serialize_iff {schema : Schema} (hdistinct : schema.Distinct) {values : List Value}
    (hlength : schema.columns.length ≤ values.length)
    (htypes : ∀ item ∈ schema.columns.zip values, item.2.hasType item.1.type = true) :
    (∃ raw, schema.serialize values = .ok (some raw)) ↔
      ∀ item ∈ schema.columns.zip values, item.1.InLimits item.2 := by
  have hpacks : (∃ raw, schema.serialize values = .ok (some raw)) ↔
      ∃ datas, Packs schema.columns values datas := by
    constructor
    · rintro ⟨raw, hraw⟩
      obtain ⟨datas, hdatas, -⟩ := (serialize_eq_ok hdistinct).mp hraw
      exact ⟨datas, hdatas⟩
    · rintro ⟨datas, hdatas⟩
      exact ⟨_, (serialize_eq_ok hdistinct).mpr ⟨datas, hdatas, rfl⟩⟩
  rw [hpacks, exists_packs, and_iff_right hlength]
  exact forall₂_congr fun item hitem => exists_packColumn (htypes item hitem)

/-- Values of the types of their columns are stored as they are. -/
theorem map_stored_eq {columns : List Column} : ∀ {values : List Value}, columns.length = values.length →
    (∀ item ∈ columns.zip values, item.2.hasType item.1.type = true) →
    ((columns.zip values).map fun item => item.2.stored item.1.type) = values := by
  induction columns with
  | nil =>
      intro values hlength _
      exact (List.length_eq_zero_iff.mp hlength.symm).symm
  | cons column columns ih =>
      intro values hlength htypes
      cases values with
      | nil => simp at hlength
      | cons value values =>
          rw [List.zip_cons_cons, List.forall_mem_cons] at htypes
          rw [List.zip_cons_cons, List.map_cons, stored_of_hasType htypes.1,
            ih (by simpa using hlength) htypes.2]

/-- A row with a value for every column, of its type and within its limits, is
serialized, and read back from the bytes and whatever follows them. -/
theorem deserialize_serialize (schema : Schema) (hdistinct : schema.Distinct) (values : List Value)
    (hvalues : List.Forall₂ Column.Admits schema.columns values) :
    ∃ raw, schema.serialize values = .ok (some raw) ∧
      ∀ (rest : Bytes) (rid : Rid), schema.deserialize (raw ++ rest) rid = .ok ⟨values, rid⟩ := by
  have hlength := hvalues.length_eq
  have hadmits : ∀ item ∈ schema.columns.zip values, item.1.Admits item.2 := by
    intro item hitem
    exact List.forall₂_iff_zip.mp hvalues |>.2 hitem
  obtain ⟨raw, hraw⟩ := (exists_serialize_iff hdistinct hlength.le fun item hitem =>
    (hadmits item hitem).1).mpr fun item hitem => (hadmits item hitem).2
  refine ⟨raw, hraw, fun rest rid => ?_⟩
  rw [deserialize_of_serialize hdistinct hraw, map_stored_eq hlength fun item hitem =>
    (hadmits item hitem).1]

/-- Two texts around an integer. -/
def personSchema : Schema := ⟨[⟨"Name", .varchar, some 5⟩, ⟨"Age", .int, none⟩, ⟨"Surname", .varchar, none⟩]⟩

theorem deserialize_serialize_person :
    ∃ raw, personSchema.serialize [.str "Ada", .int 36, .str "L"] = .ok (some raw) ∧
      ∀ (rest : Bytes) (rid : Rid), personSchema.deserialize (raw ++ rest) rid =
        .ok ⟨[.str "Ada", .int 36, .str "L"], rid⟩ := by
  refine deserialize_serialize personSchema (by decide) _ ?_
  refine .cons ⟨rfl, by decide, by decide⟩ (.cons ⟨rfl, fits_formati.mpr (by decide)⟩ (.cons ⟨rfl, by decide, rfl⟩ .nil))

end Schema

end DBEngine
