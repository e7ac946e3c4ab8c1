import DBEngine.Catalog.Table

/-!
# The rows of a table

What a scan yields when every stored tuple decodes: rows with one value for
every column, integers of 32 bits in the `INT` columns.  `Holds` says that a
table has such rows, `Indexed` that its indexes agree with them.
-/

set_option autoImplicit false

namespace DBEngine

open ByteBuffer

namespace Schema

variable {schema : Schema} {raw : Bytes}

/-- Reading the columns leaves the number of values as it is. -/
theorem length_deserializeColumns {columns : List Column} : ∀ {lengths : List Nat} {offset : Nat}
    {values values' : List Value},
    deserializeColumns schema raw columns lengths offset values = .ok values' →
      values'.length = values.length := by
  induction columns with
  | nil =>
      intro lengths offset values values' h
      obtain rfl := Except.ok.inj h
      rfl
  | cons column rest ih =>
      intro lengths offset values values' h
      rw [deserializeColumns] at h
      obtain ⟨colIndex, -, h⟩ := bind_eq_ok.mp h
      split at h
      · split at h
        · simp at h
        · obtain ⟨text, -, h⟩ := bind_eq_ok.mp h
          rw [ih h, List.length_set]
      · obtain ⟨value, -, h⟩ := bind_eq_ok.mp h
        rw [ih h, List.length_set]

/-- A value that no column is read into stays. -/
theorem getElem?_deserializeColumns {columns : List Column} {k : Nat}
    (hk : ∀ column ∈ columns, schema.getIndex column.name ≠ .ok k) : ∀ {lengths : List Nat}
    {offset : Nat} {values values' : List Value},
    deserializeColumns schema raw columns lengths offset values = .ok values' →
      values'[k]? = values[k]? := by
  induction columns with
  | nil =>
      intro lengths offset values values' h
      obtain rfl := Except.ok.inj h
      rfl
  | cons column rest ih =>
      intro lengths offset values values' h
      have hrest : ∀ {lengths : List Nat} {offset : Nat} {values : List Value},
          deserializeColumns schema raw rest lengths offset values = .ok values' →
            values'[k]? = values[k]? :=
        fun h => ih (fun column hcolumn => hk column (List.mem_cons_of_mem _ hcolumn)) h
      rw [deserializeColumns] at h
      obtain ⟨colIndex, hindex, h⟩ := bind_eq_ok.mp h
      have hne : colIndex ≠ k := by
        rintro rfl
        exact hk column List.mem_cons_self hindex
      split at h
      · split at h
        · simp at h
        · obtain ⟨text, -, h⟩ := bind_eq_ok.mp h
          rw [hrest h, List.getElem?_set_ne hne]
      · obtain ⟨value, -, h⟩ := bind_eq_ok.mp h
        rw [hrest h, List.getElem?_set_ne hne]

theorem fits_unpackAt {fmt : Format} {offset : Nat} {v : Int} (h : unpackAt fmt raw offset = .ok v) :
    fmt.Fits v := by
  rw [unpackAt, unpackFrom, Buf.unpack] at h
  split at h
  · rename_i hend
    obtain rfl := Except.ok.inj h
    exact fmt.fits_decode (length_slice hend)
  · simp at h

/-- The last column read into a place decides what stands there. -/
theorem int_of_deserializeColumns {columns : List Column} {column : Column} {after : List Column}
    {k : Nat} (hindex : schema.getIndex column.name = .ok k) (htype : column.type = .int)
    (hafter : ∀ c ∈ after, schema.getIndex c.name ≠ .ok k) : ∀ {before : List Column}
    {lengths : List Nat} {offset : Nat} {values values' : List Value},
    columns = before ++ column :: after → k < values.length →
    deserializeColumns schema raw columns lengths offset values = .ok values' →
      ∃ n, values'[k]? = some (.int n) ∧ formati.Fits n := by
  induction columns with
  | nil =>
      intro before lengths offset values values' hsplit
      simp at hsplit
  | cons c rest ih =>
      intro before lengths offset values values' hsplit hk h
      rw [deserializeColumns] at h
      obtain ⟨colIndex, hcolIndex, h⟩ := bind_eq_ok.mp h
      cases before with
      | nil =>
          obtain ⟨rfl, rfl⟩ := List.cons.inj hsplit
          obtain rfl := Except.ok.inj (hcolIndex.symm.trans hindex)
          rw [if_neg (by simp [htype])] at h
          obtain ⟨value, hvalue, h⟩ := bind_eq_ok.mp h
          rw [htype] at hvalue
          obtain ⟨n, hn, hvalue⟩ := bind_eq_ok.mp hvalue
          obtain rfl := Except.ok.inj hvalue
          refine ⟨n, ?_, fits_unpackAt hn⟩
          rw [getElem?_deserializeColumns hafter h, List.getElem?_set_self hk]
      | cons b before =>
          obtain ⟨-, hsplit⟩ := List.cons.inj hsplit
          split at h
          · split at h
            · simp at h
            · obtain ⟨text, -, h⟩ := bind_eq_ok.mp h
              exact ih hsplit (by rwa [List.length_set]) h
          · obtain ⟨value, -, h⟩ := bind_eq_ok.mp h
            exact ih hsplit (by rwa [List.length_set]) h

theorem deserialize_eq_ok {rid : Rid} {record : Record} (h : schema.deserialize raw rid = .ok record) :
    ∃ lengths values, deserializeColumns schema raw schema.columns lengths (2 * schema.numOfVarchars)
        ((List.range schema.columns.length).map fun i => .int i) = .ok values ∧
      record = ⟨values, rid⟩ := by
  obtain ⟨lengths, -, h⟩ := bind_eq_ok.mp h
  obtain ⟨values, hvalues, h⟩ := bind_eq_ok.mp h
  exact ⟨_, values, hvalues, (Except.ok.inj h).symm⟩

theorem length_deserialize {rid : Rid} {record : Record}
    (h : schema.deserialize raw rid = .ok record) : record.values.length = schema.columns.length := by
  obtain ⟨lengths, values, hvalues, rfl⟩ := deserialize_eq_ok h
  simpa using length_deserializeColumns hvalues

theorem rid_deserialize {rid : Rid} {record : Record} (h : schema.deserialize raw rid = .ok record) :
    record.rid = rid := by
  obtain ⟨lengths, values, -, rfl⟩ := deserialize_eq_ok h
  rfl

/-- An `INT` column holds integers of 32 bits. -/
theorem int_of_deserialize {rid : Rid} {record : Record} {name : String} {k : Nat} {column : Column}
    (h : schema.deserialize raw rid = .ok record) (hname : schema.columnNames.get? name = some k)
    (hcolumn : schema.columns[k]? = some column) (htype : column.type = .int) :
    ∃ n, record.values[k]? = some (.int n) ∧ formati.Fits n := by
  obtain ⟨lengths, values, hvalues, rfl⟩ := deserialize_eq_ok h
  obtain ⟨hlt, hget⟩ := List.getElem?_eq_some_iff.mp hcolumn
  obtain ⟨named, hnamed, hcolumnName⟩ := getElem?_of_columnNames hname
  obtain rfl := Option.some.inj (hcolumn.symm.trans hnamed)
  have hsplit : schema.columns = schema.columns.take k ++ column :: schema.columns.drop (k + 1) := by
    rw [← hget, List.cons_getElem_drop_succ, List.take_append_drop]
  refine int_of_deserializeColumns (getIndex_eq_ok.mpr (hcolumnName ▸ hname)) htype ?_ hsplit
    (by simpa using hlt) hvalues
  intro c hc hindex
  obtain ⟨found, hfound, hfoundName⟩ := getElem?_of_columnNames (getIndex_eq_ok.mp hindex)
  obtain rfl := Option.some.inj (hcolumn.symm.trans hfound)
  exact ne_of_mem_drop hname c hc (hfoundName.symm.trans hcolumnName)

end Schema

/-! ## Tables with rows -/

/-- The integer in a column of a row. -/
def Record.intAt (record : Record) (i : Nat) : Int :=
  match record.values[i]? with
  | some (.int n) => n
  | _ => 0

/-- A table whose scan yields the given rows. -/
structure Table.Holds {τ : Type} (table : Table τ) (records : List Record) : Prop where
  scan : table.scan.collect = .ok records
  nodup : (table.heapFile.map Prod.fst).Nodup

/-- The indexes of a table are on `INT` columns and have one entry for each row. -/
structure Table.Indexed {τ : Type} [IndexTree τ] [Multimap τ] (table : Table τ)
    (records : List Record) : Prop where
  column : ∀ item ∈ table.indices, ∃ i column, table.schema.columnNames.get? item.1 = some i ∧
    table.schema.columns[i]? = some column ∧ column.type = .int
  entries : ∀ item ∈ table.indices, ∀ i, table.schema.columnNames.get? item.1 = some i →
    Multimap.entries item.2.tree = ((records : Multiset Record).map fun r => (r.intAt i, r.rid))

/-- An index has one entry for each row, under the integer in one of its columns. -/
structure IndexesColumn {τ : Type} [IndexTree τ] [Multimap τ] (tree : τ) (records : List Record)
    (i : Nat) : Prop where
  ints : ∀ r ∈ records, r.values[i]? = some (.int (r.intAt i))
  entries : Multimap.entries tree = ((records : Multiset Record).map fun r => (r.intAt i, r.rid))

namespace Table

variable {τ : Type} {table : Table τ} {records : List Record}

/-- A scan that returns has read every live tuple. -/
theorem forall₂_of_scan (h : table.scan.collect = .ok records) :
    List.Forall₂ (fun item record => table.schema.deserialize item.2 item.1 = .ok record)
      table.heapFile records := by
  unfold scan at h
  generalize table.heapFile = items at h ⊢
  induction items generalizing records with
  | nil =>
      obtain rfl := Except.ok.inj h
      exact .nil
  | cons item items ih =>
      rw [Generator.ofList, Generator.forEach] at h
      obtain ⟨first, rest, hfirst, hrest, rfl⟩ := Generator.collect_append_eq_ok h
      cases hrecord : table.schema.deserialize item.2 item.1 with
      | error e => simp [hrecord] at hfirst
      | ok record =>
          rw [hrecord, Generator.after_ok] at hfirst
          obtain rfl := Except.ok.inj hfirst
          exact .cons hrecord (ih hrest)

theorem map_rid_of_holds (h : table.Holds records) :
    records.map Record.rid = table.heapFile.map Prod.fst := by
  have hall := forall₂_of_scan h.scan
  clear h
  generalize table.heapFile = items at hall ⊢
  induction hall with
  | nil => rfl
  | cons hrecord _ ih => rw [List.map_cons, List.map_cons, ih, Schema.rid_deserialize hrecord]

theorem Holds.nodup_rid (h : table.Holds records) : (records.map Record.rid).Nodup := by
  rw [map_rid_of_holds h]
  exact h.nodup

/-- A row of the table was read from a live tuple. -/
theorem Holds.exists_raw (h : table.Holds records) {record : Record} (hrecord : record ∈ records) :
    ∃ raw, (record.rid, raw) ∈ table.heapFile ∧
      table.schema.deserialize raw record.rid = .ok record := by
  obtain ⟨⟨rid, raw⟩, hmem, hraw⟩ := exists_of_forall₂ (forall₂_of_scan h.scan) hrecord
  have hrid : record.rid = rid := Schema.rid_deserialize hraw
  rw [hrid]
  exact ⟨raw, hmem, hraw⟩

/-- `get` of the record id of a row reads the row. -/
theorem Holds.get_rid (h : table.Holds records) {record : Record} (hrecord : record ∈ records) :
    table.get record.rid = .ok record := by
  obtain ⟨raw, hmem, hraw⟩ := h.exists_raw hrecord
  rw [get, getTuple, Dict.get?_of_mem h.nodup hmem]
  exact hraw

theorem Holds.length_values (h : table.Holds records) {record : Record} (hrecord : record ∈ records) :
    record.values.length = table.schema.columns.length := by
  obtain ⟨raw, -, hraw⟩ := h.exists_raw hrecord
  exact Schema.length_deserialize hraw

/-- An `INT` column of the rows holds integers of 32 bits. -/
theorem Holds.int_of_column (h : table.Holds records) {name : String} {i : Nat} {column : Column}
    (hi : table.schema.columnNames.get? name = some i) (hcolumn : table.schema.columns[i]? = some column)
    (htype : column.type = .int) {record : Record} (hrecord : record ∈ records) :
    record.values[i]? = some (.int (record.intAt i)) ∧ formati.Fits (record.intAt i) := by
  obtain ⟨raw, -, hraw⟩ := h.exists_raw hrecord
  obtain ⟨n, hn, hfits⟩ := Schema.int_of_deserialize hraw hi hcolumn htype
  have hintAt : record.intAt i = n := by
    rw [Record.intAt, hn]
  rw [hintAt]
  exact ⟨hn, hfits⟩

/-- An indexed column holds integers of 32 bits. -/
theorem Holds.int_of_index [IndexTree τ] [Multimap τ] (h : table.Holds records)
    (hindexed : table.Indexed records) {item : String × IndexMeta τ} (hitem : item ∈ table.indices)
    {i : Nat} (hi : table.schema.columnNames.get? item.1 = some i) {record : Record}
    (hrecord : record ∈ records) :
    record.values[i]? = some (.int (record.intAt i)) ∧ formati.Fits (record.intAt i) := by
  obtain ⟨j, column, hj, hcolumn, htype⟩ := hindexed.column item hitem
  obtain rfl := Option.some.inj (hi.symm.trans hj)
  exact h.int_of_column hi hcolumn htype hrecord

theorem Holds.indexesColumn [IndexTree τ] [Multimap τ] (h : table.Holds records)
    (hindexed : table.Indexed records) {item : String × IndexMeta τ} (hitem : item ∈ table.indices)
    {i : Nat} (hi : table.schema.columnNames.get? item.1 = some i) :
    IndexesColumn item.2.tree records i where
  ints := fun _ hr => (h.int_of_index hindexed hitem hi hr).1
  entries := hindexed.entries item hitem i hi

/-! ## Deleting a row -/

/-- A scan of tuples that all decode returns. -/
theorem scan_of_forall₂ (h : List.Forall₂ (fun item record =>
    table.schema.deserialize item.2 item.1 = .ok record) table.heapFile records) :
    table.scan.collect = .ok records := by
  unfold scan
  generalize table.heapFile = items at h ⊢
  induction h with
  | nil => rfl
  | @cons item record _ _ hrecord _ ih =>
      have hone : (Generator.yield record .done : Generator PyErr Record).collect = .ok [record] := rfl
      rw [Generator.ofList, Generator.forEach, hrecord, Generator.after_ok]
      exact Generator.collect_append_ok hone ih

/-- The rows of a table without one of its tuples. -/
theorem Holds.del (h : table.Holds records) (rid : Rid) (indices : Dict String (IndexMeta τ)) :
    Table.Holds { table with heapFile := Dict.del table.heapFile rid, indices := indices }
      (records.filter fun r => r.rid ≠ rid) where
  scan := by
    apply scan_of_forall₂
    have hall := forall₂_of_scan h.scan
    clear h
    change List.Forall₂ _ (Dict.del table.heapFile rid) _
    generalize table.heapFile = items at hall ⊢
    induction hall with
    | nil => exact .nil
    | @cons item record _ _ hrecord _ ih =>
        have hrid : record.rid = item.1 := Schema.rid_deserialize hrecord
        rw [Dict.del, List.filter_cons, List.filter_cons, hrid]
        by_cases hitem : item.1 = rid
        · rw [if_neg (by simp [hitem]), if_neg (by simp [hitem])]
          exact ih
        · rw [if_pos (by simp [hitem]), if_pos (by simp [hitem])]
          exact .cons hrecord ih
  nodup := h.nodup.sublist (List.filter_sublist.map _)

/-- A row and the other rows. -/
theorem Holds.eq_cons (h : table.Holds records) {record : Record} (hrecord : record ∈ records) :
    (records : Multiset Record) =
      record ::ₘ ((records.filter fun r => r.rid ≠ record.rid : List Record) : Multiset Record) := by
  have hnodup := h.nodup_rid
  clear h
  induction records with
  | nil => simp at hrecord
  | cons r records ih =>
      rw [List.map_cons, List.nodup_cons] at hnodup
      rcases List.mem_cons.mp hrecord with rfl | hrecord
      · have hrest : (records.filter fun r => r.rid ≠ record.rid) = records := by
          refine List.filter_eq_self.mpr fun r hr => decide_eq_true ?_
          intro hrid
          exact hnodup.1 (hrid ▸ List.mem_map_of_mem hr)
        rw [List.filter_cons, if_neg (by simp), hrest, Multiset.cons_coe]
      · have hne : r.rid ≠ record.rid := by
          intro hrid
          exact hnodup.1 (hrid ▸ List.mem_map_of_mem hrecord)
        rw [List.filter_cons, if_pos (decide_eq_true hne), ← Multiset.cons_coe, ih hrecord hnodup.2,
          Multiset.cons_swap, Multiset.cons_coe]

section

variable [IndexTree τ] [Multimap τ]

/-- The loop of `delete` takes the entry of a row out of every index. -/
theorem deleteFrom_ok {schema : Schema} {row : Record} {indices : Dict String (IndexMeta τ)}
    (h : ∀ item ∈ indices, ∃ i, schema.columnNames.get? item.1 = some i ∧
      row.values[i]? = some (.int (row.intAt i))) : ∃ indices',
    deleteFrom schema row row.rid indices = .ok indices' ∧
      List.Forall₂ (fun item item' : String × IndexMeta τ => item'.1 = item.1 ∧
        ∀ i, schema.columnNames.get? item.1 = some i → Multimap.entries item'.2.tree =
          (Multimap.entries item.2.tree).erase (row.intAt i, row.rid)) indices indices' := by
  induction indices with
  | nil => exact ⟨[], rfl, .nil⟩
  | cons item indices ih =>
      obtain ⟨rest, hrest, hall⟩ := ih fun item' hitem => h item' (List.mem_cons_of_mem _ hitem)
      obtain ⟨i, hi, hvalue⟩ := h item List.mem_cons_self
      obtain ⟨tree, htree, hentries⟩ :=
        Multimap.delete_ok item.2.tree (.int (row.intAt i)) (row.intAt i) row.rid rfl
      refine ⟨(item.1, { item.2 with tree := tree }) :: rest, ?_, .cons ⟨rfl, ?_⟩ hall⟩
      · rw [deleteFrom, Schema.getIndex_eq_ok.mpr hi]
        change (Schema.valueAt row.values i >>= _) = _
        rw [Schema.valueAt, hvalue]
        change (IndexTree.delete item.2.tree (.int (row.intAt i)) row.rid >>= _) = _
        rw [htree]
        change (deleteFrom schema row row.rid indices >>= _) = _
        rw [hrest]
        rfl
      · intro j hj
        obtain rfl := Option.some.inj (hi.symm.trans hj)
        exact hentries

/-- `delete` of a row leaves the other rows, and the indexes agree with them. -/
theorem Holds.delete (h : table.Holds records) (hindexed : table.Indexed records) {record : Record}
    (hrecord : record ∈ records) : ∃ table', table.delete record.rid = .ok table' ∧
      table'.Holds (records.filter fun r => r.rid ≠ record.rid) ∧
      table'.Indexed (records.filter fun r => r.rid ≠ record.rid) := by
  obtain ⟨indices, hindices, hall⟩ := deleteFrom_ok fun item hitem => by
    obtain ⟨i, -, hi, -, -⟩ := hindexed.column item hitem
    exact ⟨i, hi, (h.int_of_index hindexed hitem hi hrecord).1⟩
  refine ⟨{ table with heapFile := Dict.del table.heapFile record.rid, indices := indices }, ?_,
    h.del record.rid indices, ?_, ?_⟩
  · rw [Table.delete, h.get_rid hrecord]
    change (deleteFrom table.schema record record.rid table.indices >>= _) = _
    rw [hindices]
    rfl
  · intro item' hitem'
    obtain ⟨item, hitem, hname, -⟩ := exists_of_forall₂ hall hitem'
    change ∃ i column, table.schema.columnNames.get? item'.1 = some i ∧ _
    rw [hname]
    exact hindexed.column item hitem
  · intro item' hitem' i hi
    obtain ⟨item, hitem, hname, hentries⟩ := exists_of_forall₂ hall hitem'
    replace hi : table.schema.columnNames.get? item.1 = some i := hname ▸ hi
    rw [hentries i hi, hindexed.entries item hitem i hi, h.eq_cons hrecord, Multiset.map_cons,
      Multiset.erase_cons_head]

/-- The rows with the given record ids are deleted one after the other. -/
theorem Holds.foldlM_delete (gone : List Record) : ∀ {table : Table τ} {records : List Record},
    table.Holds records → table.Indexed records → (∀ r ∈ gone, r ∈ records) →
      (gone.map Record.rid).Nodup → ∃ table',
        (gone.map Record.rid).foldlM Table.delete table = .ok table' ∧
          table'.Holds (records.filter fun r => r.rid ∉ gone.map Record.rid) ∧
          table'.Indexed (records.filter fun r => r.rid ∉ gone.map Record.rid) := by
  induction gone with
  | nil =>
      intro table records h hindexed _ _
      refine ⟨table, rfl, ?_⟩
      rw [List.filter_eq_self.mpr (by simp)]
      exact ⟨h, hindexed⟩
  | cons record gone ih =>
      intro table records h hindexed hgone hnodup
      rw [List.map_cons, List.nodup_cons] at hnodup
      obtain ⟨next, hnext, hholds, hindexed'⟩ := h.delete hindexed (hgone record List.mem_cons_self)
      have hothers : ∀ r ∈ gone, r ∈ records.filter fun r => r.rid ≠ record.rid := by
        intro r hr
        refine List.mem_filter.mpr ⟨hgone r (List.mem_cons_of_mem _ hr), decide_eq_true ?_⟩
        intro hrid
        exact hnodup.1 (hrid ▸ List.mem_map_of_mem hr)
      obtain ⟨last, hlast, hrows⟩ := ih hholds hindexed' hothers hnodup.2
      have hfilter : ((records.filter fun r => r.rid ≠ record.rid).filter fun r =>
          r.rid ∉ gone.map Record.rid) =
          records.filter fun r => r.rid ∉ (record :: gone).map Record.rid := by
        rw [List.filter_filter]
        refine List.filter_congr fun r _ => ?_
        rw [List.map_cons, ← Bool.decide_and]
        exact decide_eq_decide.mpr (by rw [List.mem_cons, not_or, and_comm])
      rw [hfilter] at hrows
      refine ⟨last, ?_, hrows⟩
      rw [List.map_cons, List.foldlM_cons, hnext]
      exact hlast

end

end Table

end DBEngine
