import DBEngine.Catalog.DatabaseFiles
import DBEngine.Execution.DeletedRows
import DBEngine.Execution.QueryAnswers
import DBEngine.Execution.StoredStatements

/-!
# Statements and the files

What the statements read of the tables at their files and what they make of them.  The rows
in a heap file have the types of the columns, so a query that is well-typed does not raise,
and neither does a `DELETE` from a table without indexes.
-/

set_option autoImplicit false

namespace DBEngine

open ByteBuffer Paged

/-! ## Rows that can be packed -/

namespace Schema

variable {schema : Schema} {values : List Value}

/-- No column has a maximal length. -/
def Unlimited (schema : Schema) : Prop := ∀ column ∈ schema.columns, column.maxLength = none

/-- The columns under the names that they have in a scan of the table. -/
def qualify (schema : Schema) (tableName : String) : Schema :=
  ⟨schema.columns.map fun column => { column with name := qualified tableName column.name }⟩

/-- What a column gives back of a value has the type of the column. -/
theorem hasType_of_packColumn {column : Column} {value : Value} {data : Bytes}
    (h : packColumn column value = .ok (some data)) : (value.stored column.type).hasType column.type = true := by
  by_cases htype : column.type = .varchar
  · obtain ⟨text, rfl, -, -⟩ := packColumn_text htype h
    rw [htype]
    rfl
  · unfold packColumn at h
    rw [if_neg htype] at h
    obtain ⟨raw, hfield, -⟩ := bind_eq_ok.mp h
    revert htype hfield
    cases column.type <;> cases value <;> simp [packField, Value.stored, Value.hasType]

theorem forall₂_hasType_of_packs {columns : List Column} {datas : List Bytes} (h : Packs columns values datas) :
    List.Forall₂ (fun column value => Value.hasType value column.type = true) columns
      ((columns.zip values).map fun item => item.2.stored item.1.type) := by
  induction columns generalizing values datas with
  | nil => exact .nil
  | cons column rest ih =>
      cases values with
      | nil => exact absurd h.1 (by simp)
      | cons value values =>
          obtain ⟨data, datas', hdata, hrest, -⟩ := Packs.cons_iff.mp h
          exact .cons (hasType_of_packColumn hdata) (ih hrest)

/-- The row that is read back of a row that was serialized fits the columns. -/
theorem fits_of_serialize {raw : Bytes} (h : schema.serialize values = .ok (some raw)) :
    schema.Fits ((schema.columns.zip values).map fun item => item.2.stored item.1.type) := by
  obtain ⟨datas, hpacks, -⟩ := (serialize_eq_ok (distinct_of_serialize h)).mp h
  exact forall₂_hasType_of_packs hpacks

/-- Without maximal lengths no text is too long. -/
theorem serialize_ne_none (h : schema.Unlimited) : schema.serialize values ≠ .ok none := by
  have hcolumns : ∀ (rest : List Column) (header : List Bytes) (rawArr : List (Option Bytes)),
      (∀ column ∈ rest, column.maxLength = none) →
        serializeColumns schema values rest header rawArr ≠ .ok none := by
    intro rest
    induction rest with
    | nil => simp [serializeColumns, pure, Except.pure]
    | cons column rest ih =>
        intro header rawArr hnone hres
        have hrest := fun header rawArr => ih header rawArr fun other hother => hnone other (List.mem_cons_of_mem _ hother)
        rw [serializeColumns] at hres
        obtain ⟨colIndex, -, hres⟩ := bind_eq_ok.mp hres
        obtain ⟨value, -, hres⟩ := bind_eq_ok.mp hres
        by_cases htype : column.type = .varchar
        · rw [if_pos htype] at hres
          cases value with
          | str text =>
              have hshort : tooLong column text = false := by rw [tooLong, hnone column List.mem_cons_self]
              dsimp only at hres
              rw [if_neg (by simp [hshort])] at hres
              obtain ⟨rawLength, -, hres⟩ := bind_eq_ok.mp hres
              exact hrest _ _ hres
          | int v => cases hres
          | float x => cases hres
          | bool b => cases hres
        · rw [if_neg htype] at hres
          obtain ⟨rawData, -, hres⟩ := bind_eq_ok.mp hres
          exact hrest _ _ hres
  intro hres
  obtain ⟨fields, hfields, hres⟩ := bind_eq_ok.mp hres
  cases fields with
  | none => exact hcolumns _ _ _ h hfields
  | some fields =>
      obtain ⟨raw, -, hres⟩ := bind_eq_ok.mp hres
      cases hres

/-- Serializing raises what Python raises. -/
theorem ne_misuse_serialize (schema : Schema) (values : List Value) : schema.serialize values ≠ .error .misuse := by
  have hindex : ∀ name, schema.getIndex name ≠ .error .misuse := by
    intro name
    rw [getIndex]
    split <;> simp
  have hvalue : ∀ i, valueAt values i ≠ .error .misuse := by
    intro i
    rw [valueAt]
    split <;> simp
  have hlength : ∀ n, packLength n ≠ .error .misuse := by
    intro n
    rw [packLength]
    split <;> simp
  have hint : ∀ v, packInt v ≠ .error .misuse := by
    intro v
    rw [packInt]
    split <;> simp
  have hfield : ∀ type value, packField type value ≠ .error .misuse := by
    intro type value
    cases type <;> cases value <;> simp only [packField] <;> first | exact hint _ | simp
    split <;> simp
  have htext : ∀ column value, notText column value ≠ .misuse := by
    intro column value
    rw [notText]
    split <;> simp
  have hjoin : ∀ (k : Nat) (items : List (Option Bytes)), join k items ≠ .error .misuse := by
    intro k items
    induction items generalizing k with
    | nil => simp [join, pure, Except.pure]
    | cons item items ih =>
        cases item with
        | none => simp [join]
        | some raw => exact ne_misuse_bind (ih _) fun _ => by simp [pure, Except.pure]
  have hcolumns : ∀ (rest : List Column) (header : List Bytes) (rawArr : List (Option Bytes)),
      serializeColumns schema values rest header rawArr ≠ .error .misuse := by
    intro rest
    induction rest with
    | nil => simp [serializeColumns, pure, Except.pure]
    | cons column rest ih =>
        intro header rawArr
        rw [serializeColumns]
        refine ne_misuse_bind (hindex _) fun colIndex => ne_misuse_bind (hvalue _) fun value => ?_
        split
        · cases value with
          | str text =>
              dsimp only
              split
              · simp [pure, Except.pure]
              · exact ne_misuse_bind (hlength _) fun _ => ih _ _
          | int v => exact fun hres => htext _ _ (Except.error.inj hres)
          | float x => exact fun hres => htext _ _ (Except.error.inj hres)
          | bool b => exact fun hres => htext _ _ (Except.error.inj hres)
        · exact ne_misuse_bind (hfield _ _) fun _ => ih _ _
  refine ne_misuse_bind (hcolumns _ _ _) fun fields => ?_
  cases fields with
  | none => simp [pure, Except.pure]
  | some fields => exact ne_misuse_bind (hjoin _ _) fun _ => by simp [pure, Except.pure]

/-- So does coercing texts. -/
theorem ne_misuse_coerce (schema : Schema) (row : List String) : schema.coerce (passedTexts row) ≠ .error .misuse := by
  rw [coerce, passedTexts, List.zip_map_left, List.mapM_map]
  refine ne_misuse_mapM _ fun item => ?_
  change coerceField item.2 (some (.str item.1)) ≠ _
  rw [coerceField]
  split
  · simp
  · exact ne_misuse_bind (by simp [Passed.toStr]) fun _ => by simp

end Schema

/-! ## The rows of a heap file -/

namespace HasRows

variable {σ : Type} {schema : Schema} {f : FileId} {w : Flat FileId Bytes} {records : List Record}

/-- Every row in the file has the types of the columns. -/
theorem fits (h : HasRows schema f w records) : ∀ record ∈ records, schema.Fits record.values := by
  intro record hmem
  obtain ⟨entries, rows, hfile, hrecords⟩ := h
  obtain ⟨⟨rid, raw⟩, hitem, hread⟩ := exists_of_forall₂ (mapM_eq_ok.mp hrecords) hmem
  obtain ⟨values, hvalues⟩ := hfile.stored _ hitem
  have hread' := Schema.deserialize_of_serialize (Schema.distinct_of_serialize hvalues) hvalues [] rid
  rw [List.append_nil, hread] at hread'
  rw [Except.ok.inj hread']
  exact Schema.fits_of_serialize hvalues

/-- The tuples that the operators take the rows from. -/
theorem run_tuples (h : HasRows schema f w records) (s : σ) :
    ∃ tuples, (HeapFile.scan f : PageProg σ (List (Rid × Bytes))).run carefulStore s w = (.ok tuples, s, w) ∧
      List.Forall₂ (fun item record => schema.deserialize item.2 item.1 = .ok record) tuples records ∧
      (tuples.map Prod.fst).Nodup := by
  have hnodup := h.nodup_rid
  obtain ⟨entries, rows, hfile, hrecords⟩ := h
  rw [map_rid hrecords] at hnodup
  exact ⟨_, HeapFile.run_scan hfile.heap (accepts_anyBlock f), mapM_eq_ok.mp hrecords, hnodup⟩

end HasRows

/-! ## Queries -/

namespace StoredCatalog

open StoredTable

variable {catalog : StoredCatalog} {w : Flat FileId Bytes} {contents : String → List Record}
  {forests : String → String → BTree} {tableName : String} {table : StoredTable}

/-- The operators see the rows of the tables that a query names. -/
theorem run_readTables (h : CatalogAt catalog w contents forests) (names : List String) :
    ∃ tables, (readTables names).run carefulStore catalog w = (.ok tables, catalog, w) ∧
      ∀ name ∈ names, ∀ table, catalog.tables.get? name = some table →
        ∃ seen : Table EntryList, Dict.get? tables name = some seen ∧ seen.tableName = table.tableName ∧
          seen.schema = table.schema ∧ seen.indices = [] ∧ seen.Holds (contents name) := by
  induction names with
  | nil => exact ⟨[], rfl, by simp⟩
  | cons name rest ih =>
      obtain ⟨tables, hrun, hseen⟩ := ih
      cases hget : catalog.tables.get? name with
      | none =>
          refine ⟨tables, ?_, fun other hother table htable => ?_⟩
          · rw [readTables]
            refine Prog.run_step (Prog.run_read _ _) ?_
            rw [hget]
            exact hrun
          · rcases List.mem_cons.mp hother with rfl | hother
            · exact absurd (hget.symm.trans htable) (by simp)
            · exact hseen other hother table htable
      | some table =>
          have hat := h.tables _ (Dict.mem_of_get? hget)
          obtain ⟨tuples, htuples, hread, hnodup⟩ := hat.rows.run_tuples (catalog.trees name)
          have htable : (onTable name (HeapFile.scan table.fileId)).run carefulStore catalog w =
              (.ok tuples, catalog, w) := by
            rw [run_onTable, htuples]
            simp
          refine ⟨(name, ⟨table.tableName, table.schema, tuples, []⟩) :: tables, ?_, fun other hother other' hother' => ?_⟩
          · rw [readTables]
            refine Prog.run_step (Prog.run_read _ _) ?_
            rw [hget]
            exact Prog.run_step htable (Prog.run_step hrun (Prog.run_pure _ _ _))
          · by_cases hname : name = other
            · subst hname
              obtain rfl := Option.some.inj (hget.symm.trans hother')
              exact ⟨⟨table.tableName, table.schema, tuples, []⟩, by rw [Dict.get?_cons, if_pos rfl], rfl, rfl, rfl,
                Table.scan_of_forall₂ hread, hnodup⟩
            · obtain ⟨seen, hfound, hrest⟩ :=
                hseen other ((List.mem_cons.mp hother).resolve_left (Ne.symm hname)) other' hother'
              exact ⟨seen, by rw [Dict.get?_cons, if_neg hname, hfound], hrest⟩

/-- A query whose plan over the tables that it names yields these rows. -/
theorem run_runQuery {node : LogicalNode} {tables : Dict String (Table EntryList)} {operator : Operator EntryList}
    {rows : List (List Value)} (htables : (readTables node.scanned).run carefulStore catalog w = (.ok tables, catalog, w))
    (hplan : PhysicalPlanner.plan ⟨tables⟩ node = .ok operator) (hrows : operator.next.collect = .ok rows) :
    (runQuery node).run carefulStore catalog w = (.ok (rows, operator.outputSchema), catalog, w) := by
  rw [runQuery]
  refine Prog.run_step htables ?_
  rw [hplan]
  refine Prog.run_step (Prog.run_ofExcept _ _ _) ?_
  rw [hrows]
  exact Prog.run_step (Prog.run_ofExcept _ _ _) (Prog.run_pure _ _ _)

/-! ## Deleting -/

/-- The loop of a `DELETE` over the record ids of some of the rows: these are gone, and without
indexes nothing can go wrong. -/
theorem ends_deleteRows (hindices : table.indices = []) (gone kept : List Record) :
    ∀ {catalog : StoredCatalog} {w : Flat FileId Bytes} {contents : String → List Record}
      {forests : String → String → BTree}, catalog.Tracked → CatalogAt catalog w contents forests →
      catalog.tables.get? tableName = some table → (contents tableName).Perm (gone ++ kept) →
      (deleteRows tableName table (gone.map Record.rid)).Ends carefulStore (fun _ => False) catalog w
        fun _ catalog' w' => catalog'.Tracked ∧ catalog'.tables = catalog.tables ∧ ∃ records forests',
          records.Perm kept ∧ CatalogAt catalog' w' (Function.update contents tableName records) forests' := by
  induction gone with
  | nil =>
      intro catalog w contents forests ht h _ hperm
      refine Prog.ends_pure ⟨ht, rfl, contents tableName, forests, hperm, ?_⟩
      rwa [Function.update_eq_self]
  | cons record gone ih =>
      intro catalog w contents forests ht h hget hperm
      have hitem := Dict.mem_of_get? hget
      have hmem : record ∈ contents tableName := hperm.mem_iff.mpr (by simp)
      obtain ⟨hothers, hnext, hsplit⟩ := ht.others hget
      have hdelete := ((h.tables _ hitem).ends_delete (ht.apart hitem) hmem).imp fun e he => he.2 hindices
      rw [List.map_cons, deleteRows]
      refine (ends_onTable hdelete).bind ?_
      rintro _ catalog₁ w₁ ⟨trees, rfl, hsame, records', forest', hat, hleft⟩
      have ht₁ : Tracked { catalog with trees := Function.update catalog.trees tableName trees } :=
        ht.burns (n := 0) ⟨rfl, rfl, rfl⟩
      have h₁ : CatalogAt { catalog with trees := Function.update catalog.trees tableName trees } w₁
          (Function.update contents tableName records') (Function.update forests tableName forest') :=
        h.renew hsame hsplit rfl hat hothers fun f hf => ⟨hf, hnext f hf⟩
      refine (ih ht₁ h₁ hget ?_).mono ?_
      · rw [Function.update_self]
        exact (hleft.symm.trans hperm).cons_inv
      · rintro _ catalog' w' ⟨ht', htables, records, forests', hkept, hfiles⟩
        refine ⟨ht', htables, records, forests', hkept, ?_⟩
        rwa [Function.update_idem] at hfiles

/-- `_plan_delete` with a condition that is well-typed: the rows of which it is true are gone and
counted. -/
theorem ends_planDelete (ht : catalog.Tracked) (h : CatalogAt catalog w contents forests)
    (hget : catalog.tables.get? tableName = some table) (hindices : table.indices = []) {p : Expr String}
    (htyped : p.wellTyped (table.schema.qualify tableName) = true) :
    (planDelete ⟨.scan (PhysicalPlanner.deleteScan tableName p), tableName⟩).Ends carefulStore (fun _ => False) catalog w
      fun message catalog' w' =>
        message = rowsAffected ((contents tableName).countP fun r =>
            p.TrueOn (table.schema.qualify tableName) r.values) ∧
          catalog'.Tracked ∧ catalog'.tables = catalog.tables ∧ ∃ records forests',
            records.Perm ((contents tableName).filter fun r =>
              !p.TrueOn (table.schema.qualify tableName) r.values) ∧
              CatalogAt catalog' w' (Function.update contents tableName records) forests' := by
  have hitem := Dict.mem_of_get? hget
  have htable : (tableAt tableName).run carefulStore catalog w = (.ok table, catalog, w) := by
    rw [tableAt]
    refine Prog.run_step (Prog.run_read _ _) ?_
    rw [hget]
    rfl
  obtain ⟨tables, htables, hseen⟩ := run_readTables h [tableName]
  obtain ⟨seen, hfound, hnamed, hschema, hnone, hholds⟩ := hseen tableName (by simp) table hget
  have hcolumns : seen.scanSchema = table.schema.qualify tableName := by
    rw [Table.scanSchema, Schema.qualify, hnamed, ht.named _ hitem, hschema]
  have hfits : ∀ r ∈ contents tableName, seen.schema.Fits r.values := by
    rw [hschema]
    exact (h.tables _ hitem).rows.fits
  have hyields : PhysicalPlanner.Yields (PhysicalPlanner.planScan ⟨tables⟩ (PhysicalPlanner.deleteScan tableName p))
      seen.scanSchema.columns (((contents tableName).filter fun r =>
        p.TrueOn seen.scanSchema r.values).map fun r => r.item true) :=
    PhysicalPlanner.yields_planScan hfound hnone hholds hfits (hcolumns ▸ htyped)
  rw [hcolumns] at hyields
  obtain ⟨operator, items, hplan, -, hcollect, hperm⟩ := hyields
  -- the record ids of these rows
  obtain ⟨gone, rfl, hgone⟩ := Selection.exists_map_eq ((Multiset.coe_eq_coe.mpr hperm).trans (Multiset.map_coe _ _).symm)
  have hselected : gone.Perm ((contents tableName).filter fun r =>
      p.TrueOn (table.schema.qualify tableName) r.values) := Multiset.coe_eq_coe.mp hgone
  have hsplit : (contents tableName).Perm (gone ++ (contents tableName).filter fun r =>
      !p.TrueOn (table.schema.qualify tableName) r.values) :=
    (List.filter_append_perm _ _).symm.trans (hselected.symm.append_right _)
  rw [planDelete]
  refine Prog.ends_step htable (Prog.ends_step (run_runQuery htables hplan hcollect) ?_)
  dsimp only
  rw [Database.mapM_asRid]
  refine Prog.ends_step (Prog.run_ofExcept _ _ _) ((ends_deleteRows hindices gone _ ht h hget hsplit).bind ?_)
  rintro _ catalog' w' ⟨ht', htables', records, forests', hkept, hfiles⟩
  refine Prog.ends_pure ⟨?_, ht', htables', records, forests', hkept, hfiles⟩
  rw [List.length_map, hselected.length_eq, List.countP_eq_length_filter]

end StoredCatalog

/-! ## Inserting -/

/-- The records of the rows of an `INSERT`, one for each: the coerced values, which can be encoded. -/
def Schema.Makes (schema : Schema) (rows : List (List String)) (added : List Record) : Prop :=
  List.Forall₂ (fun row record => schema.coerce (Schema.passedTexts row) = .ok record.values ∧
    ∃ raw, schema.serialize record.values = .ok (some raw)) rows added

namespace TableAt

variable {table : StoredTable} {w : Flat FileId Bytes} {trees : String → BPlusTree} {records : List Record}
  {forest : String → BTree}

/-- The loop of `_plan_insert`: there is one more record for every row. -/
theorem ends_insertRows (hunlimited : table.schema.Unlimited) (hapart : table.Apart) (rows : List (List String)) :
    ∀ {w : Flat FileId Bytes} {trees : String → BPlusTree} {records : List Record} {forest : String → BTree}
      (count : Nat), TableAt table w trees records forest →
      (PhysicalPlanner.insertRows table (rows.map Schema.passedTexts) count :
        PageProg (String → BPlusTree) Nat).Ends carefulStore (· ≠ .misuse) trees w fun n trees' w' =>
          n = count + rows.length ∧ Flat.SameOn (· ∉ table.fileIds) w w' ∧ ∃ added records' forest',
            TableAt table w' trees' records' forest' ∧ table.schema.Makes rows added ∧
              records'.Perm (added ++ records) := by
  induction rows with
  | nil =>
      intro w trees records forest count h
      exact Prog.ends_pure ⟨rfl, .refl _ w, [], records, forest, h, .nil, .refl _⟩
  | cons row rest ih =>
      intro w trees records forest count h
      rw [List.map_cons, PhysicalPlanner.insertRows]
      rcases hvalues : table.schema.coerce (Schema.passedTexts row) with e | values
      · refine Prog.ends_of_error (Prog.run_bind_error (Prog.run_ofExcept _ _ _)) fun he => ?_
        exact Schema.ne_misuse_coerce _ _ (he ▸ hvalues)
      refine Prog.ends_step (Prog.run_ofExcept _ _ _) ?_
      rcases hraw : table.schema.serialize values with e | _ | raw
      · have hinsert : (table.insert values : PageProg (String → BPlusTree) Rid).run carefulStore trees w =
            (.error e, trees, w) := by
          rw [StoredTable.insert, hraw]
          rfl
        refine Prog.ends_of_error (Prog.run_bind_error hinsert) fun he => ?_
        exact Schema.ne_misuse_serialize _ _ (he ▸ hraw)
      · exact absurd hraw (Schema.serialize_ne_none hunlimited)
      refine ((h.ends_insert hapart hraw).imp fun e he => by simp [he]).bind ?_
      rintro rid trees₁ w₁ ⟨hsame₁, record, records₁, forest₁, h₁, hread, hperm₁⟩
      refine (ih (count + 1) h₁).mono ?_
      rintro n trees' w' ⟨hn, hsame', added, records', forest', h', hadded, hperm'⟩
      have hrecord : record = ⟨values, rid⟩ :=
        Except.ok.inj (hread.symm.trans (Schema.deserialize_of_coerce hvalues hraw rid))
      refine ⟨?_, hsame₁.trans hsame', record :: added, records', forest', h', .cons ?_ hadded, ?_⟩
      · rw [hn, List.length_cons]
        omega
      · rw [hrecord]
        exact ⟨hvalues, raw, hraw⟩
      · refine hperm'.trans ((hperm₁.append_left added).trans ?_)
        exact List.perm_middle

end TableAt

namespace StoredCatalog

variable {catalog : StoredCatalog} {w : Flat FileId Bytes} {contents : String → List Record}
  {forests : String → String → BTree} {tableName : String} {table : StoredTable}

/-- `_plan_insert`. -/
theorem ends_planInsert (ht : catalog.Tracked) (h : CatalogAt catalog w contents forests)
    (hget : catalog.tables.get? tableName = some table) (hunlimited : table.schema.Unlimited)
    (values : List (List String)) :
    (planInsert ⟨tableName, values⟩).Ends carefulStore (· ≠ .misuse) catalog w fun message catalog' w' =>
      message = s!"Values inserted successfully. Rows affected: {values.length}" ∧ catalog'.Tracked ∧
        catalog'.tables = catalog.tables ∧ ∃ added records forests', table.schema.Makes values added ∧
          records.Perm (added ++ contents tableName) ∧
            CatalogAt catalog' w' (Function.update contents tableName records) forests' := by
  have hitem := Dict.mem_of_get? hget
  obtain ⟨hothers, hnext, hsplit⟩ := ht.others hget
  rw [planInsert]
  refine Prog.ends_step (Prog.run_read _ _) ?_
  have hloop : (PhysicalPlanner.planInsert catalog.tables tableName (values.map Schema.passedTexts) :
      PageProg (String → BPlusTree) String).Ends carefulStore (· ≠ .misuse) (catalog.trees tableName) w
        fun message trees' w' => message = s!"Values inserted successfully. Rows affected: {values.length}" ∧
          Flat.SameOn (· ∉ table.fileIds) w w' ∧ ∃ added records' forest', TableAt table w' trees' records' forest' ∧
            table.schema.Makes values added ∧ records'.Perm (added ++ contents tableName) := by
    rw [PhysicalPlanner.planInsert, hget]
    refine (TableAt.ends_insertRows hunlimited (ht.apart hitem) values 0 (h.tables _ hitem)).bind ?_
    rintro n trees' w' ⟨rfl, hrest⟩
    refine Prog.ends_pure ⟨?_, hrest⟩
    rw [Nat.zero_add]
  refine (ends_onTable hloop).mono ?_
  rintro message catalog' w' ⟨trees, rfl, hmessage, hsame, added, records', forest', hat, hadded, hperm⟩
  exact ⟨hmessage, ht.burns (n := 0) ⟨rfl, rfl, rfl⟩, rfl, added, records', _, hadded, hperm,
    h.renew hsame hsplit rfl hat hothers fun f hf => ⟨hf, hnext f hf⟩⟩

end StoredCatalog

end DBEngine
