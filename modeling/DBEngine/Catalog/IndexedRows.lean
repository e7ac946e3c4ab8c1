import DBEngine.Catalog.FailedRows

/-!
# Indexes agree with the heap

Indexes that behave as multimaps, next to the heap file of their table: after every call
an index has one entry for every row that a scan yields.  Each call changes the rows and
the entries by the same row, and an index made later starts with all of them.
-/

set_option autoImplicit false

namespace DBEngine

open ByteBuffer Paged

/-! ## A loop over the tuples of a heap file -/

namespace HeapFile

variable {σ β : Type} {good : PageKey → Bytes → Bool} {c : Store FileId Bytes PyErr (Flat FileId Bytes)}
  [Bpm.Serves c good] {w : Flat FileId Bytes} {f : FileId} {entries : List DirEntry} {rows : Nat → List Row}
  {visit : β → Rid → Bytes → PageProg σ β} {I : List (Rid × Bytes) → β → σ → Prop}

/-- What the body of the loop keeps from tuple to tuple holds at the end for all of them. -/
theorem run_forEach_invariant (h : HeapOpen f w entries rows) (ha : Accepts good f)
    (hstep : ∀ seen item acc s, item ∈ tuplesIn entries.length rows → I seen acc s →
      ∃ acc' s', (visit acc item.1 item.2).run c s w = (.ok acc', s', w) ∧ I (seen ++ [item]) acc' s')
    (acc : β) (s : σ) (hI : I [] acc s) :
    ∃ acc' s', (forEach f visit acc).run c s w = (.ok acc', s', w) ∧
      I (tuplesIn entries.length rows) acc' s' := by
  have hloop : (forEach f visit acc).Ends c (fun _ => False) s w fun acc' s' w' =>
      w' = w ∧ I (tuplesIn entries.length rows) acc' s' :=
    ends_forEach ha (J := fun seen acc s w' => w' = w ∧ I seen acc s) (fun hJ => hJ.1 ▸ h)
      (fun seen item acc s w' hitem hJ => by
        obtain ⟨rfl, hI⟩ := hJ
        obtain ⟨acc', s', hrun, hI'⟩ := hstep seen item acc s hitem hI
        exact Prog.ends_of_run hrun ⟨rfl, hI'⟩) ⟨rfl, hI⟩
  rcases hloop.cases with ⟨_, _, _, -, hfail⟩ | ⟨acc', s', w', hrun, rfl, hI'⟩
  · exact hfail.elim
  · exact ⟨acc', s', hrun, hI'⟩

end HeapFile

/-! ## The loops over the indexes -/

namespace StoredTable

variable {τ : Type} {W : Type} {c : Store FileId Bytes PyErr W} {schema : Schema} {row : List Value} {rid : Rid}
  {trees : String → τ} {w : W}

/-- The integer that a row has under a column, as an index on an `INT` column stores it. -/
def keyAt (schema : Schema) (row : List Value) (colName : String) : Option Int :=
  (schema.columnNames.get? colName).bind fun i => row[i]?.bind Value.asInt

theorem keyAt_eq_some {colName : String} {k : Int} (h : keyAt schema row colName = some k) :
    ∃ i value, schema.getIndex colName = .ok i ∧ Schema.valueAt row i = .ok value ∧ value.asInt = some k := by
  obtain ⟨i, hi, hvalue⟩ := Option.bind_eq_some_iff.mp h
  obtain ⟨value, hvalue, hk⟩ := Option.bind_eq_some_iff.mp hvalue
  exact ⟨i, value, Schema.getIndex_eq_ok.mpr hi, by rw [Schema.valueAt, hvalue], hk⟩

/-- A method of one tree leaves all others as they are. -/
theorem run_onTree (colName : String) {p : PageProg τ Unit} {tree : τ}
    (h : p.run c (trees colName) w = (.ok (), tree, w)) :
    (onTree colName p).run c trees w = (.ok (), Function.update trees colName tree, w) := by
  rw [onTree, Prog.run_zoom (fun _ _ => Function.update_self _ _ _) (fun _ _ _ => Function.update_idem _ _ _)
    (fun _ => Function.update_eq_self _ _), h]

/-- A loop over the indexes that calls one method of each tree with the key of a row. -/
def forIndexes (op : FileId → Value → Rid → PageProg τ Unit) (schema : Schema) (row : List Value) (rid : Rid) :
    Dict String IndexEntry → PageProg (String → τ) Unit
  | [] => pure ()
  | (colName, index) :: rest => do
      let colIndex ← Prog.ofExcept (schema.getIndex colName)
      let value ← Prog.ofExcept (Schema.valueAt row colIndex)
      onTree colName (op index.fileId value rid)
      forIndexes op schema row rid rest

theorem insertEntries_eq [IndexFile τ] (indices : Dict String IndexEntry) :
    (insertEntries schema row rid indices : PageProg (String → τ) Unit) =
      forIndexes IndexFile.insert schema row rid indices := by
  induction indices with
  | nil => rfl
  | cons item rest ih => simp only [insertEntries, forIndexes, ih]

theorem deleteEntries_eq [IndexFile τ] (indices : Dict String IndexEntry) :
    (deleteEntries schema row rid indices : PageProg (String → τ) Unit) =
      forIndexes IndexFile.delete schema row rid indices := by
  induction indices with
  | nil => rfl
  | cons item rest ih => simp only [deleteEntries, forIndexes, ih]

/-- A method that computes a new tree. -/
theorem run_ofTree {f : τ → Except PyErr τ} {tree tree' : τ} (h : f tree = .ok tree') (w : W) :
    (do
      let tree ← Prog.read
      let tree ← Prog.ofExcept (f tree)
      Prog.modify fun _ => tree : PageProg τ Unit).run c tree w = (.ok (), tree', w) := by
  refine Prog.run_step (Prog.run_read tree w) ?_
  rw [h]
  exact Prog.run_step (Prog.run_ofExcept _ tree w) (Prog.run_modify _ tree w)

variable [IndexTree τ] [Multimap τ]

/-- What a method of an index does to its entries. -/
def Changes (c : Store FileId Bytes PyErr W) (op : FileId → Value → Rid → PageProg τ Unit)
    (change : Int × Rid → Multiset (Int × Rid) → Multiset (Int × Rid)) : Prop :=
  ∀ fileId value k rid tree w, value.asInt = some k → ∃ tree', (op fileId value rid).run c tree w =
    (.ok (), tree', w) ∧ Multimap.entries tree' = change (k, rid) (Multimap.entries tree)

theorem changes_insert (c : Store FileId Bytes PyErr W) :
    Changes c (IndexFile.insert (τ := τ)) fun entry entries => entry ::ₘ entries := by
  intro fileId value k rid tree w hk
  obtain ⟨tree', htree, hentries⟩ := Multimap.insert_ok tree value k rid hk
  exact ⟨tree', run_ofTree (f := fun tree => IndexTree.insert tree value rid) htree w, hentries⟩

theorem changes_delete (c : Store FileId Bytes PyErr W) :
    Changes c (IndexFile.delete (τ := τ)) fun entry entries => entries.erase entry := by
  intro fileId value k rid tree w hk
  obtain ⟨tree', htree, hentries⟩ := Multimap.delete_ok tree value k rid hk
  exact ⟨tree', run_ofTree (f := fun tree => IndexTree.delete tree value rid) htree w, hentries⟩

variable (schema row rid) in
/-- The loop changes every index by the entry of the row. -/
theorem run_forIndexes {op : FileId → Value → Rid → PageProg τ Unit}
    {change : Int × Rid → Multiset (Int × Rid) → Multiset (Int × Rid)} (hop : Changes c op change)
    {indices : Dict String IndexEntry} (hnodup : (indices.map Prod.fst).Nodup)
    (hkeys : ∀ item ∈ indices, ∃ k, keyAt schema row item.1 = some k) (trees : String → τ) (w : W) :
    ∃ trees', (forIndexes op schema row rid indices).run c trees w = (.ok (), trees', w) ∧
      (∀ item ∈ indices, ∀ k, keyAt schema row item.1 = some k →
        Multimap.entries (trees' item.1) = change (k, rid) (Multimap.entries (trees item.1))) ∧
      ∀ colName, colName ∉ indices.map Prod.fst → trees' colName = trees colName := by
  induction indices generalizing trees with
  | nil => exact ⟨trees, Prog.run_pure _ _ _, by simp, fun _ _ => rfl⟩
  | cons item rest ih =>
      obtain ⟨colName, index⟩ := item
      rw [List.map_cons, List.nodup_cons] at hnodup
      obtain ⟨k, hk⟩ := hkeys _ List.mem_cons_self
      obtain ⟨i, value, hindex, hvalue, hasInt⟩ := keyAt_eq_some hk
      obtain ⟨tree, htree, hentries⟩ := hop index.fileId value k rid (trees colName) w hasInt
      obtain ⟨trees', hrun, hchanged, hsame⟩ := ih hnodup.2
        (fun item hitem => hkeys item (List.mem_cons_of_mem _ hitem)) (Function.update trees colName tree)
      refine ⟨trees', ?_, fun item hitem k' hk' => ?_, fun name hname => ?_⟩
      · rw [forIndexes, hindex]
        refine Prog.run_step (Prog.run_ofExcept _ _ _) ?_
        rw [hvalue]
        exact Prog.run_step (Prog.run_ofExcept _ _ _) (Prog.run_step (run_onTree colName htree) hrun)
      · rcases List.mem_cons.mp hitem with rfl | hrest
        · obtain rfl : k = k' := Option.some.inj (hk.symm.trans hk')
          rw [hsame colName hnodup.1, Function.update_self, hentries]
        · have hmem : item.1 ∈ rest.map Prod.fst := List.mem_map_of_mem hrest
          have hne : item.1 ≠ colName := fun heq => hnodup.1 (heq ▸ hmem)
          rw [hchanged item hrest k' hk', Function.update_of_ne hne]
      · rw [List.map_cons, List.mem_cons, not_or] at hname
        rw [hsame name hname.2, Function.update_of_ne hname.1]

end StoredTable

/-! ## The keys of rows -/

namespace Schema

variable {schema : Schema} {colName : String} {i : Nat}

/-- The column that a name stands for is an `INT` column. -/
def IntAt (schema : Schema) (colName : String) (i : Nat) : Prop :=
  schema.columnNames.get? colName = some i ∧
    ∃ column, schema.columns[i]? = some column ∧ column.type = .int

theorem IntAt.unique {j : Nat} (hi : schema.IntAt colName i) (hj : schema.IntAt colName j) : i = j :=
  Option.some.inj (hi.1.symm.trans hj.1)

/-- The key that a record read has in an `INT` column. -/
theorem IntAt.keyAt_record (hi : schema.IntAt colName i) {raw : Bytes} {rid : Rid} {record : Record}
    (h : schema.deserialize raw rid = .ok record) :
    record.values[i]? = some (.int (record.intAt i)) ∧
      StoredTable.keyAt schema record.values colName = some (record.intAt i) := by
  obtain ⟨hname, column, hcolumn, htype⟩ := hi
  obtain ⟨n, hn, -⟩ := int_of_deserialize h hname hcolumn htype
  have hint : record.intAt i = n := by rw [Record.intAt, hn]
  rw [StoredTable.keyAt, hname, Option.bind_some, hn, hint]
  exact ⟨rfl, rfl⟩

theorem asInt_of_stored {value : Value} {n : Int} (h : value.stored .int = .int n) : value.asInt = some n := by
  cases value with
  | int v => exact congrArg some (Value.int.inj h)
  | bool b => exact congrArg some (Value.int.inj h)
  | float x => exact nomatch h
  | str text => exact nomatch h

/-- The key under which a row is inserted is the one that its record has. -/
theorem IntAt.keyAt_row (hi : schema.IntAt colName i) {row : List Value} {raw : Bytes}
    (hraw : schema.serialize row = .ok (some raw)) {rid : Rid} {record : Record}
    (h : schema.deserialize raw rid = .ok record) :
    StoredTable.keyAt schema row colName = some (record.intAt i) := by
  have hread := deserialize_of_serialize (distinct_of_serialize hraw) hraw [] rid
  rw [List.append_nil, h] at hread
  obtain rfl := Except.ok.inj hread
  obtain ⟨hvalue, -⟩ := hi.keyAt_record h
  obtain ⟨hname, column, hcolumn, htype⟩ := hi
  rw [List.getElem?_map] at hvalue
  obtain ⟨⟨column', value⟩, hitem, hstored⟩ := Option.map_eq_some_iff.mp hvalue
  obtain ⟨hcolumn', hrow⟩ := List.getElem?_zip_eq_some.mp hitem
  obtain rfl : column = column' := Option.some.inj (hcolumn.symm.trans hcolumn')
  rw [htype] at hstored
  rw [StoredTable.keyAt, hname, Option.bind_some, hrow, Option.bind_some, asInt_of_stored hstored]

end Schema

namespace TableSession

variable {τ : Type} [IndexTree τ] [Multimap τ] {order : SetOrder} {s : TableSession τ}
  {w : Flat FileId Bytes} {lost : Multiset PageKey} {entries : List DirEntry} {rows : Nat → List Row}
  {records records' : List Record}

/-- The entries that an index on column `i` of these rows has. -/
def entriesOf (records : List Record) (i : Nat) : Multiset (Int × Rid) :=
  (records : Multiset Record).map fun record => (record.intAt i, record.rid)

theorem entriesOf_cons (record : Record) (records : List Record) (i : Nat) :
    entriesOf (record :: records) i = (record.intAt i, record.rid) ::ₘ entriesOf records i := by
  rw [entriesOf, ← Multiset.cons_coe, Multiset.map_cons, entriesOf]

theorem entriesOf_perm (h : records.Perm records') (i : Nat) : entriesOf records i = entriesOf records' i := by
  rw [entriesOf, Multiset.coe_eq_coe.mpr h, entriesOf]

/-- After every call that returned: each index has exactly one entry for every record that
a scan yields, and every record id in it is that of a record with this key. -/
def Agrees (order : SetOrder) (s : TableSession τ) : Prop :=
  ∃ records, s.scan order = .ok records ∧ ∀ item ∈ s.table.indices, ∃ i, s.table.schema.IntAt item.1 i ∧
    Multimap.entries (s.trees item.1) = entriesOf records i ∧
    (∀ record ∈ records, record.values[i]? = some (.int (record.intAt i))) ∧
    ∀ e ∈ Multimap.entries (s.trees item.1), ∃ record, (s.run order (s.table.get e.2)).1 = .ok record ∧
      record.values[i]? = some (.int e.1)

/-- The indexes of a table with these rows. -/
structure Indexed (s : TableSession τ) (records : List Record) : Prop where
  nodup : (s.table.indices.map Prod.fst).Nodup
  column : ∀ item ∈ s.table.indices, ∃ i, s.table.schema.IntAt item.1 i
  entries : ∀ item ∈ s.table.indices, ∀ i, s.table.schema.IntAt item.1 i →
    Multimap.entries (s.trees item.1) = entriesOf records i

/-- A table whose heap file and indexes are as they should be. -/
theorem agrees_of_indexed (h : Kept s w lost entries rows) (hscan : s.scan order = .ok records)
    (hindexed : s.Indexed records) : s.Agrees order := by
  refine ⟨records, hscan, fun item hitem => ?_⟩
  obtain ⟨i, hi⟩ := hindexed.column item hitem
  have hentries := hindexed.entries item hitem i hi
  refine ⟨i, hi, hentries, fun record hrecord => ?_, fun e he => ?_⟩
  · obtain ⟨raw, -, hread⟩ := h.exists_tuple hscan hrecord
    exact (hi.keyAt_record hread).1
  · rw [hentries] at he
    obtain ⟨record, hrecord, rfl⟩ := Multiset.mem_map.mp he
    obtain ⟨raw, htuple, hread⟩ := h.exists_tuple hscan (Multiset.mem_coe.mp hrecord)
    have hget := h.file.run_get htuple s.trees
    rw [hread] at hget
    obtain ⟨pool, hpool, -⟩ := h.run_eq order hget (by simp)
    exact ⟨record, by rw [hpool], (hi.keyAt_record hread).1⟩

/-! ## The calls -/

variable (order s) in
/-- What is kept along every run in which the rows inserted find room. -/
def KeptIndexed : Prop :=
  ∃ w lost entries rows records, Kept s w lost entries rows ∧ s.scan order = .ok records ∧ s.Indexed records

omit [IndexTree τ] [Multimap τ] in
/-- The tree objects do not matter to the heap file. -/
theorem Kept.with_trees {pool : BufferPoolManager} (h : Kept { s with pool := pool } w lost entries rows)
    (trees : String → τ) : Kept { s with trees := trees, pool := pool } w lost entries rows :=
  ⟨h.refines, h.lost, h.file⟩

/-- A row that is inserted comes into every index. -/
theorem keptIndexed_insert (h : Kept s w lost entries rows) (hscan : s.scan order = .ok records)
    (hindexed : s.Indexed records) {row : List Value}
    (hroom : ∀ raw, s.table.schema.serialize row = .ok (some raw) →
      RoomFor s.table.fileId [raw.length] s.pool) : KeptIndexed order (s.step order (.insert row)) := by
  rcases hraw : s.table.schema.serialize row with e | raw
  · rw [step, insert_unserialized order s hraw]
    exact ⟨w, lost, entries, rows, records, h, hscan, hindexed⟩
  cases raw with
  | none =>
      obtain ⟨e, pool, hrun, hkept⟩ := h.insert_rejected order hraw
      rw [step, hrun]
      refine ⟨w, _, entries, rows, records, hkept, ?_, hindexed.nodup, hindexed.column, hindexed.entries⟩
      exact hkept.scan_eq.trans (h.scan_eq.symm.trans hscan)
  | some raw =>
      have htakes := h.roomFor_iff.mp (hroom raw hraw)
      cases htake : (directoryOf entries).take raw.length with
      | none => simp [DirectoryPage.TakesAll, htake] at htakes
      | some dir =>
          obtain ⟨rid, pool, w', entries', rows', hrun, hkept, -, hperm⟩ :=
            h.insertTuple_placed order hraw htake
          -- the record that the row becomes
          have hread := Schema.deserialize_of_serialize (Schema.distinct_of_serialize hraw) hraw [] rid
          rw [List.append_nil] at hread
          obtain ⟨record, hrecord⟩ : ∃ record, s.table.schema.deserialize raw rid = .ok record := ⟨_, hread⟩
          have hkeys : ∀ item ∈ s.table.indices, ∃ k,
              StoredTable.keyAt s.table.schema row item.1 = some k := fun item hitem => by
            obtain ⟨i, hi⟩ := hindexed.column item hitem
            exact ⟨_, hi.keyAt_row hraw hrecord⟩
          obtain ⟨trees, hentries, hchanged, -⟩ := StoredTable.run_forIndexes s.table.schema row rid
            (StoredTable.changes_insert (BufferPoolManager.store order)) hindexed.nodup hkeys s.trees pool
          rw [← StoredTable.insertEntries_eq] at hentries
          have hinsert := run_insert hraw hrun hentries
          have hkept' := hkept.with_trees trees
          obtain ⟨records', hscan'⟩ := hkept'.exists_records order
          have hperm' : records'.Perm (record :: records) := by
            have hall := hkept'.scan_eq.symm.trans hscan'
            have hold := h.scan_eq.symm.trans hscan
            refine (perm_of_mapM (hperm.trans (List.perm_append_singleton _ _)) hall ?_)
            rw [List.mapM_cons, hrecord, hold]
            rfl
          rw [step, hinsert]
          refine ⟨w', lost, entries', rows', records', hkept', hscan', hindexed.nodup, hindexed.column,
            fun item hitem i hi => ?_⟩
          have hrid := Schema.rid_deserialize hrecord
          rw [entriesOf_perm hperm', entriesOf_cons, hrid, ← hindexed.entries item hitem i hi]
          exact hchanged item hitem _ (hi.keyAt_row hraw hrecord)

/-- A row that is deleted goes out of every index. -/
theorem keptIndexed_delete (h : Kept s w lost entries rows) (hscan : s.scan order = .ok records)
    (hindexed : s.Indexed records) {record : Record} (hmem : record ∈ records) :
    KeptIndexed order (s.step order (.delete record.rid)) := by
  obtain ⟨raw, htuple, hread⟩ := h.exists_tuple hscan hmem
  obtain ⟨pool, w', rows', hrun, hkept, hperm⟩ := h.deleteTuple_row order htuple hread
  have hkeys : ∀ item ∈ s.table.indices, ∃ k,
      StoredTable.keyAt s.table.schema record.values item.1 = some k := fun item hitem => by
    obtain ⟨i, hi⟩ := hindexed.column item hitem
    exact ⟨_, (hi.keyAt_record hread).2⟩
  obtain ⟨trees, hentries, hchanged, -⟩ := StoredTable.run_forIndexes s.table.schema record.values
    record.rid (StoredTable.changes_delete (BufferPoolManager.store order)) hindexed.nodup hkeys s.trees pool
  rw [← StoredTable.deleteEntries_eq] at hentries
  have hdelete := hrun trees pool (.ok ()) hentries
  have hkept' := hkept.with_trees trees
  obtain ⟨records', hscan'⟩ := hkept'.exists_records order
  have hperm' : records.Perm (record :: records') := by
    have hall := hkept'.scan_eq.symm.trans hscan'
    have hold := h.scan_eq.symm.trans hscan
    refine perm_of_mapM hperm hold ?_
    rw [List.mapM_cons, hread, hall]
    rfl
  rw [step, hdelete]
  refine ⟨w', lost, entries, rows', records', hkept', hscan', hindexed.nodup, hindexed.column,
    fun item hitem i hi => ?_⟩
  have hentry := hchanged item hitem _ (hi.keyAt_record hread).2
  rw [hindexed.entries item hitem i hi, entriesOf_perm hperm', entriesOf_cons, Multiset.erase_cons_head] at hentry
  exact hentry

/-- The loop of `create_index` gives the new tree an entry for every record. -/
theorem HeapOfRows.run_indexRecords {table : StoredTable}
    (h : HeapOfRows table.schema table.fileId w entries rows)
    (hrecords : (tuplesIn entries.length rows).mapM
      (fun item => table.schema.deserialize item.2 item.1) = .ok records) {colName : String} {i : Nat}
    (hi : table.schema.IntAt colName i) (fileId : FileId) (trees : String → τ)
    (hnew : Multimap.entries (trees colName) = 0) :
    ∃ trees', (HeapFile.forEach table.fileId
        (fun _ rid raw => StoredTable.indexRecord table.schema fileId colName i rid raw) () :
        PageProg (String → τ) Unit).run carefulStore trees w = (.ok (), trees', w) ∧
      Multimap.entries (trees' colName) = entriesOf records i ∧
      ∀ name, name ≠ colName → trees' name = trees name := by
  let I (seen : List (Rid × Bytes)) (_ : Unit) (trees' : String → τ) : Prop :=
    (∀ name, name ≠ colName → trees' name = trees name) ∧
      ∃ before, seen.mapM (fun item => table.schema.deserialize item.2 item.1) = .ok before ∧
        Multimap.entries (trees' colName) = entriesOf before i
  have hstep : ∀ seen item acc trees₁, item ∈ tuplesIn entries.length rows → I seen acc trees₁ →
      ∃ acc' trees₂, (StoredTable.indexRecord table.schema fileId colName i item.1 item.2 :
          PageProg (String → τ) Unit).run carefulStore trees₁ w = (.ok acc', trees₂, w) ∧
        I (seen ++ [item]) acc' trees₂ := by
    rintro seen ⟨rid, raw⟩ - trees₁ hitem ⟨hsame, before, hbefore, hentries⟩
    obtain ⟨record, hread⟩ := exists_mapM_eq_ok.mp ⟨records, hrecords⟩ _ hitem
    obtain ⟨hvalue, -⟩ := hi.keyAt_record hread
    obtain ⟨tree, htree, hadded⟩ := StoredTable.changes_insert carefulStore fileId (.int (record.intAt i))
      (record.intAt i) record.rid (trees₁ colName) w rfl
    refine ⟨(), Function.update trees₁ colName tree, ?_, fun name hname => ?_, before ++ [record], ?_, ?_⟩
    · have hat : Schema.valueAt record.values i = .ok (.int (record.intAt i)) := by
        rw [Schema.valueAt, hvalue]
      rw [StoredTable.indexRecord, hread]
      refine Prog.run_step (Prog.run_ofExcept _ _ _) ?_
      rw [hat]
      exact Prog.run_step (Prog.run_ofExcept _ _ _) (StoredTable.run_onTree colName htree)
    · rw [Function.update_of_ne hname, hsame name hname]
    · exact mapM_eq_ok.mpr (List.rel_append (mapM_eq_ok.mp hbefore) (.cons hread .nil))
    · rw [Function.update_self, hadded, hentries,
        entriesOf_perm (List.perm_append_singleton record before), entriesOf_cons]
  obtain ⟨⟨⟩, trees', hrun, hsame, before, hbefore, hentries⟩ :=
    HeapFile.run_forEach_invariant h.heap (accepts_anyBlock _) hstep () trees
      ⟨fun _ _ => rfl, [], rfl, hnew⟩
  obtain rfl := Except.ok.inj (hrecords.symm.trans hbefore)
  exact ⟨trees', hrun, hentries, hsame⟩

/-- An index made from a scan agrees as one kept up from the start. -/
theorem Kept.createIndex (h : Kept s w lost entries rows) (hscan : s.scan order = .ok records)
    (hindexed : s.Indexed records) (indexName : String) {colName : String} {i : Nat}
    (hi : s.table.schema.IntAt colName i) :
    Kept (s.step order (.createIndex indexName colName)) w lost entries rows ∧
      (s.step order (.createIndex indexName colName)).scan order = .ok records ∧
      (s.step order (.createIndex indexName colName)).Indexed records ∧
      ∃ indices, (s.step order (.createIndex indexName colName)).table = { s.table with indices := indices } ∧
        indices.has colName = true := by
  by_cases hhas : s.table.indices.has colName = true
  · have hrun : s.run order (s.table.createIndex indexName colName s.nextFileId) =
        (.error (.keyError s!"An index in {s.table.tableName} on {colName} already exists"), s.trees,
          s.pool) := by
      rw [run, StoredTable.createIndex, if_pos hhas]
      exact Prog.run_raise _ _ _
    rw [step, hrun]
    exact ⟨⟨h.refines, h.lost, h.file⟩, hscan, ⟨hindexed.nodup, hindexed.column, hindexed.entries⟩,
      s.table.indices, rfl, hhas⟩
  · have hnew : colName ∉ s.table.indices.map Prod.fst := fun hmem => hhas (Dict.has_iff_mem.mpr hmem)
    have hcreate : (StoredTable.onTree colName (IndexFile.create s.nextFileId) :
        PageProg (String → τ) Unit).run carefulStore s.trees w =
          (.ok (), Function.update s.trees colName IndexTree.new, w) :=
      StoredTable.run_onTree colName (Prog.run_modify _ _ _)
    have hrecords := h.scan_eq.symm.trans hscan
    obtain ⟨trees, hloop, hentries, hsame⟩ := HeapOfRows.run_indexRecords h.file hrecords hi s.nextFileId
      (Function.update s.trees colName IndexTree.new) (by rw [Function.update_self, Multimap.entries_new])
    have hprog : (s.table.createIndex indexName colName s.nextFileId : PageProg (String → τ) StoredTable).run
        carefulStore s.trees w =
          (.ok { s.table with indices := s.table.indices.set colName ⟨s.nextFileId, indexName⟩ }, trees, w) := by
      rw [StoredTable.createIndex, if_neg hhas]
      refine Prog.run_step hcreate ?_
      rw [Schema.getIndex_eq_ok.mpr hi.1]
      exact Prog.run_step (Prog.run_ofExcept _ _ _) (Prog.run_step hloop (Prog.run_pure _ _ _))
    obtain ⟨pool, hpool, hr⟩ := h.run_eq order hprog (by simp)
    rw [step, hpool]
    have hkept : Kept ⟨pool, { s.table with indices := s.table.indices.set colName ⟨s.nextFileId, indexName⟩ },
        trees, s.nextFileId + 1⟩ w lost entries rows := ⟨hr, h.lost, h.file⟩
    refine ⟨hkept, hkept.scan_eq.trans hrecords, ⟨?_, ?_, ?_⟩, ?_⟩
    · rw [Dict.set_of_not_mem hnew, List.map_append]
      exact hindexed.nodup.append (List.nodup_singleton _) fun name hname hsingle => by
        rw [List.mem_singleton.mp hsingle] at hname
        exact hnew hname
    · intro item hitem
      rw [Dict.set_of_not_mem hnew] at hitem
      rcases List.mem_append.mp hitem with hold | hlast
      · exact hindexed.column item hold
      · rw [List.mem_singleton.mp hlast]
        exact ⟨i, hi⟩
    · intro item hitem j hj
      rw [Dict.set_of_not_mem hnew] at hitem
      rcases List.mem_append.mp hitem with hold | hlast
      · have hmem : item.1 ∈ s.table.indices.map Prod.fst := List.mem_map_of_mem hold
        have hne : item.1 ≠ colName := fun heq => hnew (heq ▸ hmem)
        rw [← hindexed.entries item hold j hj]
        change Multimap.entries (trees item.1) = _
        rw [hsame item.1 hne, Function.update_of_ne hne]
      · rw [List.mem_singleton.mp hlast] at hj ⊢
        rw [← hi.unique hj]
        exact hentries
    · exact ⟨_, rfl, Dict.has_iff_mem.mpr (by rw [Dict.set_of_not_mem hnew]; simp)⟩

/-- Other traffic of the pool. -/
theorem keptIndexed_of_pool (hscan : s.scan order = .ok records) (hindexed : s.Indexed records)
    (h : Kept s w lost entries rows) {pool : BufferPoolManager} {lost' : Multiset PageKey}
    (h' : Kept { s with pool := pool } w lost' entries rows) : KeptIndexed order { s with pool := pool } :=
  ⟨w, lost', entries, rows, records, h', h'.scan_eq.trans (h.scan_eq.symm.trans hscan), hindexed.nodup,
    hindexed.column, hindexed.entries⟩

/-- The runs considered: indexes are made on `INT` columns. -/
def OnInts (s : TableSession τ) (colName : String) : Prop := ∃ i, s.table.schema.IntAt colName i

theorem keptIndexed_of_reachable (hs : Reachable order OnInts s) : KeptIndexed order s := by
  induction hs with
  | create f tableName schema trees disk hdisk hempty =>
      obtain ⟨w, h⟩ := kept_create order f tableName schema trees hdisk hempty
      obtain ⟨records, hscan⟩ := h.exists_records order
      exact ⟨w, 0, [], _, records, h, hscan, List.nodup_nil, fun _ hitem => (nomatch hitem),
        fun _ hitem => nomatch hitem⟩
  | step call _ hcall ih =>
      obtain ⟨w, lost, entries, rows, records, h, hscan, hindexed⟩ := ih
      cases call with
      | insert row => exact keptIndexed_insert h hscan hindexed hcall
      | delete rid =>
          obtain ⟨records', record, hscan', hmem, rfl⟩ := hcall
          obtain rfl := Except.ok.inj (hscan.symm.trans hscan')
          exact keptIndexed_delete h hscan hindexed hmem
      | createIndex indexName colName =>
          obtain ⟨i, hi⟩ := hcall
          obtain ⟨hkept, hscan', hindexed', -⟩ := h.createIndex hscan hindexed indexName hi
          exact ⟨w, lost, entries, rows, records, hkept, hscan', hindexed'⟩
      | touch k =>
          obtain ⟨pool, hstep, hkept⟩ := kept_touch h order k
          exact hstep ▸ keptIndexed_of_pool hscan hindexed h hkept
      | flushPage k =>
          obtain ⟨pool, hstep, hkept⟩ := kept_flushPage h order hcall
          exact hstep ▸ keptIndexed_of_pool hscan hindexed h hkept
      | flushAll =>
          obtain ⟨pool, hstep, hkept⟩ := kept_flushAll h order
          exact hstep ▸ keptIndexed_of_pool hscan hindexed h hkept
      | restart =>
          obtain ⟨pool, hstep, hkept⟩ := kept_restart h order
          exact hstep ▸ keptIndexed_of_pool hscan hindexed h hkept

/-- As long as the rows inserted find room, the indexes agree with the heap. -/
theorem indexes_agree (hs : Reachable order OnInts s) : s.Agrees order := by
  obtain ⟨w, lost, entries, rows, records, h, hscan, hindexed⟩ := keptIndexed_of_reachable hs
  exact agrees_of_indexed h hscan hindexed

/-! ## A row that is left behind -/

/-- The rows behind a page with a tuple that was not taken: one of them can be deleted, and
the scan still finds more than the indexes have. -/
theorem Kept.run_delete_brokenOff (h : Kept s w lost entries rows) (hscan : s.scan order = .ok records)
    (hindexed : s.Indexed records) {record : Record} (hmem : record ∈ records) {left : Bytes}
    {w' : Flat FileId Bytes} (hbroken : HeapFile.BrokenOff s.table.fileId w w' entries left)
    (hlong : 4084 < left.length) (hshown : ¬ ShowsNothing (HeapFile.leftBy left)) {pool : BufferPoolManager}
    (hr : pool.Refines (w'.leak lost)) :
    ∃ trees pool' records', run order (s.table.delete record.rid) { s with pool := pool } =
        (.ok true, trees, pool') ∧ records.Perm (record :: records') ∧
      (∀ item ∈ s.table.indices, ∀ i, s.table.schema.IntAt item.1 i →
        Multimap.entries (trees item.1) = entriesOf records' i) ∧
      ∀ last, scan order { s with trees := trees, pool := pool' } = .ok last → records'.length < last.length := by
  obtain ⟨raw, htuple, hread⟩ := h.exists_tuple hscan hmem
  obtain ⟨hp, hle, hat⟩ := mem_tuplesIn.mp htuple
  obtain ⟨row, hrow, hlive⟩ := exists_row_of_tupleAt hat
  have hsize := h.file.exact_.size
  have hsame := hbroken.same record.rid.1 hp (by omega)
  have hstate := h.file.heap.page record.rid.1 hp
  have hrep : PageRep (w.mem (s.table.fileId, record.rid.1)) (rows record.rid.1) :=
    hstate.resolve_right fun hzero => by simp [hzero.2] at hrow
  have hgone : s.table.fileId ∉ w'.gone := by simp [hbroken.gone, h.file.gone]
  have hpins : Multiset.card w'.pins < 8 := by rw [hbroken.pins]; decide
  -- the row is read and deleted
  obtain ⟨page, hinit, -, hslots⟩ := init_of_state hstate
  rw [← hsame] at hinit hslots hrep
  have hget : (s.table.get record.rid : PageProg (String → τ) Record).run carefulStore s.trees w' =
      (.ok record, s.trees, w') := by
    have htake : (HeapFile.getTuple s.table.fileId record.rid : PageProg (String → τ) (Option Bytes)).run
        carefulStore s.trees w' = (.ok (some raw), s.trees, w') := by
      rw [← hat]
      exact HeapFile.run_fetch_release hgone hbroken.held hpins rfl hinit (Bpm.run_reading (hslots _))
    refine Prog.run_step htake ?_
    rw [StoredTable.deserialize, hread]
    exact Prog.run_ofExcept _ _ _
  obtain ⟨b', hdelete, hrep'⟩ := HeapFile.run_deleteTuple_page (σ := String → τ) (c := carefulStore)
    (s := s.trees) hgone hbroken.held hpins (accepts_anyBlock _)
    (fun hk => by rcases hbroken.unsaved _ hk with hzero | hnew
                  · exact hp (Prod.mk.inj hzero).2
                  · have hbehind := (Prod.mk.inj hnew).2
                    omega)
    hp (by rw [hbroken.size]; omega) hrep hrow
  rw [hlive] at hdelete
  obtain ⟨pool₁, hpool₁, hr₁⟩ := Bpm.run_of_careful order hr h.few_lost hget (by simp)
  obtain ⟨pool₂, hpool₂, hr₂⟩ := Bpm.run_of_careful order hr₁ h.few_lost hdelete (by simp)
  have hkeys : ∀ item ∈ s.table.indices, ∃ k,
      StoredTable.keyAt s.table.schema record.values item.1 = some k := fun item hitem => by
    obtain ⟨i, hi⟩ := hindexed.column item hitem
    exact ⟨_, (hi.keyAt_record hread).2⟩
  obtain ⟨trees, hentries, hchanged, -⟩ := StoredTable.run_forIndexes s.table.schema record.values
    record.rid (StoredTable.changes_delete (BufferPoolManager.store order)) hindexed.nodup hkeys s.trees pool₂
  rw [← StoredTable.deleteEntries_eq] at hentries
  -- the rows that are left
  have hperm := perm_tuplesIn_kill htuple
  have hold := h.scan_eq.symm.trans hscan
  obtain ⟨records', hrecords'⟩ := exists_mapM_eq_ok.mpr fun item hitem =>
    exists_mapM_eq_ok.mp ⟨records, hold⟩ item (hperm.symm.subset (List.mem_cons_of_mem _ hitem))
  have hperm' : records.Perm (record :: records') := by
    refine perm_of_mapM hperm hold ?_
    rw [List.mapM_cons, hread, hrecords']
    rfl
  refine ⟨trees, pool₂, records', ?_, hperm', fun item hitem i hi => ?_, fun last hlast => ?_⟩
  · rw [run, StoredTable.delete]
    exact Prog.run_step hpool₁ (Prog.run_step hpool₂ (Prog.run_step hentries (Prog.run_pure _ _ _)))
  · have hentry := hchanged item hitem _ (hi.keyAt_record hread).2
    rw [hindexed.entries item hitem i hi, entriesOf_perm hperm', entriesOf_cons,
      Multiset.erase_cons_head] at hentry
    exact hentry
  · obtain ⟨leftPage, hleft⟩ := HeapFile.readable_leftBy hlong
    have hdir : DirRep ((w'.setMem (s.table.fileId, record.rid.1) b').mem (s.table.fileId, 0))
        (entries ++ [⟨pageSize, 0⟩]) := by simpa [hp.symm] using hbroken.dir
    have hnew : (w'.setMem (s.table.fileId, record.rid.1) b').mem (s.table.fileId, entries.length + 1) =
        HeapFile.leftBy left := by
      have hne : entries.length + 1 ≠ record.rid.1 := by omega
      rw [← hsize, ← hbroken.page]
      simp [hsize, hne]
    obtain ⟨r, hrun, hok, hiff, hmore⟩ := HeapOfRows.run_scan_behind s.table
      (Function.update rows record.rid.1 (kill (rows record.rid.1) record.rid.2)) entries.length
      (w := w'.setMem (s.table.fileId, record.rid.1) b') (by simpa using hgone)
      (by simpa [Flat.Held] using hbroken.held) (by simpa using hpins) hdir (by simp)
      (fun p hlow hhigh => by
        by_cases hpq : p = record.rid.1
        · have hkilled : PageState b' (kill (rows record.rid.1) record.rid.2) := Or.inl hrep'
          simpa [hpq] using hkilled
        · have hkept := h.file.heap.page p (by omega)
          rw [← hbroken.same p (by omega) (by omega)] at hkept
          simpa [hpq] using hkept)
      (by rw [hnew]; exact hleft) hrecords' trees
    obtain ⟨pool₃, hpool₃, -⟩ := Bpm.run_of_careful order hr₂ h.few_lost hrun hok
    have hfound : r = .ok last := (congrArg Prod.fst hpool₃).symm.trans hlast
    rw [hnew] at hiff
    have hprefix := hmore last hfound
    refine Nat.lt_of_le_of_ne hprefix.length_le fun hsameLength => hshown (hiff.mp ?_)
    rw [hfound, hprefix.eq_of_length hsameLength]

/-- A row between 4085 and 4096 bytes long is not in the indexes, but a scan sees it. -/
theorem Kept.not_agrees_of_phantom (h : Kept s w lost entries rows) (hscan : s.scan order = .ok records)
    (hindexed : s.Indexed records) {record : Record} (hmem : record ∈ records)
    {item : String × IndexEntry} (hitem : item ∈ s.table.indices) {row : List Value} {raw : Bytes}
    (hraw : s.table.schema.serialize row = .ok (some raw)) (hlong : 4084 < raw.length)
    (hshort : raw.length ≤ 4096) (hroom : entries.length < 682) :
    (s.run order (s.table.insert row)).1 = .error .structError ∧
      (run order (s.table.delete record.rid) (s.step order (.insert row))).1 = .ok true ∧
      ¬ ((s.step order (.insert row)).step order (.delete record.rid)).Agrees order := by
  have hfit : firstFit entries (raw.length + Page.headerSize) = none := by
    have htake : (directoryOf entries).take raw.length = none := by
      by_contra hsome
      obtain ⟨dir, hdir⟩ := Option.ne_none_iff_exists'.mp hsome
      exact Nat.not_le.mpr hlong (h.file.placeable hdir).1
    exact (take_eq_none.mp htake).1
  obtain ⟨w', hinsert, hbroken⟩ := HeapFile.run_insertTuple_long carefulStore s.trees h.file.heap hfit
    h.file.exact_.size hroom hlong
  obtain ⟨pool, hpool, hr⟩ := h.run_eq order hinsert (by simp)
  have hrun : s.run order (s.table.insert row) = (.error .structError, s.trees, pool) := by
    rw [run, StoredTable.insert, hraw]
    exact Prog.run_step (Prog.run_ofExcept _ _ _) (Prog.run_bind_error hpool)
  have hshown : ¬ ShowsNothing (HeapFile.leftBy raw) := fun hnothing =>
    Nat.not_lt.mpr hshort ((showsNothing_leftBy hlong).mp hnothing).1
  obtain ⟨trees, pool', records', hdelete, hperm, hentries, hmore⟩ :=
    h.run_delete_brokenOff hscan hindexed hmem hbroken hlong hshown hr
  have hstep : s.step order (.insert row) = { s with pool := pool } := by rw [step, hrun]; rfl
  rw [hstep]
  refine ⟨by rw [hrun], by rw [hdelete], ?_⟩
  rw [step, hdelete]
  rintro ⟨last, hlast, hall⟩
  obtain ⟨i, hi, hsame, -⟩ := hall item hitem
  have hcard := congrArg Multiset.card ((hentries item hitem i hi).symm.trans hsame)
  rw [entriesOf, entriesOf, Multiset.card_map, Multiset.card_map, Multiset.coe_card, Multiset.coe_card] at hcard
  exact Nat.ne_of_lt (hmore last hlast) hcard

/-- A number and a text. -/
def noteSchema : Schema := ⟨[⟨"k", .int, none⟩, ⟨"s", .varchar, none⟩]⟩

/-- A text of `n` letters. -/
def letters : Nat → String
  | 0 => ""
  | n + 1 => letters n ++ "x"

theorem length_encodeText_letters (n : Nat) : (Schema.encodeText (letters n)).length = n := by
  induction n with
  | zero => rfl
  | succ n ih =>
      have happend : Schema.encodeText (letters n ++ "x") =
          Schema.encodeText (letters n) ++ Schema.encodeText "x" := by
        simp [Schema.encodeText, String.toByteArray_append]
      rw [letters, happend, List.length_append, ih]
      rfl

theorem exists_serialize_note {n : Nat} (hn : n < 65536) :
    ∃ raw, noteSchema.serialize [.int 1, .str (letters n)] = .ok (some raw) ∧ raw.length = n + 6 := by
  have hpacks : Schema.Packs noteSchema.columns [.int 1, .str (letters n)]
      [formati.encode 1, Schema.encodeText (letters n)] := by
    refine ⟨Nat.le_refl 2, .cons (by decide) (.cons ?_ .nil)⟩
    have hlength : Schema.packLength (Schema.encodeText (letters n)).length = .ok (formatH.encode n) := by
      rw [length_encodeText_letters, Schema.packLength, if_pos (fits_formatH.mpr ⟨by omega, by omega⟩)]
    simp only [Schema.packColumn, Schema.tooLong, hlength]
    rfl
  refine ⟨_, (Schema.serialize_eq_ok (by decide)).mpr ⟨_, hpacks, rfl⟩, ?_⟩
  simp [noteSchema, Schema.headers, Schema.headerOf, Schema.packHeaders, length_encodeText_letters]
  omega

/-- A table with one row and an index. -/
def noted : TableSession EntryList :=
  ((create .increasing 0 "t" noteSchema (fun _ => ⟨[]⟩) Disk.empty).step .increasing
    (.insert [.int 1, .str (letters 0)])).step .increasing (.createIndex "i" "k")

/-- Its heap file has one data page and one row, and it has the index. -/
theorem kept_noted : Reachable .increasing OnInts noted ∧ ∃ w entries rows records record,
    Kept noted w 0 entries rows ∧ entries.length = 1 ∧ noted.scan .increasing = .ok records ∧
      record ∈ records ∧ noted.Indexed records ∧ noted.table.schema = noteSchema ∧
      noted.table.indices.has "k" = true := by
  obtain ⟨w₀, h₀⟩ := kept_create (τ := EntryList) .increasing 0 "t" noteSchema (fun _ => ⟨[]⟩)
    Disk.whole_empty rfl
  have hs₀ : Reachable .increasing OnInts
      (create .increasing 0 "t" noteSchema (fun _ => (⟨[]⟩ : EntryList)) Disk.empty) :=
    Reachable.create 0 "t" noteSchema _ Disk.empty Disk.whole_empty rfl
  unfold noted
  generalize hcreate : create .increasing 0 "t" noteSchema (fun _ => (⟨[]⟩ : EntryList)) Disk.empty = s₀ at *
  have hindices : s₀.table.indices = [] := by rw [← hcreate]; rfl
  have hschema : s₀.table.schema = noteSchema := by rw [← hcreate]; rfl
  -- the row
  obtain ⟨raw, hraw, hlength⟩ := exists_serialize_note (n := 0) (by decide)
  rw [← hschema] at hraw
  have htake : (directoryOf []).take raw.length = some (directoryOf ([] ++ [⟨4084 - raw.length, 0⟩])) :=
    take_new rfl (by decide) (by omega) 0
  obtain ⟨rid, pool, w, entries, rows, hrun, hkept, hdir, hperm⟩ :=
    h₀.insert_placed .increasing hindices hraw htake
  have hentries : entries.length = 1 := (HeapSession.length_eq_of_directoryOf hdir).symm
  have hroom : s₀.Allowed .increasing OnInts (.insert [.int 1, .str (letters 0)]) := by
    intro raw' hraw'
    obtain rfl : raw = raw' := Option.some.inj (Except.ok.inj (hraw.symm.trans hraw'))
    refine h₀.roomFor_iff.mpr ?_
    rw [DirectoryPage.TakesAll, htake]
    trivial
  have hstep : s₀.step .increasing (.insert [.int 1, .str (letters 0)]) = { s₀ with pool := pool } := by
    rw [step, hrun]
    rfl
  have hs₁ := hs₀.step _ hroom
  rw [hstep] at hs₁ ⊢
  obtain ⟨records, hscan⟩ := hkept.exists_records .increasing
  have hmem : (rid, raw) ∈ tuplesIn entries.length rows :=
    hperm.symm.subset (List.mem_append_right _ (List.mem_singleton_self _))
  -- the index
  have hnone : Indexed { s₀ with pool := pool } records :=
    ⟨by rw [hindices]; exact List.nodup_nil, by rw [hindices]; simp, by rw [hindices]; simp⟩
  have hint : s₀.table.schema.IntAt "k" 0 := by
    rw [hschema]
    exact ⟨by decide, _, rfl, rfl⟩
  obtain ⟨hkept₂, hscan₂, hindexed₂, indices, htable, hhas⟩ := hkept.createIndex hscan hnone "i" hint
  have hlengths := (mapM_eq_ok.mp (hkept.scan_eq.symm.trans hscan)).length_eq
  obtain ⟨record, hrecord⟩ := List.exists_mem_of_length_pos (hlengths ▸ List.length_pos_of_mem hmem)
  exact ⟨hs₁.step _ ⟨0, hint⟩, w, entries, rows, records, record, hkept₂, hentries, hscan₂, hrecord,
    hindexed₂, by rw [htable]; exact hschema, by rw [htable]; exact hhas⟩

theorem indexes_agree_noted : noted.Agrees .increasing := indexes_agree kept_noted.1

/-- A row of 4085 bytes raises.  After the one row is deleted a scan still finds a record,
and the index is empty. -/
theorem phantom_row : Reachable .increasing OnInts noted ∧ ∃ records record,
    noted.scan .increasing = .ok records ∧ record ∈ records ∧
      (noted.run .increasing (noted.table.insert [.int 1, .str (letters 4079)])).1 = .error .structError ∧
      (run .increasing (noted.table.delete record.rid)
        (noted.step .increasing (.insert [.int 1, .str (letters 4079)]))).1 = .ok true ∧
      ¬ ((noted.step .increasing (.insert [.int 1, .str (letters 4079)])).step .increasing
        (.delete record.rid)).Agrees .increasing := by
  obtain ⟨hs, w, entries, rows, records, record, hkept, hentries, hscan, hrecord, hindexed, hschema, hhas⟩ :=
    kept_noted
  obtain ⟨raw, hraw, hlength⟩ := exists_serialize_note (n := 4079) (by decide)
  rw [← hschema] at hraw
  obtain ⟨index, hindex⟩ := Dict.has_iff.mp hhas
  exact ⟨hs, records, record, hscan, hrecord, hkept.not_agrees_of_phantom hscan hindexed hrecord
    (Dict.mem_of_get? hindex) hraw (by omega) (by omega) (by omega)⟩

end TableSession

end DBEngine
