import DBEngine.Catalog.CatalogHistory
import DBEngine.Catalog.TableFiles

/-!
# The files of a database

All tables of a catalog at their files, and no page yet in the files that come next.  A
method of the catalog changes the table that it names and no other, or raises
`struct.error`; what a load makes of the catalog file are the same tables.
-/

set_option autoImplicit false

namespace DBEngine

open ByteBuffer Paged

namespace StoredCatalog

open StoredTable TableSession

variable {α W : Type} {c : Store FileId Bytes PyErr W} {fails : PyErr → Prop} {w₀ : W}
  {catalog catalog' : StoredCatalog} {w w' : Flat FileId Bytes} {tableName : String} {table table' : StoredTable}
  {contents : String → List Record} {forests : String → String → BTree}

/-! ## Files of the tables -/

theorem Tracked.apart (ht : catalog.Tracked) {item : String × StoredTable} (hitem : item ∈ catalog.tables) :
    item.2.Apart :=
  ⟨ht.columns item hitem, (List.nodup_flatMap.mp ht.files).1 item hitem⟩

/-- Two tables have no file in common. -/
theorem Tracked.disjoint (ht : catalog.Tracked) {item other : String × StoredTable} (hitem : item ∈ catalog.tables)
    (hother : other ∈ catalog.tables) (hne : other.1 ≠ item.1) {f : FileId} (hf : f ∈ other.2.fileIds) :
    f ∉ item.2.fileIds := by
  have hsymm : Std.Symm (Function.onFun List.Disjoint fun item : String × StoredTable => item.2.fileIds) :=
    ⟨fun _ _ h => List.Disjoint.symm h⟩
  have hpairs := (List.nodup_flatMap.mp ht.files).2
  exact hpairs.forall hother hitem (fun heq => hne (congrArg Prod.fst heq)) hf

/-! ## Tables at their files -/

/-- Every table is at its files, with these rows and these trees, and the files that have not been
given away are as a new database has them. -/
structure CatalogAt (catalog : StoredCatalog) (w : Flat FileId Bytes) (contents : String → List Record)
    (forests : String → String → BTree) : Prop where
  quiet : Quiet w
  blank : ∀ f, catalog.catalogFile.nextFileId ≤ f → Blank f w
  tables : ∀ item ∈ catalog.tables,
    TableAt item.2 w (catalog.trees item.1) (contents item.1) (forests item.1)

/-- A change of one table, which may be new, in files that no other table uses. -/
theorem CatalogAt.renew (h : CatalogAt catalog w contents forests) {keep : FileId → Prop}
    (hsame : Flat.SameOn keep w w') {trees : String → BPlusTree} {records : List Record} {forest : String → BTree}
    (htables : ∀ item ∈ catalog'.tables, item ∈ catalog.tables ∧ item.1 ≠ tableName ∨ item = (tableName, table'))
    (htrees : catalog'.trees = Function.update catalog.trees tableName trees)
    (hat : TableAt table' w' trees records forest)
    (hothers : ∀ item ∈ catalog.tables, item.1 ≠ tableName → ∀ f ∈ item.2.fileIds, keep f)
    (hnext : ∀ f, catalog'.catalogFile.nextFileId ≤ f → catalog.catalogFile.nextFileId ≤ f ∧ keep f) :
    CatalogAt catalog' w' (Function.update contents tableName records) (Function.update forests tableName forest) where
  quiet := hat.quiet
  blank f hf := (h.blank f (hnext f hf).1).of_sameOn hsame (hnext f hf).2
  tables item hitem := by
    rw [htrees]
    rcases htables item hitem with ⟨hold, hne⟩ | rfl
    · rw [Function.update_of_ne hne, Function.update_of_ne hne, Function.update_of_ne hne]
      exact (h.tables item hold).of_sameOn hsame (hothers item hold hne) hat.quiet
    · rw [Function.update_self, Function.update_self, Function.update_self]
      exact hat

/-- What was taken out does not matter to the tables that are left. -/
theorem CatalogAt.restrict (h : CatalogAt catalog w contents forests) {keep : FileId → Prop}
    (hsame : Flat.SameOn keep w w') (hquiet : Quiet w') (htrees : catalog'.trees = catalog.trees)
    (htables : ∀ item ∈ catalog'.tables, item ∈ catalog.tables ∧ ∀ f ∈ item.2.fileIds, keep f)
    (hnext : ∀ f, catalog'.catalogFile.nextFileId ≤ f → catalog.catalogFile.nextFileId ≤ f ∧ keep f) :
    CatalogAt catalog' w' contents forests where
  quiet := hquiet
  blank f hf := (h.blank f (hnext f hf).1).of_sameOn hsame (hnext f hf).2
  tables item hitem := by
    rw [htrees]
    exact (h.tables item (htables item hitem).1).of_sameOn hsame (htables item hitem).2 hquiet

/-- A number that is taken for nothing. -/
theorem CatalogAt.burns (h : CatalogAt catalog w contents forests) (htables : catalog'.tables = catalog.tables)
    (htrees : catalog'.trees = catalog.trees) (hfile : catalog'.catalogFile = catalog.catalogFile) :
    CatalogAt catalog' w contents forests :=
  h.restrict (Flat.SameOn.refl (fun _ => True) w) h.quiet htrees
    (fun _ hitem => ⟨htables ▸ hitem, fun _ _ => trivial⟩) fun _ hf => ⟨hfile ▸ hf, trivial⟩

/-! ## Methods -/

variable {post : α → (String → BPlusTree) → W → Prop}

/-- A method of one table, among those of the catalog. -/
theorem ends_onTable {p : PageProg (String → BPlusTree) α} (hp : p.Ends c fails (catalog.trees tableName) w₀ post) :
    (onTable tableName p).Ends c fails catalog w₀ fun a catalog' w =>
      ∃ trees, catalog' = { catalog with trees := Function.update catalog.trees tableName trees } ∧ post a trees w := by
  rcases hp.cases with ⟨e, trees, w, hrun, he⟩ | ⟨a, trees, w, hrun, ha⟩
  · exact Prog.ends_of_error (by rw [run_onTable, hrun]) he
  · exact Prog.ends_of_run (by rw [run_onTable, hrun]) ⟨trees, rfl, ha⟩

/-- The same after a number was taken. -/
theorem ends_onTable_next (catalog : StoredCatalog) {p : PageProg (String → BPlusTree) α}
    (hp : p.Ends c fails (catalog.trees tableName) w₀ post) :
    (onTable tableName p).Ends c fails { catalog with nextFileId := catalog.nextFileId + 1 } w₀ fun a catalog' w =>
      ∃ trees, catalog' = { catalog with
        nextFileId := catalog.nextFileId + 1
        trees := Function.update catalog.trees tableName trees } ∧ post a trees w := ends_onTable hp

theorem ends_ofTable (hget : catalog.tables.get? tableName = some table)
    {p : StoredTable → PageProg (String → BPlusTree) α} (hp : (p table).Ends c fails (catalog.trees tableName) w₀ post) :
    (getTable tableName >>= fun table => onTable tableName (p table)).Ends c fails catalog w₀ fun a catalog' w =>
      ∃ trees, catalog' = { catalog with trees := Function.update catalog.trees tableName trees } ∧ post a trees w := by
  have hlookup := run_getTable (h := c) (w := w₀) tableName catalog
  rw [hget] at hlookup
  exact Prog.ends_step hlookup (ends_onTable hp)

/-- The other tables are next to a table of the catalog. -/
theorem Tracked.others (ht : catalog.Tracked) (hget : catalog.tables.get? tableName = some table) :
    (∀ item ∈ catalog.tables, item.1 ≠ tableName → ∀ f ∈ item.2.fileIds, f ∉ table.fileIds) ∧
      (∀ f, catalog.catalogFile.nextFileId ≤ f → f ∉ table.fileIds) ∧
        ∀ item ∈ catalog.tables, item ∈ catalog.tables ∧ item.1 ≠ tableName ∨ item = (tableName, table) := by
  have hitem := Dict.mem_of_get? hget
  refine ⟨fun item hother hne f hf => ht.disjoint hitem hother hne hf, fun f hf hmem => ?_, fun item hother => ?_⟩
  · exact Nat.not_lt.mpr hf (ht.below f (mem_fileIds.mpr ⟨_, hitem, hmem⟩))
  · by_cases hname : item.1 = tableName
    · right
      have hfound := Dict.get?_of_mem ht.names hother
      rw [hname, hget] at hfound
      exact Prod.ext hname (Option.some.inj hfound).symm
    · exact .inl ⟨hother, hname⟩

/-- A row is inserted into one table. -/
theorem ends_insertRow (ht : catalog.Tracked) (h : CatalogAt catalog w contents forests)
    (hget : catalog.tables.get? tableName = some table) {row : List Value} {raw : Bytes}
    (hraw : table.schema.serialize row = .ok (some raw)) :
    (insertRow tableName row).Ends carefulStore (· = .structError) catalog w fun rid catalog' w' =>
      catalog'.tables = catalog.tables ∧ ∃ record records' forest', table.schema.deserialize raw rid = .ok record ∧
        records'.Perm (record :: contents tableName) ∧ CatalogAt catalog' w'
          (Function.update contents tableName records') (Function.update forests tableName forest') := by
  have hitem := Dict.mem_of_get? hget
  obtain ⟨hothers, hnext, hsplit⟩ := ht.others hget
  refine (ends_ofTable hget ((h.tables _ hitem).ends_insert (ht.apart hitem) hraw)).mono ?_
  rintro rid catalog' w' ⟨trees, rfl, hsame, record, records', forest', hat, hread, hperm⟩
  refine ⟨rfl, record, records', forest', hread, hperm, ?_⟩
  exact h.renew hsame hsplit rfl hat hothers fun f hf => ⟨hf, hnext f hf⟩

/-- A row is deleted from one table. -/
theorem ends_deleteRow (ht : catalog.Tracked) (h : CatalogAt catalog w contents forests)
    (hget : catalog.tables.get? tableName = some table) {record : Record} (hmem : record ∈ contents tableName) :
    (deleteRow tableName record.rid).Ends carefulStore (fun e => e = .structError ∧ table.indices ≠ []) catalog w
      fun _ catalog' w' =>
      catalog'.tables = catalog.tables ∧ ∃ records' forest', (contents tableName).Perm (record :: records') ∧
        CatalogAt catalog' w' (Function.update contents tableName records')
          (Function.update forests tableName forest') := by
  have hitem := Dict.mem_of_get? hget
  obtain ⟨hothers, hnext, hsplit⟩ := ht.others hget
  refine (ends_ofTable hget ((h.tables _ hitem).ends_delete (ht.apart hitem) hmem)).mono ?_
  rintro _ catalog' w' ⟨trees, rfl, hsame, records', forest', hat, hperm⟩
  refine ⟨rfl, records', forest', hperm, ?_⟩
  exact h.renew hsame hsplit rfl hat hothers fun f hf => ⟨hf, hnext f hf⟩

/-- The files of the tables are not the next one. -/
theorem Tracked.ne_next (ht : catalog.Tracked) {item : String × StoredTable} (hitem : item ∈ catalog.tables)
    {f : FileId} (hf : f ∈ item.2.fileIds) : f ≠ catalog.nextFileId :=
  fun heq => ht.next_fresh (mem_fileIds.mpr ⟨item, hitem, heq ▸ hf⟩)

/-- A new table has no rows. -/
theorem ends_createTable (ht : catalog.Tracked) (h : CatalogAt catalog w contents forests)
    (hnew : tableName ∉ catalog.tables.map Prod.fst) (schema : Schema) :
    (createTable tableName schema).Ends carefulStore (fun _ => False) catalog w fun _ catalog' w' =>
      catalog'.tables = catalog.tables.set tableName ⟨tableName, schema, catalog.nextFileId, []⟩ ∧
        ∃ forest, CatalogAt catalog' w' (Function.update contents tableName [])
          (Function.update forests tableName forest) := by
  rw [createTable]
  refine Prog.ends_step (run_takeFileId catalog w) (Prog.ends_step (Prog.run_read _ _) ?_)
  rw [if_neg fun hhas => hnew (Dict.has_iff_mem.mp hhas)]
  have hmake : (StoredTable.create ⟨tableName, schema, catalog.nextFileId, []⟩ :
      PageProg (String → BPlusTree) Unit).Ends carefulStore (fun _ => False) (catalog.trees tableName) w _ :=
    TableAt.ends_create rfl (h.blank _ ht.next_le) h.quiet fun _ => BTree.empty
  refine (ends_onTable_next catalog hmake).bind ?_
  rintro _ catalog' w' ⟨trees, rfl, hat, hsame⟩
  refine Prog.ends_step (Prog.run_modify _ _ _) (Prog.ends_step (Prog.run_modify _ _ _) (Prog.ends_pure
    ⟨rfl, fun _ => BTree.empty, ?_⟩))
  refine h.renew hsame (fun item hitem => ?_) rfl hat
    (fun item hitem _ f hf => ht.ne_next hitem hf) fun f hf => ⟨?_, ?_⟩
  · change item ∈ catalog.tables.set tableName _ at hitem
    rw [Dict.set_of_not_mem hnew] at hitem
    rcases List.mem_append.mp hitem with hold | hlast
    · have hname : item.1 ∈ catalog.tables.map Prod.fst := List.mem_map_of_mem hold
      exact .inl ⟨hold, fun heq => hnew (heq ▸ hname)⟩
    · exact .inr (List.mem_singleton.mp hlast)
  · exact Nat.le_trans ht.next_le (Nat.le_of_succ_le hf)
  · exact Nat.ne_of_gt hf

/-- A new index on a table. -/
theorem ends_createIndex (ht : catalog.Tracked) (h : CatalogAt catalog w contents forests)
    (hget : catalog.tables.get? tableName = some table) {columnName : String} {i : Nat}
    (hi : table.schema.IntAt columnName i) (hcolumn : columnName ∉ table.indices.map Prod.fst) (indexName : String) :
    (createIndex tableName indexName columnName).Ends carefulStore
      (fun e => e = .structError ∧ contents tableName ≠ []) catalog w fun _ catalog' w' =>
      catalog'.tables = catalog.tables.set tableName
          { table with indices := table.indices.set columnName ⟨catalog.nextFileId, indexName⟩ } ∧
        ∃ forest, CatalogAt catalog' w' contents (Function.update forests tableName forest) := by
  have hitem := Dict.mem_of_get? hget
  have hname : table.tableName = tableName := ht.named _ hitem
  subst hname
  rw [createIndex]
  refine Prog.ends_step (run_takeFileId catalog w) ?_
  have hlookup := run_getTable (h := carefulStore) (w := w) table.tableName
    { catalog with nextFileId := catalog.nextFileId + 1 }
  simp only [hget] at hlookup
  have hmake := (h.tables _ hitem).ends_createIndex hi hcolumn (fun hf => ht.ne_next hitem hf rfl)
    (h.blank _ ht.next_le) indexName
  refine Prog.ends_step hlookup ((ends_onTable_next catalog hmake).bind ?_)
  rintro _ catalog' w' ⟨trees, rfl, rfl, hsame, forest', hat⟩
  refine Prog.ends_step (Prog.run_modify _ _ _) (Prog.ends_of_run (Prog.run_modify _ _ _) ?_)
  refine ⟨rfl, forest', ?_⟩
  rw [← Function.update_eq_self table.tableName contents]
  refine h.renew hsame (fun item hmem => ?_) rfl hat (fun item hmem _ f hf => ht.ne_next hmem hf) fun f hf => ⟨?_, ?_⟩
  · change item ∈ catalog.tables.set table.tableName _ at hmem
    rcases Dict.mem_set hmem with hlast | hold
    · exact .inr hlast
    · by_cases hother : item.1 = table.tableName
      · right
        have hkeys := Dict.keys_set_of_get? hget { table with
          indices := table.indices.set columnName ⟨catalog.nextFileId, indexName⟩ }
        have hfound := Dict.get?_of_mem (hkeys.symm ▸ ht.names) hmem
        rw [hother, Dict.get?_set, if_pos rfl] at hfound
        exact Prod.ext hother (Option.some.inj hfound).symm
      · exact .inl ⟨hold, hother⟩
  · exact Nat.le_trans ht.next_le (Nat.le_of_succ_le hf)
  · exact Nat.ne_of_gt hf

/-! ## Loading -/

/-- The tree objects of a new process. -/
def reopened (forests : String → String → BTree) : String → String → BTree :=
  fun tableName columnName =>
    { forests tableName columnName with numKeys := (forests tableName columnName).stored }

/-- The tables of the catalog file are at their files again. -/
theorem ends_loadTables (tables : Dict String StoredTable) (hnames : (tables.map Prod.fst).Nodup)
    (hnamed : ∀ item ∈ tables, item.2.tableName = item.1) (hapart : ∀ item ∈ tables, item.2.Apart)
    {kept : String → String → BPlusTree}
    (hat : ∀ item ∈ tables, TableAt item.2 w (kept item.1) (contents item.1) (forests item.1)) :
    ∀ catalog : StoredCatalog, (loadTables (tables.map fun item => (item.1, item.2.describe))).Ends carefulStore
      (fun _ => False) catalog w fun _ catalog' w' => w' = w ∧
        (∀ name ∉ tables.map Prod.fst, catalog'.trees name = catalog.trees name) ∧
          ∀ item ∈ tables, TableAt item.2 w (catalog'.trees item.1) (contents item.1) (reopened forests item.1) := by
  induction tables with
  | nil => exact fun catalog => Prog.ends_pure ⟨rfl, fun _ _ => rfl, by simp⟩
  | cons item rest ih =>
      intro catalog
      rw [List.map_cons, List.nodup_cons] at hnames
      have hschema : (Prog.ofExcept (Schema.fromDict item.2.describe.schema) : CatalogProg Schema).run carefulStore
          catalog w = (.ok item.2.schema, catalog, w) := by
        rw [StoredTable.describe, Schema.fromDict_toDict]
        rfl
      rw [List.map_cons, loadTables]
      have hitem := hat item List.mem_cons_self
      refine Prog.ends_step hschema ((ends_onTable (ends_openTrees (hapart item List.mem_cons_self).names
        hitem.trees)).bind ?_)
      rintro _ catalog₁ w₁ ⟨trees₁, rfl, rfl, -, htrees⟩
      refine Prog.ends_step (Prog.run_modify _ _ _) ((ih hnames.2
        (fun other hother => hnamed other (List.mem_cons_of_mem _ hother))
        (fun other hother => hapart other (List.mem_cons_of_mem _ hother))
        (fun other hother => hat other (List.mem_cons_of_mem _ hother)) _).mono ?_)
      rintro _ catalog' w' ⟨rfl, hothers, hrest⟩
      refine ⟨rfl, fun name hname => ?_, fun other hother => ?_⟩
      · rw [List.map_cons, List.mem_cons, not_or] at hname
        rw [hothers name hname.2]
        exact Function.update_of_ne hname.1 _ _
      · rcases List.mem_cons.mp hother with rfl | hother
        · rw [hothers _ hnames.1]
          change TableAt _ _ (Function.update catalog.trees _ trees₁ _) _ _
          rw [Function.update_self]
          exact ⟨hitem.rows, htrees, hitem.column, hitem.entries⟩
        · exact hrest other hother

/-- A new process over the same files has the tables of the old one. -/
theorem ends_load (ht : catalog.Tracked) (h : CatalogAt catalog w contents forests) :
    StoredCatalog.load.Ends carefulStore (fun _ => False) (init (some catalog.catalogFile)) w fun _ catalog' w' =>
      w' = w ∧ (catalog'.tables = catalog.tables → catalog'.catalogFile = catalog.catalogFile →
        CatalogAt catalog' w contents (reopened forests)) := by
  rw [StoredCatalog.load]
  refine Prog.ends_step (Prog.run_read _ _) (Prog.ends_step (Prog.run_modify _ _ _) ?_)
  change (loadTables catalog.catalogFile.tables).Ends _ _ _ _ _
  rw [ht.saved]
  refine (ends_loadTables catalog.tables ht.names ht.named (fun item hitem => ht.apart hitem) h.tables _).mono ?_
  rintro _ catalog' w' ⟨rfl, -, hat⟩
  exact ⟨rfl, fun htables hfile => ⟨h.quiet, fun f hf => h.blank f (hfile ▸ hf), htables ▸ hat⟩⟩

/-! ## Reading -/

/-- A scan of one table. -/
theorem run_scan (h : CatalogAt catalog w contents forests) (hget : catalog.tables.get? tableName = some table) :
    (scan tableName).run carefulStore catalog w = (.ok (contents tableName), catalog, w) := by
  have hread := (h.tables _ (Dict.mem_of_get? hget)).rows.run_scan (catalog.trees tableName)
  have hlookup := run_getTable (h := carefulStore) (w := w) tableName catalog
  rw [hget] at hlookup
  rw [scan]
  refine Prog.run_step hlookup ?_
  rw [run_onTable, hread]
  simp

variable {columnName : String} {index : IndexEntry}

/-- A reading method of one tree. -/
theorem run_ofIndex (hget : catalog.tables.get? tableName = some table)
    (hindex : table.indices.get? columnName = some index) {p : FileId → PageProg BPlusTree α} {r : Except PyErr α}
    (hread : (p index.fileId).run c (catalog.trees tableName columnName) w₀ =
      (r, catalog.trees tableName columnName, w₀)) :
    (getIndex tableName columnName >>= fun index => onTable tableName (StoredTable.onTree columnName (p index.fileId))).run
      c catalog w₀ = (r, catalog, w₀) := by
  have hfound : (getIndex tableName columnName).run c catalog w₀ = (.ok index, catalog, w₀) := by
    have hlookup := run_getTable (h := c) (w := w₀) tableName catalog
    rw [hget] at hlookup
    rw [getIndex]
    refine Prog.run_step hlookup ?_
    rw [hindex]
    rfl
  refine Prog.run_step hfound ?_
  have htree : (StoredTable.onTree columnName (p index.fileId)).run c (catalog.trees tableName) w₀ =
      (r, catalog.trees tableName, w₀) := by
    rw [StoredTable.onTree, Prog.run_zoom (fun _ _ => Function.update_self _ _ _)
      (fun _ _ _ => Function.update_idem _ _ _) (fun _ => Function.update_eq_self _ _), hread, Function.update_eq_self]
  rw [run_onTable, htree, Function.update_eq_self]

theorem run_search (h : CatalogAt catalog w contents forests) (hget : catalog.tables.get? tableName = some table)
    (hindex : table.indices.get? columnName = some index) (key : Int) :
    (search tableName columnName key).run carefulStore catalog w =
      (.ok ((forests tableName columnName).search key), catalog, w) := by
  have hat := (h.tables _ (Dict.mem_of_get? hget)).trees _ (Dict.mem_of_get? hindex)
  exact run_ofIndex (p := fun f => BPlusTree.search f key) hget hindex (DBEngine.run_search hat.shape hat.rep key)

theorem run_rangeScan (h : CatalogAt catalog w contents forests) (hget : catalog.tables.get? tableName = some table)
    (hindex : table.indices.get? columnName = some index) (start stop : Option Int) :
    (rangeScan tableName columnName start stop).run carefulStore catalog w =
      (.ok ((forests tableName columnName).rangeScan start stop), catalog, w) := by
  have hat := (h.tables _ (Dict.mem_of_get? hget)).trees _ (Dict.mem_of_get? hindex)
  exact run_ofIndex (p := fun f => BPlusTree.rangeScan f start stop) hget hindex
    (DBEngine.run_rangeScan hat.shape hat.rep start stop)

end StoredCatalog

end DBEngine
