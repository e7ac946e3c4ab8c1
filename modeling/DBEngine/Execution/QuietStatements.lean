import DBEngine.Execution.StatementHistory

/-!
# What statements leave alone

Between two statements no page is held and every page is on disk; queries, and statements that
are refused, change no byte of a file and nothing of the catalog that is kept.
-/

set_option autoImplicit false

namespace DBEngine

open ByteBuffer Paged

/-! ## Queries only read -/

section

variable {σ β : Type} {f : FileId}

theorem only_scanSlots (page : Page) (raw : Bytes) {visit : β → Nat → Bytes → PageProg σ β}
    (hvisit : ∀ acc slotId data, (visit acc slotId data).Only CatalogSession.Reading) (slots : List Nat) (acc : β) :
    (page.scanSlots raw visit slots acc).Only CatalogSession.Reading := by
  induction slots generalizing acc with
  | nil => exact Prog.only_pure acc
  | cons slotId rest ih =>
      refine Prog.only_bind Bpm.only_reading fun tuple => ?_
      cases tuple with
      | none => exact ih acc
      | some data => exact Prog.only_bind (hvisit acc slotId data) ih

theorem only_scanPages {visit : β → Rid → Bytes → PageProg σ β}
    (hvisit : ∀ acc rid data, (visit acc rid data).Only CatalogSession.Reading) (pages : List Nat) (acc : β) :
    (HeapFile.scanPages f visit pages acc).Only CatalogSession.Reading := by
  induction pages generalizing acc with
  | nil => exact Prog.only_pure acc
  | cons pageId rest ih =>
      refine Prog.only_bind (Bpm.only_fetchPage trivial) fun pageRaw => ?_
      refine Prog.only_bind Bpm.only_reading fun page => ?_
      refine Prog.only_bind (Bpm.only_unpinPage rfl) fun _ => ?_
      exact Prog.only_bind (only_scanSlots page pageRaw (fun acc slotId => hvisit acc (pageId, slotId)) _ acc) ih

theorem only_scan : (HeapFile.scan f : PageProg σ (List (Rid × Bytes))).Only CatalogSession.Reading := by
  refine Prog.only_bind (Bpm.only_fetchPage trivial) fun dirRaw => ?_
  refine Prog.only_bind Bpm.only_reading fun directory => ?_
  refine Prog.only_bind (Bpm.only_unpinPage rfl) fun _ => ?_
  exact only_scanPages (fun acc rid data => Prog.only_pure (acc ++ [(rid, data)])) _ []

end

namespace StoredCatalog

theorem only_readTables (names : List String) : (readTables names).Only CatalogSession.Reading := by
  induction names with
  | nil => exact Prog.only_pure _
  | cons name rest ih =>
      refine Prog.only_bind Prog.only_read fun catalog => ?_
      cases catalog.tables.get? name with
      | none => exact ih
      | some table => exact Prog.only_bind (Prog.only_zoom only_scan) fun _ => Prog.only_bind ih fun _ => Prog.only_pure _

theorem only_getTable (tableName : String) : (getTable tableName).Only CatalogSession.Reading := by
  refine Prog.only_bind Prog.only_read fun catalog => ?_
  cases catalog.tables.get? tableName with
  | none => exact Prog.only_raise _
  | some table => exact Prog.only_pure _

theorem only_runQuery (node : LogicalNode) : (runQuery node).Only CatalogSession.Reading :=
  Prog.only_bind (only_readTables _) fun _ => Prog.only_bind (Prog.only_ofExcept _) fun _ =>
    Prog.only_bind (Prog.only_ofExcept _) fun _ => Prog.only_pure _

end StoredCatalog

namespace CatalogSession

open StoredCatalog

variable {order : SetOrder} {text : SqlText} {s : CatalogSession} {done : List (Statement × Except PyErr Answer)}
  {db : ShownDatabase} {statement : Statement}

variable {α β : Type} {p : CatalogProg α}

variable (order) in
/-- A method that leaves the catalog as it is, but for the tree objects. -/
def KeepsCatalog (p : CatalogProg α) : Prop := ∀ s : CatalogSession, s.catalog.Burns (s.run order p).2.catalog 0

theorem keepsCatalog_of_same (h : ∀ s : CatalogSession, (s.run order p).2 = s) : KeepsCatalog order p := by
  intro s
  rw [h s]
  exact ⟨rfl, rfl, rfl⟩

theorem keepsCatalog_ofExcept (x : Except PyErr α) : KeepsCatalog order (Prog.ofExcept x) :=
  keepsCatalog_of_same fun s => by cases x <;> rfl

theorem keepsCatalog_onTable (tableName : String) (p : PageProg (String → BPlusTree) α) :
    KeepsCatalog order (onTable tableName p) := fun s => burns_onTable (catalog_run order (onTable tableName p) s)

theorem KeepsCatalog.bind {f : α → CatalogProg β} (hp : KeepsCatalog order p) (hf : ∀ a, KeepsCatalog order (f a)) :
    KeepsCatalog order (p >>= f) := by
  intro s
  have hfirst := hp s
  rcases hrun : s.run order p with ⟨e | a, s₁⟩
  · rw [run_bind_error hrun]
    rwa [hrun] at hfirst
  · rw [run_bind_ok hrun]
    rw [hrun] at hfirst
    have hrest := hf a s₁
    exact ⟨hrest.next.trans hfirst.next, hrest.tables.trans hfirst.tables, hrest.catalogFile.trans hfirst.catalogFile⟩

theorem keepsCatalog_getTable (tableName : String) : KeepsCatalog order (getTable tableName) := by
  refine (keepsCatalog_of_same fun _ => rfl : KeepsCatalog order Prog.read).bind fun catalog => ?_
  cases catalog.tables.get? tableName with
  | none => exact keepsCatalog_of_same fun _ => rfl
  | some table => exact keepsCatalog_of_same fun _ => rfl

theorem keepsCatalog_readTables (names : List String) : KeepsCatalog order (readTables names) := by
  induction names with
  | nil => exact keepsCatalog_of_same fun _ => rfl
  | cons name rest ih =>
      refine (keepsCatalog_of_same fun _ => rfl : KeepsCatalog order Prog.read).bind fun catalog => ?_
      cases catalog.tables.get? name with
      | none => exact ih
      | some table =>
          exact (keepsCatalog_onTable _ _).bind fun _ => ih.bind fun _ => keepsCatalog_of_same fun _ => rfl

theorem keepsCatalog_runQuery (node : LogicalNode) : KeepsCatalog order (runQuery node) :=
  (keepsCatalog_readTables _).bind fun _ => (keepsCatalog_ofExcept _).bind fun _ =>
    (keepsCatalog_ofExcept _).bind fun _ => keepsCatalog_of_same fun _ => rfl

/-! ## Statements that change nothing -/

/-- Nothing on disk and nothing of the catalog that is kept differs. -/
structure SameFiles (s s' : CatalogSession) : Prop where
  content : ∀ f, s'.pool.disk.content f = s.pool.disk.content f
  catalogFile : s'.catalog.catalogFile = s.catalog.catalogFile
  tables : s'.catalog.tables = s.catalog.tables

/-- Flushing a pool without dirty frames writes nothing. -/
theorem flushAll_of_clean {pool : BufferPoolManager} (hclean : ∀ f, pool.dirty f = false) :
    pool.flushAll = (.ok (), pool) := by
  rw [BufferPoolManager.flushAll]
  induction List.finRange numFrames with
  | nil => rfl
  | cons f rest ih => rwa [BufferPoolManager.flushFrames, if_neg (by simp [hclean f])]

/-- A statement that only reads. -/
theorem sameFiles_command {tree : LogicalPlan} (hplan : LogicalPlanner.plan text statement = .ok tree)
    (hclean : ∀ f, s.pool.dirty f = false) (honly : (Database.runPlan tree.pushDown).Only Reading)
    (hkeeps : KeepsCatalog order (Database.runPlan tree.pushDown)) :
    s.SameFiles (s.command order text statement).2 := by
  have huntouched := Untouched.reading order (s := s) ⟨hclean, fun _ => rfl⟩ honly
  have hburns := hkeeps s
  rw [← run_execute hplan] at huntouched hburns
  rw [CatalogSession.command]
  rcases hrun : s.run order (Database.execute text statement) with ⟨e | answer, s'⟩
  · rw [hrun] at huntouched hburns
    exact ⟨huntouched.2, hburns.catalogFile, hburns.tables⟩
  · rw [hrun] at huntouched hburns
    dsimp only
    rw [flushAll_of_clean huntouched.1]
    exact ⟨huntouched.2, hburns.catalogFile, hburns.tables⟩

end CatalogSession

/-- The statements that only read: queries of tables without indexes, and `DESCRIBE`. -/
def ShownDatabase.Reads (db : ShownDatabase) : Statement → Prop
  | .select node => ∀ tree, LogicalPlanner.planSelect node = .ok tree →
      ∀ tableName ∈ tree.scanned, ∀ table, db tableName = some table → table.indexed = []
  | .describe _ => True
  | _ => False

namespace CatalogSession

open StoredCatalog

variable {order : SetOrder} {text : SqlText} {s : CatalogSession} {done : List (Statement × Except PyErr Answer)}
  {db : ShownDatabase} {statement : Statement}

end CatalogSession

end DBEngine
