import DBEngine.Catalog.FailedRows

/-!
# `INSERT` statements

The rows of a statement are coerced, serialized and stored one at a time, and nothing is
undone.  A statement is all or nothing when every row goes through, or when the first one
fails and leaves nothing that a scan would see.
-/

set_option autoImplicit false

namespace DBEngine

open ByteBuffer Paged

/-- The tuple that a row of a statement becomes; `none` stands for `False`. -/
def Schema.rawOf (schema : Schema) (row : List Passed) : Except PyErr (Option Bytes) := do
  let values ← schema.coerce row
  schema.serialize values

theorem Schema.rawOf_eq_ok {schema : Schema} {row : List Passed} {raw : Option Bytes} :
    schema.rawOf row = .ok raw ↔ ∃ values, schema.coerce row = .ok values ∧ schema.serialize values = .ok raw :=
  bind_eq_ok

namespace TableSession

variable {τ : Type}

/-- There is one more record for each of these rows, with the coerced values. -/
def Adds (order : SetOrder) (records : List Record) (rows : List (List Passed)) (s : TableSession τ) : Prop :=
  ∃ added records', s.scan order = .ok records' ∧ records'.Perm (records ++ added) ∧
    List.Forall₂ (fun row record => s.table.schema.coerce row = .ok record.values) rows added

/-- A statement raises and the rows are those before it, or it counts its rows and there is
one more for each. -/
def AllOrNothing [IndexFile τ] (order : SetOrder) (s : TableSession τ) (tables : Dict String StoredTable)
    (rows : List (List Passed)) : Prop :=
  ∀ records, s.scan order = .ok records →
    let r := s.run order (PhysicalPlanner.planInsert tables s.table.tableName rows)
    match r.1 with
    | .ok message => message = s!"Values inserted successfully. Rows affected: {rows.length}" ∧
        Adds order records rows (s.after r)
    | .error _ => (s.after r).scan order = .ok records

/-- Every row becomes a tuple, and the tuples find room one after the other. -/
def Insertable (s : TableSession τ) (rows : List (List Passed)) : Prop :=
  ∃ raws, List.Forall₂ (fun row raw => s.table.schema.rawOf row = .ok (some raw)) rows raws ∧
    RoomFor s.table.fileId (raws.map List.length) s.pool

/-- A statement counts its rows and there is one more for each, or it raises at a row: if
that one becomes no tuple, the rows in front of it are there. -/
def StoresInOrder [IndexFile τ] (order : SetOrder) (s : TableSession τ) (tables : Dict String StoredTable)
    (rows : List (List Passed)) : Prop :=
  ∀ records, s.scan order = .ok records →
    let r := s.run order (PhysicalPlanner.planInsert tables s.table.tableName rows)
    match r.1 with
    | .ok message => message = s!"Values inserted successfully. Rows affected: {rows.length}" ∧
        Adds order records rows (s.after r)
    | .error _ => ∃ k row, rows[k]? = some row ∧ Insertable s (rows.take k) ∧
        ¬ Insertable s (rows.take (k + 1)) ∧
        ((∀ raw, s.table.schema.rawOf row ≠ .ok (some raw)) → Adds order records (rows.take k) (s.after r))

/-- A row that fails without a trace: it becomes no tuple, or one longer than a page that
does not look like a page with a tuple itself, while the directory counts one more page. -/
def FailsUnseen (s : TableSession τ) (row : List Passed) : Prop :=
  match s.table.schema.rawOf row with
  | .ok (some raw) => 4096 < raw.length ∧ s.pool.disk.numPages s.table.fileId < 683 ∧
      ShowsNothing (zeros (8192 - raw.length) ++ raw)
  | _ => True

section

variable [IndexFile τ] {order : SetOrder} {s : TableSession τ} {w : Flat FileId Bytes}
  {lost : Multiset PageKey} {entries : List DirEntry} {tuples : Nat → List Row} {row : List Passed}
  {rows : List (List Passed)} {records : List Record}

omit [IndexFile τ] in
/-- Of a tuple with room nothing is unseen. -/
theorem not_failsUnseen {raw : Bytes} (hraw : s.table.schema.rawOf row = .ok (some raw))
    (hshort : raw.length ≤ 4084) : ¬ FailsUnseen s row := by
  intro hfails
  rw [FailsUnseen, hraw] at hfails
  have hlong := hfails.1
  omega

/-- A row of the statement that is stored: the loop goes on with the next. -/
theorem Kept.insertRows_placed (h : Kept s w lost entries tuples) (hindices : s.table.indices = [])
    (hscan : s.scan order = .ok records) {values : List Value} {raw : Bytes}
    (hvalues : s.table.schema.coerce row = .ok values)
    (hraw : s.table.schema.serialize values = .ok (some raw)) {dir : DirectoryPage}
    (htake : (directoryOf entries).take raw.length = some dir) (rest : List (List Passed)) (count : Nat) :
    ∃ rid pool w' entries' tuples' records',
      s.run order (PhysicalPlanner.insertRows s.table (row :: rest) count) =
        run order (PhysicalPlanner.insertRows s.table rest (count + 1)) { s with pool := pool } ∧
      Kept { s with pool := pool } w' lost entries' tuples' ∧ dir = directoryOf entries' ∧
      scan order { s with pool := pool } = .ok records' ∧ records'.Perm (records ++ [⟨values, rid⟩]) := by
  obtain ⟨rid, pool, w', entries', tuples', hrun, hkept, hdir, hperm⟩ :=
    h.insert_placed order hindices hraw htake
  obtain ⟨records', hscan'⟩ := hkept.exists_records order
  refine ⟨rid, pool, w', entries', tuples', records', ?_, hkept, hdir, hscan', ?_⟩
  · rw [run, PhysicalPlanner.insertRows, hvalues]
    exact Prog.run_step (Prog.run_ofExcept _ _ _) (Prog.run_bind_ok hrun)
  · rw [h.scan_eq] at hscan
    rw [hkept.scan_eq] at hscan'
    have hnew : (tuplesIn entries.length tuples ++ [(rid, raw)]).mapM
        (fun item => s.table.schema.deserialize item.2 item.1) = .ok (records ++ [⟨values, rid⟩]) := by
      refine mapM_eq_ok.mpr (List.rel_append (mapM_eq_ok.mp hscan) (.cons ?_ .nil))
      exact Schema.deserialize_of_coerce hvalues hraw rid
    exact perm_of_mapM hperm hscan' hnew

/-- A row of the statement that fails: the statement raises there. -/
theorem Kept.insertRows_failed (h : Kept s w lost entries tuples) (hscan : s.scan order = .ok records)
    (hfails : ∀ raw, s.table.schema.rawOf row = .ok (some raw) →
      (directoryOf entries).take raw.length = none) (rest : List (List Passed)) (count : Nat) :
    ∃ e pool, s.run order (PhysicalPlanner.insertRows s.table (row :: rest) count) =
        (.error e, s.trees, pool) ∧
      (scan order { s with pool := pool } = .ok records ↔ FailsUnseen s row) ∧
      ∀ records', scan order { s with pool := pool } = .ok records' → records.length ≤ records'.length := by
  -- a row without a tuple leaves the rows as they are
  have hsame (hnone : ∀ raw, s.table.schema.rawOf row ≠ .ok (some raw)) {pool : BufferPoolManager}
      (hpool : scan order { s with pool := pool } = .ok records) :
      (scan order { s with pool := pool } = .ok records ↔ FailsUnseen s row) ∧
      ∀ records', scan order { s with pool := pool } = .ok records' → records.length ≤ records'.length := by
    refine ⟨iff_of_true hpool ?_, fun records' hok => ?_⟩
    · rw [FailsUnseen]
      split
      · rename_i raw hraw
        exact absurd hraw (hnone raw)
      · trivial
    · rw [Except.ok.inj (hpool.symm.trans hok)]
  rcases hvalues : s.table.schema.coerce row with e | values
  · refine ⟨e, s.pool, ?_, hsame (fun raw hraw => ?_) hscan⟩
    · rw [run, PhysicalPlanner.insertRows, hvalues]
      exact Prog.run_bind_error (Prog.run_ofExcept _ _ _)
    · obtain ⟨values, hok, -⟩ := Schema.rawOf_eq_ok.mp hraw
      exact absurd (hvalues.symm.trans hok) (by simp)
  have hloop {e : PyErr} {pool : BufferPoolManager}
      (hrun : s.run order (s.table.insert values) = (.error e, s.trees, pool)) :
      s.run order (PhysicalPlanner.insertRows s.table (row :: rest) count) = (.error e, s.trees, pool) := by
    rw [run, PhysicalPlanner.insertRows, hvalues]
    exact Prog.run_step (Prog.run_ofExcept _ _ _) (Prog.run_bind_error hrun)
  have hrawOf : s.table.schema.rawOf row = s.table.schema.serialize values := by
    rw [Schema.rawOf, hvalues]
    rfl
  rcases hraw : s.table.schema.serialize values with e | raw
  · refine ⟨e, s.pool, hloop (insert_unserialized order s hraw), hsame (fun raw hok => ?_) hscan⟩
    exact absurd (hraw.symm.trans (hrawOf.symm.trans hok)) (by simp)
  cases raw with
  | none =>
      obtain ⟨e, pool, hrun, hkept⟩ := h.insert_rejected order hraw
      refine ⟨e, pool, hloop hrun, hsame (fun raw hok => ?_) ?_⟩
      · exact absurd (hraw.symm.trans (hrawOf.symm.trans hok)) (by simp)
      · rw [hkept.scan_eq]
        exact h.scan_eq.symm.trans hscan
  | some raw =>
      obtain ⟨pool, hrun, hiff, hmore⟩ :=
        h.insert_unplaced hscan hraw (hfails raw (hrawOf.trans hraw))
      refine ⟨_, pool, hloop hrun, hiff.trans ?_, fun records' hok => (hmore records' hok).length_le⟩
      rw [FailsUnseen, hrawOf, hraw]

omit [IndexFile τ] in
/-- The rows of a statement find room when the first one does, and the others after it. -/
theorem Kept.insertable_cons (h : Kept s w lost entries tuples) {rest : List (List Passed)} :
    Insertable s (row :: rest) ↔ ∃ raw dir, s.table.schema.rawOf row = .ok (some raw) ∧
      (directoryOf entries).take raw.length = some dir ∧
      ∃ raws, List.Forall₂ (fun row raw => s.table.schema.rawOf row = .ok (some raw)) rest raws ∧
        dir.TakesAll (raws.map List.length) := by
  constructor
  · rintro ⟨_, hraws, hroom⟩
    cases hraws with
    | @cons _ raw _ raws hraw hraws =>
        replace hroom := h.roomFor_iff.mp hroom
        rw [List.map_cons, DirectoryPage.TakesAll] at hroom
        cases htake : (directoryOf entries).take raw.length with
        | none => simp [htake] at hroom
        | some dir =>
            rw [htake] at hroom
            exact ⟨raw, dir, hraw, htake, raws, hraws, hroom⟩
  · rintro ⟨raw, dir, hraw, htake, raws, hraws, hroom⟩
    refine ⟨raw :: raws, .cons hraw hraws, h.roomFor_iff.mpr ?_⟩
    rw [List.map_cons, DirectoryPage.TakesAll, htake]
    exact hroom

omit [IndexFile τ] in
/-- After a row that was stored the rest of a statement finds room exactly if all of it did. -/
theorem Kept.insertable_rest (h : Kept s w lost entries tuples) {raw : Bytes}
    (hraw : s.table.schema.rawOf row = .ok (some raw)) {entries' : List DirEntry}
    (htake : (directoryOf entries).take raw.length = some (directoryOf entries')) {w' : Flat FileId Bytes}
    {tuples' : Nat → List Row} {pool : BufferPoolManager}
    (h' : Kept { s with pool := pool } w' lost entries' tuples') (rest : List (List Passed)) :
    Insertable s (row :: rest) ↔ Insertable { s with pool := pool } rest := by
  rw [h.insertable_cons]
  constructor
  · rintro ⟨raw', dir, hraw', htake', raws, hraws, hroom⟩
    obtain rfl : raw = raw' := Option.some.inj (Except.ok.inj (hraw.symm.trans hraw'))
    obtain rfl := Option.some.inj (htake.symm.trans htake')
    exact ⟨raws, hraws, h'.roomFor_iff.mpr hroom⟩
  · rintro ⟨raws, hraws, hroom⟩
    exact ⟨raw, _, hraw, htake, raws, hraws, h'.roomFor_iff.mp hroom⟩

omit [IndexFile τ] in
/-- Rows added one after the other. -/
theorem Adds.cons {pool : BufferPoolManager} {values : List Value} {rid : Rid} {records' : List Record}
    (hvalues : s.table.schema.coerce row = .ok values) (hperm : records'.Perm (records ++ [⟨values, rid⟩]))
    (h : Adds order records' rows { s with pool := pool }) :
    Adds order records (row :: rows) { s with pool := pool } := by
  obtain ⟨added, last, hscan, hlast, hadded⟩ := h
  refine ⟨⟨values, rid⟩ :: added, last, hscan, ?_, .cons hvalues hadded⟩
  have hmiddle := hlast.trans (hperm.append_right added)
  rwa [List.append_assoc, List.singleton_append] at hmiddle

/-- All rows of a statement: they go through, or it stops at the first one that fails. -/
theorem Kept.run_insertRows (h : Kept s w lost entries tuples) (hindices : s.table.indices = [])
    (hscan : s.scan order = .ok records) (rows : List (List Passed)) (count : Nat) :
    (Insertable s rows ∧ ∃ pool,
      s.run order (PhysicalPlanner.insertRows s.table rows count) = (.ok (count + rows.length), s.trees, pool) ∧
      Adds order records rows { s with pool := pool }) ∨
    (¬ Insertable s rows ∧ ∃ e pool k row,
      s.run order (PhysicalPlanner.insertRows s.table rows count) = (.error e, s.trees, pool) ∧
      rows[k]? = some row ∧ Insertable s (rows.take k) ∧ ¬ Insertable s (rows.take (k + 1)) ∧
      ((∀ raw, s.table.schema.rawOf row ≠ .ok (some raw)) → Adds order records (rows.take k) { s with pool := pool }) ∧
      (scan order { s with pool := pool } = .ok records ↔
        ∃ row rest, rows = row :: rest ∧ FailsUnseen s row) ∧
      ∀ records', scan order { s with pool := pool } = .ok records' →
        records.length ≤ records'.length) := by
  induction rows generalizing s w entries tuples records count with
  | nil =>
      refine .inl ⟨⟨[], .nil, h.roomFor_iff.mpr trivial⟩, s.pool, Prog.run_pure _ _ _, [], records, hscan, ?_,
        .nil⟩
      rw [List.append_nil]
  | cons row rest ih =>
      by_cases hplace : ∃ raw dir, s.table.schema.rawOf row = .ok (some raw) ∧
          (directoryOf entries).take raw.length = some dir
      · obtain ⟨raw, dir, hrawOf, htake⟩ := hplace
        obtain ⟨values, hvalues, hraw⟩ := Schema.rawOf_eq_ok.mp hrawOf
        obtain ⟨rid, pool, w', entries', tuples', records₁, hloop, hkept, rfl, hscan₁, hperm₁⟩ :=
          h.insertRows_placed hindices hscan hvalues hraw htake rest count
        have hrest := h.insertable_rest hrawOf htake hkept
        have hmore₁ : records₁.length = records.length + 1 := by
          rw [hperm₁.length_eq, List.length_append, List.length_singleton]
        rcases ih hkept hindices hscan₁ (count + 1) with
          ⟨hall, pool', hrun, hadds⟩ |
          ⟨hnone, e, pool', k, last, hrun, hlast, hbefore, hnot, hadds, -, hmore⟩
        · refine .inl ⟨(hrest rest).mpr hall, pool', ?_, hadds.cons hvalues hperm₁⟩
          rw [hloop, hrun, List.length_cons, Nat.add_right_comm, Nat.add_assoc]
        · refine .inr ⟨fun hall => hnone ((hrest _).mp hall), e, pool', k + 1, last, hloop.trans hrun, hlast,
            (hrest _).mpr hbefore, fun hall => hnot ((hrest _).mp hall),
            fun hlost => (hadds hlost).cons hvalues hperm₁, ?_, fun records' hok => ?_⟩
          · refine iff_of_false (fun hok => ?_) ?_
            · have hmany := hmore records hok
              omega
            · rintro ⟨_, _, heq, hunseen⟩
              obtain ⟨rfl, -⟩ := List.cons.inj heq
              exact not_failsUnseen hrawOf (h.file.placeable htake).1 hunseen
          · have hmany := hmore records' hok
            omega
      · have hfails : ∀ raw, s.table.schema.rawOf row = .ok (some raw) →
            (directoryOf entries).take raw.length = none := by
          intro raw hraw
          by_contra htake
          obtain ⟨dir, hdir⟩ := Option.ne_none_iff_exists'.mp htake
          exact hplace ⟨raw, dir, hraw, hdir⟩
        obtain ⟨e, pool, hrun, hiff, hmore⟩ := h.insertRows_failed hscan hfails rest count
        have hnot (rest : List (List Passed)) : ¬ Insertable s (row :: rest) := fun hall => by
          obtain ⟨raw, dir, hraw, hdir, -⟩ := h.insertable_cons.mp hall
          exact hplace ⟨raw, dir, hraw, hdir⟩
        refine .inr ⟨hnot rest, e, pool, 0, row, hrun, rfl, ⟨[], .nil, h.roomFor_iff.mpr trivial⟩, hnot [],
          fun hnone => ?_, hiff.trans ?_, hmore⟩
        · have hunseen : FailsUnseen s row := by
            rw [FailsUnseen]
            split
            · rename_i raw hraw
              exact absurd hraw (hnone raw)
            · trivial
          exact ⟨[], records, hiff.mpr hunseen, by rw [List.append_nil], .nil⟩
        · constructor
          · exact fun hunseen => ⟨row, rest, rfl, hunseen⟩
          · rintro ⟨_, _, heq, hunseen⟩
            obtain ⟨rfl, -⟩ := List.cons.inj heq
            exact hunseen

/-- What a statement on the table does is what the loop over its rows does. -/
theorem run_planInsert {tables : Dict String StoredTable}
    (htable : tables.get? s.table.tableName = some s.table) {r : Except PyErr Nat} {trees : String → τ}
    {pool : BufferPoolManager}
    (hrun : s.run order (PhysicalPlanner.insertRows s.table rows 0) = (r, trees, pool)) :
    s.run order (PhysicalPlanner.planInsert tables s.table.tableName rows) =
      (r.map fun count => s!"Values inserted successfully. Rows affected: {count}", trees, pool) := by
  have hplan : (PhysicalPlanner.planInsert tables s.table.tableName rows : PageProg (String → τ) String) =
      (do
        let count ← PhysicalPlanner.insertRows s.table rows 0
        pure s!"Values inserted successfully. Rows affected: {count}") := by
    rw [PhysicalPlanner.planInsert, htable]
  rw [hplan]
  cases r with
  | error e => exact Prog.run_bind_error hrun
  | ok count => exact Prog.run_step hrun (Prog.run_pure _ _ _)

/-- In a table between two calls. -/
theorem Kept.storesInOrder (h : Kept s w lost entries tuples) (hindices : s.table.indices = [])
    {tables : Dict String StoredTable} (htable : tables.get? s.table.tableName = some s.table)
    (rows : List (List Passed)) : StoresInOrder order s tables rows := by
  intro records hscan
  rcases h.run_insertRows hindices hscan rows 0 with
    ⟨-, pool, hrun, hadds⟩ | ⟨-, e, pool, k, row, hrun, hrow, hbefore, hnot, hadds, -, -⟩
  · rw [Nat.zero_add] at hrun
    simp only [run_planInsert htable hrun]
    exact ⟨rfl, hadds⟩
  · simp only [run_planInsert htable hrun]
    exact ⟨k, row, hrow, hbefore, hnot, hadds⟩

/-- A statement is all or nothing exactly if every row becomes a tuple that finds room, or
the first row fails without a trace. -/
theorem Kept.allOrNothing_iff (h : Kept s w lost entries tuples) (hindices : s.table.indices = [])
    {tables : Dict String StoredTable} (htable : tables.get? s.table.tableName = some s.table)
    (rows : List (List Passed)) : AllOrNothing order s tables rows ↔
      Insertable s rows ∨ ∃ row rest, rows = row :: rest ∧ FailsUnseen s row := by
  obtain ⟨records, hscan⟩ := h.exists_records order
  have hone : ∀ records', s.scan order = .ok records' ↔ records = records' := fun records' => by
    rw [hscan]
    exact ⟨Except.ok.inj, congrArg Except.ok⟩
  unfold AllOrNothing
  simp only [hone, forall_eq']
  rcases h.run_insertRows hindices hscan rows 0 with
    ⟨hall, pool, hrun, hadds⟩ | ⟨hnot, e, pool, k, row, hrun, -, -, -, -, hiff, -⟩
  · rw [Nat.zero_add] at hrun
    simp only [run_planInsert htable hrun]
    exact iff_of_true ⟨rfl, hadds⟩ (.inl hall)
  · simp only [run_planInsert htable hrun, or_iff_right hnot]
    exact hiff

/-- An `INSERT` into a table without indexes stores its rows one at a time: if it returns,
all of them, and if it raises at a row that becomes no tuple, those in front of it. -/
theorem insert_storesInOrder (hs : Reachable order (fun _ _ => False) s) {tables : Dict String StoredTable}
    (htable : tables.get? s.table.tableName = some s.table) (rows : List (List Passed)) :
    StoresInOrder order s tables rows := by
  obtain ⟨hindices, w, lost, entries, tuples, h⟩ := kept_of_reachable_unindexed hs
  exact h.storesInOrder hindices htable rows

end

/-! ## A second row that is no number -/

/-- A new table with one `INT` column. -/
def numbers : TableSession EntryList :=
  create .increasing 0 "t" Schema.numberSchema (fun _ => ⟨[]⟩) Disk.empty

theorem reachable_numbers : Reachable .increasing (fun _ _ => False) numbers :=
  Reachable.create 0 "t" Schema.numberSchema (fun _ => (⟨[]⟩ : EntryList)) Disk.empty Disk.whole_empty rfl

theorem kept_numbers : ∃ w, Kept numbers w 0 [] fun _ => [] :=
  kept_create .increasing 0 "t" Schema.numberSchema (fun _ => (⟨[]⟩ : EntryList)) Disk.whole_empty rfl

theorem rawOf_one : Schema.numberSchema.rawOf [some (.str "1")] = .ok (some [1, 0, 0, 0]) := by
  decide +kernel

theorem rawOf_letter : Schema.numberSchema.rawOf [some (.str "x")] =
    .error (.typeError "Cannot coerce x to INT for column n") := by
  decide +kernel

/-- `INSERT INTO t VALUES (1), ('x')` leaves the first row. -/
theorem insert_storesInOrder_one :
    StoresInOrder .increasing numbers [("t", numbers.table)] [[some (.str "1")], [some (.str "x")]] :=
  insert_storesInOrder reachable_numbers rfl _

/-- It is not all or nothing. -/
theorem insert_stops_halfway : Reachable .increasing (fun _ _ => False) numbers ∧
    Dict.get? [("t", numbers.table)] numbers.table.tableName = some numbers.table ∧
    ¬ AllOrNothing .increasing numbers [("t", numbers.table)] [[some (.str "1")], [some (.str "x")]] := by
  obtain ⟨w, h⟩ := kept_numbers
  refine ⟨reachable_numbers, rfl, fun hall => ?_⟩
  rcases (h.allOrNothing_iff rfl rfl _).mp hall with ⟨raws, hraws, -⟩ | ⟨row, rest, heq, hunseen⟩
  · cases hraws with
    | cons _ hraws =>
        cases hraws with
        | cons hraw _ => exact nomatch rawOf_letter.symm.trans hraw
  · obtain ⟨rfl, -⟩ := List.cons.inj heq
    exact not_failsUnseen rawOf_one (by decide) hunseen

end TableSession

end DBEngine
