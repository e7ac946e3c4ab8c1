import DBEngine.Buffer.Durability
import DBEngine.Storage.HeapLayout

/-!
# Histories of a heap file

A heap file in use: calls of `insert_tuple` and `delete_tuple`, other traffic
of the pool between them, and stops of the process that lose every frame not
written to disk.  Until the first stop the file is a map from record ids to
tuples; after a stop it still is one for the tuples inserted since, as long as
no insert is misled by a directory that was written before or after its pages.
-/

set_option autoImplicit false

namespace DBEngine

open ByteBuffer Paged

namespace BufferPoolManager

theorem dirty_findFrame (order : SetOrder) (bp : BufferPoolManager) :
    (bp.findFrame order).2.dirty = bp.dirty := by
  unfold findFrame
  split
  · rfl
  · split
    · rfl
    · rfl
    · split <;> rfl

/-- A page comes in clean. -/
theorem clean_fetchPage (order : SetOrder) {bp : BufferPoolManager} (hclean : ∀ g, bp.dirty g = false)
    (k : PageKey) (g : FrameId) : (bp.fetchPage order k.2 k.1).2.dirty g = false := by
  have hfind := dirty_findFrame order bp
  unfold fetchPage
  split
  · exact hclean g
  · split
    · rename_i hres
      rw [hres] at hfind
      rw [hfind]
      exact hclean g
    · rename_i f bp' hres
      rw [hres] at hfind
      have hsame : bp'.dirty = bp.dirty := hfind
      by_cases hgf : g = f
      · simp [hgf]
      · simpa [hgf, hsame] using hclean g

end BufferPoolManager

/-- What happens to a heap file and its pool. -/
inductive HeapCall where
  | insertTuple (data : Bytes)
  | deleteTuple (rid : Rid)
  /-- somebody fetches and releases a page, of this file or another -/
  | touch (k : PageKey)
  | flushPage (k : PageKey)
  | flushAll
  /-- the process stops and the file is opened again with a new pool -/
  | stop

/-- A heap file in use: the pool, the record ids returned and the tuples
inserted and not deleted since the file was opened, and whether the process was
ever stopped. -/
structure HeapSession where
  pool : BufferPoolManager
  returned : List Rid
  live : Rid → Option Bytes
  stopped : Bool

namespace HeapSession

/-- A run of a program over the pool. -/
def run {α : Type} (order : SetOrder) (p : PageProg Unit α) (pool : BufferPoolManager) :
    Except PyErr α × BufferPoolManager :=
  ((p.run (BufferPoolManager.store order) () pool).1,
    (p.run (BufferPoolManager.store order) () pool).2.2)

/-- `create_directory` with a new pool over the files of `disk`. -/
def create (order : SetOrder) (f : FileId) (disk : Disk) : HeapSession where
  pool := (run order (HeapFile.createDirectory f) (BufferPoolManager.new disk)).2
  returned := []
  live _ := none
  stopped := false

/-- One call. -/
def step (order : SetOrder) (f : FileId) (s : HeapSession) : HeapCall → HeapSession
  | .insertTuple data =>
      match run order (HeapFile.insertTuple f data) s.pool with
      | (.ok rid, pool) =>
          { s with
            pool := pool
            returned := rid :: s.returned
            live := Function.update s.live rid (some data) }
      | (.error _, pool) => { s with pool := pool }
  | .deleteTuple rid =>
      match run order (HeapFile.deleteTuple f rid) s.pool with
      | (.ok _, pool) => { s with pool := pool, live := Function.update s.live rid none }
      | (.error _, pool) => { s with pool := pool }
  | .touch k =>
      { s with
        pool := (run order (do
          let _ ← Bpm.fetchPage k.2 k.1
          Bpm.unpinPage k.2 k.1 false) s.pool).2 }
  | .flushPage k => { s with pool := (run order (Bpm.flushPage k) s.pool).2 }
  | .flushAll => { s with pool := s.pool.flushAll.2 }
  | .stop => ⟨BufferPoolManager.new s.pool.disk, [], fun _ => none, true⟩

/-- What the directory and a page say now. -/
def directory (f : FileId) (pool : BufferPoolManager) : Except PyErr DirectoryPage :=
  (DirectoryPage.init false (pool.current (f, 0))).1

def page (f : FileId) (pageId : Nat) (pool : BufferPoolManager) : Except PyErr Page :=
  (Page.init false (pool.current (f, pageId))).1

/-- The page `insert_tuple` chooses. -/
def chosen (f : FileId) (data : Bytes) (pool : BufferPoolManager) : Option Nat :=
  match directory f pool with
  | .ok dir => dir.findPageWithEnoughSpace (data.length + Page.headerSize : Nat)
  | .error _ => none

/-- An insert does not need a 683rd data page. -/
def Roomy (f : FileId) (data : Bytes) (pool : BufferPoolManager) : Prop :=
  pool.disk.numPages f = 683 → chosen f data pool ≠ none

/-- The directory does not mislead the call: the page it chooses has the space
in its own header, or the new page is the next one that the directory counts;
and a delete names a slot that its page has, or a place where nothing stands. -/
def InStep (f : FileId) (pool : BufferPoolManager) : HeapCall → Prop
  | .insertTuple data =>
      match chosen f data pool with
      | some p => ∃ pg, page f p pool = .ok pg ∧
          ((data.length + Page.headerSize : Nat) : Int) ≤ pg.freeSpace
      | none => ∃ dir, directory f pool = .ok dir ∧ pool.disk.numPages f = dir.pageCount
  | .deleteTuple rid => rid.1 ≠ 0 ∧
      ((∃ pg, page f rid.1 pool = .ok pg ∧ rid.2 < pg.numSlots) ∨
        (unpackH (Page.slotOffset rid.2 + 4) (pool.current (f, rid.1))).1 = .ok 0)
  | _ => True

/-- The calls considered.  `later` is what is asked of the calls after a stop;
before it a delete names a record id that an insert returned. -/
def Allowed (f : FileId) (later : BufferPoolManager → HeapCall → Prop) (s : HeapSession) :
    HeapCall → Prop
  | .insertTuple data =>
      data.length ≤ 4084 ∧ Roomy f data s.pool ∧ (s.stopped = true → later s.pool (.insertTuple data))
  | .deleteTuple rid =>
      if s.stopped then later s.pool (.deleteTuple rid) else rid ∈ s.returned
  | .flushPage k => k.2 < s.pool.disk.numPages k.1
  | _ => True

/-- The states reached from `create_directory` on an empty file. -/
inductive Reachable (order : SetOrder) (f : FileId) (later : BufferPoolManager → HeapCall → Prop) :
    HeapSession → Prop
  | create (disk : Disk) (hdisk : ∀ g, disk.Whole g) (hempty : disk.numPages f = 0) :
      Reachable order f later (create order f disk)
  | step {s : HeapSession} (call : HeapCall) (hs : Reachable order f later s)
      (hcall : s.Allowed f later call) : Reachable order f later (s.step order f call)

/-- The heap file while the process was never stopped: the directory agrees
with the pages, and the rows are those inserted. -/
structure Unbroken (f : FileId) (s : HeapSession) (w : Flat FileId Bytes) (entries : List DirEntry)
    (rows : Nat → List Row) : Prop where
  exact_ : Exact f w entries rows
  returned : ∀ rid, rid ∈ s.returned ↔ rid.1 ≠ 0 ∧ rid.2 < (rows rid.1).length
  live : ∀ rid, rid.1 ≠ 0 → s.live rid = tupleAt (rows rid.1) rid.2
  liveZero : ∀ rid, rid.1 = 0 → s.live rid = none

/-- What is kept along every run. -/
structure Kept (f : FileId) (s : HeapSession) (w : Flat FileId Bytes) (entries : List DirEntry)
    (rows : Nat → List Row) : Prop where
  keeps : s.pool.Keeps (heapGood f) w
  gone : w.gone = ∅
  heap : HeapOpen f w entries rows
  live : ∀ rid data, s.live rid = some data →
    rid.1 ≠ 0 ∧ rid.1 ≤ entries.length ∧ tupleAt (rows rid.1) rid.2 = some data
  unbroken : s.stopped = false → Unbroken f s w entries rows

/-- The flat store under a heap file that may be found again on disk. -/
noncomputable abbrev heapStore (f : FileId) : Store FileId Bytes PyErr (Flat FileId Bytes) :=
  Flat.store (poolLimits (heapGood f))

/-! ## From the flat store to the pool -/

section

variable {α : Type} {good : PageKey → Bytes → Bool} {bp : BufferPoolManager} {w w' : Flat FileId Bytes}

theorem run_of_flat (order : SetOrder) {p : PageProg Unit α} {r : Except PyErr α}
    (h : bp.Keeps good w) (hrun : p.run (Flat.store (poolLimits good)) () w = (r, (), w'))
    (hok : r ≠ .error .misuse) : ∃ bp', run order p bp = (r, bp') ∧ bp'.Keeps good w' := by
  obtain ⟨bp', hbp', h'⟩ := BufferPoolManager.run_keeps order p () () h hrun hok
  exact ⟨bp', by rw [run, hbp'], h'⟩

/-- A program that releases no page as dirty leaves no dirty frame. -/
theorem clean_of_only (order : SetOrder) {p : PageProg Unit α}
    (hp : p.Only fun r => ∀ k, r ≠ .unpin k true) (hclean : ∀ g, bp.dirty g = false) :
    ∀ g, (run order p bp).2.dirty g = false := by
  refine Prog.run_invariant (I := fun bp : BufferPoolManager => ∀ g, bp.dirty g = false)
    (fun r bp hr hbp => ?_) hp () hclean
  cases r with
  | fetch k => exact BufferPoolManager.clean_fetchPage order hbp k
  | peek k => exact hbp
  | put k b =>
      intro g
      simp only [BufferPoolManager.store, BufferPoolManager.framePut]
      split <;> exact hbp g
  | unpin k dirty =>
      have hdirty : dirty = false := by
        cases dirty with
        | false => rfl
        | true => exact absurd rfl (hr k)
      intro g
      simp only [BufferPoolManager.store, BufferPoolManager.unpinPage]
      split
      · exact hbp g
      · split
        · exact hbp g
        · simpa [hdirty] using hbp g
  | alloc f => exact hbp
  | flush k =>
      intro g
      simp only [BufferPoolManager.store, BufferPoolManager.flushPage]
      split
      · exact hbp g
      · rename_i f _
        by_cases hgf : g = f
        · simp [hgf]
        · simpa [hgf] using hbp g
  | remove f => exact hbp

/-- A heap file between two calls leaves every page as it may be found. -/
theorem rested_of_open {f : FileId} {entries : List DirEntry} {rows : Nat → List Row}
    (h : HeapOpen f w entries rows) : w.Rested (poolLimits (heapGood f)) := by
  rintro ⟨g, p⟩ - -
  refine heapGood_iff.mpr fun hg => ?_
  have hgf : g = f := hg
  subst hgf
  by_cases hp : p = 0
  · subst hp
    rw [HeapPage, if_pos rfl]
    exact ⟨entries, h.dir⟩
  · rw [HeapPage, if_neg hp]
    exact ⟨rows p, h.page p hp⟩

/-- A pool that holds the heap file and has no dirty frame has it on disk. -/
theorem keeps_of_clean {f : FileId} {entries : List DirEntry} {rows : Nat → List Row}
    (hr : bp.Refines w) (hclean : ∀ g, bp.dirty g = false) (h : HeapOpen f w entries rows) :
    bp.Keeps (heapGood f) w where
  refines := hr
  rested := rested_of_open h
  durable k hk := by
    rw [hr.disk k hk (by simp [h.idle.unsaved]) fun g _ => hclean g]
    exact rested_of_open h k hk (by simp [h.idle.pins])

end

/-! ## The start -/

variable {order : SetOrder} {f : FileId} {s : HeapSession} {w : Flat FileId Bytes}
  {entries : List DirEntry} {rows : Nat → List Row}

theorem only_createDirectory :
    (HeapFile.createDirectory f : PageProg Unit Unit).Only fun r => ∀ k, r ≠ .unpin k true := by
  refine Prog.only_bind (Prog.only_request (by simp)) fun pageId => ?_
  refine Prog.only_bind (Prog.only_request (by simp)) fun _ => ?_
  refine Prog.only_bind (Prog.only_inPlace (by simp) (by simp)) fun _ => ?_
  refine Prog.only_bind (Prog.only_bind (Prog.only_request (by simp)) fun _ => Prog.only_pure _)
    fun _ => ?_
  exact Prog.only_request (by simp)

/-- After `create_directory` the file has an empty directory, on disk as well. -/
theorem kept_create (order : SetOrder) {disk : Disk} (hdisk : ∀ g, disk.Whole g)
    (hempty : disk.numPages f = 0) :
    ∃ w, (Kept f (create order f disk) w [] fun _ => []) ∧
      ∀ k, (create order f disk).pool.disk.page k = w.mem k := by
  have hzeros : ∀ p, disk.page (f, p) = zeros pageSize := fun p =>
    Disk.page_of_ge (hdisk f) (by omega)
  let w₀ := BufferPoolManager.flatOf disk
  have hidle : w₀.Idle f := ⟨by simp [w₀, BufferPoolManager.flatOf], rfl, rfl⟩
  have hkeeps : (BufferPoolManager.new disk).Keeps anyBlock w₀ :=
    ⟨BufferPoolManager.refines_flatOf hdisk, fun _ _ _ => rfl, fun _ _ => rfl⟩
  obtain ⟨b, hrun, hdir⟩ := HeapFile.run_createDirectory
    (c := Flat.store (poolLimits anyBlock)) (s := ()) (accepts_anyBlock f) hidle hempty
    (by simp [w₀, BufferPoolManager.flatOf, hzeros])
  obtain ⟨bp, hbp, hkeeps'⟩ := run_of_flat order hkeeps hrun (by simp)
  have hclean : ∀ g, (run order (HeapFile.createDirectory f) (BufferPoolManager.new disk)).2.dirty g =
      false := clean_of_only order only_createDirectory fun _ => rfl
  have hopen : HeapOpen f ((w₀.extend f).setMem (f, 0) b) [] fun _ => [] :=
    HeapOpen.created hidle hzeros hdir
  rw [hbp] at hclean
  have himage : ∀ k, bp.disk.page k = ((w₀.extend f).setMem (f, 0) b).mem k := fun k =>
    hkeeps'.refines.disk k (by simp [w₀]) (by simp [w₀]) fun g _ => hclean g
  refine ⟨(w₀.extend f).setMem (f, 0) b, ?_, by simpa only [create, hbp] using himage⟩
  exact
    { keeps := by
        simp only [create, hbp]
        exact keeps_of_clean hkeeps'.refines hclean hopen
      gone := rfl
      heap := hopen
      live := by simp [create]
      unbroken := fun _ =>
        { exact_ := ⟨by simp [w₀, BufferPoolManager.flatOf, hempty], by simp⟩
          returned := by simp [create]
          live := by simp [create, tupleAt]
          liveZero := by simp [create] } }

/-! ## What the conditions say of the flat store -/

theorem Kept.here (h : Kept f s w entries rows) (g : FileId) : g ∉ w.gone := by simp [h.gone]

theorem Kept.page_eq (h : Kept f s w entries rows) (p : Nat) :
    page f p s.pool = (Page.init false (w.mem (f, p))).1 := by
  rw [page, BufferPoolManager.current_eq h.keeps.refines (h.here f)]

theorem Kept.directory_eq (h : Kept f s w entries rows) :
    directory f s.pool = .ok (directoryOf entries) := by
  rw [directory, BufferPoolManager.current_eq h.keeps.refines (h.here f),
    deserialize_of_rep h.heap.dir]

theorem Kept.chosen_eq (h : Kept f s w entries rows) (data : Bytes) :
    chosen f data s.pool = firstFit entries (data.length + Page.headerSize) := by
  rw [chosen, h.directory_eq]
  exact find_directoryOf entries (by simp [Page.headerSize])

theorem Kept.numPages_eq (h : Kept f s w entries rows) (g : FileId) :
    s.pool.disk.numPages g = w.size g :=
  BufferPoolManager.numPages_eq h.keeps.refines (h.here g)

/-- There is an entry to spare when the file is roomy and the directory counts
all of its pages. -/
theorem entries_lt (h : Kept f s w entries rows) {data : Bytes} (hroomy : Roomy f data s.pool)
    (hfit : firstFit entries (data.length + Page.headerSize) = none)
    (hsize : w.size f = entries.length + 1) : entries.length < 682 := by
  have hroom := h.heap.dir.room
  rw [pageSize_eq] at hroom
  have hne : entries.length ≠ 682 := fun heq => by
    refine hroomy ?_ (by rw [h.chosen_eq, hfit])
    rw [h.numPages_eq, hsize, heq]
  omega

/-- A directory that agrees with the pages does not mislead an insert. -/
theorem placeable_of_exact (h : Kept f s w entries rows) (hex : Exact f w entries rows)
    {data : Bytes} (hroomy : Roomy f data s.pool) : HeapFile.Placeable f w entries data :=
  HeapFile.placeable_of_exact hex fun hfit => entries_lt h hroomy hfit hex.size

/-- The condition on later inserts is that they are not misled. -/
theorem placeable_of_inStep (h : Kept f s w entries rows) {data : Bytes}
    (hroomy : Roomy f data s.pool) (hstep : InStep f s.pool (.insertTuple data)) :
    HeapFile.Placeable f w entries data := by
  unfold HeapFile.Placeable
  simp only [InStep, h.chosen_eq] at hstep
  cases hfit : firstFit entries (data.length + Page.headerSize) with
  | some q =>
      simp only [hfit, h.page_eq] at hstep ⊢
      obtain ⟨pg, hpg, hspace⟩ := hstep
      obtain ⟨p, e, rfl, -, -⟩ := firstFit_some hfit
      obtain ⟨pg', hinit, -, -⟩ := init_of_state (h.heap.page _ (Nat.succ_ne_zero p))
      rw [hinit] at hpg
      obtain rfl := Except.ok.inj hpg
      exact ⟨pg', hinit, hspace⟩
  | none =>
      simp only [hfit, h.directory_eq, Except.ok.injEq, h.numPages_eq] at hstep
      obtain ⟨dir, rfl, hsize⟩ := hstep
      exact ⟨hsize, entries_lt h hroomy hfit hsize⟩

/-- An insert is placed when the directory has room and, after a stop, does not mislead
it. -/
theorem Kept.placeable (h : Kept f s w entries rows) {data : Bytes} (hroomy : Roomy f data s.pool)
    (hstep : s.stopped = true → InStep f s.pool (.insertTuple data)) :
    HeapFile.Placeable f w entries data := by
  cases hstop : s.stopped with
  | true => exact placeable_of_inStep h hroomy (hstep hstop)
  | false => exact placeable_of_exact h (h.unbroken hstop).exact_ hroomy

/-! ## One call -/

theorem tupleAt_append (rs : List Row) (row : Row) {slotId : Nat} (h : slotId < rs.length) :
    tupleAt (rs ++ [row]) slotId = tupleAt rs slotId := by
  rw [tupleAt, List.getElem?_append_left h, tupleAt]

theorem tupleAt_append_new (rs : List Row) (data : Bytes) :
    tupleAt (rs ++ [⟨data, true⟩]) rs.length = some data := by
  simp [tupleAt, Row.tuple?]

theorem lt_of_tupleAt {rs : List Row} {slotId : Nat} {data : Bytes}
    (h : tupleAt rs slotId = some data) : slotId < rs.length := by
  by_contra hge
  rw [tupleAt, List.getElem?_eq_none (Nat.not_lt.mp hge)] at h
  simp at h

/-- An insert that is not misled returns a new record id and keeps the rest. -/
theorem kept_insertTuple (order : SetOrder) (h : Kept f s w entries rows) {data : Bytes}
    (hdata : data.length ≤ 4084) (hplace : HeapFile.Placeable f w entries data) :
    ∃ rid pool entries' w', run order (HeapFile.insertTuple f data) s.pool = (.ok rid, pool) ∧
      (s.stopped = false → rid ∉ s.returned) ∧
      Kept f (s.step order f (.insertTuple data)) w' entries'
        (Function.update rows rid.1 (rows rid.1 ++ [⟨data, true⟩])) := by
  obtain ⟨q, entries', w', hrun, hq, hlisted, hmore, hgone, hopen, hexact⟩ :=
    HeapFile.run_insertTuple (c := heapStore f) (s := ()) h.heap (accepts_heapGood f) hdata hplace
  obtain ⟨pool, hpool, hkeeps⟩ := run_of_flat order h.keeps hrun (by simp)
  refine ⟨(q, (rows q).length), pool, entries', w', hpool, fun hopen hmem => ?_, ?_⟩
  · have := ((h.unbroken hopen).returned _).mp hmem
    exact absurd this.2 (Nat.lt_irrefl _)
  have hold : ∀ p slotId, slotId < (rows p).length →
      tupleAt (Function.update rows q (rows q ++ [⟨data, true⟩]) p) slotId =
        tupleAt (rows p) slotId := fun p slotId hlt => by
    by_cases hpq : p = q
    · subst hpq
      simpa using tupleAt_append (rows p) ⟨data, true⟩ hlt
    · simp [hpq]
  have hlive' : ∀ rid, (s.step order f (.insertTuple data)).live rid =
      if rid = (q, (rows q).length) then some data else s.live rid := fun rid => by
    simp only [step, hpool, Function.update_apply]
  refine ⟨?_, hgone.trans h.gone, hopen, fun rid d hlive => ?_, fun hnot => ?_⟩
  · simpa only [step, hpool] using hkeeps
  · rw [hlive'] at hlive
    split at hlive
    · rename_i hrid
      rw [hrid, ← Option.some.inj hlive]
      exact ⟨hq, hlisted, by simpa using tupleAt_append_new (rows q) data⟩
    · obtain ⟨hne, hle, htuple⟩ := h.live rid d hlive
      exact ⟨hne, Nat.le_trans hle hmore, by rw [hold _ _ (lt_of_tupleAt htuple), htuple]⟩
  · have hun := h.unbroken (by simpa only [step, hpool] using hnot)
    refine ⟨(hexact hun.exact_).1, fun rid => ?_, fun rid hne => ?_, fun rid hzero => ?_⟩
    · simp only [step, hpool, List.mem_cons, hun.returned]
      by_cases hpq : rid.1 = q
      · have hrid : rid = (q, (rows q).length) ↔ rid.2 = (rows q).length :=
          ⟨fun heq => by rw [heq], fun heq => Prod.ext hpq heq⟩
        simp only [hrid, hpq, Function.update_self, List.length_append, List.length_singleton]
        omega
      · have hrid : rid ≠ (q, (rows q).length) := fun heq => hpq (by rw [heq])
        simp [hpq, hrid]
    · rw [hlive']
      by_cases hrid : rid = (q, (rows q).length)
      · rw [if_pos hrid, hrid]
        simpa using (tupleAt_append_new (rows q) data).symm
      · rw [if_neg hrid, hun.live rid hne]
        by_cases hpq : rid.1 = q
        · have hslot : rid.2 ≠ (rows q).length := fun heq => hrid (Prod.ext hpq heq)
          rw [hpq, Function.update_self, tupleAt, tupleAt]
          rcases Nat.lt_or_gt_of_ne hslot with hlt | hgt
          · rw [List.getElem?_append_left hlt]
          · rw [List.getElem?_eq_none (by omega), List.getElem?_eq_none (by simp; omega)]
        · rw [Function.update_of_ne hpq]
    · rw [hlive', if_neg (fun heq => hq (by rw [← hzero, heq])), hun.liveZero rid hzero]

theorem tupleAt_update_kill (rows : Nat → List Row) (rid : Rid) (p slotId : Nat) :
    tupleAt (Function.update rows rid.1 (kill (rows rid.1) rid.2) p) slotId =
      if (p, slotId) = rid then none else tupleAt (rows p) slotId := by
  by_cases hp : p = rid.1
  · subst hp
    rw [Function.update_self, tupleAt_kill]
    by_cases hslot : rid.2 = slotId
    · rw [if_pos hslot, if_pos (by rw [← hslot])]
    · rw [if_neg hslot, if_neg fun heq => hslot (by rw [← heq])]
  · rw [Function.update_of_ne hp, if_neg fun heq => hp (by rw [← heq])]

/-- A delete of a slot tells whether it held a tuple, and clears it. -/
theorem kept_deleteTuple (order : SetOrder) (h : Kept f s w entries rows) {rid : Rid} {row : Row}
    (hrid : rid.1 ≠ 0) (hrow : (rows rid.1)[rid.2]? = some row) :
    ∃ pool w', run order (HeapFile.deleteTuple f rid) s.pool = (.ok row.live, pool) ∧
      Kept f (s.step order f (.deleteTuple rid)) w' entries
        (Function.update rows rid.1 (kill (rows rid.1) rid.2)) := by
  obtain ⟨w', hrun, hsize, hgone, hopen, hexact⟩ :=
    HeapFile.run_deleteTuple (c := heapStore f) (s := ()) h.heap (accepts_heapGood f) hrid hrow
  obtain ⟨pool, hpool, hkeeps⟩ := run_of_flat order h.keeps hrun (by simp)
  refine ⟨pool, w', hpool, ?_⟩
  have htuple := tupleAt_update_kill rows rid
  have hlive' : ∀ rid', (s.step order f (.deleteTuple rid)).live rid' =
      if rid' = rid then none else s.live rid' := fun rid' => by
    simp only [step, hpool, Function.update_apply]
  refine ⟨?_, hgone.trans h.gone, hopen, fun rid' d hlive => ?_, fun hnot => ?_⟩
  · simpa only [step, hpool] using hkeeps
  · rw [hlive'] at hlive
    split at hlive
    · simp at hlive
    · rename_i hne
      obtain ⟨hne', hle, hold⟩ := h.live rid' d hlive
      exact ⟨hne', hle, by rw [htuple, if_neg hne, hold]⟩
  · have hun := h.unbroken (by simpa only [step, hpool] using hnot)
    refine ⟨hexact hun.exact_, fun rid' => ?_, fun rid' hne => ?_, fun rid' hzero => ?_⟩
    · simp only [step, hpool, hun.returned]
      by_cases hp : rid'.1 = rid.1
      · simp [hp]
      · simp [hp]
    · rw [hlive', htuple]
      split
      · rfl
      · exact hun.live rid' hne
    · rw [hlive']
      split
      · rfl
      · exact hun.liveZero rid' hzero

/-- A pool that holds the same pages serves the file as before. -/
theorem Kept.of_pool (h : Kept f s w entries rows) {pool : BufferPoolManager}
    (hkeeps : pool.Keeps (heapGood f) w) : Kept f { s with pool := pool } w entries rows :=
  ⟨hkeeps, h.gone, h.heap, h.live, fun hnot =>
    have hun := h.unbroken hnot
    ⟨hun.exact_, hun.returned, hun.live, hun.liveZero⟩⟩

/-- A delete of a slot that its page does not have, with nothing in its place,
finds nothing. -/
theorem kept_deleteTuple_absent (order : SetOrder) (h : Kept f s w entries rows) {rid : Rid}
    (hrid : rid.1 ≠ 0) (habsent : (rows rid.1)[rid.2]? = none)
    (hvalid : (unpackH (Page.slotOffset rid.2 + 4) (w.mem (f, rid.1))).1 = .ok 0) :
    Kept f (s.step order f (.deleteTuple rid)) w entries rows := by
  obtain ⟨pool, hpool, hkeeps⟩ := run_of_flat order h.keeps
    (HeapFile.run_deleteTuple_absent (s := ()) h.heap (accepts_heapGood f) hrid hvalid) (by simp)
  have hdead : s.live rid = none := by
    by_contra hlive
    obtain ⟨data, hdata⟩ := Option.ne_none_iff_exists'.mp hlive
    have htuple := (h.live rid data hdata).2.2
    simp [tupleAt, habsent] at htuple
  have hsame : s.step order f (.deleteTuple rid) = { s with pool := pool } := by
    have hlive : Function.update s.live rid none = s.live := by rw [← hdead, Function.update_eq_self]
    simp only [step, hpool, hlive]
  rw [hsame]
  exact h.of_pool hkeeps

/-- An allowed delete names a row, or a slot that its page does not have. -/
theorem row_of_allowed (h : Kept f s w entries rows) {rid : Rid}
    (hcall : s.Allowed f (InStep f) (.deleteTuple rid)) :
    rid.1 ≠ 0 ∧ ((∃ row, (rows rid.1)[rid.2]? = some row) ∨
      (unpackH (Page.slotOffset rid.2 + 4) (w.mem (f, rid.1))).1 = .ok 0) := by
  simp only [Allowed] at hcall
  split at hcall
  · obtain ⟨hne, ⟨pg, hpg, hlt⟩ | hvalid⟩ := hcall
    · obtain ⟨pg', hinit, hslots, -⟩ := init_of_state (h.heap.page _ hne)
      rw [h.page_eq, hinit] at hpg
      obtain rfl := Except.ok.inj hpg
      exact ⟨hne, Or.inl ⟨_, List.getElem?_eq_getElem (by omega)⟩⟩
    · rw [BufferPoolManager.current_eq h.keeps.refines (h.here f)] at hvalid
      exact ⟨hne, Or.inr hvalid⟩
  · rename_i hopen
    obtain ⟨hne, hlt⟩ := ((h.unbroken (by simpa using hopen)).returned rid).mp hcall
    exact ⟨hne, Or.inl ⟨_, List.getElem?_eq_getElem hlt⟩⟩

theorem kept_touch (order : SetOrder) (h : Kept f s w entries rows) (k : PageKey) :
    Kept f (s.step order f (.touch k)) w entries rows := by
  have hfree : k ∉ w.pins := by simp [h.heap.idle.pins]
  have hgood : w.Good (poolLimits (heapGood f)) k := h.keeps.rested k (h.here _) hfree
  have hrun : (do
      let _ ← Bpm.fetchPage k.2 k.1
      Bpm.unpinPage k.2 k.1 false : PageProg Unit Unit).run
        (Flat.store (poolLimits (heapGood f))) () w = (.ok (), (), w) := by
    refine Prog.run_step (Bpm.run_fetchPage (Bpm.fetchable (h.here _) h.heap.held h.heap.room)) ?_
    refine (Bpm.run_unpinPage_clean (w := w.pin k) (h.here k.1) (by simp) hgood).trans ?_
    rw [Flat.release_pin]
  obtain ⟨pool, hpool, hkeeps⟩ := run_of_flat order h.keeps hrun (by simp)
  simp only [step, hpool]
  exact h.of_pool hkeeps

theorem kept_flushPage (order : SetOrder) (h : Kept f s w entries rows) {k : PageKey}
    (hk : k.2 < s.pool.disk.numPages k.1) :
    Kept f (s.step order f (.flushPage k)) w entries rows := by
  have hfree : k ∉ w.pins := by simp [h.heap.idle.pins]
  have hclean : k ∉ w.unsaved := by simp [h.heap.idle.unsaved]
  have hsave : w.save k = w := by simp [Flat.save, hclean]
  have hrun : (Bpm.flushPage k : PageProg Unit Unit).run (Flat.store (poolLimits (heapGood f))) () w =
      (.ok (), (), w) := by
    have hsaved := Flat.run_flush (σ := Unit) (s := ()) (h.here k.1) (h.keeps.rested k (h.here _) hfree)
      (savable_iff.mpr ⟨h.keeps.refines.valid k (h.here _) hclean, by rwa [← h.numPages_eq]⟩)
    rwa [hsave] at hsaved
  obtain ⟨pool, hpool, hkeeps⟩ := run_of_flat order h.keeps hrun (by simp)
  simp only [step, hpool]
  exact h.of_pool hkeeps

theorem kept_flushAll (order : SetOrder) (h : Kept f s w entries rows) :
    Kept f (s.step order f .flushAll) w entries rows := by
  obtain ⟨pool, hflush, hr, hclean⟩ := BufferPoolManager.refines_flushAll h.keeps.refines
    fun k _ hk => by simp [h.heap.idle.unsaved] at hk
  simp only [step, hflush]
  exact h.of_pool (keeps_of_clean hr hclean h.heap)

/-- After a stop the file is what was on disk: a directory and pages, each as it
was at some moment when nobody held it. -/
theorem kept_stop (order : SetOrder) (h : Kept f s w entries rows) :
    ∃ w' entries' rows', Kept f (s.step order f .stop) w' entries' rows' := by
  have hkeeps := BufferPoolManager.keeps_new h.keeps h.gone
  have hwhole : s.pool.disk.Whole f := BufferPoolManager.whole h.keeps.refines (h.here f)
  have hdurable : ∀ p, HeapPage (f, p) (s.pool.disk.page (f, p)) := fun p =>
    heapGood_iff.mp (h.keeps.durable (f, p) (h.here f)) rfl
  obtain ⟨entries', hdir⟩ : ∃ entries', DirRep (s.pool.disk.page (f, 0)) entries' := by
    simpa [HeapPage] using hdurable 0
  have hpages : ∀ p, ∃ rs, p ≠ 0 → PageState (s.pool.disk.page (f, p)) rs ∧
      (s.pool.disk.numPages f ≤ p → rs = []) := fun p => by
    by_cases hp : p = 0
    · exact ⟨[], fun hne => absurd hp hne⟩
    · by_cases hbeyond : s.pool.disk.numPages f ≤ p
      · exact ⟨[], fun _ => ⟨Or.inr ⟨Disk.page_of_ge hwhole hbeyond, rfl⟩, fun _ => rfl⟩⟩
      · have hpage := hdurable p
        rw [HeapPage, if_neg hp] at hpage
        obtain ⟨rs, hrs⟩ := hpage
        exact ⟨rs, fun _ => ⟨hrs, fun hle => absurd hle hbeyond⟩⟩
  choose rows' hrows' using hpages
  refine ⟨_, entries', rows', hkeeps, rfl, ?_, by simp [step], by simp [step]⟩
  have hpos : 0 < s.pool.disk.numPages f := by
    rw [h.numPages_eq]
    exact h.heap.nonempty
  exact
    { idle := ⟨by simp, rfl, rfl⟩
      nonempty := by simpa using hpos
      dir := by simpa using hdir
      page := fun p hp => by simpa using (hrows' p hp).1
      beyond := fun p hp hbeyond =>
        ⟨Disk.page_of_ge hwhole hbeyond, (hrows' p hp).2 hbeyond⟩ }

/-- Every allowed call keeps the invariant. -/
theorem kept_step (order : SetOrder) (h : Kept f s w entries rows) {call : HeapCall}
    (hcall : s.Allowed f (InStep f) call) :
    ∃ w' entries' rows', Kept f (s.step order f call) w' entries' rows' := by
  cases call with
  | insertTuple data =>
      obtain ⟨hdata, hroomy, hlater⟩ := hcall
      obtain ⟨rid, pool, entries', w', -, -, hkept⟩ :=
        kept_insertTuple order h hdata (h.placeable hroomy hlater)
      exact ⟨w', entries', _, hkept⟩
  | deleteTuple rid =>
      obtain ⟨hrid, hcases⟩ := row_of_allowed h hcall
      cases hrow : (rows rid.1)[rid.2]? with
      | some row =>
          obtain ⟨pool, w', -, hkept⟩ := kept_deleteTuple order h hrid hrow
          exact ⟨w', entries, _, hkept⟩
      | none =>
          have hvalid := hcases.resolve_left (by simp [hrow])
          exact ⟨w, entries, rows, kept_deleteTuple_absent order h hrid hrow hvalid⟩
  | touch k => exact ⟨w, entries, rows, kept_touch order h k⟩
  | flushPage k => exact ⟨w, entries, rows, kept_flushPage order h hcall⟩
  | flushAll => exact ⟨w, entries, rows, kept_flushAll order h⟩
  | stop => exact kept_stop order h

/-- The invariant holds in every reachable state. -/
theorem kept_of_reachable (hs : Reachable order f (InStep f) s) :
    ∃ w entries rows, Kept f s w entries rows := by
  induction hs with
  | create disk hdisk hempty =>
      obtain ⟨w, hw, -⟩ := kept_create order hdisk hempty
      exact ⟨w, _, _, hw⟩
  | step call _ hcall ih =>
      obtain ⟨w, entries, rows, h⟩ := ih
      exact kept_step order h hcall

end HeapSession

end DBEngine
