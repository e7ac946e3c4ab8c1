import DBEngine.Storage.HeapHistory

/-!
# A heap file is a map from record ids to tuples

Until the process is stopped, every call answers as the map of live tuples
does.  After a stop a tuple can be lost: the directory found on disk may count
fewer pages than the file has, and then a new page is not listed.
-/

set_option autoImplicit false

namespace DBEngine

open ByteBuffer Paged

/-! ## The order of a scan -/

section

variable {rs : List Row} {rows : Nat → List Row} {n slotId : Nat} {rid : Rid} {data : Bytes}

theorem mem_tuplesOf : (slotId, data) ∈ tuplesOf rs ↔ tupleAt rs slotId = some data := by
  simp only [tuplesOf, List.mem_filterMap, List.mem_range, Option.map_eq_some_iff, Prod.mk.injEq]
  constructor
  · rintro ⟨i, -, d, htuple, rfl, rfl⟩
    exact htuple
  · intro htuple
    exact ⟨slotId, HeapSession.lt_of_tupleAt htuple, data, htuple, rfl, rfl⟩

theorem exists_row_of_tupleAt (h : tupleAt rs slotId = some data) :
    ∃ row, rs[slotId]? = some row ∧ row.live = true := by
  rw [tupleAt, Option.bind_eq_some_iff] at h
  obtain ⟨row, hrow, htuple⟩ := h
  refine ⟨row, hrow, ?_⟩
  by_contra hdead
  rw [Row.tuple?, if_neg hdead] at htuple
  simp at htuple

theorem pairwise_tuplesOf (rs : List Row) : (tuplesOf rs).Pairwise fun x y => x.1 < y.1 := by
  refine List.Pairwise.filterMap _ (fun i j hij x hx y hy => ?_) List.pairwise_lt_range
  obtain ⟨d, -, rfl⟩ := Option.map_eq_some_iff.mp hx
  obtain ⟨e, -, rfl⟩ := Option.map_eq_some_iff.mp hy
  exact hij

theorem mem_tuplesIn :
    (rid, data) ∈ tuplesIn n rows ↔ rid.1 ≠ 0 ∧ rid.1 ≤ n ∧ tupleAt (rows rid.1) rid.2 = some data := by
  obtain ⟨p, slotId⟩ := rid
  simp only [tuplesIn, tuplesAt, List.mem_flatMap, List.mem_map, Prod.mk.injEq, List.mem_range'_1]
  constructor
  · rintro ⟨q, hq, ⟨i, d⟩, hmem, ⟨rfl, rfl⟩, rfl⟩
    exact ⟨by omega, by omega, mem_tuplesOf.mp hmem⟩
  · rintro ⟨hp, hn, htuple⟩
    exact ⟨p, by omega, (slotId, data), mem_tuplesOf.mpr htuple, ⟨rfl, rfl⟩, rfl⟩

/-- A scan goes through the pages, and through the slots of each. -/
theorem pairwise_tuplesIn (n : Nat) (rows : Nat → List Row) :
    (tuplesIn n rows).Pairwise fun x y => Prod.Lex (· < ·) (· < ·) x.1 y.1 := by
  rw [tuplesIn, List.pairwise_flatMap]
  constructor
  · intro p _
    refine List.pairwise_map.mpr ((pairwise_tuplesOf (rows p)).imp fun hlt => ?_)
    exact Prod.Lex.right p hlt
  · refine (List.pairwise_lt_range' (s := 1) (n := n)).imp fun hlt x hx y hy => ?_
    obtain ⟨i, -, rfl⟩ := List.mem_map.mp hx
    obtain ⟨j, -, rfl⟩ := List.mem_map.mp hy
    exact Prod.Lex.left _ _ hlt

theorem nodup_tuplesIn (n : Nat) (rows : Nat → List Row) : (tuplesIn n rows).Nodup := by
  refine (pairwise_tuplesIn n rows).imp fun {x y} hlt heq => ?_
  rw [heq, Prod.lex_def] at hlt
  omega

/-- A tuple appended to a page is one more in the scan. -/
theorem perm_tuplesIn_append {n' q : Nat} (hq : q ≠ 0) (hle : q ≤ n') (hmore : n ≤ n')
    (hbeyond : ∀ p, n < p → rows p = []) (data : Bytes) :
    (tuplesIn n' (Function.update rows q (rows q ++ [⟨data, true⟩]))).Perm
      (tuplesIn n rows ++ [((q, (rows q).length), data)]) := by
  have hnew : ∀ d, ((q, (rows q).length), d) ∉ tuplesIn n rows := fun d hmem => by
    have hlt := HeapSession.lt_of_tupleAt (mem_tuplesIn.mp hmem).2.2
    exact absurd hlt (Nat.lt_irrefl _)
  have hnodup : (tuplesIn n rows ++ [((q, (rows q).length), data)]).Nodup :=
    (nodup_tuplesIn n rows).append (List.nodup_singleton _) fun x hx hnew' => by
      rw [List.mem_singleton.mp hnew'] at hx
      exact hnew data hx
  refine (List.perm_ext_iff_of_nodup (nodup_tuplesIn n' _) hnodup).mpr ?_
  rintro ⟨⟨p, slotId⟩, d⟩
  have hold : tupleAt (rows p) slotId = some d → p ≤ n := fun htuple => by
    by_contra hbig
    have hlt := HeapSession.lt_of_tupleAt htuple
    rw [hbeyond p (Nat.not_le.mp hbig)] at hlt
    exact absurd hlt (Nat.not_lt_zero _)
  rw [List.mem_append, List.mem_singleton, mem_tuplesIn, mem_tuplesIn]
  simp only [Prod.mk.injEq]
  by_cases hpq : p = q
  · subst hpq
    rw [Function.update_self]
    by_cases hslot : slotId = (rows p).length
    · rw [hslot, HeapSession.tupleAt_append_new]
      have hnone : tupleAt (rows p) (rows p).length = none := by simp [tupleAt]
      simp [hnone, hq, hle, eq_comm]
    · have hsame : tupleAt (rows p ++ [⟨data, true⟩]) slotId = tupleAt (rows p) slotId := by
        rcases Nat.lt_or_gt_of_ne hslot with hlt | hgt
        · exact HeapSession.tupleAt_append _ _ hlt
        · rw [tupleAt, tupleAt, List.getElem?_eq_none (by simp; omega), List.getElem?_eq_none (by omega)]
      rw [hsame]
      constructor
      · rintro ⟨hp, -, htuple⟩
        exact Or.inl ⟨hp, hold htuple, htuple⟩
      · rintro (⟨hp, -, htuple⟩ | ⟨⟨-, heq⟩, -⟩)
        · exact ⟨hp, hle, htuple⟩
        · exact absurd heq hslot
  · rw [Function.update_of_ne hpq]
    constructor
    · rintro ⟨hp, -, htuple⟩
      exact Or.inl ⟨hp, hold htuple, htuple⟩
    · rintro (⟨hp, hn, htuple⟩ | ⟨⟨heq, -⟩, -⟩)
      · exact ⟨hp, Nat.le_trans hn hmore, htuple⟩
      · exact absurd heq hpq

/-- A tuple deleted is one fewer. -/
theorem perm_tuplesIn_kill (hmem : (rid, data) ∈ tuplesIn n rows) :
    (tuplesIn n rows).Perm
      ((rid, data) :: tuplesIn n (Function.update rows rid.1 (kill (rows rid.1) rid.2))) := by
  have hnodup : ((rid, data) :: tuplesIn n (Function.update rows rid.1 (kill (rows rid.1) rid.2))).Nodup := by
    refine List.nodup_cons.mpr ⟨fun hrest => ?_, nodup_tuplesIn n _⟩
    have hdead := (mem_tuplesIn.mp hrest).2.2
    rw [HeapSession.tupleAt_update_kill, if_pos rfl] at hdead
    exact nomatch hdead
  refine (List.perm_ext_iff_of_nodup (nodup_tuplesIn n rows) hnodup).mpr ?_
  rintro ⟨rid', d⟩
  rw [List.mem_cons, mem_tuplesIn, mem_tuplesIn, HeapSession.tupleAt_update_kill]
  obtain ⟨hp, hn, htuple⟩ := mem_tuplesIn.mp hmem
  by_cases hrid : rid' = rid
  · subst hrid
    simp [hp, hn, htuple, eq_comm]
  · simp [hrid]

end

namespace HeapSession

variable {order : SetOrder} {f : FileId} {later : BufferPoolManager → HeapCall → Prop}
  {s : HeapSession} {w : Flat FileId Bytes} {entries : List DirEntry} {rows : Nat → List Row}

/-! ## Until the process is stopped -/

/-- The calls before a stop meet every condition on those after it. -/
theorem reachable_of_unstopped (hs : Reachable order f later s) (hopen : s.stopped = false) :
    Reachable order f (InStep f) s := by
  induction hs with
  | create disk hdisk hempty => exact Reachable.create disk hdisk hempty
  | @step s call _ hcall ih =>
      have hbefore : s.stopped = false := by
        cases call with
        | insertTuple data =>
            rw [← hopen]
            simp only [step]
            split <;> rfl
        | deleteTuple rid =>
            rw [← hopen]
            simp only [step]
            split <;> rfl
        | touch k => simpa only [step] using hopen
        | flushPage k => simpa only [step] using hopen
        | flushAll => simpa only [step] using hopen
        | stop => simp only [step, Bool.true_eq_false] at hopen
      refine Reachable.step call (ih hbefore) ?_
      cases call with
      | insertTuple data =>
          obtain ⟨hdata, hroomy, -⟩ := hcall
          exact ⟨hdata, hroomy, fun hstop => absurd hstop (by simp [hbefore])⟩
      | deleteTuple rid => simpa [Allowed, hbefore] using hcall
      | touch k => trivial
      | flushPage k => exact hcall
      | flushAll => trivial
      | stop => trivial

/-- The result of a program that runs on the flat store. -/
theorem result_of_flat {α : Type} (order : SetOrder) (h : Kept f s w entries rows)
    {p : PageProg Unit α} {a : α} {w' : Flat FileId Bytes}
    (hrun : p.run (Flat.store (poolLimits (heapGood f))) () w = (.ok a, (), w')) :
    (run order p s.pool).1 = .ok a := by
  obtain ⟨pool, hpool, -⟩ := run_of_flat order h.keeps hrun (by simp)
  rw [hpool]

/-- A new file takes a first tuple. -/
theorem roomy_create (order : SetOrder) {disk : Disk} (hdisk : ∀ g, disk.Whole g)
    (hempty : disk.numPages f = 0) (data : Bytes) : Roomy f data (create order f disk).pool := by
  obtain ⟨w, h, -⟩ := kept_create order hdisk hempty
  have hsize : w.size f = 1 := (h.unbroken rfl).exact_.size
  intro hfull
  rw [h.numPages_eq, hsize] at hfull
  omega

theorem scan_of_kept (order : SetOrder) (h : Kept f s w entries rows) :
    (run order (HeapFile.scan f) s.pool).1 = .ok (tuplesIn entries.length rows) :=
  result_of_flat order h (HeapFile.run_scan (s := ()) h.heap (accepts_heapGood f))

theorem getTuple_of_unbroken (order : SetOrder) (h : Kept f s w entries rows)
    (hun : Unbroken f s w entries rows) {rid : Rid} (hrid : rid ∈ s.returned) :
    (run order (HeapFile.getTuple f rid) s.pool).1 = .ok (s.live rid) := by
  obtain ⟨hne, -⟩ := (hun.returned rid).mp hrid
  rw [hun.live rid hne]
  exact result_of_flat order h (HeapFile.run_getTuple (s := ()) h.heap (accepts_heapGood f) hne)

theorem deleteTuple_of_unbroken (order : SetOrder) (h : Kept f s w entries rows)
    (hun : Unbroken f s w entries rows) {rid : Rid} (hrid : rid ∈ s.returned) :
    (run order (HeapFile.deleteTuple f rid) s.pool).1 = .ok (s.live rid).isSome := by
  obtain ⟨hne, hlt⟩ := (hun.returned rid).mp hrid
  have hrow := List.getElem?_eq_getElem hlt
  obtain ⟨w', hrun, -⟩ := HeapFile.run_deleteTuple (c := heapStore f) (s := ()) h.heap (accepts_heapGood f) hne hrow
  have hlive : (s.live rid).isSome = ((rows rid.1)[rid.2]).live := by
    rw [hun.live rid hne, tupleAt, hrow, Option.bind_some, Row.tuple?]
    cases ((rows rid.1)[rid.2]).live <;> rfl
  rw [hlive]
  exact result_of_flat order h hrun

/-- The tuples of the pages listed are those that are live. -/
theorem mem_scan_of_unbroken (h : Kept f s w entries rows) (hun : Unbroken f s w entries rows)
    (rid : Rid) (data : Bytes) :
    (rid, data) ∈ tuplesIn entries.length rows ↔ s.live rid = some data := by
  rw [mem_tuplesIn]
  constructor
  · rintro ⟨hne, -, htuple⟩
    rw [hun.live rid hne, htuple]
  · intro hlive
    exact h.live rid data hlive

/-- A new file takes one frame. -/
theorem free_create (order : SetOrder) (f : FileId) (disk : Disk) :
    BufferPoolManager.Free 1023 (create order f disk).pool := by
  have hfootprint : (HeapFile.createDirectory f : PageProg Unit Unit).Within (fun _ => True)
      BufferPoolManager.framesTaken 1 := by
    refine Prog.within_bind (m := 0) (n := 1) (Bpm.within_allocatePage trivial) fun pageId => ?_
    refine Prog.within_bind (m := 1) (n := 0) (Bpm.within_fetchPage trivial) fun _ => ?_
    refine Prog.within_bind (m := 0) (n := 0)
      (Bpm.within_onFrame trivial fun _ => trivial) fun _ => ?_
    refine Prog.within_bind (m := 0) (n := 0) (Bpm.within_unpinPage trivial) fun _ => ?_
    exact Bpm.within_flushPage trivial
  exact Prog.run_within (I := BufferPoolManager.Free) (fun _ _ _ => BufferPoolManager.free_mono)
    (fun r n bp _ => BufferPoolManager.free_store order r n bp) hfootprint ()
    (BufferPoolManager.free_new disk)

/-- An insert takes at most two frames. -/
theorem within_insertTuple (f : FileId) (data : Bytes) :
    (HeapFile.insertTuple f data : PageProg Unit Rid).Within BufferPoolManager.LeavesDisk
      BufferPoolManager.framesTaken 2 := by
  have hinto : ∀ directory pageId newPage,
      (HeapFile.insertInto f data directory pageId newPage : PageProg Unit Rid).Within
        BufferPoolManager.LeavesDisk BufferPoolManager.framesTaken 1 := fun directory pageId newPage => by
    refine Prog.within_bind (m := 1) (n := 0) (Bpm.within_fetchPage trivial) fun _ => ?_
    refine Prog.within_bind (m := 0) (n := 0)
      (Bpm.within_onFrame trivial fun _ => trivial) fun _ => ?_
    refine Prog.within_bind (m := 0) (n := 0) (Bpm.within_unpinPage trivial) fun _ => ?_
    refine Prog.within_bind (m := 0) (n := 0)
      (Bpm.within_onFrame trivial fun _ => trivial) fun _ => ?_
    exact Prog.within_bind (m := 0) (n := 0) (Bpm.within_unpinPage trivial) fun _ => trivial
  refine Prog.within_bind (m := 1) (n := 1) (Bpm.within_fetchPage trivial) fun _ => ?_
  refine Prog.within_bind (m := 0) (n := 1) (Prog.Only.within (Prog.only_ofExcept _)) fun _ => ?_
  split
  · exact hinto _ _ _
  · refine Prog.within_bind (m := 0) (n := 1) (Bpm.within_allocatePage trivial) fun _ => ?_
    refine Prog.within_bind (m := 0) (n := 1)
      (Bpm.within_onFrame trivial fun _ => trivial) fun _ => ?_
    exact hinto _ _ _

/-- An insert into a new file extends the file and writes nothing to disk. -/
theorem disk_of_first_insert (order : SetOrder) {disk : Disk} (hdisk : ∀ g, disk.Whole g)
    (hempty : disk.numPages f = 0) (data : Bytes) (hdata : data.length ≤ 4084) :
    ∃ pool, ((create order f disk).step order f (.insertTuple data)).pool = pool ∧
      pool.disk.numPages f = 2 ∧ (∀ g, pool.disk.Whole g) ∧ DirRep (pool.disk.page (f, 0)) [] ∧
      ∀ p, p ≠ 0 → pool.disk.page (f, p) = zeros pageSize := by
  obtain ⟨w, h, himage⟩ := kept_create order hdisk hempty
  have hsize : w.size f = 1 := (h.unbroken rfl).exact_.size
  have hzeros : ∀ p, p ≠ 0 → w.mem (f, p) = zeros pageSize := fun p hp =>
    (h.heap.beyond p hp (by omega)).1
  obtain ⟨b₁, b₂, hrun, -, -⟩ := HeapFile.run_insertTuple_new (c := heapStore f) (s := ()) h.heap (accepts_heapGood f)
    rfl hsize (by decide) hdata
  obtain ⟨pool, hpool, hkeeps⟩ := run_of_flat order h.keeps hrun (by simp)
  have hspare : BufferPoolManager.Spare w.mem (1021 + 2) (create order f disk).pool :=
    ⟨free_create order f disk, fun g => BufferPoolManager.whole h.keeps.refines (h.here g), himage⟩
  have hspare' : BufferPoolManager.Spare w.mem 1021
      (run order (HeapFile.insertTuple f data) (create order f disk).pool).2 :=
    Prog.run_within (I := BufferPoolManager.Spare w.mem)
      (fun _ _ _ => BufferPoolManager.spare_mono)
      (fun r n bp hr => BufferPoolManager.spare_store order r n bp hr)
      (within_insertTuple f data) () hspare
  rw [hpool] at hspare'
  refine ⟨pool, by simp only [step, hpool], ?_, hspare'.whole, ?_, fun p hp => ?_⟩
  · rw [BufferPoolManager.numPages_eq hkeeps.refines (by simp [h.gone])]
    simp [hsize]
  · rw [hspare'.image]
    exact h.heap.dir
  · rw [hspare'.image, hzeros p hp]

/-- After a stop the first insert goes to a page that the directory counts but
does not list, behind a page of zeros. -/
theorem lost_after_stop (order : SetOrder) {disk : Disk} (hsize : disk.numPages f = 2)
    (hwhole : ∀ g, disk.Whole g) (hdir : DirRep (disk.page (f, 0)) [])
    (hzeros : ∀ p, p ≠ 0 → disk.page (f, p) = zeros pageSize) (data : Bytes)
    (hdata : data.length ≤ 4084) :
    ∃ pool, run order (HeapFile.insertTuple f data) (BufferPoolManager.new disk) =
        (.ok (2, 0), pool) ∧
      (run order (HeapFile.scan f) pool).1 = .ok [] := by
  have hkeeps : (BufferPoolManager.new disk).Keeps anyBlock (BufferPoolManager.flatOf disk) :=
    ⟨BufferPoolManager.refines_flatOf hwhole, fun _ _ _ => rfl, fun _ _ => rfl⟩
  have hopen : HeapOpen f (BufferPoolManager.flatOf disk) [] fun _ => [] :=
    { idle := ⟨by simp, rfl, rfl⟩
      nonempty := by simp [hsize]
      dir := by simpa using hdir
      page := fun p hp => Or.inr ⟨by simp [hzeros p hp], rfl⟩
      beyond := fun p hp _ => ⟨by simp [hzeros p hp], rfl⟩ }
  obtain ⟨b₁, hrun, -⟩ := HeapFile.run_insertTuple_unlisted (s := ()) hopen rfl
    (by simp [hsize]) hdata
  rw [BufferPoolManager.flatOf_size, hsize] at hrun
  obtain ⟨pool, hpool, hkeeps'⟩ := run_of_flat order hkeeps hrun (by simp)
  refine ⟨pool, hpool, ?_⟩
  generalize hb₀ : overwrite ((BufferPoolManager.flatOf disk).mem (f, 0)) 0
    (formatH.encode (([] : List DirEntry).length + 2 : Nat)) = b₀ at hkeeps'
  have hlen₀ : b₀.length = pageSize := by
    rw [← hb₀, length_overwrite (by rw [hopen.dir.length]; decide), hopen.dir.length]
  have hcount₀ : slice b₀ 0 2 = formatH.encode (2 : Nat) := by
    rw [← hb₀]
    exact slice_overwrite_self (Nat.zero_le _)
  obtain ⟨d, hinit⟩ := deserialize_of_count hlen₀ hcount₀ (by decide)
  generalize hw : (((BufferPoolManager.flatOf disk).extend f).setMem (f, 2) b₁).setMem (f, 0) b₀ = w
    at hkeeps'
  have hpage : PageState (w.mem (f, 1)) [] := Or.inr ⟨by simp [← hw, hzeros], rfl⟩
  have hscan : (HeapFile.scan f : PageProg Unit _).run (Flat.store (poolLimits anyBlock)) () w =
      (.ok (tuplesIn 1 fun _ => []), (), w) := by
    refine HeapFile.run_scan_of_count (by simp [← hw]) (by simp [← hw, Flat.Held]) (by simp [← hw])
      (show _ = (Except.ok _, b₀) by simpa [← hw] using hinit) rfl rfl fun p hlow hhigh => ?_
    have hp : p = 1 := by omega
    exact ⟨by rw [hp]; exact hpage, rfl⟩
  obtain ⟨pool', hpool', -⟩ := run_of_flat order hkeeps' hscan (by simp)
  rw [hpool']
  rfl

/-- A file with one tuple, stopped before anything was written, and one more
insert. -/
def lostInsert : HeapSession :=
  (((create .increasing 0 Disk.empty).step .increasing 0 (.insertTuple [7])).step .increasing 0
    .stop).step .increasing 0 (.insertTuple [7])

end HeapSession

end DBEngine
