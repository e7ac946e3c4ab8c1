import DBEngine.Storage.HeapFile

/-!
# What the calls on a heap file do

Each call of `HeapFile` on the flat store, in terms of the rows of the pages it
touches.  `HeapGood f` is what may be found in a page of heap file `f` that
nobody holds: a directory in page 0, and a page with its rows or a page of
zeros behind it.
-/

set_option autoImplicit false

namespace DBEngine

open ByteBuffer Paged

/-- A page as a scan finds it: the rows of a page, or none in a page of zeros. -/
def PageState (b : Bytes) (rows : List Row) : Prop :=
  PageRep b rows ∨ (b = zeros pageSize ∧ rows = [])

/-- What may be found in a page that nobody holds. -/
def HeapPage (k : PageKey) (b : Bytes) : Prop :=
  if k.2 = 0 then ∃ entries, DirRep b entries else ∃ rows, PageState b rows

open Classical in
/-- The pages of heap file `f` as they may be found on disk. -/
noncomputable def heapGood (f : FileId) : PageKey → Bytes → Bool :=
  fun k b => decide (k.1 = f → HeapPage k b)

theorem heapGood_iff {f : FileId} {k : PageKey} {b : Bytes} :
    heapGood f k b = true ↔ (k.1 = f → HeapPage k b) := by
  simp [heapGood]

/-- A page of zeros has no slots and no space. -/
theorem init_zeros : Page.init false (zeros pageSize) = (.ok ⟨0, 0, 0⟩, zeros pageSize) := by
  have hzero : ∀ off, off + 2 ≤ pageSize → unpackH off (zeros pageSize) = (.ok 0, zeros pageSize) := by
    intro off hoff
    refine unpackH_of_unpack ?_
    have hslice : slice (zeros pageSize) off 2 = zeros 2 := by
      simp only [slice, zeros, List.drop_replicate, List.take_replicate]
      congr 1
      omega
    rw [unpackFrom, Buf.unpack_ok (by simpa using hoff), formatH_width, hslice]
    rfl
  simp only [Page.init, Bool.false_eq_true, if_false]
  rw [Buf.bind_ok (hzero 0 (by decide)), Buf.bind_ok (hzero 2 (by decide)),
    Buf.bind_ok (hzero 4 (by decide))]
  rfl

/-- The page object of a page in this state: that of its rows, or one of zeros. -/
theorem init_of_state {b : Bytes} {rows : List Row} (h : PageState b rows) :
    ∃ page, Page.init false b = (.ok page, b) ∧ page.numSlots = rows.length ∧
      (∀ slotId, page.getTuple slotId b = (.ok (tupleAt rows slotId), b)) := by
  rcases h with hrep | ⟨rfl, rfl⟩
  · exact ⟨pageOf rows, init_of_rep hrep, rfl, getTuple_of_body hrep.toPageBody⟩
  · exact ⟨⟨0, 0, 0⟩, init_zeros, rfl, fun slotId => by simp [Page.getTuple, tupleAt]⟩

/-- The rows of the page that a page state shows are those of its layout when its
header has space left. -/
theorem rep_of_state {b : Bytes} {rows : List Row} (h : PageState b rows) {page : Page}
    (hinit : Page.init false b = (.ok page, b)) (hfree : 0 < page.freeSpace) :
    PageRep b rows ∧ page = pageOf rows := by
  rcases h with hrep | ⟨rfl, rfl⟩
  · rw [init_of_rep hrep] at hinit
    exact ⟨hrep, (Except.ok.inj (Prod.mk.inj hinit).1).symm⟩
  · rw [init_zeros] at hinit
    rw [← Except.ok.inj (Prod.mk.inj hinit).1] at hfree
    exact absurd hfree (by decide)

theorem length_of_state {b : Bytes} {rows : List Row} (h : PageState b rows) :
    b.length = pageSize := by
  rcases h with hrep | ⟨rfl, -⟩
  · exact hrep.length
  · simp

/-- A page whose header can be read. -/
def Readable (b : Bytes) : Prop := ∃ page, Page.init false b = (.ok page, b)

theorem readable_of_state {b : Bytes} {rows : List Row} (h : PageState b rows) : Readable b := by
  obtain ⟨page, hinit, -⟩ := init_of_state h
  exact ⟨page, hinit⟩

/-- What a client of the heap file may let go of covers what its calls leave. -/
structure Accepts (good : PageKey → Bytes → Bool) (f : FileId) : Prop where
  dir : ∀ b entries, DirRep b entries → good (f, 0) b = true
  page : ∀ p b rows, p ≠ 0 → PageState b rows → good (f, p) b = true

theorem accepts_heapGood (f : FileId) : Accepts (heapGood f) f where
  dir b entries h := heapGood_iff.mpr fun _ => by
    rw [HeapPage, if_pos rfl]
    exact ⟨entries, h⟩
  page p b rows hp h := heapGood_iff.mpr fun _ => by
    rw [HeapPage, if_neg hp]
    exact ⟨rows, h⟩

theorem accepts_anyBlock (f : FileId) : Accepts anyBlock f := ⟨fun _ _ _ => rfl, fun _ _ _ _ _ => rfl⟩

/-- What the directory should say of a page with these rows. -/
def entryOf (rows : List Row) : DirEntry := ⟨freeOf rows, rows.length⟩

/-- A heap file between two calls: its directory, and the rows of every page.
The directory need not agree with the pages. -/
structure HeapOpen (f : FileId) (w : Flat FileId Bytes) (entries : List DirEntry)
    (rows : Nat → List Row) : Prop where
  idle : w.Idle f
  nonempty : 0 < w.size f
  dir : DirRep (w.mem (f, 0)) entries
  page : ∀ p, p ≠ 0 → PageState (w.mem (f, p)) (rows p)
  beyond : ∀ p, p ≠ 0 → w.size f ≤ p → w.mem (f, p) = zeros pageSize ∧ rows p = []

section

variable {f : FileId} {w : Flat FileId Bytes} {entries : List DirEntry} {rows : Nat → List Row}

theorem HeapOpen.held (h : HeapOpen f w entries rows) : w.Held := by
  simp [Flat.Held, h.idle.unsaved]

theorem HeapOpen.room (h : HeapOpen f w entries rows) : Multiset.card w.pins < 8 := by
  simp [h.idle.pins]

/-- A file of zeros after its directory was made. -/
theorem HeapOpen.created {b : Bytes} (hidle : w.Idle f) (hzeros : ∀ p, w.mem (f, p) = zeros pageSize)
    (hdir : DirRep b []) : HeapOpen f ((w.extend f).setMem (f, 0) b) [] fun _ => [] where
  idle := ⟨hidle.here, hidle.pins, hidle.unsaved⟩
  nonempty := by simp
  dir := by simpa using hdir
  page p hp := by
    have hstate : PageState (zeros pageSize) [] := Or.inr ⟨rfl, rfl⟩
    simpa [hp, hzeros] using hstate
  beyond p hp _ := by simp [hp, hzeros]

end

/-- The directory agrees with the pages: it counts all of them and knows their
free space. -/
structure Exact (f : FileId) (w : Flat FileId Bytes) (entries : List DirEntry)
    (rows : Nat → List Row) : Prop where
  size : w.size f = entries.length + 1
  entry : ∀ p e, entries[p]? = some e →
    e = entryOf (rows (p + 1)) ∧ PageRep (w.mem (f, p + 1)) (rows (p + 1))

/-- The tuples of one page with their record ids. -/
def tuplesAt (rows : Nat → List Row) (p : Nat) : List (Rid × Bytes) :=
  (tuplesOf (rows p)).map fun item => ((p, item.1), item.2)

/-- The tuples of data pages `1` to `n`, in the order of a scan. -/
def tuplesIn (n : Nat) (rows : Nat → List Row) : List (Rid × Bytes) :=
  (List.range' 1 n).flatMap (tuplesAt rows)

/-! ## What a scan reads -/

section

variable {β : Type}

/-- The loop over the slots of a page, on its bytes alone. -/
def Page.visitSlots (page : Page) (raw : Bytes) (step : β → Nat → Bytes → Except PyErr β) :
    List Nat → β → Except PyErr β
  | [], acc => .ok acc
  | slotId :: rest, acc => do
      match ← (page.getTuple slotId raw).1 with
      | none => page.visitSlots raw step rest acc
      | some data => do
          let acc ← step acc slotId data
          page.visitSlots raw step rest acc

/-- The loop over the pages, on their bytes alone. -/
def visitPages (mem : Nat → Bytes) (step : β → Rid → Bytes → Except PyErr β) :
    List Nat → β → Except PyErr β
  | [], acc => .ok acc
  | pageId :: rest, acc => do
      let page ← (Page.init false (mem pageId)).1
      let acc ← page.visitSlots (mem pageId) (fun acc slotId data => step acc (pageId, slotId) data)
        (List.range page.numSlots) acc
      visitPages mem step rest acc

theorem visitPages_append (mem : Nat → Bytes) (step : β → Rid → Bytes → Except PyErr β)
    (pages pages' : List Nat) (acc : β) :
    visitPages mem step (pages ++ pages') acc =
      visitPages mem step pages acc >>= visitPages mem step pages' := by
  induction pages generalizing acc with
  | nil => rfl
  | cons pageId rest ih =>
      simp only [List.cons_append, visitPages, ih, bind_assoc]

/-- The slots of a page with rows hold their tuples. -/
theorem visitSlots_of_tuples {page : Page} {raw : Bytes} {rs : List Row}
    (hget : ∀ slotId, page.getTuple slotId raw = (.ok (tupleAt rs slotId), raw))
    (step : β → Nat → Bytes → Except PyErr β) (slots : List Nat) (acc : β) :
    page.visitSlots raw step slots acc =
      (slots.filterMap fun slotId => (tupleAt rs slotId).map (Prod.mk slotId)).foldlM
        (fun acc item => step acc item.1 item.2) acc := by
  induction slots generalizing acc with
  | nil => rfl
  | cons slotId rest ih =>
      rw [Page.visitSlots, hget]
      cases htuple : tupleAt rs slotId with
      | none =>
          rw [List.filterMap_cons_none (by rw [htuple]; rfl)]
          exact ih acc
      | some data =>
          rw [List.filterMap_cons_some (b := (slotId, data)) (by rw [htuple]; rfl), List.foldlM_cons]
          exact bind_congr fun acc => ih acc

/-- Pages in a good state are read as their tuples. -/
theorem visitPages_of_state {mem : Nat → Bytes} {rows : Nat → List Row} {pages : List Nat}
    (hpages : ∀ p ∈ pages, PageState (mem p) (rows p)) (step : β → Rid → Bytes → Except PyErr β)
    (acc : β) : visitPages mem step pages acc =
      (pages.flatMap (tuplesAt rows)).foldlM (fun acc item => step acc item.1 item.2) acc := by
  induction pages generalizing acc with
  | nil => rfl
  | cons p rest ih =>
      obtain ⟨page, hinit, hslots, hget⟩ := init_of_state (hpages p List.mem_cons_self)
      have hrest := fun q hq => hpages q (List.mem_cons_of_mem p hq)
      have hslot := visitSlots_of_tuples hget (fun acc slotId data => step acc (p, slotId) data)
        (List.range (rows p).length) acc
      rw [visitPages, hinit, List.flatMap_cons, List.foldlM_append, tuplesAt, List.foldlM_map, tuplesOf,
        ← hslot, ← hslots]
      exact bind_congr fun acc => ih hrest acc

/-- A loop that collects what it sees. -/
theorem foldlM_collect {E γ : Type} (items acc : List γ) :
    items.foldlM (fun acc item => (.ok (acc ++ [item]) : Except E (List γ))) acc = .ok (acc ++ items) := by
  induction items generalizing acc with
  | nil => simp [pure, Except.pure]
  | cons item items ih =>
      rw [List.foldlM_cons]
      exact (ih (acc ++ [item])).trans (by rw [List.append_assoc, List.singleton_append])

end

namespace HeapFile

variable {σ β : Type} {good : PageKey → Bytes → Bool}
  {c : Store FileId Bytes PyErr (Flat FileId Bytes)} [Bpm.Serves c good]
  {w : Flat FileId Bytes} {s : σ} {f : FileId}

/-! ## Inserting -/

/-- From the page chosen on: the tuple goes into that page, and the directory
gets its new entry. -/
theorem run_insertInto {directory : DirectoryPage} {pageId : Nat} {newPage : Bool} {data : Bytes}
    {slotId : Nat} {page : Page} {r : Option Bool × DirectoryPage} {b₁ b₂ : Bytes}
    (hf : f ∉ w.gone) (hheld : w.Held) (hdir : (f, 0) ∈ w.pins)
    (hroom : Multiset.card w.pins < 8) (hpage : pageId ≠ 0) (hclean : (f, pageId) ∉ w.unsaved)
    (hinsert : (Page.init newPage >>= fun page => page.insertTuple data) (w.mem (f, pageId)) =
      (.ok (slotId, page), b₁))
    (hupdate : directory.updateDirectory pageId page.freeSpace page.numSlots (w.mem (f, 0)) =
      (.ok r, b₂))
    (hgood₁ : good (f, pageId) b₁ = true) (hlen₁ : b₁.length = pageSize)
    (hexists : pageId < w.size f)
    (hgood₂ : good (f, 0) b₂ = true) (hlen₂ : b₂.length = pageSize) :
    (insertInto f data directory pageId newPage : PageProg σ Rid).run
        c s w =
      (.ok (pageId, slotId), s,
        ((w.setMem (f, pageId) b₁).change (f, 0) b₂).release (f, 0) true) := by
  have hne : ((f, 0) : PageKey) ≠ (f, pageId) := by simp [Ne.symm hpage]
  have hmem : (w.setMem (f, pageId) b₁).mem (f, 0) = w.mem (f, 0) := Flat.setMem_mem_of_ne hne b₁
  rw [← hmem] at hupdate
  simp only [insertInto, directoryId]
  refine Prog.run_step (Bpm.run_fetch hf hheld hroom) ?_
  refine Prog.run_step (Bpm.run_onFrame (w := w.pin (f, pageId)) hf (by simp) hinsert) ?_
  refine Prog.run_step (Bpm.run_unpinPage_dirty (by simpa using hf) (by simp)
    (by simpa [Flat.Good, poolLimits] using hgood₁)
    ⟨by simpa using hlen₁, by simpa using hexists⟩) ?_
  rw [Flat.release_change_pin hclean]
  refine Prog.run_step (Bpm.run_onFrame (w := w.setMem (f, pageId) b₁) hf hdir hupdate) ?_
  exact Prog.run_step (Bpm.run_unpinPage_dirty (by simpa using hf) (by simpa using hdir)
    (by simpa [Flat.Good, poolLimits] using hgood₂)
    ⟨by simpa using hlen₂, by simpa using Nat.lt_of_le_of_lt (Nat.zero_le _) hexists⟩)
    (Prog.run_pure _ _ _)

/-- The heap file after a row went to page `q`: the blocks of that page and of
the directory are new, and the file may have grown up to that page. -/
theorem heapOpen_placed {entries entries' : List DirEntry} {rows : Nat → List Row} {q : Nat}
    {row : Row} {b₁ b₂ : Bytes} {v : Flat FileId Bytes} (h : HeapOpen f w entries rows)
    (hmem : v.mem = w.mem) (hidle : v.Idle f) (hq : q ≠ 0) (hexists : q < v.size f)
    (hgrow : w.size f ≤ v.size f) (hrep : PageRep b₁ (rows q ++ [row]))
    (hdir : DirRep b₂ entries') :
    HeapOpen f ((v.setMem (f, q) b₁).setMem (f, 0) b₂) entries'
      (Function.update rows q (rows q ++ [row])) where
  idle := ⟨hidle.here, hidle.pins, hidle.unsaved⟩
  nonempty := Nat.lt_of_le_of_lt (Nat.zero_le q) hexists
  dir := by simpa using hdir
  page p hp := by
    by_cases hpq : p = q
    · subst hpq
      have hstate : PageState b₁ (rows p ++ [row]) := Or.inl hrep
      simpa [hp] using hstate
    · simpa [hp, hpq, hmem] using h.page p hp
  beyond p hp hbeyond := by
    have hpq : p ≠ q := by
      rintro rfl
      exact absurd hexists (Nat.not_lt.mpr hbeyond)
    simpa [hp, hpq, hmem] using h.beyond p hp (Nat.le_trans hgrow hbeyond)

/-- The page chosen has the space the directory promises, or the new page is
the next one the directory counts. -/
def Placeable (f : FileId) (w : Flat FileId Bytes) (entries : List DirEntry) (data : Bytes) : Prop :=
  match firstFit entries (data.length + Page.headerSize) with
  | some q => ∃ page, Page.init false (w.mem (f, q)) = (.ok page, w.mem (f, q)) ∧
      ((data.length + Page.headerSize : Nat) : Int) ≤ page.freeSpace
  | none => w.size f = entries.length + 1 ∧ entries.length < 682

/-- A directory that agrees with the pages does not mislead an insert. -/
theorem placeable_of_exact {entries : List DirEntry} {rows : Nat → List Row} (hex : Exact f w entries rows)
    {data : Bytes} (hroom : firstFit entries (data.length + Page.headerSize) = none → entries.length < 682) :
    Placeable f w entries data := by
  unfold Placeable
  cases hfit : firstFit entries (data.length + Page.headerSize) with
  | some q =>
      obtain ⟨p, e, rfl, he, hfree⟩ := firstFit_some hfit
      obtain ⟨hentry, hrep⟩ := hex.entry p e he
      refine ⟨pageOf (rows (p + 1)), init_of_rep hrep, ?_⟩
      rw [hentry] at hfree
      exact Int.ofNat_le.mpr hfree
  | none => exact ⟨hex.size, hroom hfit⟩

/-- The entry of the directory after a row went to a page it lists. -/
theorem exact_listed {entries : List DirEntry} {rows : Nat → List Row} {p : Nat} {row : Row}
    {b₁ b₂ : Bytes} (hex : Exact f w entries rows) (hp : p < entries.length)
    (hrep : PageRep b₁ (rows (p + 1) ++ [row])) :
    Exact f ((w.setMem (f, p + 1) b₁).setMem (f, 0) b₂)
      (entries.set p (entryOf (rows (p + 1) ++ [row])))
      (Function.update rows (p + 1) (rows (p + 1) ++ [row])) where
  size := by simpa using hex.size
  entry i e hi := by
    by_cases hip : i = p
    · subst hip
      have he : entryOf (rows (i + 1) ++ [row]) = e := by
        simpa [List.getElem?_set_self hp] using hi
      simpa [he] using hrep
    · rw [List.getElem?_set_ne (Ne.symm hip)] at hi
      simpa [hip] using hex.entry i e hi

/-- The directory lists the page chosen, which has the space. -/
theorem run_insertTuple_listed {entries : List DirEntry} {rows : Nat → List Row} {data : Bytes}
    {p : Nat} (h : HeapOpen f w entries rows) (ha : Accepts good f)
    (hfit : firstFit entries (data.length + Page.headerSize) = some (p + 1))
    (hp : p < entries.length) (hrep : PageRep (w.mem (f, p + 1)) (rows (p + 1)))
    (hspace : data.length + Page.headerSize ≤ freeOf (rows (p + 1))) (hexists : p + 1 < w.size f) :
    ∃ b₁ b₂, (insertTuple f data : PageProg σ Rid).run c s w =
        (.ok (p + 1, (rows (p + 1)).length), s, (w.setMem (f, p + 1) b₁).setMem (f, 0) b₂) ∧
      PageRep b₁ (rows (p + 1) ++ [⟨data, true⟩]) ∧
      DirRep b₂ (entries.set p (entryOf (rows (p + 1) ++ [⟨data, true⟩]))) := by
  have hf := h.idle.here
  have hheld : w.Held := by simp [Flat.Held, h.idle.unsaved]
  have hclean : ∀ k, k ∉ w.unsaved := by simp [h.idle.unsaved]
  obtain ⟨b₁, hinsert, hrep'⟩ := insertTuple_of_body hrep.toPageBody data hspace
  have hfits : (entryOf (rows (p + 1) ++ [⟨data, true⟩])).free < 65536 ∧
      (entryOf (rows (p + 1) ++ [⟨data, true⟩])).slots < 65536 := by
    have hbound := hrep'.room
    simp only [slotOffset_eq, pageSize_eq] at hbound
    simp only [entryOf, freeOf, bottom, pageSize_eq]
    omega
  obtain ⟨b₂, hupdate, hdir'⟩ := updateDirectory_of_rep h.dir hp hfits
  refine ⟨b₁, b₂, ?_, hrep', hdir'⟩
  simp only [insertTuple, directoryId]
  refine Prog.run_step (Bpm.run_fetch hf hheld (by simp [h.idle.pins])) ?_
  refine Prog.run_step (Bpm.run_reading (w := w.pin (f, 0)) (deserialize_of_rep h.dir)) ?_
  rw [find_directoryOf entries (by simp [Page.headerSize]), hfit]
  have hplaced :=
    (Buf.bind_ok (f := fun page => page.insertTuple data) (init_of_rep hrep)).trans hinsert
  have hrun := run_insertInto (σ := σ) (c := c) (s := s) (w := w.pin (f, 0))
    hf (by simp [Flat.Held, h.idle.unsaved]) (by simp) (by simp [h.idle.pins])
    (Nat.succ_ne_zero p) (by simp [h.idle.unsaved]) hplaced hupdate
    (ha.page _ _ _ (Nat.succ_ne_zero p) (Or.inl hrep')) hrep'.length hexists
    (ha.dir _ _ hdir') hdir'.length
  have hdone : (((w.setMem (f, p + 1) b₁).pin (f, 0)).change (f, 0) b₂).release (f, 0) true =
      (w.setMem (f, p + 1) b₁).setMem (f, 0) b₂ :=
    Flat.release_change_pin (w := w.setMem (f, p + 1) b₁) (hclean (f, 0)) b₂
  rw [Flat.setMem_pin, hdone] at hrun
  exact hrun

/-- No page has the space, and the directory counts all pages of the file. -/
theorem run_insertTuple_new {entries : List DirEntry} {rows : Nat → List Row} {data : Bytes}
    (h : HeapOpen f w entries rows) (ha : Accepts good f)
    (hfit : firstFit entries (data.length + Page.headerSize) = none)
    (hsize : w.size f = entries.length + 1) (hroom : entries.length < 682)
    (hdata : data.length ≤ 4084) :
    ∃ b₁ b₂, (insertTuple f data : PageProg σ Rid).run c s w =
        (.ok (w.size f, 0), s, ((w.extend f).setMem (f, w.size f) b₁).setMem (f, 0) b₂) ∧
      PageRep b₁ [⟨data, true⟩] ∧ DirRep b₂ (entries ++ [entryOf [⟨data, true⟩]]) := by
  have hf := h.idle.here
  have hheld : w.Held := by simp [Flat.Held, h.idle.unsaved]
  have hclean : ∀ k, k ∉ w.unsaved := by simp [h.idle.unsaved]
  have hne : (f, w.size f) ≠ ((f, 0) : PageKey) := by simp [hsize]
  have hlen : (w.mem (f, w.size f)).length = pageSize :=
    length_of_state (h.page _ (by omega))
  obtain ⟨b₀, hincrease, hdir₀⟩ := increasePageCount_of_rep h.dir (by rw [pageSize_eq]; omega)
  obtain ⟨raw, hinit, hbody⟩ := init_new hlen
  obtain ⟨b₁, hinsert, hrep'⟩ := insertTuple_of_body hbody data (by
    have hempty : freeOf [] = 4090 := by decide
    rw [hempty, Page.slotSize]
    omega)
  have hfits : (entryOf [⟨data, true⟩]).free < 65536 ∧ (entryOf [⟨data, true⟩]).slots < 65536 := by
    simp only [entryOf, freeOf, bottom, pageSize_eq, List.length_singleton]
    omega
  obtain ⟨b₂, hupdate, hdir'⟩ := updateDirectory_of_rep hdir₀ (p := entries.length) (by simp) hfits
  rw [List.set_append_right _ _ (Nat.le_refl _), Nat.sub_self, List.set_cons_zero] at hdir'
  refine ⟨b₁, b₂, ?_, hrep', hdir'⟩
  simp only [insertTuple, directoryId]
  refine Prog.run_step (Bpm.run_fetch hf hheld (by simp [h.idle.pins])) ?_
  refine Prog.run_step (Bpm.run_reading (w := w.pin (f, 0)) (deserialize_of_rep h.dir)) ?_
  rw [find_directoryOf entries (by simp [Page.headerSize]), hfit]
  refine Prog.run_step (Bpm.run_allocatePage (w := w.pin (f, 0)) hf) ?_
  rw [← hsize] at hincrease
  refine Prog.run_step (Bpm.run_onFrame (w := (w.pin (f, 0)).extend f) hf (by simp) hincrease) ?_
  -- the directory is pinned and changed when the new page is fetched
  generalize hX : ((w.pin (f, 0)).extend f).change (f, 0) b₀ = X
  have hpins : X.pins = {(f, 0)} := by simp [← hX, h.idle.pins]
  have hunsaved : X.unsaved ⊆ {(f, 0)} := by
    rw [← hX]
    refine (Flat.change_unsaved_subset _ _ _).trans ?_
    simp [h.idle.unsaved]
  have hpage : X.mem (f, w.size f) = w.mem (f, w.size f) := by simp [← hX, hne]
  have hdirX : X.mem (f, 0) = b₀ := by simp [← hX]
  have hsizeX : X.size f = w.size f + 1 := by simp [← hX]
  have hplaced := (Buf.bind_ok (f := fun page => page.insertTuple data) hinit).trans hinsert
  rw [← hpage] at hplaced
  rw [← hsize, ← hdirX] at hupdate
  have hrun := run_insertInto (σ := σ) (c := c) (s := s) (w := X)
    (by simpa [← hX] using hf) (fun k hk => by
      rw [hpins, Finset.mem_singleton.mp (hunsaved hk)]
      exact Multiset.mem_singleton_self _)
    (by simp [hpins]) (by simp [hpins]) (by omega)
    (fun hk => hne (Finset.mem_singleton.mp (hunsaved hk)))
    hplaced hupdate (ha.page _ _ _ (by omega) (Or.inl hrep')) hrep'.length (by omega)
    (ha.dir _ _ hdir') hdir'.length
  have hdone : ((X.setMem (f, w.size f) b₁).change (f, 0) b₂).release (f, 0) true =
      ((w.extend f).setMem (f, w.size f) b₁).setMem (f, 0) b₂ := by
    rw [← hX, Flat.setMem_change_comm hne]
    exact Flat.release_change_change_pin (w := (w.extend f).setMem (f, w.size f) b₁)
      (hclean (f, 0)) b₀ b₂
  rw [hdone] at hrun
  exact hrun

/-- No page has the space, and the file has more pages than the directory
counts: the tuple goes to a page that the directory does not list. -/
theorem run_insertTuple_unlisted {entries : List DirEntry} {rows : Nat → List Row} {data : Bytes}
    (h : HeapOpen f w entries rows)
    (hfit : firstFit entries (data.length + Page.headerSize) = none)
    (hsize : entries.length + 2 ≤ w.size f) (hdata : data.length ≤ 4084) :
    ∃ b₁, (insertTuple f data : PageProg σ Rid).run (Flat.store (poolLimits anyBlock)) s w =
        (.ok (w.size f, 0), s, ((w.extend f).setMem (f, w.size f) b₁).setMem (f, 0)
          (overwrite (w.mem (f, 0)) 0 (formatH.encode (entries.length + 2 : Nat)))) ∧
      PageRep b₁ [⟨data, true⟩] := by
  have hf := h.idle.here
  have hheld : w.Held := by simp [Flat.Held, h.idle.unsaved]
  have hclean : ∀ k, k ∉ w.unsaved := by simp [h.idle.unsaved]
  have hne : (f, w.size f) ≠ ((f, 0) : PageKey) := by
    have hpos : w.size f ≠ 0 := by omega
    simp [hpos]
  have hlen : (w.mem (f, w.size f)).length = pageSize :=
    length_of_state (h.page _ (by omega))
  have hincrease := increasePageCount_rejected h.dir hsize
  generalize hb₀ : overwrite (w.mem (f, 0)) 0 (formatH.encode (entries.length + 2 : Nat)) = b₀
    at hincrease ⊢
  have hlen₀ : b₀.length = pageSize := by
    rw [← hb₀, length_overwrite (by rw [h.dir.length]; simp [pageSize_eq]), h.dir.length]
  obtain ⟨raw, hinit, hbody⟩ := init_new hlen
  obtain ⟨b₁, hinsert, hrep'⟩ := insertTuple_of_body hbody data (by
    have hempty : freeOf [] = 4090 := by decide
    rw [hempty, Page.slotSize]
    omega)
  refine ⟨b₁, ?_, hrep'⟩
  simp only [insertTuple, directoryId]
  refine Prog.run_step (Bpm.run_fetch hf hheld (by simp [h.idle.pins])) ?_
  refine Prog.run_step (Bpm.run_reading (w := w.pin (f, 0)) (deserialize_of_rep h.dir)) ?_
  rw [find_directoryOf entries (by simp [Page.headerSize]), hfit]
  refine Prog.run_step (Bpm.run_allocatePage (w := w.pin (f, 0)) hf) ?_
  refine Prog.run_step (Bpm.run_onFrame (w := (w.pin (f, 0)).extend f) hf (by simp) hincrease) ?_
  generalize hX : ((w.pin (f, 0)).extend f).change (f, 0) b₀ = X
  have hpins : X.pins = {(f, 0)} := by simp [← hX, h.idle.pins]
  have hunsaved : X.unsaved ⊆ {(f, 0)} := by
    rw [← hX]
    refine (Flat.change_unsaved_subset _ _ _).trans ?_
    simp [h.idle.unsaved]
  have hpage : X.mem (f, w.size f) = w.mem (f, w.size f) := by simp [← hX, hne]
  have hdirX : X.mem (f, 0) = b₀ := by simp [← hX]
  have hsizeX : X.size f = w.size f + 1 := by simp [← hX]
  -- the directory rejects the page again, so its buffer stays as it is
  have hplaced := (Buf.bind_ok (f := fun page => page.insertTuple data) hinit).trans hinsert
  rw [← hpage] at hplaced
  have hreject := updateDirectory_rejected (b := X.mem (f, 0))
    ⟨entries.length + 2, (directoryOf entries).freeSpace⟩ hsize
    (pageOf ([] ++ [⟨data, true⟩])).freeSpace (pageOf ([] ++ [⟨data, true⟩])).numSlots
  rw [hdirX] at hreject
  have hrun := run_insertInto (σ := σ) (c := Flat.store (poolLimits anyBlock)) (s := s) (w := X)
    (by simpa [← hX] using hf) (fun k hk => by
      rw [hpins, Finset.mem_singleton.mp (hunsaved hk)]
      exact Multiset.mem_singleton_self _)
    (by simp [hpins]) (by simp [hpins]) (by omega)
    (fun hk => hne (Finset.mem_singleton.mp (hunsaved hk)))
    hplaced (by rw [hdirX]; exact hreject)
    (show anyBlock (f, w.size f) b₁ = true from rfl) hrep'.length (by omega)
    (show anyBlock (f, 0) b₀ = true from rfl) hlen₀
  have hdone : ((X.setMem (f, w.size f) b₁).change (f, 0) b₀).release (f, 0) true =
      ((w.extend f).setMem (f, w.size f) b₁).setMem (f, 0) b₀ := by
    rw [← hX, Flat.setMem_change_comm hne]
    exact Flat.release_change_change_pin (w := (w.extend f).setMem (f, w.size f) b₁)
      (hclean (f, 0)) b₀ b₀
  rw [hdone] at hrun
  exact hrun

/-- `insert_tuple` on a heap file whose directory does not mislead it: the row
is appended to one page and the directory lists that page. -/
theorem run_insertTuple {entries : List DirEntry} {rows : Nat → List Row} {data : Bytes}
    (h : HeapOpen f w entries rows) (ha : Accepts good f) (hdata : data.length ≤ 4084)
    (hplace : Placeable f w entries data) :
    ∃ q entries' w', (insertTuple f data : PageProg σ Rid).run c s w =
        (.ok (q, (rows q).length), s, w') ∧
      q ≠ 0 ∧ q ≤ entries'.length ∧ entries.length ≤ entries'.length ∧ w'.gone = w.gone ∧
      HeapOpen f w' entries' (Function.update rows q (rows q ++ [⟨data, true⟩])) ∧
      (Exact f w entries rows →
        Exact f w' entries' (Function.update rows q (rows q ++ [⟨data, true⟩])) ∧
          (directoryOf entries).take data.length = some (directoryOf entries')) := by
  unfold Placeable at hplace
  cases hfit : firstFit entries (data.length + Page.headerSize) with
  | some q =>
      rw [hfit] at hplace
      obtain ⟨page, hinit, hspace⟩ := hplace
      obtain ⟨p, e, rfl, he, -⟩ := firstFit_some hfit
      obtain ⟨hp, -⟩ := List.getElem?_eq_some_iff.mp he
      have hsix : Page.headerSize = 6 := rfl
      obtain ⟨hrep, rfl⟩ := rep_of_state (h.page _ (Nat.succ_ne_zero p)) hinit (by omega)
      have hexists : p + 1 < w.size f := by
        by_contra hbeyond
        obtain ⟨hzero, -⟩ := h.beyond (p + 1) (Nat.succ_ne_zero p) (Nat.not_lt.mp hbeyond)
        rw [hzero, init_zeros] at hinit
        rw [← Except.ok.inj (Prod.mk.inj hinit).1] at hspace
        simp only [hsix] at hspace
        omega
      obtain ⟨b₁, b₂, hrun, hrep', hdir'⟩ := run_insertTuple_listed (c := c) (s := s) h ha hfit hp hrep
        (Int.ofNat_le.mp hspace) hexists
      refine ⟨p + 1, _, _, hrun, Nat.succ_ne_zero p, by rw [List.length_set]; exact hp, by simp, rfl,
        heapOpen_placed h rfl h.idle (Nat.succ_ne_zero p) hexists (Nat.le_refl _) hrep' hdir',
        fun hex => ⟨exact_listed hex hp hrep', ?_⟩⟩
      obtain rfl := (hex.entry p e he).1
      have hentry : entryOf (rows (p + 1) ++ [⟨data, true⟩]) =
          ⟨(entryOf (rows (p + 1))).free - (data.length + Page.slotSize), (rows (p + 1)).length + 1⟩ := by
        simp only [entryOf, freeOf_append, List.length_append, List.length_singleton]
      rw [hentry]
      exact take_listed hfit he _
  | none =>
      rw [hfit] at hplace
      obtain ⟨hsize, hroom⟩ := hplace
      obtain ⟨b₁, b₂, hrun, hrep', hdir'⟩ := run_insertTuple_new (c := c) (s := s) h ha hfit hsize hroom hdata
      have hq : w.size f ≠ 0 := by omega
      have hrows : rows (w.size f) = [] := (h.beyond _ hq (Nat.le_refl _)).2
      have hidle : (w.extend f).Idle f := ⟨h.idle.here, h.idle.pins, h.idle.unsaved⟩
      have hnew : PageRep b₁ (rows (w.size f) ++ [⟨data, true⟩]) := by rw [hrows]; exact hrep'
      have hopen := heapOpen_placed (v := w.extend f) h rfl hidle hq (by simp) (by simp) hnew hdir'
      refine ⟨w.size f, _, ((w.extend f).setMem (f, w.size f) b₁).setMem (f, 0) b₂,
        by rw [hrows]; exact hrun, hq, by simp [hsize], by simp, rfl, hopen,
        fun hex => ?_⟩
      rw [hrows]
      have hentry : entryOf [⟨data, true⟩] = ⟨4084 - data.length, 1⟩ := by
        have hfree : freeOf [⟨data, true⟩] = 4090 - (data.length + 6) := freeOf_append [] ⟨data, true⟩
        simp only [entryOf, hfree, List.length_singleton, DirEntry.mk.injEq, and_true]
        omega
      refine ⟨?_, by rw [hentry]; exact take_new hfit hroom hdata 1⟩
      exact
        { size := by simp [hsize]
          entry := fun i e hi => by
            rcases Nat.lt_or_ge i entries.length with hlt | hge
            · rw [List.getElem?_append_left hlt] at hi
              have hne : i + 1 ≠ w.size f := by omega
              simpa [hne] using hex.entry i e hi
            · rw [List.getElem?_append_right hge, List.getElem?_singleton] at hi
              split at hi
              · have hieq : i + 1 = w.size f := by omega
                rw [← Option.some.inj hi, hieq]
                simpa [hq] using hrep'
              · simp at hi }

/-! ## A new file -/

/-- `create_directory` on a file without pages. -/
theorem run_createDirectory (ha : Accepts good f) (hidle : w.Idle f) (hsize : w.size f = 0)
    (hlen : (w.mem (f, 0)).length = pageSize) :
    ∃ b, (createDirectory f : PageProg σ Unit).run c s w =
        (.ok (), s, (w.extend f).setMem (f, 0) b) ∧ DirRep b [] := by
  obtain ⟨b, hinit, hdir⟩ := init_newDirectory hlen
  have hf := hidle.here
  have hclean : (f, 0) ∉ w.unsaved := by simp [hidle.unsaved]
  refine ⟨b, ?_, hdir⟩
  rw [createDirectory]
  refine Prog.run_step (Bpm.run_allocatePage hf) ?_
  rw [hsize]
  refine Prog.run_step (Bpm.run_fetch (w := w.extend f) hf (by simp [Flat.Held, hidle.unsaved])
    (by simp [hidle.pins])) ?_
  refine Prog.run_step (Bpm.run_onFrame (w := (w.extend f).pin (f, 0)) hf (by simp) hinit) ?_
  refine Prog.run_step (Bpm.run_unpinPage_clean (w := ((w.extend f).pin (f, 0)).change (f, 0) b)
    (by simpa using hf) (by simp) (by simpa [Flat.Good, poolLimits] using ha.dir _ _ hdir)) ?_
  have hdone : ((((w.extend f).pin (f, 0)).change (f, 0) b).release (f, 0) false).save (f, 0) =
      (w.extend f).setMem (f, 0) b := Flat.save_release_change_pin (w := w.extend f) hclean b
  rw [← hdone]
  exact Bpm.run_flushPage (w := (((w.extend f).pin (f, 0)).change (f, 0) b).release (f, 0) false)
    (by simpa using hf) (by simpa [Flat.Good, poolLimits] using ha.dir _ _ hdir)
    ⟨by simpa using hdir.length, by simp⟩

/-! ## Reading and deleting -/

section

variable {entries : List DirEntry} {rows : Nat → List Row}

/-- Reading a page and letting go of it. -/
theorem run_fetch_release {α : Type} (hf : f ∉ w.gone) (hheld : w.Held) (hroom : Multiset.card w.pins < 8)
    {pageId : Nat} (hgood : good (f, pageId) (w.mem (f, pageId)) = true) {m : Buf PyErr α} {a : α}
    {b : Bytes} (hm : m (w.mem (f, pageId)) = (.ok a, b)) {k : Bytes → α → PageProg σ β}
    {r : Except PyErr β × σ × Flat FileId Bytes}
    (hk : (k (w.mem (f, pageId)) a).run c s w = r) :
    (Bpm.fetchPage pageId f >>= fun raw => Bpm.reading raw m >>= fun a =>
      Bpm.unpinPage pageId f false >>= fun _ => k raw a).run c s w =
      r := by
  refine Prog.run_step (Bpm.run_fetch hf hheld hroom) ?_
  refine Prog.run_step (Bpm.run_reading (w := w.pin (f, pageId)) hm) ?_
  refine Prog.run_step (Bpm.run_unpinPage_clean (w := w.pin (f, pageId)) hf (by simp)
    (by simpa [Flat.Good, poolLimits] using hgood)) ?_
  rw [Flat.release_pin]
  exact hk

/-- `get_tuple` returns the tuple under the slot. -/
theorem run_getTuple (h : HeapOpen f w entries rows) (ha : Accepts good f) {rid : Rid}
    (hrid : rid.1 ≠ 0) :
    (getTuple f rid : PageProg σ (Option Bytes)).run c s w =
      (.ok (tupleAt (rows rid.1) rid.2), s, w) := by
  have hstate := h.page rid.1 hrid
  obtain ⟨page, hinit, -, hget⟩ := init_of_state hstate
  exact run_fetch_release h.idle.here h.held h.room (ha.page _ _ _ hrid hstate) hinit
    (Bpm.run_reading (hget rid.2))

/-- `delete_tuple` of a slot that the page has, whatever is in the other pages. -/
theorem run_deleteTuple_page (hf : f ∉ w.gone) (hheld : w.Held) (hroom : Multiset.card w.pins < 8)
    (ha : Accepts good f) {rid : Rid} {rs : List Row} {row : Row} (hclean : (f, rid.1) ∉ w.unsaved)
    (hrid : rid.1 ≠ 0) (hexists : rid.1 < w.size f) (hrep : PageRep (w.mem (f, rid.1)) rs)
    (hrow : rs[rid.2]? = some row) :
    ∃ b', (deleteTuple f rid : PageProg σ Bool).run c s w = (.ok row.live, s, w.setMem (f, rid.1) b') ∧
      PageRep b' (kill rs rid.2) := by
  obtain ⟨b', hdelete, hrep', hsame⟩ := deleteTuple_of_rep hrep hrow
  refine ⟨b', ?_, hrep'⟩
  rw [deleteTuple]
  refine Prog.run_step (Bpm.run_fetch hf hheld hroom) ?_
  refine Prog.run_step (Bpm.run_reading (w := w.pin (f, rid.1)) (init_of_rep hrep)) ?_
  refine Prog.run_step (Bpm.run_onFrame (w := w.pin (f, rid.1)) hf (by simp) hdelete) ?_
  cases hlive : row.live with
  | true =>
      refine Prog.run_step (Bpm.run_unpinPage_dirty (w := (w.pin (f, rid.1)).change (f, rid.1) b')
        (by simpa using hf) (by simp)
        (by simpa [Flat.Good, poolLimits] using ha.page _ _ _ hrid (Or.inl hrep'))
        ⟨by simpa using hrep'.length, by simpa using hexists⟩) ?_
      rw [Flat.release_change_pin hclean, Prog.run_pure]
  | false =>
      -- nothing was written, so the page is released as it was
      have hb' : b' = (w.pin (f, rid.1)).mem (f, rid.1) := hsame hlive
      have hback : w.setMem (f, rid.1) (w.mem (f, rid.1)) = w := by
        rw [Flat.setMem, Function.update_eq_self]
      rw [hb', Flat.change_self, Flat.pin_mem, hback]
      refine Prog.run_step (Bpm.run_unpinPage_clean (w := w.pin (f, rid.1)) hf (by simp)
        (by simpa [Flat.Good, poolLimits] using ha.page _ _ _ hrid (Or.inl hrep))) ?_
      rw [Flat.release_pin, Prog.run_pure]

/-- `delete_tuple` of a slot that the page has clears it, and tells whether it
held a tuple. -/
theorem run_deleteTuple (h : HeapOpen f w entries rows) (ha : Accepts good f) {rid : Rid} {row : Row}
    (hrid : rid.1 ≠ 0) (hrow : (rows rid.1)[rid.2]? = some row) :
    ∃ w', (deleteTuple f rid : PageProg σ Bool).run c s w =
        (.ok row.live, s, w') ∧
      w'.size = w.size ∧ w'.gone = w.gone ∧
      HeapOpen f w' entries (Function.update rows rid.1 (kill (rows rid.1) rid.2)) ∧
      (Exact f w entries rows →
        Exact f w' entries (Function.update rows rid.1 (kill (rows rid.1) rid.2))) := by
  have hrep : PageRep (w.mem (f, rid.1)) (rows rid.1) :=
    (h.page rid.1 hrid).resolve_right fun hzero => by simp [hzero.2] at hrow
  have hexists : rid.1 < w.size f := by
    by_contra hbeyond
    simp [(h.beyond rid.1 hrid (Nat.not_lt.mp hbeyond)).2] at hrow
  obtain ⟨b', hrun, hrep'⟩ := run_deleteTuple_page (σ := σ) (c := c) (s := s) h.idle.here h.held h.room ha
    (by simp [h.idle.unsaved]) hrid hexists hrep hrow
  refine ⟨_, hrun, rfl, rfl, ?_, fun hex => ?_⟩
  · exact
      { idle := ⟨h.idle.here, h.idle.pins, h.idle.unsaved⟩
        nonempty := h.nonempty
        dir := by simpa [hrid.symm] using h.dir
        page := fun p hp => by
          by_cases hpq : p = rid.1
          · have hstate : PageState b' (kill (rows rid.1) rid.2) := Or.inl hrep'
            simpa [hpq] using hstate
          · simpa [hpq] using h.page p hp
        beyond := fun p hp hbeyond => by
          have hpq : p ≠ rid.1 := by
            rintro rfl
            exact absurd hexists (Nat.not_lt.mpr hbeyond)
          simpa [hpq] using h.beyond p hp hbeyond }
  · exact
      { size := hex.size
        entry := fun p e he => by
          obtain ⟨hentry, hpage⟩ := hex.entry p e he
          by_cases hpq : p + 1 = rid.1
          · rw [hpq] at hentry
            have hkeep : entryOf (kill (rows rid.1) rid.2) = entryOf (rows rid.1) := by
              simp [entryOf, freeOf, bottom, usedBy_kill]
            simpa [hpq, hkeep] using And.intro hentry hrep'
          · simpa [hpq] using And.intro hentry hpage }

/-- `delete_tuple` of a slot with nothing in its place changes nothing. -/
theorem run_deleteTuple_absent (h : HeapOpen f w entries rows) (ha : Accepts good f) {rid : Rid}
    (hrid : rid.1 ≠ 0)
    (hvalid : (unpackH (Page.slotOffset rid.2 + 4) (w.mem (f, rid.1))).1 = .ok 0) :
    (deleteTuple f rid : PageProg σ Bool).run c s w =
      (.ok false, s, w) := by
  have hstate := h.page rid.1 hrid
  obtain ⟨page, hinit, -, -⟩ := init_of_state hstate
  have hread : unpackH (Page.slotOffset rid.2 + 4) (w.mem (f, rid.1)) =
      (.ok 0, w.mem (f, rid.1)) := Prod.ext hvalid (unpackH_snd _ _)
  have hdelete : Page.deleteTuple rid.2 (w.mem (f, rid.1)) = (.ok false, w.mem (f, rid.1)) := by
    rw [Page.deleteTuple, Buf.bind_ok hread]
    rfl
  rw [deleteTuple]
  refine Prog.run_step (Bpm.run_fetch h.idle.here h.held h.room) ?_
  refine Prog.run_step (Bpm.run_reading (w := w.pin (f, rid.1)) hinit) ?_
  refine Prog.run_step (Bpm.run_onFrame (w := w.pin (f, rid.1)) h.idle.here (by simp) hdelete) ?_
  have hsame : (w.pin (f, rid.1)).change (f, rid.1) (w.mem (f, rid.1)) = w.pin (f, rid.1) :=
    Flat.change_self _ _
  rw [hsame]
  refine Prog.run_step (Bpm.run_unpinPage_clean (w := w.pin (f, rid.1)) h.idle.here (by simp)
    (by simpa [Flat.Good, poolLimits] using ha.page _ _ _ hrid hstate)) ?_
  rw [Flat.release_pin, Prog.run_pure]

/-! ## Scanning -/

omit [Bpm.Serves c good] in
/-- The loop over the slots of a page, where the body only computes. -/
theorem run_scanSlots (page : Page) (raw : Bytes) (step : β → Nat → Bytes → Except PyErr β)
    (slots : List Nat) (acc : β) :
    (page.scanSlots raw (fun acc slotId data => Prog.ofExcept (step acc slotId data)) slots acc :
        PageProg σ β).run c s w = (page.visitSlots raw step slots acc, s, w) := by
  induction slots generalizing acc with
  | nil => rfl
  | cons slotId rest ih =>
      rw [Page.scanSlots, Page.visitSlots]
      rcases hread : page.getTuple slotId raw with ⟨e | tuple, raw'⟩
      · exact Prog.run_bind_error (Bpm.run_reading hread)
      · refine Prog.run_step (Bpm.run_reading hread) ?_
        cases tuple with
        | none => exact ih acc
        | some data =>
            change _ = (step acc slotId data >>= page.visitSlots raw step rest, s, w)
            dsimp only
            cases hstep : step acc slotId data with
            | error e => exact Prog.run_bind_error (Prog.run_ofExcept _ _ _)
            | ok acc' => exact Prog.run_step (Prog.run_ofExcept _ _ _) (ih acc')

/-- The loop over the pages, where the body only computes. -/
theorem run_scanPages (hf : f ∉ w.gone) (hheld : w.Held) (hroom : Multiset.card w.pins < 8)
    (step : β → Rid → Bytes → Except PyErr β) (pages : List Nat)
    (hpages : ∀ p ∈ pages, good (f, p) (w.mem (f, p)) = true ∧ Readable (w.mem (f, p))) (acc : β) :
    (scanPages f (fun acc rid data => Prog.ofExcept (step acc rid data)) pages acc :
        PageProg σ β).run c s w = (visitPages (fun p => w.mem (f, p)) step pages acc, s, w) := by
  induction pages generalizing acc with
  | nil => rfl
  | cons p rest ih =>
      obtain ⟨hgood, page, hinit⟩ := hpages p List.mem_cons_self
      have hrest := fun q hq => hpages q (List.mem_cons_of_mem p hq)
      rw [scanPages, visitPages]
      refine run_fetch_release hf hheld hroom hgood hinit ?_
      have hscan := run_scanSlots (σ := σ) (c := c) (s := s) (w := w) page (w.mem (f, p))
        (fun acc slotId data => step acc (p, slotId) data) (List.range page.numSlots) acc
      rw [Page.scan, hinit]
      change _ = (page.visitSlots (w.mem (f, p)) (fun acc slotId data => step acc (p, slotId) data)
        (List.range page.numSlots) acc >>= visitPages (fun p => w.mem (f, p)) step rest, s, w)
      cases hvisit : page.visitSlots (w.mem (f, p)) (fun acc slotId data => step acc (p, slotId) data)
          (List.range page.numSlots) acc with
      | error e =>
          rw [hvisit] at hscan
          exact Prog.run_bind_error hscan
      | ok acc' =>
          rw [hvisit] at hscan
          exact Prog.run_step hscan (ih hrest acc')

/-- `for rid, raw in scan()`, for a directory that counts `n` data pages. -/
theorem run_forEach_of_count (hf : f ∉ w.gone) (hheld : w.Held) (hroom : Multiset.card w.pins < 8)
    {dir : DirectoryPage} {n : Nat} {b : Bytes}
    (hinit : DirectoryPage.init false (w.mem (f, 0)) = (.ok dir, b)) (hcount : dir.pageCount = n + 1)
    (hgood : good (f, 0) (w.mem (f, 0)) = true)
    (hpages : ∀ p, 1 ≤ p → p ≤ n → good (f, p) (w.mem (f, p)) = true ∧ Readable (w.mem (f, p)))
    (step : β → Rid → Bytes → Except PyErr β) (acc : β) :
    (forEach f (fun acc rid data => Prog.ofExcept (step acc rid data)) acc : PageProg σ β).run c s w =
      (visitPages (fun p => w.mem (f, p)) step (List.range' 1 n) acc, s, w) := by
  rw [forEach]
  refine run_fetch_release hf hheld hroom hgood hinit ?_
  rw [hcount, Nat.add_sub_cancel]
  refine run_scanPages hf hheld hroom step _ (fun p hp => ?_) acc
  obtain ⟨hlow, hhigh⟩ := List.mem_range'_1.mp hp
  exact hpages p hlow (by omega)

/-- The tuples of the pages are visited in order. -/
theorem run_forEach (h : HeapOpen f w entries rows) (ha : Accepts good f)
    (step : β → Rid → Bytes → Except PyErr β) (acc : β) :
    (forEach f (fun acc rid data => Prog.ofExcept (step acc rid data)) acc : PageProg σ β).run c s w =
      ((tuplesIn entries.length rows).foldlM (fun acc item => step acc item.1 item.2) acc, s, w) := by
  have hstate : ∀ p ∈ List.range' 1 entries.length, PageState (w.mem (f, p)) (rows p) := fun p hp =>
    h.page p (by have := (List.mem_range'_1.mp hp).1; omega)
  rw [run_forEach_of_count h.idle.here h.held h.room (deserialize_of_rep h.dir) rfl
    (ha.dir _ _ h.dir) (fun p hlow _ => ⟨ha.page _ _ _ (by omega) (h.page p (by omega)),
      readable_of_state (h.page p (by omega))⟩) step acc,
    visitPages_of_state hstate]
  rfl

/-- `scan`, for a directory that counts `n` data pages. -/
theorem run_scan_of_count (hf : f ∉ w.gone) (hheld : w.Held) (hroom : Multiset.card w.pins < 8)
    {dir : DirectoryPage} {n : Nat} {b : Bytes}
    (hinit : DirectoryPage.init false (w.mem (f, 0)) = (.ok dir, b)) (hcount : dir.pageCount = n + 1)
    (hgood : good (f, 0) (w.mem (f, 0)) = true)
    (hpages : ∀ p, 1 ≤ p → p ≤ n → PageState (w.mem (f, p)) (rows p) ∧
      good (f, p) (w.mem (f, p)) = true) :
    (scan f : PageProg σ (List (Rid × Bytes))).run c s w = (.ok (tuplesIn n rows), s, w) := by
  have hstate : ∀ p ∈ List.range' 1 n, PageState (w.mem (f, p)) (rows p) := fun p hp => by
    obtain ⟨hlow, hhigh⟩ := List.mem_range'_1.mp hp
    exact (hpages p hlow (by omega)).1
  refine (run_forEach_of_count hf hheld hroom hinit hcount hgood (fun p hlow hhigh =>
    ⟨(hpages p hlow hhigh).2, readable_of_state (hpages p hlow hhigh).1⟩) (fun acc rid data => .ok (acc ++ [(rid, data)])) []).trans ?_
  rw [visitPages_of_state hstate, foldlM_collect]
  rfl

/-- `scan` yields the tuples of the pages the directory counts. -/
theorem run_scan (h : HeapOpen f w entries rows) (ha : Accepts good f) :
    (scan f : PageProg σ (List (Rid × Bytes))).run c s w =
      (.ok (tuplesIn entries.length rows), s, w) :=
  run_scan_of_count h.idle.here h.held h.room (deserialize_of_rep h.dir) rfl (ha.dir _ _ h.dir)
    fun p hlow _ => ⟨h.page p (by omega), ha.page _ _ _ (by omega) (h.page p (by omega))⟩

end

end HeapFile

end DBEngine
