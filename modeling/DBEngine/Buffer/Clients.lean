import DBEngine.Buffer.PoolRefinement

/-!
# Clients of the pool

Any number of clients call the pool in any order.  A client releases only pins
it holds, changes a page only while it holds a pin on it, and does not give up
its last pin on a page it has changed without having released one as dirty.
Then no client can tell the pool from the pages themselves.
-/

set_option autoImplicit false

namespace DBEngine

open ByteBuffer Paged

/-- A call on the pool. -/
inductive PoolCall where
  | fetchPage (client : Nat) (k : PageKey)
  /-- the client changes, in place, the frame it was handed -/
  | modifyPage (client : Nat) (k : PageKey) (data : Bytes)
  | unpinPage (client : Nat) (k : PageKey) (isDirty : Bool)
  | flushPage (k : PageKey)
  | flushAll
  | allocatePage (fileId : FileId)

/-- The pool and what its clients know: the pins each of them holds, the pages
each has changed since it last released them as dirty, the pages obtained from
`allocatePage`, and the bytes last written to each of these. -/
structure Session where
  pool : BufferPoolManager
  held : Multiset (Nat × PageKey)
  changed : Finset (Nat × PageKey)
  obtained : Finset PageKey
  written : PageKey → Bytes

namespace Session

/-- A new pool over the files of `disk`. -/
def start (disk : Disk) : Session := ⟨BufferPoolManager.new disk, 0, ∅, ∅, fun _ => zeros pageSize⟩

/-- What the clients promise about their calls. -/
def Allowed (s : Session) : PoolCall → Prop
  | .fetchPage _ k => k ∈ s.obtained
  | .modifyPage c k data => (c, k) ∈ s.held ∧ data.length = pageSize
  | .unpinPage c k isDirty =>
      (c, k) ∈ s.held ∧ ((c, k) ∈ s.changed → isDirty = true ∨ 2 ≤ s.held.count (c, k))
  | .flushPage _ => True
  | .flushAll => True
  | .allocatePage _ => True

/-- One call.  A fetch that raises hands out no pin. -/
def step (order : SetOrder) (s : Session) : PoolCall → Session
  | .fetchPage c k =>
      match s.pool.fetchPage order k.2 k.1 with
      | (.ok _, pool) => { s with pool := pool, held := (c, k) ::ₘ s.held }
      | (.error _, pool) => { s with pool := pool }
  | .modifyPage c k data =>
      { s with
        pool := s.pool.framePut k data
        changed := insert (c, k) s.changed
        written := Function.update s.written k data }
  | .unpinPage c k isDirty =>
      { s with
        pool := (s.pool.unpinPage k.2 k.1 isDirty).2
        held := s.held.erase (c, k)
        changed := if isDirty then s.changed.erase (c, k) else s.changed }
  | .flushPage k => { s with pool := (s.pool.flushPage k).2 }
  | .flushAll => { s with pool := s.pool.flushAll.2 }
  | .allocatePage f =>
      { s with
        pool := (s.pool.allocatePage f).2
        obtained := insert (f, (s.pool.allocatePage f).1) s.obtained }

/-- The states reached by allowed calls, from a new pool over whole files. -/
inductive Reachable (order : SetOrder) : Session → Prop
  | start (disk : Disk) (hdisk : ∀ f, disk.Whole f) : Reachable order (start disk)
  | step {s : Session} (call : PoolCall) (hs : Reachable order s) (hcall : s.Allowed call) :
      Reachable order (s.step order call)

/-- What is kept along every run: the pool refines a flat store that holds the
bytes last written, whose pins are those of the clients, and in which every page
changed since it was saved is held by a client that knows. -/
structure Kept (s : Session) (w : Flat FileId Bytes) : Prop where
  refines : s.pool.Refines w
  gone : w.gone = ∅
  pins : w.pins = s.held.map Prod.snd
  unsaved : ∀ k ∈ w.unsaved, ∃ c, (c, k) ∈ s.changed
  changed : ∀ x ∈ s.changed, x ∈ s.held
  heldObtained : ∀ x ∈ s.held, x.2 ∈ s.obtained
  exists_of_obtained : ∀ k ∈ s.obtained, k.2 < w.size k.1
  cachedObtained : ∀ k, s.pool.pageTable k ≠ none → k ∈ s.obtained
  length : ∀ k, (w.mem k).length = pageSize
  written : ∀ k, k ∈ s.obtained → w.mem k = s.written k
  fresh : ∀ k, k ∉ s.obtained → s.written k = zeros pageSize

variable {s : Session} {w : Flat FileId Bytes} {k : PageKey} {c : Nat}

theorem Kept.held (h : Kept s w) : w.Held := by
  intro k hk
  obtain ⟨c, hc⟩ := h.unsaved k hk
  rw [h.pins]
  exact Multiset.mem_map.mpr ⟨(c, k), h.changed _ hc, rfl⟩

theorem Kept.mem_pins (h : Kept s w) (hk : (c, k) ∈ s.held) : k ∈ w.pins := by
  rw [h.pins]
  exact Multiset.mem_map.mpr ⟨(c, k), hk, rfl⟩

theorem Kept.savable (h : Kept s w) (hk : k ∈ s.obtained) : Storable w k :=
  ⟨h.length k, h.exists_of_obtained k hk⟩

theorem kept_start {disk : Disk} (hdisk : ∀ f, disk.Whole f) :
    Kept (start disk) (BufferPoolManager.flatOf disk) where
  refines := BufferPoolManager.refines_flatOf hdisk
  gone := rfl
  pins := rfl
  unsaved := by simp [BufferPoolManager.flatOf]
  changed := by simp [start]
  heldObtained := by simp [start]
  exists_of_obtained := by simp [start]
  cachedObtained := by simp [start, BufferPoolManager.new]
  length k := Disk.length_page (hdisk k.1) k.2
  written := by simp [start]
  fresh _ _ := rfl

/-! ## One call -/

/-- Only the page fetched enters the page table. -/
theorem pageTable_fetchPage {bp bp' : BufferPoolManager} {order : SetOrder} {r : Except PyErr Bytes}
    (hinv : bp.Inv) (hfetch : bp.fetchPage order k.2 k.1 = (r, bp')) {j : PageKey}
    (hj : bp'.pageTable j ≠ none) : bp.pageTable j ≠ none ∨ j = k := by
  obtain ⟨fileId, pageId⟩ := k
  simp only [BufferPoolManager.fetchPage] at hfetch
  cases hk : bp.pageTable (fileId, pageId) with
  | some f =>
      simp only [hk, Prod.mk.injEq] at hfetch
      rw [← hfetch.2] at hj
      exact Or.inl hj
  | none =>
      rcases BufferPoolManager.findFrame_cases order hinv with ⟨f, mid, hfind, hv⟩ | ⟨-, -, hfind⟩
      · simp only [hk, hfind, Prod.mk.injEq] at hfetch
        rw [← hfetch.2, BufferPoolManager.pageTable_loadPage hv] at hj
        by_cases hjk : j = (fileId, pageId)
        · exact Or.inr hjk
        · left
          by_cases hold : bp.frameTable f = some j
          · simp [hjk, hold] at hj
          · simpa [hjk, hold] using hj
      · simp only [hk, hfind, Prod.mk.injEq] at hfetch
        rw [← hfetch.2] at hj
        exact Or.inl hj

theorem kept_fetchPage (order : SetOrder) (h : Kept s w) (hk : k ∈ s.obtained) :
    ∃ w', Kept (s.step order (.fetchPage c k)) w' := by
  have hgone : k.1 ∉ w.gone := by simp [h.gone]
  have hfetch := BufferPoolManager.refines_fetch order h.refines hgone h.held
  by_cases hfull : k ∉ w.pins ∧ numFrames ≤ w.pins.toFinset.card
  · rw [if_pos hfull] at hfetch
    refine ⟨w, ?_⟩
    simp only [step, hfetch]
    exact h
  · rw [if_neg hfull] at hfetch
    obtain ⟨pool, hpool, hr⟩ := hfetch
    refine ⟨w.pin k, ?_⟩
    simp only [step, hpool]
    exact
      { refines := hr, gone := h.gone, pins := by simp [h.pins], unsaved := h.unsaved
        changed := fun x hx => Multiset.mem_cons_of_mem (h.changed x hx)
        heldObtained := fun x hx => by
          rcases Multiset.mem_cons.mp hx with rfl | hx
          · exact hk
          · exact h.heldObtained x hx
        exists_of_obtained := h.exists_of_obtained
        cachedObtained := fun j hj => by
          rcases pageTable_fetchPage h.refines.inv hpool hj with hj | rfl
          · exact h.cachedObtained j hj
          · exact hk
        length := h.length, written := h.written, fresh := h.fresh }

theorem kept_modifyPage (order : SetOrder) (h : Kept s w) {data : Bytes} (hk : (c, k) ∈ s.held)
    (hdata : data.length = pageSize) : Kept (s.step order (.modifyPage c k data)) (w.write k data) :=
  { refines := BufferPoolManager.refines_framePut h.refines (h.mem_pins hk) data
    gone := h.gone
    pins := h.pins
    unsaved := fun j hj => by
      rcases Finset.mem_insert.mp hj with rfl | hj
      · exact ⟨c, Finset.mem_insert_self _ _⟩
      · obtain ⟨d, hd⟩ := h.unsaved j hj
        exact ⟨d, Finset.mem_insert_of_mem hd⟩
    changed := fun x hx => by
      rcases Finset.mem_insert.mp hx with rfl | hx
      · exact hk
      · exact h.changed x hx
    heldObtained := h.heldObtained
    exists_of_obtained := h.exists_of_obtained
    cachedObtained := fun j hj => by
      refine h.cachedObtained j ?_
      unfold step BufferPoolManager.framePut at hj
      cases hf : s.pool.pageTable k <;> simpa [hf] using hj
    length := fun j => by
      by_cases hjk : j = k
      · subst hjk
        simpa using hdata
      · simpa [hjk] using h.length j
    written := fun j hj => by
      by_cases hjk : j = k
      · subst hjk
        simp [step]
      · simpa [step, hjk] using h.written j hj
    fresh := fun j hj => by
      have hjk : j ≠ k := fun heq => hj (heq ▸ h.heldObtained _ hk)
      simpa [step, hjk] using h.fresh j hj }

theorem kept_unpinPage (order : SetOrder) (h : Kept s w) {isDirty : Bool} (hk : (c, k) ∈ s.held)
    (hlast : (c, k) ∈ s.changed → isDirty = true ∨ 2 ≤ s.held.count (c, k)) :
    Kept (s.step order (.unpinPage c k isDirty)) (w.release k isDirty) := by
  have hobtained : k ∈ s.obtained := h.heldObtained _ hk
  obtain ⟨pool, hpool, hr⟩ := BufferPoolManager.refines_unpinPage h.refines (h.mem_pins hk) isDirty
    fun _ _ => h.savable hobtained
  have htable : pool.pageTable = s.pool.pageTable := by
    unfold BufferPoolManager.unpinPage at hpool
    cases hf : s.pool.pageTable k with
    | none => simp [hf] at hpool
    | some f =>
        by_cases hzero : s.pool.pinCount f = 0
        · simp [hf, hzero] at hpool
        · simp only [Prod.mk.eta, hf, if_neg hzero, Prod.mk.injEq, true_and] at hpool
          rw [← hpool]
  simp only [step, hpool]
  exact
    { refines := hr
      gone := h.gone
      pins := by
        have hmap : (s.held.erase (c, k)).map Prod.snd = (s.held.map Prod.snd).erase k :=
          Multiset.map_erase_of_mem Prod.snd s.held hk
        simp [h.pins, hmap]
      unsaved := fun j hj => by
        cases isDirty with
        | false => exact h.unsaved j hj
        | true =>
            obtain ⟨hjk, hj⟩ := Finset.mem_erase.mp hj
            obtain ⟨d, hd⟩ := h.unsaved j hj
            exact ⟨d, by simp [hd, hjk]⟩
      changed := fun x hx => by
        by_cases hxk : x = (c, k)
        · subst hxk
          cases isDirty with
          | true => simp at hx
          | false =>
              -- the client keeps a second pin on the page it has changed
              have htwo := (hlast hx).resolve_left (by simp)
              rw [← Multiset.count_pos, Multiset.count_erase_self]
              omega
        · have hx' : x ∈ s.changed := by
            cases isDirty with
            | true => exact Finset.mem_of_mem_erase hx
            | false => exact hx
          exact (Multiset.mem_erase_of_ne hxk).mpr (h.changed x hx')
      heldObtained := fun x hx => h.heldObtained x (Multiset.mem_of_mem_erase hx)
      exists_of_obtained := h.exists_of_obtained
      cachedObtained := fun j hj => h.cachedObtained j (by rwa [htable] at hj)
      length := h.length
      written := h.written
      fresh := h.fresh }

/-- A write-through by the pool itself, of one page or of all of them, changes
nothing the clients know. -/
theorem Kept.of_pool (h : Kept s w) {pool : BufferPoolManager} (hr : pool.Refines w)
    (htable : pool.pageTable = s.pool.pageTable) : Kept { s with pool := pool } w :=
  { refines := hr, gone := h.gone, pins := h.pins, unsaved := h.unsaved, changed := h.changed
    heldObtained := h.heldObtained, exists_of_obtained := h.exists_of_obtained
    cachedObtained := fun j hj => h.cachedObtained j (by rwa [← htable])
    length := h.length, written := h.written, fresh := h.fresh }

theorem kept_flushPage (order : SetOrder) (h : Kept s w) :
    Kept (s.step order (.flushPage k)) w := by
  cases hf : s.pool.pageTable k with
  | none =>
      have hsame : (s.pool.flushPage k).2 = s.pool := by simp [BufferPoolManager.flushPage, hf]
      simpa [step, hsame] using h
  | some f =>
      have hobtained : k ∈ s.obtained := h.cachedObtained k (by simp [hf])
      obtain ⟨hr, -⟩ := BufferPoolManager.refines_writeThrough h.refines hf
        fun _ => h.savable hobtained
      exact h.of_pool hr (by simp [BufferPoolManager.flushPage, hf])

theorem pageTable_flushFrames : ∀ (frames : List FrameId) (bp : BufferPoolManager),
    (BufferPoolManager.flushFrames frames bp).2.pageTable = bp.pageTable := by
  intro frames
  induction frames with
  | nil => exact fun _ => rfl
  | cons f rest ih =>
      intro bp
      unfold BufferPoolManager.flushFrames
      split
      · split
        · rfl
        · rename_i k _
          rw [ih]
          unfold BufferPoolManager.flushPage
          split <;> rfl
      · exact ih bp

theorem kept_flushAll (order : SetOrder) (h : Kept s w) : Kept (s.step order .flushAll) w := by
  obtain ⟨pool, hflush, hr, -⟩ := BufferPoolManager.refines_flushAll h.refines
    fun k _ _ => h.length k
  have htable := pageTable_flushFrames (List.finRange numFrames) s.pool
  rw [← BufferPoolManager.flushAll, hflush] at htable
  simp only [step, hflush]
  exact h.of_pool hr htable

theorem kept_allocatePage (order : SetOrder) (h : Kept s w) (f : FileId) :
    Kept (s.step order (.allocatePage f)) (w.extend f) := by
  have hf : f ∉ w.gone := by simp [h.gone]
  obtain ⟨hid, hr⟩ := BufferPoolManager.refines_allocatePage h.refines hf
  have hnew : (f, w.size f) ∉ s.obtained := fun hmem =>
    absurd (h.exists_of_obtained _ hmem) (Nat.lt_irrefl _)
  have hsize : ∀ k ∈ s.obtained, k.2 < (w.extend f).size k.1 := fun k hk => by
    have := h.exists_of_obtained k hk
    by_cases hkf : k.1 = f
    · rw [hkf] at this
      simp only [Flat.extend_size, hkf, Function.update_self]
      omega
    · simpa [hkf] using this
  exact
    { refines := hr
      gone := h.gone
      pins := h.pins
      unsaved := h.unsaved
      changed := h.changed
      heldObtained := fun x hx => Finset.mem_insert_of_mem (h.heldObtained x hx)
      exists_of_obtained := fun k hk => by
        simp only [step, hid] at hk
        rcases Finset.mem_insert.mp hk with rfl | hk
        · simp
        · exact hsize k hk
      cachedObtained := fun j hj => Finset.mem_insert_of_mem (h.cachedObtained j hj)
      length := h.length
      written := fun k hk => by
        simp only [step, hid] at hk ⊢
        rcases Finset.mem_insert.mp hk with rfl | hk
        · -- nobody has fetched the new page, and past the end the file reads as zeros
          have hnone : s.pool.pageTable (f, w.size f) = none := by
            by_contra hne
            exact hnew (h.cachedObtained _ hne)
          have hun : (f, w.size f) ∉ w.unsaved := fun hmem =>
            h.refines.cached _ hmem hnone
          have hpage := h.refines.disk (f, w.size f) hf hun fun g hg => by simp [hnone] at hg
          rw [h.fresh _ hnew, Flat.extend_mem, ← hpage]
          refine Disk.page_of_ge (BufferPoolManager.whole h.refines hf) ?_
          exact Nat.le_of_eq (BufferPoolManager.numPages_eq h.refines hf)
        · exact h.written k hk
      fresh := fun k hk => h.fresh k fun hmem => hk (Finset.mem_insert_of_mem hmem) }

/-- Every allowed call keeps the invariant. -/
theorem kept_step (order : SetOrder) (h : Kept s w) {call : PoolCall} (hcall : s.Allowed call) :
    ∃ w', Kept (s.step order call) w' := by
  cases call with
  | fetchPage c k => exact kept_fetchPage order h hcall
  | modifyPage c k data => exact ⟨_, kept_modifyPage order h hcall.1 hcall.2⟩
  | unpinPage c k isDirty => exact ⟨_, kept_unpinPage order h hcall.1 hcall.2⟩
  | flushPage k => exact ⟨_, kept_flushPage order h⟩
  | flushAll => exact ⟨_, kept_flushAll order h⟩
  | allocatePage f => exact ⟨_, kept_allocatePage order h f⟩

/-- The invariant holds in every reachable state. -/
theorem kept_of_reachable {order : SetOrder} (hs : Reachable order s) : ∃ w, Kept s w := by
  induction hs with
  | start disk hdisk => exact ⟨_, kept_start hdisk⟩
  | step call _ hcall ih =>
      obtain ⟨w, hw⟩ := ih
      exact kept_step order hw hcall

/-! ## Transparency -/

/-- With a pin to spare, a fetch is answered and its client holds the pin. -/
theorem held_fetchPage {order : SetOrder} (hs : Reachable order s)
    (hroom : Multiset.card s.held < numFrames) :
    (s.step order (.fetchPage c k)).held = (c, k) ::ₘ s.held := by
  obtain ⟨w, h⟩ := kept_of_reachable hs
  have hfetch := BufferPoolManager.refines_fetch (k := k) order h.refines (by simp [h.gone]) h.held
  have hcard : w.pins.toFinset.card < numFrames :=
    Nat.lt_of_le_of_lt (Multiset.toFinset_card_le _) (by simpa [h.pins] using hroom)
  rw [if_neg (fun hfull => absurd hfull.2 (Nat.not_le.mpr hcard))] at hfetch
  obtain ⟨pool, hpool, -⟩ := hfetch
  simp only [step, hpool]

/-- A new pool reads a page from disk. -/
theorem fetchPage_new {d : Disk} {w : Flat FileId Bytes} (order : SetOrder)
    (hr : (BufferPoolManager.new d).Refines w) (hgone : k.1 ∉ w.gone) (hpins : w.pins = 0)
    (hun : w.unsaved = ∅) :
    ∃ bp', (BufferPoolManager.new d).fetchPage order k.2 k.1 = (.ok (w.mem k), bp') := by
  have hfetch := BufferPoolManager.refines_fetch order hr hgone (by simp [Flat.Held, hun])
  rw [if_neg (by simp [hpins, numFrames])] at hfetch
  obtain ⟨bp', hbp', -⟩ := hfetch
  exact ⟨bp', hbp'⟩

/-- The buffer pool is transparent: in every state its clients can bring about,
a fetch that returns yields the bytes last written to the page; and when nobody
holds a pin, `flush_all` leaves files from which a new pool returns those bytes,
for every page. -/
theorem fetchPage_transparent (order order' : SetOrder) (hs : Reachable order s) :
    (∀ k ∈ s.obtained, ∀ raw pool, s.pool.fetchPage order' k.2 k.1 = (.ok raw, pool) →
      raw = s.written k) ∧
    (s.held = 0 → s.pool.flushAll.1 = .ok () ∧
      ∀ k ∈ s.obtained, ∃ pool,
        (BufferPoolManager.new s.pool.flushAll.2.disk).fetchPage order' k.2 k.1 =
          (.ok (s.written k), pool)) := by
  obtain ⟨w, h⟩ := kept_of_reachable hs
  constructor
  · intro k hk raw pool hfetch
    have hspec := BufferPoolManager.refines_fetch (k := k) order' h.refines (by simp [h.gone]) h.held
    split at hspec
    · rw [hspec] at hfetch
      simp at hfetch
    · obtain ⟨bp', hbp', -⟩ := hspec
      rw [hbp', Prod.mk.injEq] at hfetch
      rw [← h.written k hk]
      exact (Except.ok.inj hfetch.1).symm
  · intro hheld
    have hpins : w.pins = 0 := by simp [h.pins, hheld]
    have hun : w.unsaved = ∅ := by
      refine Finset.eq_empty_of_forall_notMem fun k hk => ?_
      have := h.held k hk
      simp [hpins] at this
    obtain ⟨pool, hflush, hr, hclean⟩ := BufferPoolManager.refines_flushAll h.refines
      fun k _ _ => h.length k
    have hnew := BufferPoolManager.refines_new hr hclean hpins hun
    rw [hflush]
    refine ⟨rfl, fun k hk => ?_⟩
    obtain ⟨bp', hbp'⟩ := fetchPage_new (k := k) order' hnew (by simp [h.gone]) hpins hun
    exact ⟨bp', by rw [hbp', h.written k hk]⟩

/-- A page is allocated, fetched, filled with sevens, released as dirty and
flushed; a new pool reads it back. -/
theorem fetchPage_transparent_sevens :
    ∃ s, Reachable .increasing s ∧ s.held = 0 ∧ (0, 0) ∈ s.obtained ∧
      s.written (0, 0) = List.replicate pageSize 7 ∧
      ∃ pool, (BufferPoolManager.new s.pool.flushAll.2.disk).fetchPage .increasing 0 0 =
        (.ok (s.written (0, 0)), pool) := by
  have hempty : ∀ f, Disk.empty.Whole f := fun f => by
    simp [Disk.Whole, Disk.content, Disk.empty, Disk.numPages]
  have h₁ : Reachable .increasing ((start Disk.empty).step .increasing (.allocatePage 0)) :=
    .step _ (.start Disk.empty hempty) trivial
  have hheld := held_fetchPage (c := 0) (k := (0, 0)) h₁ (by decide)
  have h₂ := Reachable.step (.fetchPage 0 (0, 0)) h₁ (Finset.mem_insert_self _ _)
  have hmem : (0, 0, 0) ∈ (((start Disk.empty).step .increasing (.allocatePage 0)).step .increasing
      (.fetchPage 0 (0, 0))).held := by
    rw [hheld]
    exact Multiset.mem_cons_self _ _
  have h₃ := Reachable.step (.modifyPage 0 (0, 0) (List.replicate pageSize 7)) h₂
    ⟨hmem, List.length_replicate⟩
  have h₄ := Reachable.step (.unpinPage 0 (0, 0) true) h₃ ⟨hmem, fun _ => .inl rfl⟩
  have hzero := congrArg (Multiset.erase · (0, 0, 0)) hheld
  simp only [Multiset.erase_cons_head] at hzero
  obtain ⟨w, hw⟩ := kept_of_reachable h₂
  have hobtained := hw.heldObtained _ hmem
  exact ⟨_, h₄, hzero, hobtained, by simp [step],
    ((fetchPage_transparent .increasing .increasing h₄).2 hzero).2 (0, 0) hobtained⟩

end Session

end DBEngine
