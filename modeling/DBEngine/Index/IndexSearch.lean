import DBEngine.Index.BTreeOrder
import DBEngine.Index.IndexCount

/-!
# What a search finds

As long as the inserts of a run file their nodes in order, a search returns the
live entries of its key, and when moreover each entry goes behind those of its
key, it returns them in the order in which they came.  With enough equal keys
neither holds.
-/

set_option autoImplicit false

namespace DBEngine

open ByteBuffer Paged

/-! ## The entries of a key -/

namespace BTree

variable {t : BTree} {key k : Int} {rid : Rid}

/-- The record ids of a key, in the order of the chain. -/
def ridsOf (t : BTree) (key : Int) : List Rid :=
  (t.entries.filter fun e => decide (e.1 = key)).map Prod.snd

/-- No entry of the key stands behind the leaf of the key. -/
def NoneBehind (t : BTree) (key : Int) : Prop :=
  ∀ leaf trail, t.leafOf key = some (leaf, trail) →
    ∀ l ∈ (t.chainFrom leaf.pageId).tail, ∀ e ∈ l.entries, e.1 ≠ key

/-- An insert adds its record id behind those of its key, when none of them stand
behind its leaf, and leaves the other keys alone. -/
theorem ridsOf_insert (h : t.Shape) (hnone : t.NoneBehind key) :
    (t.insert key rid).ridsOf k = t.ridsOf k ++ if key = k then [rid] else [] := by
  obtain ⟨leaf, trail, C₁, C₂, hr⟩ := h.reaches key
  have hbehind : ∀ e ∈ C₂.flatMap Leaf.entries, e.1 ≠ key := fun e he => by
    obtain ⟨l, hl, he⟩ := List.mem_flatMap.mp he
    exact hnone leaf trail hr.leafOf l (by rw [h.chainFrom_eq hr.chain]; exact hl) e he
  obtain ⟨lo, hi, hentries, hinsert, hlo, hhi⟩ :=
    leaf_insert_cases (h.leafOk (show leaf ∈ t.chain by simp [hr.chain])) key rid
  have hold : t.entries = (C₁.flatMap Leaf.entries ++ lo) ++ (hi ++ C₂.flatMap Leaf.entries) := by
    rw [entries, hr.chain, List.flatMap_append, List.flatMap_cons, hentries]
    simp
  have hnew : (t.insert key rid).entries =
      (C₁.flatMap Leaf.entries ++ lo) ++ (key, rid) :: (hi ++ C₂.flatMap Leaf.entries) := by
    rw [insert_entries h hr, hinsert]
    simp
  have hrest : ∀ e ∈ hi ++ C₂.flatMap Leaf.entries, e.1 ≠ key := fun e he => by
    rcases List.mem_append.mp he with he | he
    · exact Int.ne_of_gt (hhi e he)
    · exact hbehind e he
  generalize C₁.flatMap Leaf.entries ++ lo = front at hold hnew
  generalize hi ++ C₂.flatMap Leaf.entries = back at hold hnew hrest
  rw [ridsOf, ridsOf, hold, hnew]
  by_cases hk : key = k
  · subst hk
    have hback : (back.filter fun e => decide (e.1 = key)) = [] :=
      List.filter_eq_nil_iff.mpr fun e he => by simpa using hrest e he
    simp [List.filter_append, hback]
  · simp [List.filter_append, hk]

end BTree

namespace IndexSession

variable {order : SetOrder} {f : FileId} {s s' : IndexSession} {w w' : Flat FileId Bytes} {t : BTree}
  {key : Int} {rid : Rid}

/-! ## Runs whose inserts file their nodes in order -/

/-- The nodes that come of the call are filed in order. -/
def FilesInOrder (f : FileId) (s : IndexSession) : IndexCall → Prop
  | .insert key rid => ∀ w t, Kept f s w t → t.InsertsInOrder key rid
  | _ => True

/-- Few entries do not fill a leaf. -/
theorem insertsInOrder_of_few (h : Kept f s w t) (hfew : s.live.card < BTreePage.maxKeys) (key : Int)
    (rid : Rid) : t.InsertsInOrder key rid := by
  intro leaf trail hleaf hfull
  obtain ⟨leaf', trail', C₁, C₂, hr⟩ := h.shape.reaches key
  obtain ⟨rfl, rfl⟩ := Prod.mk.inj (Option.some.inj (hr.leafOf.symm.trans hleaf))
  have hlength := length_entries_insert key rid (h.shape.leafOk (show leaf' ∈ t.chain by simp [hr.chain]))
  have hle : leaf'.entries.length ≤ t.entries.length := by
    rw [BTree.entries, hr.chain, List.flatMap_append, List.flatMap_cons]
    simp only [List.length_append]
    omega
  rw [h.card_live] at hfew
  omega

/-- One call keeps the tree in order. -/
theorem Kept.ordered_step (h : Kept f s w t) (ho : t.Ordered) {call : IndexCall} (htyped : call.Typed)
    (hcall : FilesInOrder f s call) : (t.after call).Ordered := by
  cases call with
  | insert key rid => exact ho.insert h.shape htyped.1 htyped.2 (hcall w t h)
  | delete key rid => exact ho.delete h.shape key rid
  | reopen => exact ⟨ho.linked, ho.sorted⟩

theorem ordered_of_reachable (hs : Reachable order f (FilesInOrder f) s) :
    ∃ w t, Kept f s w t ∧ t.Ordered := by
  induction hs with
  | create disk hdisk hempty =>
      obtain ⟨w, h⟩ := kept_create order hdisk hempty
      exact ⟨w, _, h, BTree.ordered_empty⟩
  | step call _ htyped hcall hrun ih =>
      obtain ⟨w, t, h, ho⟩ := ih
      obtain ⟨w', h'⟩ := h.step htyped hrun
      exact ⟨w', _, h', h.ordered_step ho htyped hcall⟩

/-- The first insert into a new index. -/
theorem insert_new (order : SetOrder) : ∃ s, (create order 0 Disk.empty).step order 0 (.insert 1 (1, 1)) = .ok s ∧
    s.live = {(1, (1, 1))} := by
  obtain ⟨w, h⟩ := kept_create (f := 0) order Disk.whole_empty rfl
  have htyped : (IndexCall.insert 1 (1, 1)).Typed := by decide
  rcases h.run_insert order htyped.1 htyped.2 with ⟨hfull, -⟩ | ⟨s, w', hstep, hlive, -⟩
  · exact absurd (by decide) hfull
  · refine ⟨s, hstep, ?_⟩
    rw [hlive, ← h.entries]
    rfl

theorem live_new (order : SetOrder) : (create order 0 Disk.empty).live = 0 := by
  obtain ⟨w, h⟩ := kept_create (f := 0) order Disk.whole_empty rfl
  rw [← h.entries]
  rfl

/-- The states reached by inserts that return, with the entries in the order in
which they were inserted. -/
inductive Filled (order : SetOrder) (f : FileId) (allowed : IndexSession → IndexCall → Prop) :
    List (Int × Rid) → IndexSession → Prop
  | create (disk : Disk) (hdisk : ∀ g, disk.Whole g) (hempty : disk.numPages f = 0) :
      Filled order f allowed [] (create order f disk)
  | insert {es : List (Int × Rid)} {s s' : IndexSession} (key : Int) (rid : Rid)
      (hs : Filled order f allowed es s) (htyped : (IndexCall.insert key rid).Typed)
      (hcall : allowed s (.insert key rid)) (hrun : s.step order f (.insert key rid) = .ok s') :
      Filled order f allowed (es ++ [(key, rid)]) s'

variable {allowed : IndexSession → IndexCall → Prop} {es : List (Int × Rid)}

theorem Filled.reachable (hs : Filled order f allowed es s) : Reachable order f allowed s := by
  induction hs with
  | create disk hdisk hempty => exact .create disk hdisk hempty
  | insert key rid _ htyped hcall hrun ih => exact .step _ ih htyped hcall hrun

/-- The entries are live. -/
theorem Filled.live (hs : Filled order f allowed es s) : s.live = es := by
  induction hs with
  | create disk hdisk hempty =>
      obtain ⟨w, h⟩ := kept_create order hdisk hempty
      exact h.entries.symm
  | @insert es s s' key rid hs htyped hcall hrun ih =>
      obtain ⟨w, t, h⟩ := kept_of_reachable hs.reachable
      rcases h.run_insert order htyped.1 htyped.2 with ⟨-, herror⟩ | ⟨s'', w', hstep, hlive, -⟩
      · rw [herror] at hrun
        exact absurd hrun (by simp)
      · rw [hstep] at hrun
        rw [← Except.ok.inj hrun, hlive, ih, Multiset.cons_coe, Multiset.coe_eq_coe]
        exact (List.perm_append_singleton (key, rid) es).symm

/-- The tree after inserts. -/
def insertAll (t : BTree) (es : List (Int × Rid)) : BTree := es.foldl (fun t e => t.insert e.1 e.2) t

/-- Inserts for which there is room. -/
def Growing : BTree → List (Int × Rid) → Prop
  | _, [] => True
  | t, e :: es => (IndexCall.insert e.1 e.2).Typed ∧ t.CanGrow ∧ Growing (t.insert e.1 e.2) es

instance decidableGrowing : ∀ (t : BTree) (es : List (Int × Rid)), Decidable (Growing t es)
  | _, [] => isTrue trivial
  | t, e :: es =>
      have := decidableGrowing (t.insert e.1 e.2) es
      inferInstanceAs (Decidable (_ ∧ _ ∧ _))

/-- Inserts for which there is room return. -/
theorem Kept.fill (h : Kept f s w t) {es₀ : List (Int × Rid)}
    (hs : Filled order f (fun _ _ => True) es₀ s) (hgrow : Growing t es) :
    ∃ s' w', Filled order f (fun _ _ => True) (es₀ ++ es) s' ∧ Kept f s' w' (insertAll t es) := by
  induction es generalizing s w t es₀ with
  | nil => exact ⟨s, w, by rwa [List.append_nil], h⟩
  | cons e es ih =>
      obtain ⟨htyped, hcan, hrest⟩ := hgrow
      rcases h.run_insert order htyped.1 htyped.2 with ⟨hfull, -⟩ | ⟨s₁, w₁, hstep, -, h₁⟩
      · exact absurd hcan hfull
      · obtain ⟨s', w', hs', h'⟩ := ih h₁ (.insert e.1 e.2 hs htyped trivial hstep) hrest
        exact ⟨s', w', by simpa using hs', h'⟩

variable (es) in
/-- A new index is filled by inserts for which there is room. -/
theorem fill_new (hgrow : Growing BTree.empty es) :
    ∃ s w, Filled .increasing 0 (fun _ _ => True) es s ∧ Kept 0 s w (insertAll BTree.empty es) := by
  obtain ⟨w, h⟩ := kept_create (f := 0) .increasing Disk.whole_empty rfl
  exact h.fill (.create Disk.empty Disk.whole_empty rfl) hgrow

/-- So many entries with one key. -/
def equalKeys (n : Nat) (key : Int) : List (Int × Rid) := (List.range n).map fun i => (key, (1, i))

/-- The nodes that come of an insert are filed in order, and no entry of its key
stands in a leaf behind the one to which it goes. -/
def InsertsLast (f : FileId) (s : IndexSession) : IndexCall → Prop
  | .insert key rid => ∀ w t, Kept f s w t → t.InsertsInOrder key rid ∧ t.NoneBehind key
  | _ => True

/-- The entries of each key stand in the chain as they were inserted. -/
theorem Filled.ridsOf (hs : Filled order f (InsertsLast f) es s) :
    ∃ w t, Kept f s w t ∧ t.Ordered ∧
      ∀ key, t.ridsOf key = (es.filter fun e => decide (e.1 = key)).map Prod.snd := by
  induction hs with
  | create disk hdisk hempty =>
      obtain ⟨w, h⟩ := kept_create order hdisk hempty
      exact ⟨w, _, h, BTree.ordered_empty, fun _ => rfl⟩
  | @insert es s s' key rid hs htyped hcall hrun ih =>
      obtain ⟨w, t, h, ho, hrids⟩ := ih
      obtain ⟨hin, hnone⟩ := hcall w t h
      obtain ⟨w', h'⟩ := h.step htyped hrun
      refine ⟨w', _, h', ho.insert h.shape htyped.1 htyped.2 hin, fun k => ?_⟩
      rw [BTree.after, BTree.ridsOf_insert h.shape hnone, hrids, List.filter_append, List.map_append]
      by_cases hk : key = k <;> simp [hk]

end IndexSession

end DBEngine
