import DBEngine.Index.BTreeSeparators
import DBEngine.Index.IndexSearch

/-!
# Range scans and deletes

An index without the key 0 and with at most half a leaf of entries for each key
keeps its separators different, so all its inserts file their nodes in order.  Then
a range scan returns the live entries between its bounds, and a delete removes its
entry when it is live.
-/

set_option autoImplicit false

namespace DBEngine

open ByteBuffer Paged

namespace BTree

variable {t : BTree} {key : Int} {rid : Rid}

/-- The key is not outside the bounds; a bound that is `None` leaves its side open. -/
def inRange (start stop : Option Int) (key : Int) : Bool :=
  (!start.any fun s => decide (key < s)) && !stop.any fun s => decide (s < key)

/-- Up to an end bound a sorted list is taken whole, and no further. -/
theorem takeWhile_eq_filter {α : Type} {P : α → Bool} {xs : List α}
    (hmono : xs.Pairwise fun x y => P y = true → P x = true) : xs.takeWhile P = xs.filter P := by
  induction xs with
  | nil => rfl
  | cons x xs ih =>
      obtain ⟨hx, hrest⟩ := List.pairwise_cons.mp hmono
      by_cases hP : P x = true
      · rw [List.takeWhile_cons_of_pos hP, List.filter_cons_of_pos hP, ih hrest]
      · have hnone : xs.filter P = [] := List.filter_eq_nil_iff.mpr fun y hy hPy => hP (hx y hy hPy)
        rw [List.takeWhile_cons_of_neg hP, List.filter_cons_of_neg hP, hnone]

/-- In a sorted chain the walk of a range scan takes the entries between the bounds. -/
theorem rangeIn_eq {start stop : Option Int} {chain : List Leaf}
    (hsorted : (chain.flatMap Leaf.keys).Pairwise (· ≤ ·)) :
    rangeIn start stop chain =
      ((chain.flatMap Leaf.entries).filter fun e => inRange start stop e.1).map Prod.snd := by
  induction chain with
  | nil => rfl
  | cons leaf rest ih =>
      rw [List.flatMap_cons] at hsorted
      obtain ⟨hleaf, hrest, hcross⟩ := List.pairwise_append.mp hsorted
      have hsplit : ∀ es : List (Int × Rid), es.filter (fun e => inRange start stop e.1) =
          (es.filter fun e => !start.any fun s => decide (e.1 < s)).filter fun e =>
            !stop.any fun s => decide (s < e.1) := fun es => by
        rw [List.filter_filter]
        exact List.filter_congr fun e _ => Bool.and_comm _ _
      rw [rangeIn, List.flatMap_cons, List.filter_append, List.map_append, hsplit leaf.entries, ih hrest]
      generalize hinside : (leaf.entries.filter fun e => !start.any fun s => decide (e.1 < s)) = inside
      have hsub : inside.Sublist leaf.entries := by
        rw [← hinside]
        exact List.filter_sublist
      by_cases hpast : (inside.any fun e => stop.any fun s => decide (s < e.1)) = true
      · -- the walk ends: every entry behind is past the end
        obtain ⟨e, he, hend⟩ := List.any_eq_true.mp hpast
        obtain ⟨last, hstop, hlt⟩ := (Option.any_eq_true _ _).mp hend
        have hnone : ((rest.flatMap Leaf.entries).filter fun e => inRange start stop e.1) = [] := by
          refine List.filter_eq_nil_iff.mpr fun x hx => ?_
          have hle := hcross e.1 (List.mem_map_of_mem (hsub.subset he)) x.1
            (by rw [flatMap_keys]; exact List.mem_map_of_mem hx)
          have hlast : last < x.1 := Int.lt_of_lt_of_le (of_decide_eq_true hlt) hle
          simp [inRange, hstop, hlast]
        have hmono : inside.Pairwise fun x y =>
            (!stop.any fun s => decide (s < y.1)) = true → (!stop.any fun s => decide (s < x.1)) = true := by
          refine ((List.pairwise_map.mp hleaf).sublist hsub).imp fun {x y} hxy hy => ?_
          rw [hstop] at hy ⊢
          simp only [Option.any_some, Bool.not_eq_true', decide_eq_false_iff_not] at hy ⊢
          exact fun hx => hy (Int.lt_of_lt_of_le hx hxy)
        rw [if_pos hpast, takeWhile_eq_filter hmono, hnone]
        simp
      · have hall : (inside.filter fun e => !stop.any fun s => decide (s < e.1)) = inside :=
          List.filter_eq_self.mpr fun e he => by
            rw [Bool.not_eq_true']
            exact Bool.eq_false_iff.mpr fun h => hpast (List.any_eq_true.mpr ⟨e, he, h⟩)
        rw [if_neg hpast, hall]

/-- In a tree in order a range scan returns the entries between the bounds in the
order of the chain. -/
theorem Ordered.rangeScan_eq (ho : t.Ordered) (h : t.Shape) (start stop : Option Int) :
    t.rangeScan start stop = (t.entries.filter fun e => inRange start stop e.1).map Prod.snd := by
  cases start with
  | none => exact rangeIn_eq (ho.sorted_chain h)
  | some key =>
      obtain ⟨leaf, trail, C₁, C₂, hr⟩ := h.reaches key
      obtain ⟨hlt, hwalk⟩ := ho.cut h hr
      have hbefore : ((C₁.flatMap Leaf.entries).filter fun e => inRange (some key) stop e.1) = [] := by
        refine List.filter_eq_nil_iff.mpr fun e he => ?_
        simp [inRange, hlt e he]
      simp only [rangeScan, hr.leafOf, h.chainFrom_eq hr.chain]
      rw [rangeIn_eq hwalk, entries, hr.chain, List.flatMap_append, List.filter_append, hbefore]
      rfl

/-! ## Equal bounds -/

/-- In a leaf in order some key is past a bound exactly if the last one is. -/
theorem any_past_iff {leaf : Leaf} (h : LeafOk leaf) (key : Int) :
    (leaf.entries.any fun e => decide (key < e.1)) = leaf.passed key := by
  have hsorted : leaf.entries.Pairwise fun a b => a.1 ≤ b.1 := List.pairwise_map.mp h.sorted
  rw [Leaf.passed]
  rcases List.eq_nil_or_concat' leaf.entries with hnil | ⟨init, last, hinit⟩
  · rw [hnil]
    rfl
  · rw [hinit] at hsorted ⊢
    rw [List.getLast?_concat, Option.any_some, Bool.eq_iff_iff, List.any_eq_true]
    constructor
    · rintro ⟨e, he, hpast⟩
      have hle : e.1 ≤ last.1 := by
        rcases List.mem_append.mp he with hfront | hlast
        · exact (List.pairwise_append.mp hsorted).2.2 e hfront last (List.mem_singleton_self _)
        · rw [List.mem_singleton.mp hlast]
      exact decide_eq_true (Int.lt_of_lt_of_le (of_decide_eq_true hpast) hle)
    · exact fun hpast => ⟨last, List.mem_append_right _ (List.mem_singleton_self _), hpast⟩

/-- Between equal bounds a leaf gives the record ids of the key, whether the walk ends in
it or goes on. -/
theorem searchIn_eq_rangeIn {chain : List Leaf} (hchain : ∀ l ∈ chain, LeafOk l) (key : Int) :
    searchIn key chain = rangeIn (some key) (some key) chain := by
  induction chain with
  | nil => rfl
  | cons leaf rest ih =>
      have hleaf := hchain leaf List.mem_cons_self
      rw [searchIn, rangeIn, ih fun l hl => hchain l (List.mem_cons_of_mem _ hl), Leaf.lookup]
      simp only [Option.any_some]
      generalize hinside : (leaf.entries.filter fun e => !decide (e.1 < key)) = inside
      have hsub : inside.Sublist leaf.entries := by
        rw [← hinside]
        exact List.filter_sublist
      have hpast : (inside.any fun e => decide (key < e.1)) = leaf.passed key := by
        rw [← any_past_iff hleaf, ← hinside, List.any_filter]
        congr 1
        funext e
        by_cases hlt : key < e.1
        · simp [hlt, Int.not_lt.mpr (Int.le_of_lt hlt)]
        · simp [hlt]
      have hequal : (inside.filter fun e => !decide (key < e.1)) =
          leaf.entries.filter fun e => decide (e.1 = key) := by
        rw [← hinside, List.filter_filter]
        refine List.filter_congr fun e _ => ?_
        rw [← Bool.not_or, Bool.eq_iff_iff, Bool.not_eq_true', ← Bool.decide_or,
          decide_eq_false_iff_not, decide_eq_true_iff]
        omega
      rw [hpast]
      by_cases hpassed : leaf.passed key = true
      · have hmono : inside.Pairwise fun x y =>
            (!decide (key < y.1)) = true → (!decide (key < x.1)) = true := by
          refine ((List.pairwise_map.mp hleaf.sorted).sublist hsub).imp fun {x y} hxy hy => ?_
          simp only [Bool.not_eq_true', decide_eq_false_iff_not] at hy ⊢
          exact fun hx => hy (Int.lt_of_lt_of_le hx hxy)
        rw [if_pos hpassed, if_pos hpassed, takeWhile_eq_filter hmono, hequal, List.append_nil]
      · have hall : (inside.filter fun e => !decide (key < e.1)) = inside :=
          List.filter_eq_self.mpr fun e he => by
            rw [Bool.not_eq_true']
            exact Bool.eq_false_iff.mpr fun hlt =>
              hpassed (hpast ▸ List.any_eq_true.mpr ⟨e, he, hlt⟩)
        rw [if_neg hpassed, if_neg hpassed, ← hequal, hall]

/-- Both walks start at the leaf of the key. -/
theorem search_eq_rangeScan (h : t.Shape) (key : Int) :
    t.search key = t.rangeScan (some key) (some key) := by
  obtain ⟨leaf, trail, C₁, C₂, hr⟩ := h.reaches key
  simp only [search, rangeScan, hr.leafOf]
  exact searchIn_eq_rangeIn
    (fun l hl => h.leafOk ((List.dropWhile_sublist _).subset hl)) key

end BTree

namespace IndexSession

variable {order : SetOrder} {f : FileId} {s s' : IndexSession} {w w' : Flat FileId Bytes} {t : BTree}
  {key : Int} {rid : Rid}

/-- Inserts of keys other than 0 that have fewer than 50 live entries, and deletes;
the index is not opened again. -/
def Sparse (s : IndexSession) : IndexCall → Prop
  | .insert key _ => key ≠ 0 ∧ (s.live.map Prod.fst).count key < BTreePage.maxKeys / 2
  | .delete _ _ => True
  | .reopen => False

/-- What the calls keep: the separators differ and none of them is 0, and no key has
too many entries. -/
structure Sound (s : IndexSession) (t : BTree) : Prop where
  ordered : t.Ordered
  strict : t.separators.Pairwise (· < ·)
  nonzero : 0 ∉ t.separators
  keys : 0 ∉ s.live.map Prod.fst
  few : ∀ k, (s.live.map Prod.fst).count k ≤ BTreePage.maxKeys / 2

theorem sound_create (order : SetOrder) {disk : Disk} (h : Kept f (create order f disk) w BTree.empty) :
    Sound (create order f disk) BTree.empty := by
  have hlive : (create order f disk).live = 0 := by rw [← h.entries]; rfl
  refine ⟨BTree.ordered_empty, List.Pairwise.nil, List.not_mem_nil, ?_, fun k => ?_⟩
  · simp [hlive]
  · simp [hlive]

/-- The keys of the tree are those that are live. -/
theorem Kept.count_keys (h : Kept f s w t) (k : Int) :
    (t.entries.map Prod.fst).count k = (s.live.map Prod.fst).count k := by
  rw [← h.entries, Multiset.map_coe, Multiset.coe_count]

theorem Kept.mem_keys (h : Kept f s w t) (k : Int) : k ∈ t.entries.map Prod.fst ↔ k ∈ s.live.map Prod.fst := by
  rw [← h.entries, Multiset.map_coe, Multiset.mem_coe]

/-- A delete leaves the separators. -/
theorem separators_delete (h : t.Shape) (key : Int) (rid : Rid) : (t.delete key rid).2.separators = t.separators := by
  rcases h.delete_cases key rid with hnone | ⟨C₁, leaf, C₂, hchain, -, hsome⟩
  · rw [hnone]
  · rw [hsome, BTree.separators, BTree.separators, hchain]
    simp

/-- What is live after a delete. -/
theorem live_of_delete (hrun : s.step order f (.delete key rid) = .ok s') :
    ∃ removed, (s.run order (BPlusTree.delete f key rid)).1 = .ok removed ∧
      s'.live = if removed then s.live.erase (key, rid) else s.live := by
  rw [step_delete] at hrun
  cases hres : s.run order (BPlusTree.delete f key rid) with
  | mk r rest =>
      rw [hres] at hrun
      cases r with
      | error e => exact absurd hrun (by simp [returned])
      | ok removed => exact ⟨removed, rfl, by rw [← Except.ok.inj hrun]⟩

/-- One call keeps what the calls keep. -/
theorem Sound.step (hsound : Sound s t) (h : Kept f s w t) {call : IndexCall} (htyped : call.Typed)
    (hcall : Sparse s call) (hrun : s.step order f call = .ok s') :
    ∃ w' t', Kept f s' w' t' ∧ Sound s' t' := by
  cases call with
  | insert key rid =>
      obtain ⟨hkey, hrid⟩ := htyped
      rcases h.run_insert order hkey hrid with ⟨-, herror⟩ | ⟨s'', w', hstep, hlive, h'⟩
      · rw [herror] at hrun
        exact absurd hrun (by simp)
      · rw [hstep] at hrun
        obtain rfl := Except.ok.inj hrun
        have hfew : ∀ k, (s''.live.map Prod.fst).count k ≤ BTreePage.maxKeys / 2 := fun k => by
          rw [hlive, Multiset.map_cons, Multiset.count_cons]
          by_cases hk : k = key
          · rw [if_pos hk, hk]
            exact hcall.2
          · rw [if_neg hk]
            exact hsound.few k
        have hkeys : 0 ∉ s''.live.map Prod.fst := by
          rw [hlive, Multiset.map_cons, Multiset.mem_cons, not_or]
          exact ⟨fun hzero => hcall.1 hzero.symm, hsound.keys⟩
        have hfew' : (t.insert key rid).FewEqual := fun k => by
          rw [h'.count_keys]
          exact hfew k
        have hkeys' : 0 ∉ (t.insert key rid).entries.map Prod.fst := by rwa [h'.mem_keys]
        have hzero := hsound.ordered.not_splitsAtZero h.shape hkey hrid hsound.strict hfew' hsound.nonzero hkeys'
        obtain ⟨hin, hstrict, hmem⟩ := hsound.ordered.insert_strict h.shape hkey hrid hsound.strict hfew' hzero
        refine ⟨w', _, h', hsound.ordered.insert h.shape hkey hrid hin, hstrict, fun hsep => ?_, hkeys, hfew⟩
        rcases hmem 0 hsep with hsep | hsep
        · exact hsound.nonzero hsep
        · exact hkeys' hsep
  | delete key rid =>
      obtain ⟨w', h'⟩ := h.step htyped hrun
      have hle : s'.live ≤ s.live := by
        obtain ⟨removed, -, hlive⟩ := live_of_delete hrun
        rw [hlive]
        split
        · exact Multiset.erase_le _ _
        · exact le_refl _
      have hsub : s'.live.map Prod.fst ≤ s.live.map Prod.fst := Multiset.map_le_map hle
      refine ⟨w', _, h', hsound.ordered.delete h.shape key rid, ?_, ?_, fun hmem => ?_, fun k => ?_⟩
      · rw [BTree.after, separators_delete h.shape]
        exact hsound.strict
      · rw [BTree.after, separators_delete h.shape]
        exact hsound.nonzero
      · exact hsound.keys (Multiset.mem_of_le hsub hmem)
      · exact Nat.le_trans (Multiset.count_le_of_le k hsub) (hsound.few k)
  | reopen => exact hcall.elim

theorem sound_of_reachable (hs : Reachable order f Sparse s) : ∃ w t, Kept f s w t ∧ Sound s t := by
  induction hs with
  | create disk hdisk hempty =>
      obtain ⟨w, h⟩ := kept_create order hdisk hempty
      exact ⟨w, _, h, sound_create order h⟩
  | step call _ htyped hcall hrun ih =>
      obtain ⟨w, t, h, hsound⟩ := ih
      exact hsound.step h htyped hcall hrun

/-- A scan between two bounds, `None` for a side that is open. -/
def Inside (start stop : Option Int) (key : Int) : Prop := (∀ a ∈ start, a ≤ key) ∧ ∀ b ∈ stop, key ≤ b

instance (start stop : Option Int) (key : Int) : Decidable (Inside start stop key) :=
  inferInstanceAs (Decidable (_ ∧ _))

theorem inRange_iff (start stop : Option Int) (key : Int) :
    BTree.inRange start stop key = decide (Inside start stop key) := by
  rw [Bool.eq_iff_iff]
  cases start <;> cases stop <;> simp [BTree.inRange, Inside]

/-- A range scan returns the live entries between its bounds, sorted by their keys. -/
theorem Kept.rangeScan_eq (order : SetOrder) (h : Kept f s w t) (ho : t.Ordered) (start stop : Option Int) :
    ∃ found : List (Int × Rid),
      (s.run order (BPlusTree.rangeScan f start stop)).1 = .ok (found.map Prod.snd) ∧
      found.Pairwise (fun a b => a.1 ≤ b.1) ∧
      (found : Multiset (Int × Rid)) = s.live.filter fun e => Inside start stop e.1 := by
  obtain ⟨pool, hpool, -⟩ := h.run_eq order (run_rangeScan h.shape h.rep start stop) (by simp)
  refine ⟨t.entries.filter fun e => BTree.inRange start stop e.1, ?_, ?_, ?_⟩
  · rw [hpool, ho.rangeScan_eq h.shape]
  · have hsorted := ho.sorted_chain h.shape
    rw [BTree.flatMap_keys] at hsorted
    exact (List.pairwise_map.mp hsorted).sublist List.filter_sublist
  · rw [← h.entries, Multiset.filter_coe]
    simp only [inRange_iff]

theorem Reachable.mono {allowed allowed' : IndexSession → IndexCall → Prop}
    (hle : ∀ s call, allowed s call → allowed' s call) (hs : Reachable order f allowed s) :
    Reachable order f allowed' s := by
  induction hs with
  | create disk hdisk hempty => exact .create disk hdisk hempty
  | step call _ htyped hcall hrun ih => exact .step call ih htyped (hle _ _ hcall) hrun

end IndexSession

end DBEngine
