import DBEngine.Index.BTreeOrder

/-!
# Separators that differ

When no half of a leaf has one key only, the separators of a tree are strictly
increasing, and then every new node is filed behind the one it was split from.
What is left is the split key 0 of a node below the root: it is taken for no key
at all, and the first key of the new node is filed a second time.
-/

set_option autoImplicit false

namespace DBEngine

/-- A node below the root is split at the key 0. -/
def PromotesZero : List InnerPage → Int → Nat → Nat → Prop
  | [], _, _, _ => False
  | node :: trail, minKey, pointer, next =>
      (node.filed minKey pointer).isOverflow = true ∧
        (trail ≠ [] ∧ (node.filed minKey pointer).middle = 0 ∨
          PromotesZero trail (node.filed minKey pointer).middle next (next + 1))

section

variable {key m : Int} {root p q next : Nat} {levels : List (List InnerPage)} {P₁ P₂ : List Nat}
  {trail : List InnerPage} {R₁ R₂ : List (List Int)}

/-- A run stands in what is read around it. -/
theorem Way.sublist_read (hok : NodesOk levels) (hway : Way key root levels P₁ p P₂ trail)
    (h₁ : R₁.length = P₁.length) (h₂ : R₂.length = P₂.length) (run : List Int) :
    run.Sublist (Runs.read (separatorsOf levels) (R₁ ++ run :: R₂)) := by
  obtain ⟨A, B, hread, -⟩ := hway.around hok h₁ h₂
  rw [hread]
  exact (List.sublist_append_left run B).trans (List.sublist_append_right A _)

variable (levels) in
/-- A shorter run leaves less to read. -/
theorem read_run_mono {run run' : List Int} (h : run.Sublist run') (R₁ R₂ : List (List Int)) :
    (Runs.read (separatorsOf levels) (R₁ ++ run :: R₂)).Sublist
      (Runs.read (separatorsOf levels) (R₁ ++ run' :: R₂)) :=
  Runs.read_mono (List.rel_append (List.forall₂_same.mpr fun _ _ => List.Sublist.refl _)
    (.cons h (List.forall₂_same.mpr fun _ _ => List.Sublist.refl _))) _

/-- Among separators that differ a new one has its place in the node that the way
passes. -/
theorem Way.place {above : List (List InnerPage)} {lo hi : List InnerPage} {node : InnerPage}
    {klo khi : List Int} {plo phi : List Nat} (h : OnWay key lo node hi klo khi plo p phi)
    (hok : NodesOk above) (up : Way key root above (idsOf lo) node.pageId (idsOf hi) trail)
    (h₁ : R₁.length = (pointersOf lo ++ plo).length) (h₂ : R₂.length = (phi ++ pointersOf hi).length)
    (hstrict : (Runs.read (separatorsOf ((lo ++ node :: hi) :: above)) (R₁ ++ [m] :: R₂)).Pairwise (· < ·)) :
    (node.keys.findIdx fun k => decide (m < k)) = node.keys.countP (fun k => decide (k < key)) := by
  obtain ⟨A₁, B₁, B₂, A₂, hcut⟩ := h.runsCut h₁ h₂
  rw [read_cons, hcut.weaveAll h.keys, Runs.weave_eq hcut.klo] at hstrict
  have hnode := hstrict.sublist (up.sublist_read hok (by simp [idsOf]) (by simp [idsOf]) _)
  obtain ⟨-, hright, hcross⟩ := List.pairwise_append.mp hnode
  have hlo : ∀ k ∈ klo, k ≤ m := fun k hk =>
    Int.le_of_lt (hcross k ((Runs.sublist_before hcut.klo).subset hk) m List.mem_cons_self)
  have hhi : ∀ k ∈ khi, m < k := fun k hk =>
    (List.pairwise_cons.mp hright).1 k ((Runs.sublist_behind hcut.khi).subset hk)
  rw [h.keys, countP_cut h.lt h.le]
  exact findIdx_cut (fun k => k) hlo fun k hk => hhi k (List.mem_of_mem_head? hk)

/-- Among separators that differ every new node is filed in order, unless the split
key 0 goes up. -/
theorem Way.filedInOrder (hok : NodesOk levels) (hway : Way key root levels P₁ p P₂ trail)
    (hm : formati.Fits m) (h₁ : R₁.length = P₁.length) (h₂ : R₂.length = P₂.length)
    (hstrict : (Runs.read (separatorsOf levels) (R₁ ++ [m] :: R₂)).Pairwise (· < ·))
    (hzero : ¬ PromotesZero trail m q next) : FiledInOrder key trail m q next := by
  induction hway generalizing m q next R₁ R₂ with
  | top => trivial
  | @down above lo hi node trail plo phi p klo khi up keys pointers length lt le ih =>
      have h := OnWay.of_down hok keys pointers length lt le
      have habove : NodesOk above := fun l hl => hok l (List.mem_cons_of_mem _ hl)
      have hplace := Way.place h habove up h₁ h₂ hstrict
      refine ⟨hplace, fun hover => ⟨fun hne => ?_, ?_⟩⟩
      · exact if_pos fun hmiddle => hzero ⟨hover, Or.inl ⟨hne, hmiddle⟩⟩
      · have hfiledOk := nodeOk_filed h.nodeOk hm q
        have hne' : (node.filed m q).keys ≠ [] := by simp [h.filed_eq hplace]
        obtain ⟨S₁, S₂, s₁, s₂, hS₁, hS₂, -, hold, -⟩ :=
          h.level_split (q := q) hplace hm next h₁ h₂ [] []
        rw [List.nil_append] at hold
        rw [read_cons, hold] at hstrict
        refine ih habove (nodeOk_halves hfiledOk hne' next).2.2 hS₁ hS₂ (hstrict.sublist ?_)
          fun hup => hzero ⟨hover, Or.inr hup⟩
        exact read_run_mono above (List.sublist_append_of_sublist_right
          (List.singleton_sublist.mpr List.mem_cons_self)) S₁ S₂

/-- No node is split at 0 where nothing that is read is 0. -/
theorem Way.not_promotesZero (hok : NodesOk levels) (hway : Way key root levels P₁ p P₂ trail)
    (hm : formati.Fits m) (h₁ : R₁.length = P₁.length) (h₂ : R₂.length = P₂.length)
    (hstrict : (Runs.read (separatorsOf levels) (R₁ ++ [m] :: R₂)).Pairwise (· < ·))
    (hzero : 0 ∉ Runs.read (separatorsOf levels) (R₁ ++ [m] :: R₂)) : ¬ PromotesZero trail m q next := by
  induction hway generalizing m q next R₁ R₂ with
  | top => exact id
  | @down above lo hi node trail plo phi p klo khi up keys pointers length lt le ih =>
      have h := OnWay.of_down hok keys pointers length lt le
      have habove : NodesOk above := fun l hl => hok l (List.mem_cons_of_mem _ hl)
      have hplace := Way.place h habove up h₁ h₂ hstrict
      have hfiledOk := nodeOk_filed h.nodeOk hm q
      have hne : (node.filed m q).keys ≠ [] := by simp [h.filed_eq hplace]
      obtain ⟨S₁, S₂, s₁, s₂, hS₁, hS₂, -, hold, -⟩ := h.level_split (q := q) hplace hm next h₁ h₂ [] []
      rw [List.nil_append] at hold
      rw [read_cons, hold] at hstrict hzero
      have hmiddle : [(node.filed m q).middle].Sublist (s₁ ++ (node.filed m q).middle :: s₂) :=
        List.sublist_append_of_sublist_right (List.singleton_sublist.mpr List.mem_cons_self)
      have hsub := read_run_mono above hmiddle S₁ S₂
      rintro ⟨-, ⟨-, heq⟩ | hup⟩
      · have hrun := up.sublist_read habove hS₁ hS₂ (s₁ ++ (node.filed m q).middle :: s₂)
        exact hzero (hrun.subset (by simp [heq]))
      · exact ih habove (nodeOk_halves hfiledOk hne next).2.2 hS₁ hS₂ (hstrict.sublist hsub)
          (fun hmem => hzero (hsub.subset hmem)) hup

/-- The upper half of a node that became too full has keys. -/
theorem exists_upper_keys {filed : InnerPage} (hok : NodeOk filed) (hover : filed.isOverflow = true)
    (next : Nat) : ∃ u us, (filed.upperHalf next).keys = u :: us := by
  have hfull : BTreePage.maxKeys < filed.keys.length := by
    simpa [InnerPage.isOverflow, hok.count] using hover
  have hmax : BTreePage.maxKeys = 100 := rfl
  obtain ⟨hkeys, -, hlower, -⟩ := halves hok (List.ne_nil_of_length_pos (by omega)) next
  have htotal := congrArg List.length hkeys
  rw [List.length_append, List.length_cons] at htotal
  exact List.exists_cons_of_ne_nil (List.ne_nil_of_length_pos (by omega))

/-- Filing a separator between two runs of which the second one has it already. -/
theorem Way.filed_twice {s₁ s₂ : List Int} {u : Int} (hok : NodesOk levels)
    (hway : Way key root levels P₁ p P₂ trail) (hne : trail ≠ []) (hnodup : (allIds levels).Nodup)
    (hu : formati.Fits u) (h₁ : R₁.length = P₁.length) (h₂ : R₂.length = P₂.length) (hmem : u ∈ s₂)
    (hstrict : (Runs.read (separatorsOf levels) (R₁ ++ (s₁ ++ 0 :: s₂) :: R₂)).Pairwise (· < ·)) :
    ¬ (Runs.read (separatorsOf (BTree.raise levels trail u q next).levels)
      (R₁ ++ s₁ :: s₂ :: R₂)).Pairwise (· < ·) := by
  have hone : [u].Sublist (s₁ ++ 0 :: s₂) :=
    List.sublist_append_of_sublist_right (List.singleton_sublist.mpr (List.mem_cons_of_mem 0 hmem))
  have hstrict' := hstrict.sublist (read_run_mono levels hone R₁ R₂)
  -- there is one 0 only
  have hnone : 0 ∉ Runs.read (separatorsOf levels) (R₁ ++ [u] :: R₂) := by
    obtain ⟨A, B, hread, -⟩ := hway.around hok h₁ h₂
    rw [hread] at hstrict ⊢
    have hzeros : (A ++ s₁ ++ 0 :: (s₂ ++ B)).Pairwise (· < ·) := by simpa using hstrict
    obtain ⟨-, hright, hcross⟩ := List.pairwise_append.mp hzeros
    obtain ⟨hlt, -⟩ := List.pairwise_cons.mp hright
    have hpos := hlt u (List.mem_append_left _ hmem)
    intro hin
    rcases List.mem_append.mp hin with hin | hin
    · exact Int.lt_irrefl 0 (hcross 0 (List.mem_append_left _ hin) 0 List.mem_cons_self)
    · rcases List.mem_append.mp hin with hin | hin
      · rw [List.mem_singleton.mp hin] at hpos
        exact Int.lt_irrefl u hpos
      · exact Int.lt_irrefl 0 (hlt 0 (List.mem_append_right _ hin))
  have hfiled : FiledInOrder key trail u q next :=
    hway.filedInOrder hok hu h₁ h₂ hstrict' (hway.not_promotesZero hok hu h₁ h₂ hstrict' hnone)
  rw [(hway.raise hok hne hnodup hu hfiled).2 R₁ R₂ h₁ h₂ s₁ s₂]
  intro htwice
  have hrun := htwice.sublist (hway.sublist_read hok h₁ h₂ (s₁ ++ u :: s₂))
  exact Int.lt_irrefl u ((List.pairwise_cons.mp (List.pairwise_append.mp hrun).2.1).1 u hmem)

/-- When a node below the root is split at 0, a separator is filed twice. -/
theorem Way.not_strict (hok : NodesOk levels) (hway : Way key root levels P₁ p P₂ trail)
    (hnodup : (allIds levels).Nodup) (hm : formati.Fits m) (h₁ : R₁.length = P₁.length)
    (h₂ : R₂.length = P₂.length)
    (hstrict : (Runs.read (separatorsOf levels) (R₁ ++ [m] :: R₂)).Pairwise (· < ·))
    (hzero : PromotesZero trail m q next) :
    ¬ (Runs.read (separatorsOf (BTree.raise levels trail m q next).levels)
      (R₁ ++ [] :: [] :: R₂)).Pairwise (· < ·) := by
  induction hway generalizing m q next R₁ R₂ with
  | top => exact hzero.elim
  | @down above lo hi node trail plo phi p klo khi up keys pointers length lt le ih =>
      have h := OnWay.of_down hok keys pointers length lt le
      have habove : NodesOk above := fun l hl => hok l (List.mem_cons_of_mem _ hl)
      obtain ⟨hnodup₁, hnodup₂, -⟩ := List.nodup_append.mp
        (show (idsOf (lo ++ node :: hi) ++ allIds above).Nodup from hnodup)
      have hplace := Way.place h habove up h₁ h₂ hstrict
      have hfiledOk := nodeOk_filed h.nodeOk hm q
      have hne : (node.filed m q).keys ≠ [] := by simp [h.filed_eq hplace]
      obtain ⟨-, hupperOk, hmiddle⟩ := nodeOk_halves hfiledOk hne next
      obtain ⟨S₁, S₂, s₁, s₂, hS₁, hS₂, hnew, hold, hupper⟩ :=
        h.level_split (q := q) hplace hm next h₁ h₂ [] []
      rw [List.nil_append] at hold
      rw [read_cons, hold] at hstrict
      obtain ⟨hover, hcases⟩ := hzero
      cases trail with
      | nil =>
          rcases hcases with ⟨hne, -⟩ | hup
          · exact absurd rfl hne
          · exact hup.elim
      | cons node' trail =>
          rw [raise_up above node' hover rfl, replaceNode_eq hnodup₁, read_cons, hnew]
          by_cases hzero : (node.filed m q).middle = 0
          · -- the first key of the upper half goes up and stays
            obtain ⟨u, us, hkeys⟩ := exists_upper_keys hfiledOk hover next
            have hu : formati.Fits u := hupperOk.fits u (by simp [hkeys])
            have hmem : u ∈ s₂ := hupper.subset (by simp [hkeys])
            have hkey : BTree.filedKey (node.filed m q).middle ((node.filed m q).upperHalf next) = u := by
              simp [BTree.filedKey, hzero, hkeys]
            rw [hkey]
            rw [hzero] at hstrict
            exact up.filed_twice habove (List.cons_ne_nil _ _) hnodup₂ hu hS₁ hS₂ hmem hstrict
          · have hup : PromotesZero (node' :: trail) (node.filed m q).middle next (next + 1) :=
              hcases.resolve_left fun hleft => hzero hleft.2
            have hkey : BTree.filedKey (node.filed m q).middle ((node.filed m q).upperHalf next) =
                (node.filed m q).middle := if_pos hzero
            have hone : [(node.filed m q).middle].Sublist (s₁ ++ (node.filed m q).middle :: s₂) :=
              List.sublist_append_of_sublist_right (List.singleton_sublist.mpr List.mem_cons_self)
            rw [hkey]
            intro hsorted
            refine ih habove hnodup₂ hmiddle hS₁ hS₂ (hstrict.sublist (read_run_mono above hone S₁ S₂)) hup
              (hsorted.sublist (Runs.read_mono ?_ _))
            exact List.rel_append (List.forall₂_same.mpr fun _ _ => List.Sublist.refl _)
              (.cons (List.nil_sublist _) (.cons (List.nil_sublist _)
                (List.forall₂_same.mpr fun _ _ => List.Sublist.refl _)))

end

namespace BTree

variable {t : BTree} {key : Int} {rid : Rid} {leaf : Leaf} {trail : List InnerPage} {C₁ C₂ : List Leaf}

/-- The separators of all levels in order. -/
def separators (t : BTree) : List Int := Runs.read (separatorsOf t.levels) (t.chain.map fun _ => [])

/-- No key has more entries than half of a leaf has. -/
def FewEqual (t : BTree) : Prop :=
  ∀ k, (t.entries.map Prod.fst).count k ≤ BTreePage.maxKeys / 2

/-- The insert splits its leaf, and a node below the root at the key 0. -/
def SplitsAtZero (t : BTree) (key : Int) (rid : Rid) : Prop :=
  ∃ leaf trail, t.leafOf key = some (leaf, trail) ∧
    BTreePage.maxKeys < (leaf.insert key rid).entries.length ∧
    PromotesZero trail (((leaf.insert key rid).upper t.next).keys.headD 0) t.next (t.next + 1)

/-- The separators with some keys in the place of a leaf. -/
def separatorsAround (t : BTree) (C₁ C₂ : List Leaf) (run : List Int) : List Int :=
  Runs.read (separatorsOf t.levels) ((C₁.map fun _ => []) ++ run :: C₂.map fun _ => [])

/-- What stands around the halves of a leaf differs from the key between them, when
neither half has that key only. -/
theorem lt_of_few {A B lower upper : List Int} {m : Int}
    (hsorted : (A ++ ((lower ++ m :: upper) ++ B)).Pairwise (· ≤ ·)) (hmem : m ∈ upper)
    (hlower : BTreePage.maxKeys / 2 ≤ lower.length) (hupper : BTreePage.maxKeys / 2 < upper.length)
    (hfew : (lower ++ upper).count m ≤ BTreePage.maxKeys / 2) : (∀ a ∈ A, a < m) ∧ ∀ b ∈ B, m < b := by
  rw [List.count_append] at hfew
  obtain ⟨-, hrest, hA⟩ := List.pairwise_append.mp hsorted
  obtain ⟨hhalves, -, hB⟩ := List.pairwise_append.mp hrest
  obtain ⟨-, hright, hcross⟩ := List.pairwise_append.mp hhalves
  refine ⟨fun a ha => ?_, fun b hb => ?_⟩
  · -- otherwise all of the lower half is the key
    by_contra hnot
    have hall : lower.count m = lower.length := List.count_eq_length.mpr fun x hx => by
      have hle := hcross x hx m List.mem_cons_self
      have hge := hA a ha x (by simp [hx])
      omega
    have hone := List.count_pos_iff.mpr hmem
    omega
  · by_contra hnot
    have hall : upper.count m = upper.length := List.count_eq_length.mpr fun x hx => by
      have hle := (List.pairwise_cons.mp hright).1 x hx
      have hge := hB x (by simp [hx]) b hb
      omega
    omega

theorem nils_sublist (C : List Leaf) :
    List.Forall₂ List.Sublist (C.map fun _ => ([] : List Int)) (C.map Leaf.keys) := by
  rw [List.forall₂_map_left_iff, List.forall₂_map_right_iff]
  exact List.forall₂_same.mpr fun l _ => List.nil_sublist _

/-- The separator of two halves of a leaf differs from those around the leaf, when
neither half has one key only. -/
theorem Ordered.strict_around (ho : t.Ordered) (h : t.Shape) (hr : t.Reaches key leaf trail C₁ C₂)
    (hkey : formati.Fits key) (hrid : RidFits rid) (hstrict : t.separators.Pairwise (· < ·))
    (hfull : (leaf.insert key rid).entries.length = BTreePage.maxKeys + 1)
    (hfew : ∀ k, (leaf.insert key rid).keys.count k ≤ BTreePage.maxKeys / 2) :
    (t.separatorsAround C₁ C₂ [((leaf.insert key rid).upper t.next).keys.headD 0]).Pairwise (· < ·) := by
  have hmax : BTreePage.maxKeys = 100 := rfl
  have hok := h.leafOk (show leaf ∈ t.chain by simp [hr.chain])
  obtain ⟨A, B, hread, -, -, hsorted, hlt, hle⟩ := ho.around h hr
  have hnew := pairwise_halves t.next (by omega)
    (pairwise_insert hok (leafOk_insert hok hkey hrid) hsorted hlt hle)
  rw [← hread] at hnew
  obtain ⟨A₀, B₀, hread₀, -⟩ := (h.way ho.linked hr).around h.nodes
    (show (C₁.map fun _ => ([] : List Int)).length = (C₁.map Leaf.pageId).length by simp)
    (show (C₂.map fun _ => ([] : List Int)).length = (C₂.map Leaf.pageId).length by simp)
  have hhalves := hnew.sublist (Runs.read_mono (List.rel_append (nils_sublist C₁)
    (.cons (List.Sublist.refl _) (nils_sublist C₂))) _)
  rw [hread₀] at hhalves
  obtain ⟨m, rest, hupper⟩ := exists_upper t.next
    (show BTreePage.maxKeys < (leaf.insert key rid).entries.length by omega)
  have hkeys := keys_halves (leaf.insert key rid) t.next
  obtain ⟨hltm, hmlt⟩ := lt_of_few hhalves (by simp [hupper])
    (by simp only [Leaf.lower, Leaf.keys, List.length_map, List.length_take]; omega)
    (by simp only [Leaf.upper, Leaf.keys, List.length_map, List.length_drop]; omega)
    (by rw [← hkeys]; exact hfew _)
  have hold : (A₀ ++ B₀).Pairwise (· < ·) := by
    have hsep := hstrict
    rw [separators, hr.chain, List.map_append, List.map_cons, hread₀] at hsep
    exact hsep
  obtain ⟨hA, hB, hcross⟩ := List.pairwise_append.mp hold
  rw [separatorsAround, hread₀]
  refine List.pairwise_append.mpr ⟨hA, List.pairwise_cons.mpr ⟨hmlt, hB⟩, fun a ha b hb => ?_⟩
  rcases List.mem_cons.mp hb with rfl | hb
  · exact hltm a ha
  · exact hcross a ha b hb

/-- An insert that splits its leaf: the separator that it adds has a place of its
own. -/
theorem Ordered.strict_split (ho : t.Ordered) (h : t.Shape) (hr : t.Reaches key leaf trail C₁ C₂)
    (hkey : formati.Fits key) (hrid : RidFits rid) (hstrict : t.separators.Pairwise (· < ·))
    (hfull : BTreePage.maxKeys < (leaf.insert key rid).entries.length)
    (hfew : (t.insert key rid).FewEqual) :
    (t.separatorsAround C₁ C₂ [((leaf.insert key rid).upper t.next).keys.headD 0]).Pairwise (· < ·) := by
  have hmem : leaf ∈ t.chain := by simp [hr.chain]
  have hlength := length_entries_insert key rid (h.leafOk hmem)
  have hmost := (h.leaves leaf hmem).2
  refine ho.strict_around h hr hkey hrid hstrict (by omega) fun k => ?_
  refine Nat.le_trans (List.Sublist.count_le k ?_) (hfew k)
  rw [insert_entries h hr, List.map_append, List.map_append]
  exact (List.sublist_append_left _ _).trans (List.sublist_append_right _ _)

/-- The separators after an insert that splits its leaf. -/
theorem separators_split (h : t.Shape) (hr : t.Reaches key leaf trail C₁ C₂)
    (hfull : BTreePage.maxKeys < (leaf.insert key rid).entries.length) :
    (t.insert key rid).separators = Runs.read (separatorsOf (t.raised (leaf.insert key rid) trail).levels)
      ((C₁.map fun _ => []) ++ [] :: [] :: C₂.map fun _ => []) := by
  rw [insert_split h hr hfull]
  simp [separators]

/-- A separator around a leaf is one of the tree or the one in the place of the leaf. -/
theorem mem_separatorsAround {sep m : Int} (h : t.Shape)
    (hlinked : Linked (fun ps qs => ps = qs) t.root (t.chain.map Leaf.pageId) t.levels)
    (hr : t.Reaches key leaf trail C₁ C₂) (hsep : sep ∈ t.separatorsAround C₁ C₂ [m]) :
    sep ∈ t.separators ∨ sep = m := by
  have hlen₁ : (C₁.map fun _ => ([] : List Int)).length = (C₁.map Leaf.pageId).length := by simp
  have hlen₂ : (C₂.map fun _ => ([] : List Int)).length = (C₂.map Leaf.pageId).length := by simp
  obtain ⟨A, B, hread, -⟩ := (h.way hlinked hr).around h.nodes hlen₁ hlen₂
  have hold : t.separators = A ++ B := by
    rw [separators, hr.chain, List.map_append, List.map_cons, hread]
    rfl
  rw [separatorsAround, hread] at hsep
  rw [hold]
  rcases List.mem_append.mp hsep with hsep | hsep
  · exact Or.inl (List.mem_append_left _ hsep)
  · rcases List.mem_append.mp hsep with hsep | hsep
    · exact Or.inr (List.mem_singleton.mp hsep)
    · exact Or.inl (List.mem_append_right _ hsep)

/-- The separator of two halves is one of the keys. -/
theorem separator_mem (h : t.Shape) (hr : t.Reaches key leaf trail C₁ C₂)
    (hfull : BTreePage.maxKeys < (leaf.insert key rid).entries.length) :
    ((leaf.insert key rid).upper t.next).keys.headD 0 ∈ (t.insert key rid).entries.map Prod.fst := by
  obtain ⟨m, rest, hupper⟩ := exists_upper t.next hfull
  have hsub : ((leaf.insert key rid).upper t.next).keys.Sublist (leaf.insert key rid).keys :=
    (List.drop_sublist _ _).map Prod.fst
  rw [insert_entries h hr, List.map_append, List.map_append, hupper]
  exact List.mem_append_right _ (List.mem_append_left _ (hsub.subset (by simp [hupper])))

/-- With few equal keys and no split at 0 the nodes that come of an insert are filed
in order, and the separators still differ. -/
theorem Ordered.insert_strict (ho : t.Ordered) (h : t.Shape) (hkey : formati.Fits key) (hrid : RidFits rid)
    (hstrict : t.separators.Pairwise (· < ·)) (hfew : (t.insert key rid).FewEqual)
    (hzero : ¬ t.SplitsAtZero key rid) :
    t.InsertsInOrder key rid ∧ (t.insert key rid).separators.Pairwise (· < ·) ∧
      ∀ sep ∈ (t.insert key rid).separators, sep ∈ t.separators ∨
        sep ∈ (t.insert key rid).entries.map Prod.fst := by
  obtain ⟨leaf, trail, C₁, C₂, hr⟩ := h.reaches key
  have hok' := leafOk_insert (h.leafOk (show leaf ∈ t.chain by simp [hr.chain])) hkey hrid
  have hway := h.way ho.linked hr
  have hlen₁ : (C₁.map fun _ => ([] : List Int)).length = (C₁.map Leaf.pageId).length := by simp
  have hlen₂ : (C₂.map fun _ => ([] : List Int)).length = (C₂.map Leaf.pageId).length := by simp
  by_cases hroom : (leaf.insert key rid).entries.length ≤ BTreePage.maxKeys
  · have hsame : (t.insert key rid).separators = t.separators := by
      rw [insert_room h hr hroom, separators, separators, hr.chain]
      simp
    rw [hsame]
    refine ⟨fun leaf' trail' hleaf hfull => ?_, hstrict, fun sep hsep => Or.inl hsep⟩
    obtain ⟨rfl, rfl⟩ := Prod.mk.inj (Option.some.inj (hr.leafOf.symm.trans hleaf))
    omega
  · have hfull : BTreePage.maxKeys < (leaf.insert key rid).entries.length := by omega
    have hsplit := ho.strict_split h hr hkey hrid hstrict hfull hfew
    have hfiled : FiledInOrder key trail (((leaf.insert key rid).upper t.next).keys.headD 0) t.next (t.next + 1) :=
      hway.filedInOrder h.nodes (fits_upper hok' t.next) hlen₁ hlen₂ hsplit
        fun hup => hzero ⟨leaf, trail, hr.leafOf, hfull, hup⟩
    have hraised := (raised_order h ho.linked hr (insert_pageId leaf key rid) (fits_upper hok' t.next)
      hfiled).2 (C₁.map fun _ => []) (C₂.map fun _ => []) (by simp) (by simp) [] []
    have hnew : (t.insert key rid).separators =
        t.separatorsAround C₁ C₂ [((leaf.insert key rid).upper t.next).keys.headD 0] :=
      (separators_split h hr hfull).trans hraised
    refine ⟨fun leaf' trail' hleaf _ => ?_, by rwa [hnew], fun sep hsep => ?_⟩
    · obtain ⟨rfl, rfl⟩ := Prod.mk.inj (Option.some.inj (hr.leafOf.symm.trans hleaf))
      exact hfiled
    · rw [hnew] at hsep
      rcases mem_separatorsAround h ho.linked hr hsep with hsep | rfl
      · exact Or.inl hsep
      · exact Or.inr (separator_mem h hr hfull)

/-- Without the key 0 no node is split at 0. -/
theorem Ordered.not_splitsAtZero (ho : t.Ordered) (h : t.Shape) (hkey : formati.Fits key) (hrid : RidFits rid)
    (hstrict : t.separators.Pairwise (· < ·)) (hfew : (t.insert key rid).FewEqual) (hseps : 0 ∉ t.separators)
    (hkeys : 0 ∉ (t.insert key rid).entries.map Prod.fst) : ¬ t.SplitsAtZero key rid := by
  rintro ⟨leaf, trail, hleaf, hfull, hup⟩
  obtain ⟨leaf', trail', C₁, C₂, hr⟩ := h.reaches key
  obtain ⟨rfl, rfl⟩ := Prod.mk.inj (Option.some.inj (hr.leafOf.symm.trans hleaf))
  have hok' := leafOk_insert (h.leafOk (show leaf' ∈ t.chain by simp [hr.chain])) hkey hrid
  have hlen₁ : (C₁.map fun _ => ([] : List Int)).length = (C₁.map Leaf.pageId).length := by simp
  have hlen₂ : (C₂.map fun _ => ([] : List Int)).length = (C₂.map Leaf.pageId).length := by simp
  refine (h.way ho.linked hr).not_promotesZero h.nodes (fits_upper hok' t.next) hlen₁ hlen₂
    (ho.strict_split h hr hkey hrid hstrict hfull hfew) (fun hzero => ?_) hup
  rcases mem_separatorsAround h ho.linked hr hzero with hzero | hzero
  · exact hseps hzero
  · rw [hzero] at hkeys
    exact hkeys (separator_mem h hr hfull)

/-- A split at 0 files a separator twice. -/
theorem Ordered.insert_not_strict (ho : t.Ordered) (h : t.Shape) (hkey : formati.Fits key) (hrid : RidFits rid)
    (hstrict : t.separators.Pairwise (· < ·)) (hfew : (t.insert key rid).FewEqual)
    (hzero : t.SplitsAtZero key rid) : ¬ (t.insert key rid).separators.Pairwise (· < ·) := by
  obtain ⟨leaf, trail, hleaf, hfull, hup⟩ := hzero
  obtain ⟨leaf', trail', C₁, C₂, hr⟩ := h.reaches key
  obtain ⟨rfl, rfl⟩ := Prod.mk.inj (Option.some.inj (hr.leafOf.symm.trans hleaf))
  have hok' := leafOk_insert (h.leafOk (show leaf' ∈ t.chain by simp [hr.chain])) hkey hrid
  have hsplit := ho.strict_split h hr hkey hrid hstrict hfull hfew
  rw [separators_split h hr hfull]
  cases trail' with
  | nil => exact hup.elim
  | cons node trail =>
      have hlen₁ : (C₁.map fun _ => ([] : List Int)).length = (C₁.map Leaf.pageId).length := by simp
      have hlen₂ : (C₂.map fun _ => ([] : List Int)).length = (C₂.map Leaf.pageId).length := by simp
      exact (h.way ho.linked hr).not_strict h.nodes (List.nodup_append.mp h.nodup).2.1
        (fits_upper hok' t.next) hlen₁ hlen₂ hsplit hup

end BTree

end DBEngine
