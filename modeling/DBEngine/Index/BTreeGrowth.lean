import DBEngine.Index.BTreeShape
import Mathlib.Order.Interval.Finset.Nat

/-!
# How a tree grows

A node comes into being as the half of a node that was too full, or as a new
root, and a page is taken from the file only to hold a node.  So below the top
level every node has half of the keys that it may have, and every page of the
file but the header has its place in the tree.
-/

set_option autoImplicit false

namespace DBEngine

/-- Every node below the top level has at least half of its keys. -/
def HalfFull (levels : List (List InnerPage)) : Prop :=
  ∀ level ∈ levels.dropLast, ∀ node ∈ level, BTreePage.maxKeys / 2 ≤ node.keys.length

namespace HalfFull

variable {level : List InnerPage} {above : List (List InnerPage)}

theorem nil : HalfFull [] := by simp [HalfFull]

/-- The top level may have fewer keys. -/
theorem top : HalfFull [level] := by simp [HalfFull]

theorem cons_iff (hne : above ≠ []) : HalfFull (level :: above) ↔
    (∀ node ∈ level, BTreePage.maxKeys / 2 ≤ node.keys.length) ∧ HalfFull above := by
  simp [HalfFull, List.dropLast_cons_of_ne_nil hne]

end HalfFull

section

variable {levels : List (List InnerPage)} {trail : List InnerPage} {node : InnerPage} {root q next : Nat}
  {ps : List Nat} {m : Int}

/-- Both halves of a node that became too full have half of the keys. -/
theorem half_of_split {filed : InnerPage} (hok : NodeOk filed)
    (hfull : filed.keys.length = BTreePage.maxKeys + 1) (next : Nat) :
    BTreePage.maxKeys / 2 ≤ filed.lowerHalf.keys.length ∧
      BTreePage.maxKeys / 2 ≤ (filed.upperHalf next).keys.length := by
  have hmax : BTreePage.maxKeys = 100 := rfl
  have hne : filed.keys ≠ [] := by
    intro hnil
    simp [hnil] at hfull
  obtain ⟨hkeys, -, hlower, -⟩ := halves hok hne next
  have htotal := congrArg List.length hkeys
  rw [List.length_append, List.length_cons] at htotal
  omega

/-- The only node of the top level is the root. -/
theorem top_eq {lo hi : List InnerPage} (h : Linked SamePages root ps [lo ++ node :: hi]) :
    lo = [] ∧ hi = [] := by
  have hroot : idsOf (lo ++ node :: hi) = [root] := List.perm_singleton.mp h.2.1.symm
  have hlength := congrArg List.length hroot
  simp only [idsOf, List.length_map, List.length_append, List.length_cons, List.length_nil] at hlength
  exact ⟨List.length_eq_zero_iff.mp (by omega), List.length_eq_zero_iff.mp (by omega)⟩

/-- A level after some of its nodes were put in the place of another. -/
theorem half_of_replaced {lo hi nodes : List InnerPage}
    (h : ∀ n ∈ lo ++ node :: hi, BTreePage.maxKeys / 2 ≤ n.keys.length)
    (hnodes : ∀ n ∈ nodes, BTreePage.maxKeys / 2 ≤ n.keys.length) :
    ∀ n ∈ lo ++ (nodes ++ hi), BTreePage.maxKeys / 2 ≤ n.keys.length := by
  intro n hn
  rcases List.mem_append.mp hn with hn | hn
  · exact h n (by simp [hn])
  · rcases List.mem_append.mp hn with hn | hn
    · exact hnodes n hn
    · exact h n (by simp [hn])

/-- Filing a page in the levels leaves no node with too few keys, except in a
new top level. -/
theorem raise_half (hok : NodesOk levels) (hlinked : Linked SamePages root ps levels)
    (htrail : List.Forall₂ (fun level node => node ∈ level) levels trail) (hne : trail ≠ [])
    (hnodup : (allIds levels).Nodup) (hm : formati.Fits m) (hhalf : HalfFull levels) (next : Nat) :
    HalfFull (BTree.raise levels trail m q next).levels ∧
      (BTree.raise levels trail m q next).levels ≠ [] := by
  induction htrail generalizing m q next ps with
  | nil => exact absurd rfl hne
  | @cons level node above trail hmem htrail ih =>
      obtain ⟨lo, hi, rfl⟩ := List.append_of_mem hmem
      have hnode := hok _ List.mem_cons_self node (by simp)
      have hfiled := nodeOk_filed hnode.1 hm q
      have hlen := length_keys_filed (m := m) (q := q) hnode.1
      obtain ⟨hnodup₁, hnodup₂, -⟩ := List.nodup_append.mp
        (show (idsOf (lo ++ node :: hi) ++ allIds above).Nodup from hnodup)
      by_cases hroom : (node.filed m q).keys.length ≤ BTreePage.maxKeys
      · have hover : (node.filed m q).isOverflow = false := by
          simpa [InnerPage.isOverflow, hfiled.count] using hroom
        rw [raise_room above hover, replaceNode_eq hnodup₁]
        refine ⟨?_, List.cons_ne_nil _ _⟩
        by_cases habove : above = []
        · rw [habove]
          exact HalfFull.top
        · obtain ⟨hlevel, hrest⟩ := (HalfFull.cons_iff habove).mp hhalf
          refine (HalfFull.cons_iff habove).mpr ⟨half_of_replaced hlevel fun n hn => ?_, hrest⟩
          rw [List.mem_singleton.mp hn, hlen]
          exact Nat.le_succ_of_le (hlevel node (by simp))
      · have hover : (node.filed m q).isOverflow = true := by
          simpa [InnerPage.isOverflow, hfiled.count] using hroom
        have hfull : (node.filed m q).keys.length = BTreePage.maxKeys + 1 := by
          have := hnode.2
          omega
        obtain ⟨hlower, hupper⟩ := half_of_split hfiled hfull next
        have hpair : ∀ n ∈ [(node.filed m q).lowerHalf, (node.filed m q).upperHalf next],
            BTreePage.maxKeys / 2 ≤ n.keys.length := by
          simpa using And.intro hlower hupper
        cases htrail with
        | nil =>
            -- the node was the root, so its halves are the whole level
            obtain ⟨rfl, rfl⟩ := top_eq hlinked
            rw [raise_top [] hover, replaceNode_eq hnodup₁]
            refine ⟨(HalfFull.cons_iff (List.cons_ne_nil _ _)).mpr ⟨?_, HalfFull.top⟩,
              List.cons_ne_nil _ _⟩
            simpa using hpair
        | @cons level' node' above' trail' hmem' htrail' =>
            generalize hr : BTree.raise (level' :: above') (node' :: trail')
              (BTree.filedKey (node.filed m q).middle ((node.filed m q).upperHalf next)) next (next + 1) = r
            have hne' : (node.filed m q).keys ≠ [] := by
              intro hnil
              simp [hnil] at hlen
            obtain ⟨-, hok', hmiddle⟩ := nodeOk_halves hfiled hne' next
            obtain ⟨hlevel, hrest⟩ := (HalfFull.cons_iff (List.cons_ne_nil _ _)).mp hhalf
            have hraised := ih (q := next) (fun l hl => hok l (List.mem_cons_of_mem _ hl)) hlinked.2
              (List.cons_ne_nil _ _) hnodup₂ (fits_filedKey hmiddle hok') hrest (next + 1)
            rw [hr] at hraised
            rw [raise_up _ node' hover hr, replaceNode_eq hnodup₁]
            exact ⟨(HalfFull.cons_iff hraised.2).mpr ⟨half_of_replaced hlevel hpair, hraised.1⟩,
              List.cons_ne_nil _ _⟩

end

namespace BTree

variable {t t' : BTree} {key : Int} {rid : Rid}

/-- A tree that came from an empty one by inserts and deletes. -/
structure Grown (t : BTree) : Prop where
  half : HalfFull t.levels
  used : t.chain.length + (allIds t.levels).length + 1 = t.next

theorem grown_empty : empty.Grown := ⟨HalfFull.nil, rfl⟩

/-- An insert keeps all that. -/
theorem Grown.insert (h : t.Grown) (hshape : t.Shape) (hkey : formati.Fits key) (hrid : RidFits rid) :
    (t.insert key rid).Grown := by
  obtain ⟨leaf, trail, C₁, C₂, hr⟩ := hshape.reaches key
  have hmem : leaf ∈ t.chain := by simp [hr.chain]
  have hok := leafOk_insert (hshape.leafOk hmem) hkey hrid
  have hused := h.used
  have hchain := congrArg List.length hr.chain
  simp only [List.length_append, List.length_cons] at hchain
  by_cases hroom : (leaf.insert key rid).entries.length ≤ BTreePage.maxKeys
  · rw [insert_room hshape hr hroom]
    refine ⟨h.half, ?_⟩
    simp only [List.length_append, List.length_cons]
    omega
  · rw [insert_split hshape hr (by omega)]
    have hm : formati.Fits (((leaf.insert key rid).upper t.next).keys.headD 0) := by
      have hupper : LeafOk ((leaf.insert key rid).upper t.next) := hok.of_sublist (List.drop_sublist _ _)
      cases hkeys : ((leaf.insert key rid).upper t.next).keys with
      | nil => exact fits_formati.mpr (by simp)
      | cons k ks => exact hupper.keys k (by simp [hkeys])
    have hraised := raised_ok hshape hr (insert_pageId leaf key rid) hm
    refine ⟨?_, ?_⟩
    · have htrail := hr.trail
      cases trail with
      | nil => exact HalfFull.top
      | cons node trail =>
          exact (raise_half hshape.nodes hshape.linked htrail (List.cons_ne_nil _ _)
            (List.nodup_append.mp hshape.nodup).2.1 hm h.half _).1
    · have hids := hraised.ids.length_eq
      have hmore := hraised.more
      simp only [List.length_append, List.length_range', List.length_cons] at hids ⊢
      omega

/-- A delete leaves the nodes alone. -/
theorem Grown.delete (h : t.Grown) (hshape : t.Shape) (key : Int) (rid : Rid) :
    (t.delete key rid).2.Grown := by
  rcases hshape.delete_cases key rid with hnone | ⟨C₁, leaf, C₂, hchain, -, hsome⟩
  · rw [hnone]
    exact h
  · rw [hsome]
    refine ⟨h.half, ?_⟩
    have hused := h.used
    simp only [hchain, List.length_append, List.length_cons] at hused ⊢
    exact hused

/-- Every page of the file but the header holds a node or a leaf. -/
theorem Grown.page_mem (h : t.Grown) (hshape : t.Shape) {p : Nat} (hpos : 0 < p) (hp : p < t.next) :
    p ∈ t.chain.map Leaf.pageId ++ allIds t.levels := by
  have hsub : (t.chain.map Leaf.pageId ++ allIds t.levels).toFinset ⊆ Finset.Ico 1 t.next := fun q hq => by
    have hbounds := hshape.pages q (List.mem_toFinset.mp hq)
    exact Finset.mem_Ico.mpr hbounds
  have hcard : (Finset.Ico 1 t.next).card ≤
      (t.chain.map Leaf.pageId ++ allIds t.levels).toFinset.card := by
    rw [List.toFinset_card_of_nodup hshape.nodup, Nat.card_Ico, List.length_append, List.length_map]
    have hused := h.used
    omega
  rw [← List.mem_toFinset, Finset.eq_of_subset_of_card_le hsub hcard]
  exact Finset.mem_Ico.mpr ⟨hpos, hp⟩

end BTree

end DBEngine
