import DBEngine.Index.BTreeShape

/-!
# The order of a tree

Read in order, the leaves of a tree with the separators between them are one
sequence.  As long as the sequence is sorted and the leaves stand in it as they
stand in the chain, the way of a key splits it into what is below the key, the
leaf, and what is not.

An insert keeps that when each new node is filed right behind the node it was
split from, under the key between the two.  `insert_pointer` files it behind all
equal separators, and `_update_parent` takes a split key of 0 for no key at all.
-/

set_option autoImplicit false

namespace DBEngine

/-! ## Reading in order -/

/-- The separators of each level. -/
def separatorsOf (levels : List (List InnerPage)) : List (List (List Int)) :=
  levels.map fun level => level.map InnerPage.keys

theorem read_cons (level : List InnerPage) (above : List (List InnerPage)) (runs : List (List Int)) :
    Runs.read (separatorsOf (level :: above)) runs =
      Runs.read (separatorsOf above) (Runs.weaveAll (level.map InnerPage.keys) runs) := rfl

theorem width_keys {level : List InnerPage} (hok : ∀ n ∈ level, NodeOk n) :
    Runs.width (level.map InnerPage.keys) = (pointersOf level).length := by
  induction level with
  | nil => rfl
  | cons node level ih =>
      rw [List.map_cons, Runs.width_cons, ih fun n hn => hok n (List.mem_cons_of_mem node hn)]
      simp [pointersOf, (hok node List.mem_cons_self).linked]

/-- How many of the keys are below a key. -/
theorem countP_cut {key : Int} {klo khi : List Int} (hlo : ∀ k ∈ klo, k < key)
    (hhi : ∀ k ∈ khi, key ≤ k) : (klo ++ khi).countP (fun k => decide (k < key)) = klo.length := by
  rw [List.countP_append, List.countP_eq_length.mpr fun k hk => decide_eq_true (hlo k hk),
    List.countP_eq_zero.mpr fun k hk => by simpa using hhi k hk, Nat.add_zero]

/-- The way of a key through the levels: the pages before the one it leads to, that
page, the pages behind it, and the nodes passed, from the lowest one up. -/
inductive Way (key : Int) (root : Nat) :
    List (List InnerPage) → List Nat → Nat → List Nat → List InnerPage → Prop
  | top : Way key root [] [] root [] []
  | down {above : List (List InnerPage)} {lo hi : List InnerPage} {node : InnerPage}
      {trail : List InnerPage} {plo phi : List Nat} {p : Nat} {klo khi : List Int}
      (up : Way key root above (idsOf lo) node.pageId (idsOf hi) trail)
      (keys : node.keys = klo ++ khi) (pointers : node.pointers = plo ++ p :: phi)
      (length : plo.length = klo.length) (lt : ∀ k ∈ klo, k < key) (le : ∀ k ∈ khi, key ≤ k) :
      Way key root ((lo ++ node :: hi) :: above) (pointersOf lo ++ plo) p (phi ++ pointersOf hi)
        (node :: trail)

section

variable {key : Int} {root p : Nat} {levels : List (List InnerPage)} {ps P₁ P₂ : List Nat}
  {trail : List InnerPage} {R₁ R₂ : List (List Int)}

/-- The child of a node stands between the keys below the key and the others. -/
theorem child_cut {node : InnerPage} (hok : NodeOk node) (h : node.child? key = some p) :
    ∃ klo khi plo phi, node.keys = klo ++ khi ∧ node.pointers = plo ++ p :: phi ∧
      plo.length = klo.length ∧ (∀ k ∈ klo, k < key) ∧ ∀ k ∈ khi, key ≤ k := by
  obtain ⟨klo, khi, hkeys, -, hlo, hhi⟩ := cut_at (fun k => k) (key - 1) hok.sorted
  have hlt : ∀ k ∈ klo, k < key := fun k hk => by have := hlo k hk; omega
  have hle : ∀ k ∈ khi, key ≤ k := fun k hk => by have := hhi k hk; omega
  rw [InnerPage.child?, hkeys, countP_cut hlt hle] at h
  obtain ⟨hlength, hget⟩ := List.getElem?_eq_some_iff.mp h
  refine ⟨klo, khi, node.pointers.take klo.length, node.pointers.drop (klo.length + 1), hkeys, ?_, ?_,
    hlt, hle⟩
  · rw [← hget, ← List.drop_eq_getElem_cons hlength, List.take_append_drop]
  · rw [List.length_take]
    omega

/-- In a tree whose chain is the order of its leaves, every descent is a way. -/
theorem way_of_descend (hok : NodesOk levels) (hlinked : Linked (fun ps qs => ps = qs) root ps levels)
    (hnodup : (allIds levels).Nodup) (h : BTree.descend key root levels = some (p, trail)) :
    ∃ P₁ P₂, ps = P₁ ++ p :: P₂ ∧ Way key root levels P₁ p P₂ trail := by
  induction levels generalizing ps p trail with
  | nil =>
      obtain ⟨rfl, rfl⟩ := Prod.mk.inj (Option.some.inj h)
      exact ⟨[], [], hlinked.symm, .top⟩
  | cons level above ih =>
      obtain ⟨hpointers, habove⟩ := hlinked
      obtain ⟨hlevel, hrest, -⟩ := List.nodup_append.mp
        (show (idsOf level ++ allIds above).Nodup from hnodup)
      obtain ⟨-, node, trail', hup, rfl, hmem, rfl, hchild⟩ := descend_cons h
      obtain ⟨lo, hi, rfl⟩ := List.append_of_mem hmem
      obtain ⟨Q₁, Q₂, hids, hway⟩ := ih (fun l hl => hok l (List.mem_cons_of_mem _ hl)) habove hrest hup
      -- no other node of the level is on the page
      obtain ⟨rfl, rfl⟩ : idsOf lo = Q₁ ∧ idsOf hi = Q₂ := by
        rw [idsOf_append] at hids hlevel
        obtain ⟨-, hhi, hlo⟩ := List.nodup_append.mp hlevel
        obtain ⟨h₁, -, h₂⟩ := (List.append_cons_inj_of_notMem
          (fun hmem => hlo _ hmem _ List.mem_cons_self rfl) (List.nodup_cons.mp hhi).1).mp hids
        exact ⟨h₁, h₂⟩
      obtain ⟨klo, khi, plo, phi, hkeys, hpointers', hlength, hlt, hle⟩ :=
        child_cut (hok _ List.mem_cons_self node (by simp)).1 hchild
      refine ⟨pointersOf lo ++ plo, phi ++ pointersOf hi, ?_,
        .down hway hkeys hpointers' hlength hlt hle⟩
      rw [← hpointers, pointersOf_append, hpointers']
      simp

/-- In a tree with a way the chain is the order of the leaves. -/
theorem Way.linked (hway : Way key root levels P₁ p P₂ trail) :
    Linked (fun ps qs => ps = qs) root (P₁ ++ p :: P₂) levels := by
  induction hway with
  | top => rfl
  | @down above lo hi node trail plo phi p klo khi up keys pointers length lt le ih =>
      refine ⟨?_, ?_⟩
      · rw [pointersOf_append, pointers]
        simp
      · rw [idsOf_append]
        exact ih

/-- A way through no nodes. -/
theorem Way.nil (h : Way key root levels P₁ p P₂ []) : levels = [] ∧ P₁ = [] ∧ p = root ∧ P₂ = [] := by
  cases h
  exact ⟨rfl, rfl, rfl, rfl⟩

/-- The runs under a level, cut where the way of a key goes down: those under the
nodes before and behind the one it passes, and those of that node on its left and
on its right. -/
structure RunsCut (lo hi : List InnerPage) (klo khi : List Int) (R₁ R₂ A₁ B₁ B₂ A₂ : List (List Int)) :
    Prop where
  left : R₁ = A₁ ++ B₁
  right : R₂ = B₂ ++ A₂
  lo : A₁.length = Runs.width (lo.map InnerPage.keys)
  klo : B₁.length = klo.length
  khi : B₂.length = khi.length
  hi : A₂.length = Runs.width (hi.map InnerPage.keys)

theorem cut_of_length {α : Type} {xs : List α} {m n : Nat} (h : xs.length = m + n) :
    ∃ ys zs, xs = ys ++ zs ∧ ys.length = m ∧ zs.length = n :=
  ⟨xs.take m, xs.drop m, (List.take_append_drop m xs).symm, by rw [List.length_take]; omega,
    by rw [List.length_drop]; omega⟩

theorem exists_runsCut {lo hi : List InnerPage} {node : InnerPage} {plo phi : List Nat} {klo khi : List Int}
    (hnodes : ∀ n ∈ lo ++ node :: hi, NodeOk n) (hkeys : node.keys = klo ++ khi)
    (hpointers : node.pointers = plo ++ p :: phi) (hlength : plo.length = klo.length)
    (h₁ : R₁.length = (pointersOf lo ++ plo).length) (h₂ : R₂.length = (phi ++ pointersOf hi).length) :
    ∃ A₁ B₁ B₂ A₂, RunsCut lo hi klo khi R₁ R₂ A₁ B₁ B₂ A₂ := by
  have hphi : phi.length = khi.length := by
    have hlinked := (hnodes node (by simp)).linked
    rw [hpointers, hkeys] at hlinked
    simp only [List.length_append, List.length_cons] at hlinked
    omega
  have hlo := width_keys fun n hn => hnodes n (List.mem_append_left _ hn)
  have hhi := width_keys fun n hn => hnodes n (List.mem_append_right _ (List.mem_cons_of_mem node hn))
  rw [List.length_append, ← hlo, hlength] at h₁
  rw [List.length_append, ← hhi, hphi] at h₂
  obtain ⟨A₁, B₁, hleft, hA₁, hB₁⟩ := cut_of_length h₁
  obtain ⟨B₂, A₂, hright, hB₂, hA₂⟩ := cut_of_length h₂
  exact ⟨A₁, B₁, B₂, A₂, hleft, hright, hA₁, hB₁, hB₂, hA₂⟩

variable {lo hi : List InnerPage} {klo khi : List Int} {A₁ B₁ B₂ A₂ : List (List Int)}

/-- The level with other nodes in the place of the one that the way passes. -/
theorem RunsCut.weaveAll_nodes (h : RunsCut lo hi klo khi R₁ R₂ A₁ B₁ B₂ A₂) {nodes : List InnerPage}
    {runs : List (List Int)}
    (hwidth : (B₁ ++ (runs ++ B₂)).length = Runs.width (nodes.map InnerPage.keys)) :
    Runs.weaveAll ((lo ++ (nodes ++ hi)).map InnerPage.keys) (R₁ ++ (runs ++ R₂)) =
      Runs.weaveAll (lo.map InnerPage.keys) A₁ ++
        (Runs.weaveAll (nodes.map InnerPage.keys) (B₁ ++ (runs ++ B₂)) ++
          Runs.weaveAll (hi.map InnerPage.keys) A₂) := by
  rw [h.left, h.right, List.map_append, List.map_append]
  exact Runs.weaveAll_middle h.lo hwidth (hi.map InnerPage.keys) A₂

/-- The level, with one run in the place where the way goes down. -/
theorem RunsCut.weaveAll (h : RunsCut lo hi klo khi R₁ R₂ A₁ B₁ B₂ A₂) {node : InnerPage}
    (hkeys : node.keys = klo ++ khi) (run : List Int) :
    Runs.weaveAll ((lo ++ node :: hi).map InnerPage.keys) (R₁ ++ run :: R₂) =
      Runs.weaveAll (lo.map InnerPage.keys) A₁ ++
        Runs.weave (B₁ ++ run :: B₂) (klo ++ khi) :: Runs.weaveAll (hi.map InnerPage.keys) A₂ := by
  have hlength : (B₁ ++ ([run] ++ B₂)).length = node.keys.length + 1 := by
    simp only [hkeys, List.length_append, List.length_singleton, h.klo, h.khi]
    omega
  have hwidth : (B₁ ++ ([run] ++ B₂)).length = Runs.width ([node].map InnerPage.keys) := hlength
  have hlevel := h.weaveAll_nodes hwidth
  rw [List.map_singleton, Runs.weaveAll_singleton hlength, hkeys] at hlevel
  exact hlevel

/-- What the way of a key leaves on its left and on its right. -/
theorem Way.around (hok : NodesOk levels) (hway : Way key root levels P₁ p P₂ trail)
    (h₁ : R₁.length = P₁.length) (h₂ : R₂.length = P₂.length) :
    ∃ A B, (∀ run, Runs.read (separatorsOf levels) (R₁ ++ run :: R₂) = A ++ (run ++ B)) ∧
      R₁.flatten.Sublist A ∧ R₂.flatten.Sublist B ∧
      ((A ++ B).Pairwise (· ≤ ·) → (∀ a ∈ A, a < key) ∧ ∀ b ∈ B, key ≤ b) := by
  induction hway generalizing R₁ R₂ with
  | top =>
      obtain rfl := List.length_eq_zero_iff.mp h₁
      obtain rfl := List.length_eq_zero_iff.mp h₂
      exact ⟨[], [], fun run => by simp [separatorsOf, Runs.read], by simp, by simp, by simp⟩
  | @down above lo hi node trail plo phi p klo khi up keys pointers length lt le ih =>
      have hnodes : ∀ n ∈ lo ++ node :: hi, NodeOk n := fun n hn => (hok _ List.mem_cons_self n hn).1
      obtain ⟨A₁, B₁, B₂, A₂, hcut⟩ := exists_runsCut hnodes keys pointers length h₁ h₂
      have hleft : (Runs.weaveAll (lo.map InnerPage.keys) A₁).length = (idsOf lo).length := by simp [idsOf]
      have hright : (Runs.weaveAll (hi.map InnerPage.keys) A₂).length = (idsOf hi).length := by simp [idsOf]
      obtain ⟨A, B, hread, hA, hB, hsorted⟩ := ih (fun l hl => hok l (List.mem_cons_of_mem _ hl)) hleft hright
      refine ⟨A ++ Runs.before B₁ klo, Runs.behind khi B₂ ++ B, fun run => ?_, ?_, ?_, fun h => ?_⟩
      · rw [read_cons, hcut.weaveAll keys, Runs.weave_eq hcut.klo, hread]
        simp only [List.append_assoc]
      · rw [hcut.left, List.flatten_append]
        exact ((Runs.flatten_sublist_weaveAll hcut.lo).trans hA).append
          (Runs.flatten_sublist_before hcut.klo)
      · rw [hcut.right, List.flatten_append]
        exact (Runs.flatten_sublist_behind hcut.khi).append
          ((Runs.flatten_sublist_weaveAll hcut.hi).trans hB)
      · -- the levels above keep the rest apart, the separators of the node its own runs
        rw [List.append_assoc] at h
        obtain ⟨hleft, hright, hcross⟩ := List.pairwise_append.mp h
        obtain ⟨hbefore, hrest, -⟩ := List.pairwise_append.mp hright
        obtain ⟨hbehind, hB', -⟩ := List.pairwise_append.mp hrest
        obtain ⟨hltA, hleB⟩ := hsorted (List.pairwise_append.mpr ⟨hleft, hB', fun a ha b hb =>
          hcross a ha b (List.mem_append_right _ (List.mem_append_right _ hb))⟩)
        refine ⟨fun a ha => ?_, fun b hb => ?_⟩
        · rcases List.mem_append.mp ha with ha | ha
          · exact hltA a ha
          · exact Runs.lt_of_mem_before hbefore lt a ha
        · rcases List.mem_append.mp hb with hb | hb
          · exact Runs.le_of_mem_behind hbehind le b hb
          · exact hleB b hb

/-! ## Filing a node -/

/-- Each new node is filed right behind the node it was split from, under the key
between the two. -/
def FiledInOrder (key : Int) : List InnerPage → Int → Nat → Nat → Prop
  | [], _, _, _ => True
  | node :: trail, minKey, pointer, next =>
      (node.keys.findIdx fun k => decide (minKey < k)) = node.keys.countP (fun k => decide (k < key)) ∧
        ((node.filed minKey pointer).isOverflow = true →
          (trail ≠ [] → BTree.filedKey (node.filed minKey pointer).middle
            ((node.filed minKey pointer).upperHalf next) = (node.filed minKey pointer).middle) ∧
          FiledInOrder key trail (node.filed minKey pointer).middle next (next + 1))

variable {node : InnerPage} {plo phi : List Nat} {m : Int} {q next : Nat}

/-- A node that is filed where the way of the key goes down. -/
theorem filed_at (hkeys : node.keys = klo ++ khi) (hpointers : node.pointers = plo ++ p :: phi)
    (hlength : plo.length = klo.length) (hlt : ∀ k ∈ klo, k < key) (hle : ∀ k ∈ khi, key ≤ k)
    (hplace : (node.keys.findIdx fun k => decide (m < k)) = node.keys.countP (fun k => decide (k < key))) :
    node.filed m q = ⟨node.pageId, node.numKeys + 1, klo ++ m :: khi, plo ++ p :: q :: phi⟩ := by
  have hcount : node.keys.countP (fun k => decide (k < key)) = klo.length := by rw [hkeys, countP_cut hlt hle]
  have hptrs : BTreePage.insertAt node.pointers (klo.length + 1) q = plo ++ p :: q :: phi := by
    have hone : (plo ++ [p]).length = klo.length + 1 := by rw [List.length_append, hlength]; rfl
    have hsplit : node.pointers = (plo ++ [p]) ++ phi := by rw [hpointers]; simp
    rw [hsplit, ← hone, insertAt_append]
    simp
  rw [InnerPage.filed, hplace, hcount, hptrs, hkeys, insertAt_append]

/-- The runs under a node are those under its halves. -/
theorem weave_halves {runs : List (List Int)} (hok : NodeOk node) (hne : node.keys ≠ [])
    (h : runs.length = node.keys.length + 1) (newPageId : Nat) :
    ∃ r₁ r₂, Runs.weaveAll [node.lowerHalf.keys, (node.upperHalf newPageId).keys] runs = [r₁, r₂] ∧
      Runs.weave runs node.keys = r₁ ++ node.middle :: r₂ ∧ (node.upperHalf newPageId).keys.Sublist r₂ := by
  obtain ⟨hkeys, -, -, -⟩ := halves hok hne newPageId
  have htotal := congrArg List.length hkeys
  rw [List.length_append, List.length_cons] at htotal
  obtain ⟨X, Y, rfl, hX, hY⟩ := cut_of_length
    (show runs.length = (node.lowerHalf.keys.length + 1) + ((node.upperHalf newPageId).keys.length + 1) by
      omega)
  refine ⟨Runs.weave X node.lowerHalf.keys, Runs.weave Y (node.upperHalf newPageId).keys, ?_, ?_,
    Runs.sublist_weave hY⟩
  · rw [Runs.weaveAll_cons hX, Runs.weaveAll_singleton hY]
  · rw [hkeys, Runs.weave_two hX]
    rintro rfl
    simp at hY

/-- A node that the way of a key passes, on its level. -/
structure OnWay (key : Int) (lo : List InnerPage) (node : InnerPage) (hi : List InnerPage)
    (klo khi : List Int) (plo : List Nat) (p : Nat) (phi : List Nat) : Prop where
  nodes : ∀ n ∈ lo ++ node :: hi, NodeOk n
  keys : node.keys = klo ++ khi
  pointers : node.pointers = plo ++ p :: phi
  length : plo.length = klo.length
  lt : ∀ k ∈ klo, k < key
  le : ∀ k ∈ khi, key ≤ k

section

variable (h : OnWay key lo node hi klo khi plo p phi)
  (hplace : (node.keys.findIdx fun k => decide (m < k)) = node.keys.countP (fun k => decide (k < key)))

include h

theorem OnWay.nodeOk : NodeOk node := h.nodes node (by simp)

theorem OnWay.runsCut (h₁ : R₁.length = (pointersOf lo ++ plo).length)
    (h₂ : R₂.length = (phi ++ pointersOf hi).length) :
    ∃ A₁ B₁ B₂ A₂, RunsCut lo hi klo khi R₁ R₂ A₁ B₁ B₂ A₂ :=
  exists_runsCut h.nodes h.keys h.pointers h.length h₁ h₂

include hplace

theorem OnWay.filed_eq :
    node.filed m q = ⟨node.pageId, node.numKeys + 1, klo ++ m :: khi, plo ++ p :: q :: phi⟩ :=
  filed_at h.keys h.pointers h.length h.lt h.le hplace

/-- The pages under the level, with the new one in its place. -/
theorem OnWay.pointersOf_filed {nodes : List InnerPage} (hnodes : pointersOf nodes = (node.filed m q).pointers) :
    pointersOf (lo ++ (nodes ++ hi)) = pointersOf lo ++ plo ++ p :: q :: (phi ++ pointersOf hi) := by
  have hall : pointersOf (lo ++ (nodes ++ hi)) = pointersOf lo ++ (pointersOf nodes ++ pointersOf hi) := by
    simp [pointersOf]
  rw [hall, hnodes, h.filed_eq hplace]
  simp

/-- With its new key the node reads two runs as it did with the key between them. -/
theorem OnWay.weave_filed {B₁ B₂ : List (List Int)} (hB₁ : B₁.length = klo.length)
    (hB₂ : B₂.length = khi.length) (r₁ r₂ : List Int) :
    (B₁ ++ ([r₁, r₂] ++ B₂)).length = (node.filed m q).keys.length + 1 ∧
      Runs.weave (B₁ ++ ([r₁, r₂] ++ B₂)) (node.filed m q).keys =
        Runs.weave (B₁ ++ (r₁ ++ m :: r₂) :: B₂) (klo ++ khi) := by
  rw [h.filed_eq hplace]
  refine ⟨?_, Runs.weave_insert hB₁⟩
  simp only [List.length_append, List.length_cons, List.length_nil, hB₁, hB₂]
  omega

/-- The level with the node that has its new key. -/
theorem OnWay.level_room (h₁ : R₁.length = (pointersOf lo ++ plo).length)
    (h₂ : R₂.length = (phi ++ pointersOf hi).length) (r₁ r₂ : List Int) :
    Runs.weaveAll ((lo ++ ([node.filed m q] ++ hi)).map InnerPage.keys) (R₁ ++ r₁ :: r₂ :: R₂) =
      Runs.weaveAll ((lo ++ node :: hi).map InnerPage.keys) (R₁ ++ (r₁ ++ m :: r₂) :: R₂) := by
  obtain ⟨A₁, B₁, B₂, A₂, hcut⟩ := h.runsCut h₁ h₂
  obtain ⟨hlength, hread⟩ := h.weave_filed hplace hcut.klo hcut.khi r₁ r₂
  have hwidth : (B₁ ++ ([r₁, r₂] ++ B₂)).length = Runs.width ([node.filed m q].map InnerPage.keys) := hlength
  have hnew := hcut.weaveAll_nodes hwidth
  rw [List.map_singleton, Runs.weaveAll_singleton hlength, hread] at hnew
  rw [hcut.weaveAll h.keys]
  exact hnew

/-- The level with the two halves of the node: they read two runs, and the node
with its new key read them with the split key between them. -/
theorem OnWay.level_split (hm : formati.Fits m) (next : Nat)
    (h₁ : R₁.length = (pointersOf lo ++ plo).length) (h₂ : R₂.length = (phi ++ pointersOf hi).length)
    (r₁ r₂ : List Int) :
    ∃ S₁ S₂ s₁ s₂, S₁.length = (idsOf lo).length ∧ S₂.length = (idsOf hi).length ∧
      Runs.weaveAll ((lo ++ ([(node.filed m q).lowerHalf, (node.filed m q).upperHalf next] ++ hi)).map
        InnerPage.keys) (R₁ ++ r₁ :: r₂ :: R₂) = S₁ ++ s₁ :: s₂ :: S₂ ∧
      Runs.weaveAll ((lo ++ node :: hi).map InnerPage.keys) (R₁ ++ (r₁ ++ m :: r₂) :: R₂) =
        S₁ ++ (s₁ ++ (node.filed m q).middle :: s₂) :: S₂ ∧
      ((node.filed m q).upperHalf next).keys.Sublist s₂ := by
  have hok := nodeOk_filed h.nodeOk hm q
  have hne : (node.filed m q).keys ≠ [] := by simp [h.filed_eq hplace]
  obtain ⟨A₁, B₁, B₂, A₂, hcut⟩ := h.runsCut h₁ h₂
  obtain ⟨hlength, hread⟩ := h.weave_filed hplace hcut.klo hcut.khi r₁ r₂
  obtain ⟨s₁, s₂, hhalves, hsplit, hupper⟩ := weave_halves hok hne hlength next
  have hwidth : (B₁ ++ ([r₁, r₂] ++ B₂)).length = Runs.width
      ([(node.filed m q).lowerHalf, (node.filed m q).upperHalf next].map InnerPage.keys) := by
    have htotal := congrArg List.length (halves hok hne next).1
    rw [List.length_append, List.length_cons] at htotal
    rw [hlength, htotal]
    simp only [List.map_cons, List.map_nil, Runs.width_cons, Runs.width_nil]
    omega
  refine ⟨Runs.weaveAll (lo.map InnerPage.keys) A₁, Runs.weaveAll (hi.map InnerPage.keys) A₂, s₁, s₂,
    by simp [idsOf], by simp [idsOf], (hcut.weaveAll_nodes hwidth).trans ?_, ?_, hupper⟩
  · rw [List.map_cons, List.map_singleton, hhalves]
    rfl
  · rw [hcut.weaveAll h.keys, ← hread, hsplit]

end

/-- The node through which a way comes down. -/
theorem OnWay.of_down {above : List (List InnerPage)} {lo hi : List InnerPage} {node : InnerPage}
    {klo khi : List Int} {plo phi : List Nat} (hok : NodesOk ((lo ++ node :: hi) :: above))
    (keys : node.keys = klo ++ khi) (pointers : node.pointers = plo ++ p :: phi)
    (length : plo.length = klo.length) (lt : ∀ k ∈ klo, k < key) (le : ∀ k ∈ khi, key ≤ k) :
    OnWay key lo node hi klo khi plo p phi :=
  ⟨fun n hn => (hok _ List.mem_cons_self n hn).1, keys, pointers, length, lt, le⟩

/-- A page that is filed in order stands in the order behind the one from which it
was split, with its key between the two. -/
theorem Way.raise (hok : NodesOk levels) (hway : Way key root levels P₁ p P₂ trail) (hne : trail ≠ [])
    (hnodup : (allIds levels).Nodup) (hm : formati.Fits m) (hfiled : FiledInOrder key trail m q next) :
    Linked (fun ps qs => ps = qs) ((BTree.raise levels trail m q next).newRoot.getD root)
        (P₁ ++ p :: q :: P₂) (BTree.raise levels trail m q next).levels ∧
      ∀ R₁ R₂ : List (List Int), R₁.length = P₁.length → R₂.length = P₂.length → ∀ r₁ r₂,
        Runs.read (separatorsOf (BTree.raise levels trail m q next).levels) (R₁ ++ r₁ :: r₂ :: R₂) =
          Runs.read (separatorsOf levels) (R₁ ++ (r₁ ++ m :: r₂) :: R₂) := by
  induction hway generalizing m q next with
  | top => exact absurd rfl hne
  | @down above lo hi node trail plo phi p klo khi up keys pointers length lt le ih =>
      have h := OnWay.of_down hok keys pointers length lt le
      have hfiledOk := nodeOk_filed h.nodeOk hm q
      obtain ⟨hplace, hrest⟩ := hfiled
      obtain ⟨hnodup₁, hnodup₂, -⟩ := List.nodup_append.mp
        (show (idsOf (lo ++ node :: hi) ++ allIds above).Nodup from hnodup)
      by_cases hover : (node.filed m q).isOverflow = true
      · have hne' : (node.filed m q).keys ≠ [] := by simp [h.filed_eq hplace]
        have hpair := (halves hfiledOk hne' next).2.1
        have hmiddle := (nodeOk_halves hfiledOk hne' next).2.2
        have hbelow := h.pointersOf_filed hplace
          (show pointersOf [(node.filed m q).lowerHalf, (node.filed m q).upperHalf next] =
            (node.filed m q).pointers by simp [pointersOf, hpair])
        obtain ⟨hkey, hup⟩ := hrest hover
        cases trail with
        | nil =>
            -- the node was the root
            obtain ⟨rfl, hlo, hroot, hhi⟩ := up.nil
            rw [raise_top [] hover, replaceNode_eq hnodup₁]
            refine ⟨⟨hbelow, ?_, rfl⟩, fun R₁ R₂ h₁ h₂ r₁ r₂ => ?_⟩
            · rw [List.map_eq_nil_iff.mp hlo, List.map_eq_nil_iff.mp hhi]
              rfl
            · obtain ⟨S₁, S₂, s₁, s₂, hS₁, hS₂, hnew, hold, -⟩ :=
                h.level_split hplace hm next h₁ h₂ r₁ r₂
              obtain rfl := List.length_eq_zero_iff.mp (by rw [hS₁, hlo]; rfl)
              obtain rfl := List.length_eq_zero_iff.mp (by rw [hS₂, hhi]; rfl)
              rw [read_cons, hnew, read_cons (lo ++ node :: hi) [], hold]
              simp [separatorsOf, Runs.read, Runs.weaveAll, Runs.weave, BTree.rootOver]
        | cons node' trail =>
            have hraise := ih (fun l hl => hok l (List.mem_cons_of_mem _ hl)) (List.cons_ne_nil _ _)
              hnodup₂ hmiddle hup
            generalize hr : BTree.raise above (node' :: trail) (node.filed m q).middle next (next + 1) = r
              at hraise
            rw [← hkey (List.cons_ne_nil _ _)] at hr
            rw [raise_up above node' hover hr, replaceNode_eq hnodup₁]
            refine ⟨⟨hbelow, ?_⟩, fun R₁ R₂ h₁ h₂ r₁ r₂ => ?_⟩
            · simpa [idsOf, InnerPage.lowerHalf, InnerPage.upperHalf] using hraise.1
            · obtain ⟨S₁, S₂, s₁, s₂, hS₁, hS₂, hnew, hold, -⟩ :=
                h.level_split hplace hm next h₁ h₂ r₁ r₂
              rw [read_cons, hnew, read_cons, hold]
              exact hraise.2 S₁ S₂ hS₁ hS₂ s₁ s₂
      · rw [raise_room above (by simpa using hover), replaceNode_eq hnodup₁]
        refine ⟨⟨h.pointersOf_filed hplace (by simp [pointersOf]), ?_⟩, fun R₁ R₂ h₁ h₂ r₁ r₂ => ?_⟩
        · have hlinked := up.linked
          simpa [idsOf] using hlinked
        · exact congrArg (Runs.read _) (h.level_room hplace h₁ h₂ r₁ r₂)

end

/-! ## Trees in order -/

namespace BTree

variable {t : BTree} {key : Int} {rid : Rid} {leaf : Leaf} {trail : List InnerPage} {C₁ C₂ : List Leaf}

/-- The keys of the leaves and the separators between the leaves, in order. -/
def inOrder (t : BTree) : List Int := Runs.read (separatorsOf t.levels) (t.chain.map Leaf.keys)

/-- The leaves stand in the tree as they stand in the chain, and everything is in
order. -/
structure Ordered (t : BTree) : Prop where
  linked : Linked (fun ps qs => ps = qs) t.root (t.chain.map Leaf.pageId) t.levels
  sorted : t.inOrder.Pairwise (· ≤ ·)

/-- The nodes that come of the insert, if it splits its leaf, are filed in order. -/
def InsertsInOrder (t : BTree) (key : Int) (rid : Rid) : Prop :=
  ∀ leaf trail, t.leafOf key = some (leaf, trail) →
    BTreePage.maxKeys < (leaf.insert key rid).entries.length →
    FiledInOrder key trail (((leaf.insert key rid).upper t.next).keys.headD 0) t.next (t.next + 1)

theorem ordered_empty : empty.Ordered := ⟨rfl, List.Pairwise.nil⟩

theorem flatMap_keys (chain : List Leaf) :
    chain.flatMap Leaf.keys = (chain.flatMap Leaf.entries).map Prod.fst := by
  rw [List.map_flatMap]
  rfl

/-- The leaf of a key is where its way leads. -/
theorem Shape.way (h : t.Shape) (hlinked : Linked (fun ps qs => ps = qs) t.root (t.chain.map Leaf.pageId) t.levels)
    (hr : t.Reaches key leaf trail C₁ C₂) :
    Way key t.root t.levels (C₁.map Leaf.pageId) leaf.pageId (C₂.map Leaf.pageId) trail := by
  obtain ⟨-, hlevels, -⟩ := List.nodup_append.mp h.nodup
  obtain ⟨P₁, P₂, hids, hway⟩ := way_of_descend h.nodes hlinked hlevels hr.descend
  have hchain := h.nodup_chain
  rw [hr.chain, List.map_append, List.map_cons] at hids hchain
  obtain ⟨-, hhi, hlo⟩ := List.nodup_append.mp hchain
  obtain ⟨rfl, -, rfl⟩ := (List.append_cons_inj_of_notMem
    (fun hmem => hlo _ hmem _ List.mem_cons_self rfl) (List.nodup_cons.mp hhi).1).mp hids
  exact hway

/-- The order around the leaf of a key: what stands before it is below the key,
and nothing behind it is. -/
theorem Ordered.around (ho : t.Ordered) (h : t.Shape) (hr : t.Reaches key leaf trail C₁ C₂) :
    ∃ A B, (∀ run, Runs.read (separatorsOf t.levels) (C₁.map Leaf.keys ++ run :: C₂.map Leaf.keys) =
        A ++ (run ++ B)) ∧
      (C₁.flatMap Leaf.keys).Sublist A ∧ (C₂.flatMap Leaf.keys).Sublist B ∧
      (A ++ (leaf.keys ++ B)).Pairwise (· ≤ ·) ∧ (∀ a ∈ A, a < key) ∧ ∀ b ∈ B, key ≤ b := by
  have hleft : (C₁.map Leaf.keys).length = (C₁.map Leaf.pageId).length := by simp
  have hright : (C₂.map Leaf.keys).length = (C₂.map Leaf.pageId).length := by simp
  obtain ⟨A, B, hread, hA, hB, hcut⟩ := (h.way ho.linked hr).around h.nodes hleft hright
  have hsorted := ho.sorted
  rw [inOrder, hr.chain, List.map_append, List.map_cons, hread] at hsorted
  obtain ⟨hlt, hle⟩ := hcut (hsorted.sublist ((List.Sublist.refl A).append (List.sublist_append_right _ B)))
  exact ⟨A, B, hread, hA, hB, hsorted, hlt, hle⟩

/-- The entries before the leaf of a key are below the key, and the rest of the chain
is sorted. -/
theorem Ordered.cut (ho : t.Ordered) (h : t.Shape) (hr : t.Reaches key leaf trail C₁ C₂) :
    (∀ e ∈ C₁.flatMap Leaf.entries, e.1 < key) ∧ ((leaf :: C₂).flatMap Leaf.keys).Pairwise (· ≤ ·) := by
  obtain ⟨A, B, -, hA, hB, hsorted, hlt, -⟩ := ho.around h hr
  refine ⟨fun e he => hlt e.1 (hA.subset ?_), ?_⟩
  · rw [flatMap_keys]
    exact List.mem_map_of_mem he
  · rw [List.flatMap_cons]
    exact hsorted.sublist (((List.Sublist.refl leaf.keys).append hB).trans (List.sublist_append_right A _))

/-- The chain of a tree in order is sorted. -/
theorem Ordered.sorted_chain (ho : t.Ordered) (h : t.Shape) : (t.chain.flatMap Leaf.keys).Pairwise (· ≤ ·) := by
  obtain ⟨leaf, trail, C₁, C₂, hr⟩ := h.reaches 0
  obtain ⟨A, B, -, hA, hB, hsorted, -⟩ := ho.around h hr
  rw [hr.chain, List.flatMap_append, List.flatMap_cons]
  exact hsorted.sublist (hA.append ((List.Sublist.refl _).append hB))

/-! ## Search -/

/-- In a sorted chain the walk of a search finds all entries of the key. -/
theorem searchIn_eq {chain : List Leaf} (hsorted : (chain.flatMap Leaf.keys).Pairwise (· ≤ ·)) :
    searchIn key chain = ((chain.flatMap Leaf.entries).filter fun e => decide (e.1 = key)).map Prod.snd := by
  induction chain with
  | nil => rfl
  | cons leaf rest ih =>
      rw [List.flatMap_cons] at hsorted
      obtain ⟨-, hrest, hcross⟩ := List.pairwise_append.mp hsorted
      rw [searchIn, List.flatMap_cons, List.filter_append, List.map_append, Leaf.lookup, ih hrest]
      by_cases hpassed : leaf.passed key = true
      · -- the walk ends: every key behind is above this one
        obtain ⟨last, hlast, hlt⟩ := (Option.any_eq_true _ _).mp hpassed
        have hlast' : last.1 ∈ leaf.keys := List.mem_map_of_mem (List.mem_of_getLast? hlast)
        have hnone : ((rest.flatMap Leaf.entries).filter fun e => decide (e.1 = key)) = [] := by
          refine List.filter_eq_nil_iff.mpr fun e he => ?_
          have hle := hcross _ hlast' e.1 (by rw [flatMap_keys]; exact List.mem_map_of_mem he)
          have := of_decide_eq_true hlt
          rw [decide_eq_true_eq]
          omega
        rw [hnone, if_pos hpassed]
        rfl
      · rw [if_neg hpassed]

/-- In a tree in order a search returns the entries of the key in the order of the
chain. -/
theorem Ordered.search_eq (ho : t.Ordered) (h : t.Shape) (key : Int) :
    t.search key = (t.entries.filter fun e => decide (e.1 = key)).map Prod.snd := by
  obtain ⟨leaf, trail, C₁, C₂, hr⟩ := h.reaches key
  obtain ⟨hlt, hwalk⟩ := ho.cut h hr
  have hbefore : ((C₁.flatMap Leaf.entries).filter fun e => decide (e.1 = key)) = [] := by
    refine List.filter_eq_nil_iff.mpr fun e he => ?_
    have := hlt e he
    rw [decide_eq_true_eq]
    omega
  simp only [search, hr.leafOf, h.chainFrom_eq hr.chain]
  rw [searchIn_eq hwalk, entries, hr.chain, List.flatMap_append, List.filter_append, hbefore]
  rfl

/-! ## Insert and delete -/

/-- A leaf with one more entry, in the place of the leaf of the key. -/
theorem pairwise_insert {A B : List Int} (hok : LeafOk leaf) (hok' : LeafOk (leaf.insert key rid))
    (hsorted : (A ++ (leaf.keys ++ B)).Pairwise (· ≤ ·)) (hlt : ∀ a ∈ A, a < key) (hle : ∀ b ∈ B, key ≤ b) :
    (A ++ ((leaf.insert key rid).keys ++ B)).Pairwise (· ≤ ·) := by
  have hkeys : ∀ k ∈ (leaf.insert key rid).keys, k = key ∨ k ∈ leaf.keys := fun k hk => by
    have hmem := ((perm_entries_insert key rid hok).map Prod.fst).subset hk
    rw [List.map_cons] at hmem
    exact List.mem_cons.mp hmem
  obtain ⟨hA, hrest, hcross⟩ := List.pairwise_append.mp hsorted
  obtain ⟨-, hB, hcross'⟩ := List.pairwise_append.mp hrest
  refine List.pairwise_append.mpr ⟨hA, List.pairwise_append.mpr ⟨hok'.sorted, hB, fun k hk b hb => ?_⟩,
    fun a ha k hk => ?_⟩
  · rcases hkeys k hk with rfl | hk
    · exact hle b hb
    · exact hcross' k hk b hb
  · rcases List.mem_append.mp hk with hk | hk
    · rcases hkeys k hk with rfl | hk
      · exact Int.le_of_lt (hlt a ha)
      · exact hcross a ha k (List.mem_append_left _ hk)
    · exact hcross a ha k (List.mem_append_right _ hk)

/-- What filing the upper half of a leaf does to the order. -/
theorem raised_order (h : t.Shape) (ho : Linked (fun ps qs => ps = qs) t.root (t.chain.map Leaf.pageId) t.levels)
    (hr : t.Reaches key leaf trail C₁ C₂) {leaf' : Leaf} (hid : leaf'.pageId = leaf.pageId)
    (hm : formati.Fits ((leaf'.upper t.next).keys.headD 0))
    (hfiled : FiledInOrder key trail ((leaf'.upper t.next).keys.headD 0) t.next (t.next + 1)) :
    Linked (fun ps qs => ps = qs) ((t.raised leaf' trail).newRoot.getD t.root)
        (C₁.map Leaf.pageId ++ leaf.pageId :: t.next :: C₂.map Leaf.pageId) (t.raised leaf' trail).levels ∧
      ∀ R₁ R₂ : List (List Int), R₁.length = C₁.length → R₂.length = C₂.length → ∀ r₁ r₂,
        Runs.read (separatorsOf (t.raised leaf' trail).levels) (R₁ ++ r₁ :: r₂ :: R₂) =
          Runs.read (separatorsOf t.levels) (R₁ ++ (r₁ ++ (leaf'.upper t.next).keys.headD 0 :: r₂) :: R₂) := by
  have hway := h.way ho hr
  cases trail with
  | nil =>
      -- the leaf was the root
      obtain ⟨hlevels, hleft, hroot, hright⟩ := hway.nil
      obtain rfl := List.map_eq_nil_iff.mp hleft
      obtain rfl := List.map_eq_nil_iff.mp hright
      refine ⟨?_, fun R₁ R₂ h₁ h₂ r₁ r₂ => ?_⟩
      · simp [raised, Linked, pointersOf, idsOf, rootOver, hid]
      · obtain rfl := List.length_eq_zero_iff.mp h₁
        obtain rfl := List.length_eq_zero_iff.mp h₂
        rw [hlevels]
        simp [raised, separatorsOf, Runs.read, Runs.weaveAll, Runs.weave, rootOver]
  | cons node trail =>
      obtain ⟨hlinked, hread⟩ := hway.raise h.nodes (List.cons_ne_nil _ _)
        (List.nodup_append.mp h.nodup).2.1 hm hfiled
      refine ⟨hlinked, fun R₁ R₂ h₁ h₂ r₁ r₂ => hread R₁ R₂ ?_ ?_ r₁ r₂⟩
      · rw [h₁, List.length_map]
      · rw [h₂, List.length_map]

theorem pairwise_double {X Y : List Int} {m : Int} (h : (X ++ m :: Y).Pairwise (· ≤ ·)) :
    (X ++ m :: m :: Y).Pairwise (· ≤ ·) := by
  obtain ⟨hX, hmY, hcross⟩ := List.pairwise_append.mp h
  refine List.pairwise_append.mpr ⟨hX, List.pairwise_cons.mpr ⟨fun y hy => ?_, hmY⟩, fun x hx y hy => ?_⟩
  · rcases List.mem_cons.mp hy with rfl | hy
    · exact Int.le_refl _
    · exact (List.pairwise_cons.mp hmY).1 y hy
  · rcases List.mem_cons.mp hy with rfl | hy
    · exact hcross x hx _ List.mem_cons_self
    · exact hcross x hx y hy

/-- The halves of a leaf that became too full, with the separator between them. -/
theorem pairwise_halves {A B : List Int} {leaf' : Leaf} (newPageId : Nat)
    (hfull : BTreePage.maxKeys < leaf'.entries.length)
    (hsorted : (A ++ (leaf'.keys ++ B)).Pairwise (· ≤ ·)) :
    (A ++ ((leaf'.lower.keys ++ (leaf'.upper newPageId).keys.headD 0 :: (leaf'.upper newPageId).keys) ++ B)).Pairwise
      (· ≤ ·) := by
  obtain ⟨m, rest, hupper⟩ := exists_upper newPageId hfull
  rw [keys_halves leaf' newPageId, hupper] at hsorted
  rw [hupper, List.headD_cons]
  have hdouble : ((A ++ leaf'.lower.keys) ++ m :: m :: (rest ++ B)).Pairwise (· ≤ ·) :=
    pairwise_double (by simpa using hsorted)
  simpa using hdouble

/-- An insert that files its nodes in order keeps the order. -/
theorem Ordered.insert (ho : t.Ordered) (h : t.Shape) (hkey : formati.Fits key) (hrid : RidFits rid)
    (hin : t.InsertsInOrder key rid) : (t.insert key rid).Ordered := by
  obtain ⟨leaf, trail, C₁, C₂, hr⟩ := h.reaches key
  have hmem : leaf ∈ t.chain := by simp [hr.chain]
  have hok := h.leafOk hmem
  have hok' := leafOk_insert hok hkey hrid
  obtain ⟨A, B, hread, -, -, hsorted, hlt, hle⟩ := ho.around h hr
  have hnew := pairwise_insert hok hok' hsorted hlt hle
  by_cases hroom : (leaf.insert key rid).entries.length ≤ BTreePage.maxKeys
  · rw [insert_room h hr hroom]
    refine ⟨?_, ?_⟩
    · simpa [hr.chain] using ho.linked
    · simp only [inOrder, List.map_append, List.map_cons, hread]
      exact hnew
  · have hfull : BTreePage.maxKeys < (leaf.insert key rid).entries.length := by omega
    obtain ⟨hlinked, hraised⟩ := raised_order h ho.linked hr (insert_pageId leaf key rid)
      (fits_upper hok' t.next) (hin leaf trail hr.leafOf hfull)
    rw [insert_split h hr hfull]
    refine ⟨?_, ?_⟩
    · simpa [Leaf.lower, Leaf.upper] using hlinked
    · simp only [inOrder, List.map_append, List.map_cons]
      rw [hraised _ _ (by simp) (by simp), hread]
      exact pairwise_halves t.next hfull hnew

/-- A delete keeps the order. -/
theorem Ordered.delete (ho : t.Ordered) (h : t.Shape) (key : Int) (rid : Rid) : (t.delete key rid).2.Ordered := by
  rcases h.delete_cases key rid with hnone | ⟨C₁, leaf, C₂, hchain, -, hsome⟩
  · rw [hnone]
    exact ho
  · rw [hsome]
    have hlinked := ho.linked
    have hsorted := ho.sorted
    rw [inOrder] at hsorted
    rw [hchain] at hlinked hsorted
    refine ⟨by simpa using hlinked, hsorted.sublist (Runs.read_mono ?_ _)⟩
    simp only [List.map_append, List.map_cons]
    refine List.rel_append (List.forall₂_same.mpr fun _ _ => List.Sublist.refl _)
      (.cons (List.erase_sublist.map Prod.fst) (List.forall₂_same.mpr fun _ _ => List.Sublist.refl _))

end BTree

end DBEngine
