import DBEngine.Index.IndexHistory

/-!
# The pages of an index seen from the root

What a reader of the file finds who starts at the root page and follows the
pointers, or starts at the leftmost leaf and follows the links: every leaf at
one depth, every page in one place, the chain through all leaves.
-/

set_option autoImplicit false

namespace DBEngine

open ByteBuffer Paged

/-! ## Layers -/

/-- The pages of a tree layer by layer, from those at the bottom up. -/
def layersOf (ps : List Nat) (levels : List (List InnerPage)) : List (List Nat) :=
  ps :: levels.map idsOf

section

variable {R : List Nat → List Nat → Prop} {root i : Nat} {ps layer : List Nat}
  {levels : List (List InnerPage)} {level : List InnerPage}

theorem length_layersOf (ps : List Nat) (levels : List (List InnerPage)) :
    (layersOf ps levels).length = levels.length + 1 := by simp [layersOf]

theorem flatten_layersOf (ps : List Nat) (levels : List (List InnerPage)) :
    (layersOf ps levels).flatten = ps ++ allIds levels := by
  simp [layersOf, allIds, List.flatMap]

theorem getElem?_layersOf_succ : (layersOf ps levels)[i + 1]? = levels[i]?.map idsOf := by
  simp [layersOf]

/-- A level points to the layer below it. -/
theorem Linked.layerBelow (h : Linked R root ps levels) (hlevel : levels[i]? = some level) :
    ∃ layer, (layersOf ps levels)[i]? = some layer ∧ R (pointersOf level) layer := by
  induction levels generalizing i ps with
  | nil => simp at hlevel
  | cons level' above ih =>
      cases i with
      | zero =>
          rw [List.getElem?_cons_zero, Option.some.injEq] at hlevel
          subst hlevel
          exact ⟨ps, rfl, h.1⟩
      | succ i =>
          obtain ⟨layer, hlayer, hR⟩ := ih h.2 (by simpa using hlevel)
          exact ⟨layer, by simpa [layersOf] using hlayer, hR⟩

/-- The top layer is the root. -/
theorem Linked.topLayer (h : Linked R root ps levels) :
    ∃ layer, (layersOf ps levels)[levels.length]? = some layer ∧ R [root] layer := by
  induction levels generalizing ps with
  | nil => exact ⟨ps, rfl, h⟩
  | cons level above ih =>
      obtain ⟨layer, hlayer, hR⟩ := ih h.2
      exact ⟨layer, by simpa [layersOf] using hlayer, hR⟩

/-- A page has one layer. -/
theorem layer_unique {i j p : Nat} {layer₁ layer₂ : List Nat} (hnodup : (ps ++ allIds levels).Nodup)
    (h₁ : (layersOf ps levels)[i]? = some layer₁) (h₂ : (layersOf ps levels)[j]? = some layer₂)
    (hp₁ : p ∈ layer₁) (hp₂ : p ∈ layer₂) : i = j := by
  rw [← flatten_layersOf, List.nodup_flatten] at hnodup
  obtain ⟨hi, rfl⟩ := List.getElem?_eq_some_iff.mp h₁
  obtain ⟨hj, rfl⟩ := List.getElem?_eq_some_iff.mp h₂
  have hdisjoint := List.pairwise_iff_getElem.mp hnodup.2
  rcases Nat.lt_trichotomy i j with hlt | heq | hgt
  · exact absurd hp₂ (hdisjoint i j hi hj hlt hp₁)
  · exact heq
  · exact absurd hp₁ (hdisjoint j i hj hi hgt hp₂)

end

namespace IndexSession

/-- The node that a fetch of the page would read. -/
def node (f : FileId) (s : IndexSession) (p : Nat) : Except PyErr BTreePage :=
  (BTreePage.deserialize (s.pool.current (f, p))).1

/-- The pages reached from the root by that many pointers. -/
inductive AtDepth (f : FileId) (s : IndexSession) : Nat → Nat → Prop
  | root : AtDepth f s 0 s.tree.rootPageId
  | child {d p q : Nat} {page : InnerPage} (hp : AtDepth f s d p)
      (hpage : s.node f p = .ok (.inner page)) (hq : q ∈ page.pointers) : AtDepth f s (d + 1) q

/-- The page is a leaf of the tree. -/
def IsLeaf (f : FileId) (s : IndexSession) (p : Nat) : Prop :=
  ∃ d leaf, AtDepth f s d p ∧ s.node f p = .ok (.leaf leaf)

/-- A page of the file other than its header. -/
def HasPage (f : FileId) (s : IndexSession) (p : Nat) : Prop := 0 < p ∧ p < s.pool.disk.numPages f

/-- An inner node on page `q` of the file points to the page. -/
def PointsTo (f : FileId) (s : IndexSession) (q p : Nat) : Prop :=
  HasPage f s q ∧ ∃ page : InnerPage, s.node f q = .ok (.inner page) ∧ p ∈ page.pointers

/-- The pages of the file but the header are a tree below the root page, with
its leaves at one depth. -/
structure WellShaped (f : FileId) (s : IndexSession) : Prop where
  depth : ∃ height, ∀ d p leaf, AtDepth f s d p → s.node f p = .ok (.leaf leaf) → d = height
  reached : ∀ p, HasPage f s p → ∃ d, AtDepth f s d p
  node : ∀ p, HasPage f s p → ∃ page, s.node f p = .ok page ∧ page.pageId = p
  leaf : ∀ p leaf, HasPage f s p → s.node f p = .ok (.leaf leaf) →
    leaf.keys.length = leaf.numKeys ∧ leaf.numKeys ≤ BTreePage.maxKeys
  inner : ∀ p page, HasPage f s p → s.node f p = .ok (.inner page) →
    page.keys.length = page.numKeys ∧ page.numKeys ≤ BTreePage.maxKeys ∧
      page.pointers.length = page.numKeys + 1 ∧
      (p ≠ s.tree.rootPageId → BTreePage.maxKeys / 2 ≤ page.numKeys)
  parent : ∀ p, HasPage f s p → p ≠ s.tree.rootPageId → ∃! q, PointsTo f s q p
  once : ∀ p page, HasPage f s p → s.node f p = .ok (.inner page) → page.pointers.Nodup

variable {order : SetOrder} {f : FileId} {s : IndexSession} {w : Flat FileId Bytes} {t : BTree}
  {allowed : IndexSession → IndexCall → Prop} {i d p q : Nat} {layer : List Nat} {level : List InnerPage}
  {page : InnerPage} {leaf : Leaf}

/-! ## What stands on a page -/

theorem Kept.node_eq (h : Kept f s w t) {stored : BTreePage} (hpage : Holds (w.mem (f, p)) stored) :
    s.node f p = .ok stored := by
  rw [node, h.current_eq, hpage.read]

theorem Kept.node_inner (h : Kept f s w t) (hlevel : t.levels[i]? = some level) (hpage : page ∈ level) :
    s.node f page.pageId = .ok (.inner page) :=
  h.node_eq (h.rep.levels level (List.mem_of_getElem? hlevel) page hpage)

theorem Kept.node_leaf (h : Kept f s w t) {C₁ C₂ : List Leaf} (hchain : t.chain = C₁ ++ leaf :: C₂) :
    s.node f leaf.pageId = .ok (.leaf (leaf.node (lastId (-1) C₁) (firstId C₂ (-1)))) := by
  have hrep := h.rep.chain
  rw [hchain] at hrep
  exact h.node_eq (chainRep_at.mp hrep).2.1

/-- The layers of a tree: the leaves, and the levels above them. -/
def layers (t : BTree) : List (List Nat) := layersOf (t.chain.map Leaf.pageId) t.levels

/-- What stands on the pages of a layer. -/
theorem Kept.node_layer (h : Kept f s w t) (hlayer : (layers t)[i]? = some layer) (hp : p ∈ layer) :
    (i = 0 ∧ ∃ C₁ leaf C₂, t.chain = C₁ ++ leaf :: C₂ ∧ leaf.pageId = p ∧
      s.node f p = .ok (.leaf (leaf.node (lastId (-1) C₁) (firstId C₂ (-1))))) ∨
    ∃ j level page, i = j + 1 ∧ t.levels[j]? = some level ∧ page ∈ level ∧ page.pageId = p ∧
      s.node f p = .ok (.inner page) := by
  cases i with
  | zero =>
      obtain rfl : t.chain.map Leaf.pageId = layer := by simpa [layers, layersOf] using hlayer
      obtain ⟨leaf, hleaf, rfl⟩ := List.mem_map.mp hp
      obtain ⟨C₁, C₂, hchain⟩ := List.append_of_mem hleaf
      exact Or.inl ⟨rfl, C₁, leaf, C₂, hchain, rfl, h.node_leaf hchain⟩
  | succ j =>
      rw [layers, getElem?_layersOf_succ, Option.map_eq_some_iff] at hlayer
      obtain ⟨level, hlevel, rfl⟩ := hlayer
      obtain ⟨page, hpage, rfl⟩ := List.mem_map.mp hp
      exact Or.inr ⟨j, level, page, rfl, hlevel, hpage, rfl, h.node_inner hlevel hpage⟩

/-! ## Depth -/

/-- A page of a layer is reached by as many pointers as there are layers above. -/
theorem Kept.atDepth_of_layer (h : Kept f s w t) (hlayer : (layers t)[i]? = some layer) (hp : p ∈ layer) :
    AtDepth f s (t.levels.length - i) p := by
  have hi : i ≤ t.levels.length := by
    have := (List.getElem?_eq_some_iff.mp hlayer).1
    rw [layers, length_layersOf] at this
    omega
  induction hk : t.levels.length - i generalizing i layer p with
  | zero =>
      obtain rfl : i = t.levels.length := by omega
      obtain ⟨top, htop, hroot⟩ := h.shape.linked.topLayer
      rw [layers, htop, Option.some.injEq] at hlayer
      subst hlayer
      obtain rfl := List.mem_singleton.mp (hroot.1.symm.subset hp)
      have hroot : s.tree.rootPageId = t.root := by rw [h.tree_eq]
      rw [← hroot]
      exact .root
  | succ k ih =>
      have hlt : i < t.levels.length := by omega
      obtain ⟨layer', hlayer', hsame⟩ := h.shape.linked.layerBelow (List.getElem?_eq_getElem hlt)
      rw [layers, hlayer', Option.some.injEq] at hlayer
      subst hlayer
      obtain ⟨page, hpage, hptr⟩ := List.mem_flatMap.mp (hsame.1.symm.subset hp)
      have hup : (layers t)[i + 1]? = some (idsOf t.levels[i]) := by
        rw [layers, getElem?_layersOf_succ, List.getElem?_eq_getElem hlt, Option.map_some]
      exact .child (ih hup (List.mem_map_of_mem hpage) hlt (by omega))
        (h.node_inner (List.getElem?_eq_getElem hlt) hpage) hptr

/-- A page reached from the root is in the layer of its depth. -/
theorem Kept.layer_of_atDepth (h : Kept f s w t) (hp : AtDepth f s d p) :
    ∃ i layer, i + d = t.levels.length ∧ (layers t)[i]? = some layer ∧ p ∈ layer := by
  induction hp with
  | root =>
      obtain ⟨top, htop, hroot⟩ := h.shape.linked.topLayer
      refine ⟨t.levels.length, top, rfl, htop, ?_⟩
      rw [h.tree_eq]
      exact hroot.1.subset List.mem_cons_self
  | child _ hpage hq ih =>
      obtain ⟨i, layer, hdepth, hlayer, hp⟩ := ih
      rcases h.node_layer hlayer hp with ⟨-, C₁, leaf, C₂, -, -, hnode⟩ |
        ⟨j, level, page', rfl, hlevel, hmem, -, hnode⟩
      · rw [hpage] at hnode
        simp at hnode
      · rw [hpage] at hnode
        obtain rfl := BTreePage.inner.inj (Except.ok.inj hnode)
        obtain ⟨below, hbelow, hsame⟩ := h.shape.linked.layerBelow hlevel
        exact ⟨j, below, by omega, hbelow, hsame.1.subset (List.mem_flatMap.mpr ⟨_, hmem, hq⟩)⟩

/-- The leaves of the tree are those of the chain. -/
theorem Kept.isLeaf_iff (h : Kept f s w t) : IsLeaf f s p ↔ p ∈ t.chain.map Leaf.pageId := by
  constructor
  · rintro ⟨d, leaf, hp, hleaf⟩
    obtain ⟨i, layer, -, hlayer, hmem⟩ := h.layer_of_atDepth hp
    rcases h.node_layer hlayer hmem with ⟨-, C₁, leaf', C₂, hchain, rfl, -⟩ |
      ⟨j, level, page, -, -, -, -, hnode⟩
    · simp [hchain]
    · rw [hleaf] at hnode
      simp at hnode
  · intro hp
    have hbottom : (layers t)[0]? = some (t.chain.map Leaf.pageId) := rfl
    obtain ⟨leaf, hleaf, rfl⟩ := List.mem_map.mp hp
    obtain ⟨C₁, C₂, hchain⟩ := List.append_of_mem hleaf
    exact ⟨_, _, h.atDepth_of_layer hbottom hp, h.node_leaf hchain⟩

/-! ## The shape -/

/-- A page of the file is in a layer. -/
theorem Kept.layer_of_page (h : Kept f s w t) (hp : HasPage f s p) :
    ∃ (i : Nat) (layer : List Nat), (layers t)[i]? = some layer ∧ p ∈ layer := by
  have hmem := h.grown.page_mem h.shape hp.1 (by rw [← h.numPages_eq]; exact hp.2)
  rw [← flatten_layersOf] at hmem
  obtain ⟨layer, hlayer, hp'⟩ := List.mem_flatten.mp hmem
  obtain ⟨i, hi⟩ := List.mem_iff_getElem?.mp hlayer
  exact ⟨i, layer, hi, hp'⟩

/-- What stands on a page of the file. -/
theorem Kept.node_page (h : Kept f s w t) (hp : HasPage f s p) :
    (∃ C₁ leaf C₂, t.chain = C₁ ++ leaf :: C₂ ∧ leaf.pageId = p ∧
      s.node f p = .ok (.leaf (leaf.node (lastId (-1) C₁) (firstId C₂ (-1))))) ∨
    ∃ (j : Nat) (level : List InnerPage) (page : InnerPage), t.levels[j]? = some level ∧ page ∈ level ∧ page.pageId = p ∧
      s.node f p = .ok (.inner page) := by
  obtain ⟨i, layer, hlayer, hmem⟩ := h.layer_of_page hp
  rcases h.node_layer hlayer hmem with ⟨-, hleaf⟩ | ⟨j, level, page, -, hinner⟩
  · exact Or.inl hleaf
  · exact Or.inr ⟨j, level, page, hinner⟩

/-- An inner node that stands on a page of the file is a node of the levels. -/
theorem Kept.inner_mem (h : Kept f s w t) (hp : HasPage f s p) (hnode : s.node f p = .ok (.inner page)) :
    ∃ (j : Nat) (level : List InnerPage), t.levels[j]? = some level ∧ page ∈ level ∧ page.pageId = p := by
  rcases h.node_page hp with ⟨C₁, leaf, C₂, -, -, hleaf⟩ | ⟨j, level, page', hlevel, hmem, hid, hinner⟩
  · rw [hnode] at hleaf
    simp at hleaf
  · rw [hnode] at hinner
    obtain rfl := BTreePage.inner.inj (Except.ok.inj hinner)
    exact ⟨j, level, hlevel, hmem, hid⟩

theorem Kept.hasPage (h : Kept f s w t) (hp : p ∈ t.chain.map Leaf.pageId ++ allIds t.levels) :
    HasPage f s p := by
  rw [HasPage, h.numPages_eq]
  exact h.shape.pages p hp

/-- The pointers of a level are different pages. -/
theorem Kept.nodup_pointers (h : Kept f s w t) (hlevel : t.levels[i]? = some level) :
    (pointersOf level).Nodup := by
  obtain ⟨layer, hlayer, hsame⟩ := h.shape.linked.layerBelow hlevel
  have hnodup := h.shape.nodup
  rw [← flatten_layersOf, List.nodup_flatten] at hnodup
  exact hsame.1.nodup_iff.mpr (hnodup.1 layer (List.mem_of_getElem? hlayer))

/-- Two inner nodes that point to one page are the same. -/
theorem Kept.parent_unique (h : Kept f s w t) {j : Nat} {level₁ level₂ : List InnerPage}
    {page₁ page₂ : InnerPage} (h₁ : t.levels[i]? = some level₁) (h₂ : t.levels[j]? = some level₂)
    (hpage₁ : page₁ ∈ level₁) (hpage₂ : page₂ ∈ level₂) (hp₁ : p ∈ page₁.pointers)
    (hp₂ : p ∈ page₂.pointers) : page₁ = page₂ := by
  obtain ⟨below₁, hbelow₁, hsame₁⟩ := h.shape.linked.layerBelow h₁
  obtain ⟨below₂, hbelow₂, hsame₂⟩ := h.shape.linked.layerBelow h₂
  -- the page is in one layer, so both nodes are on the level above it
  obtain rfl := layer_unique h.shape.nodup hbelow₁ hbelow₂
    (hsame₁.1.subset (List.mem_flatMap.mpr ⟨page₁, hpage₁, hp₁⟩))
    (hsame₂.1.subset (List.mem_flatMap.mpr ⟨page₂, hpage₂, hp₂⟩))
  rw [h₁, Option.some.injEq] at h₂
  subst h₂
  by_contra hne
  have hdisjoint := (List.nodup_flatMap.mp (h.nodup_pointers h₁)).2
  have : Std.Symm (Function.onFun List.Disjoint InnerPage.pointers) := ⟨fun _ _ hxy => hxy.symm⟩
  exact hdisjoint.forall hpage₁ hpage₂ hne hp₁ hp₂

/-- Every page but the root has one parent. -/
theorem Kept.parent (h : Kept f s w t) (hp : HasPage f s p) (hroot : p ≠ s.tree.rootPageId) :
    ∃! q, PointsTo f s q p := by
  obtain ⟨i, layer, hlayer, hmem⟩ := h.layer_of_page hp
  have hi : i < t.levels.length := by
    have hle := (List.getElem?_eq_some_iff.mp hlayer).1
    rw [layers, length_layersOf] at hle
    refine Nat.lt_of_le_of_ne (Nat.le_of_lt_succ hle) fun heq => hroot ?_
    obtain ⟨top, htop, htopRoot⟩ := h.shape.linked.topLayer
    rw [layers, heq, htop, Option.some.injEq] at hlayer
    subst hlayer
    rw [List.mem_singleton.mp (htopRoot.1.symm.subset hmem), h.tree_eq]
  have hlevel := List.getElem?_eq_getElem hi
  obtain ⟨below, hbelow, hsame⟩ := h.shape.linked.layerBelow hlevel
  rw [layers, hbelow, Option.some.injEq] at hlayer
  subst hlayer
  obtain ⟨page, hpage, hptr⟩ := List.mem_flatMap.mp (hsame.1.symm.subset hmem)
  have hid : page.pageId ∈ t.chain.map Leaf.pageId ++ allIds t.levels :=
    List.mem_append_right _ (List.mem_flatMap.mpr ⟨_, List.mem_of_getElem? hlevel,
      List.mem_map_of_mem hpage⟩)
  refine ⟨page.pageId, ⟨h.hasPage hid, page, h.node_inner hlevel hpage, hptr⟩, ?_⟩
  rintro q ⟨hq, page', hnode, hptr'⟩
  obtain ⟨j, level', hlevel', hmem', rfl⟩ := h.inner_mem hq hnode
  rw [h.parent_unique hlevel hlevel' hpage hmem' hptr hptr']

/-- A node that is not the root has half of its keys. -/
theorem Kept.half (h : Kept f s w t) (hlevel : t.levels[i]? = some level) (hpage : page ∈ level)
    (hroot : page.pageId ≠ s.tree.rootPageId) : BTreePage.maxKeys / 2 ≤ page.keys.length := by
  have hi := (List.getElem?_eq_some_iff.mp hlevel).1
  have hlast : i + 1 ≠ t.levels.length := fun heq => hroot (by
    obtain ⟨top, htop, htopRoot⟩ := h.shape.linked.topLayer
    rw [← heq, getElem?_layersOf_succ, hlevel, Option.map_some, Option.some.injEq] at htop
    subst htop
    rw [List.mem_singleton.mp (htopRoot.1.symm.subset (List.mem_map_of_mem hpage)), h.tree_eq])
  refine h.grown.half level ?_ page hpage
  have hdrop : t.levels.dropLast[i]? = some level := by
    rw [List.getElem?_dropLast, if_pos (by omega), hlevel]
  exact List.mem_of_getElem? hdrop

/-- The leaves stand on their pages, each linked with the one before it and the
one behind it, and the links at both ends are -1. -/
structure LeafChain (f : FileId) (s : IndexSession) (leaves : List LeafPage) : Prop where
  stand : ∀ leaf ∈ leaves, s.node f leaf.pageId = .ok (.leaf leaf)
  first : leaves.head?.map LeafPage.prevLeaf = some (-1)
  last : leaves.getLast?.map LeafPage.nextLeaf = some (-1)
  links : leaves.IsChain fun a b => a.nextLeaf = b.pageId ∧ b.prevLeaf = a.pageId

/-- The nodes of a piece of the chain. -/
def nodesOf : Int → List Leaf → Int → List LeafPage
  | _, [], _ => []
  | prev, leaf :: rest, next =>
      leaf.node prev (firstId rest next) :: nodesOf leaf.pageId rest next

theorem map_pageId_nodesOf (prev next : Int) (C : List Leaf) :
    (nodesOf prev C next).map LeafPage.pageId = C.map Leaf.pageId := by
  induction C generalizing prev with
  | nil => rfl
  | cons leaf rest ih => simp [nodesOf, ih, Leaf.node]

theorem head?_nodesOf {prev next : Int} {rest : List Leaf} :
    (nodesOf prev (leaf :: rest) next).head? = some (leaf.node prev (firstId rest next)) := rfl

theorem getLast?_nodesOf {prev next : Int} {rest : List Leaf} :
    ((nodesOf prev (leaf :: rest) next).getLast?.map LeafPage.nextLeaf) = some next := by
  induction rest generalizing prev leaf with
  | nil => rfl
  | cons leaf' rest ih =>
      rw [nodesOf, nodesOf, List.getLast?_cons_cons]
      exact ih

theorem isChain_nodesOf (prev next : Int) (C : List Leaf) :
    (nodesOf prev C next).IsChain fun a b => a.nextLeaf = b.pageId ∧ b.prevLeaf = a.pageId := by
  induction C generalizing prev with
  | nil => exact List.IsChain.nil
  | cons leaf rest ih =>
      cases rest with
      | nil => exact List.IsChain.singleton _
      | cons leaf' rest => exact List.IsChain.cons_cons ⟨rfl, rfl⟩ (ih leaf.pageId)

theorem Kept.node_nodesOf (h : Kept f s w t) {prev next : Int} {C : List Leaf}
    (hrep : ChainRep f w prev C next) :
    ∀ leaf ∈ nodesOf prev C next, s.node f leaf.pageId = .ok (.leaf leaf) := by
  induction C generalizing prev with
  | nil => simp [nodesOf]
  | cons leaf rest ih =>
      intro l hl
      rcases List.mem_cons.mp hl with rfl | hl
      · exact h.node_eq hrep.1
      · exact ih hrep.2 l hl

/-- A scan without bounds takes all entries of the chain. -/
theorem rangeIn_all (chain : List Leaf) :
    BTree.rangeIn none none chain = (chain.flatMap Leaf.entries).map Prod.snd := by
  induction chain with
  | nil => rfl
  | cons leaf rest ih => simp [BTree.rangeIn, ih]

end IndexSession

end DBEngine
