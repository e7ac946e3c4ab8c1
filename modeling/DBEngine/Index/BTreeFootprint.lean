import DBEngine.Index.BPlusTree

/-!
# The file of a tree

Every method of the tree works on the pages of its own file.
-/

set_option autoImplicit false

namespace DBEngine

open ByteBuffer Paged

/-- Every request of the program is about the file `f`. -/
abbrev InFile {σ α : Type} (f : FileId) (p : PageProg σ α) : Prop := p.Only fun r => r.file = f

namespace BPlusTree

variable {σ : Type} {f : FileId}

theorem inFile_fetchNode (pageId : Nat) : InFile f (fetchNode f pageId : PageProg σ BTreePage) :=
  Prog.only_bind (Bpm.only_fetchPage rfl) fun _ => Bpm.only_reading

theorem inFile_write (raw : Nat) (node : BTreePage) : InFile f (write f raw node : PageProg σ Unit) :=
  Bpm.only_onFrame rfl fun _ => rfl

theorem inFile_writeMetadata : InFile f (writeMetadata f) := by
  refine Prog.only_bind Prog.only_read fun tree => Prog.only_bind (Bpm.only_fetchPage rfl) fun _ => ?_
  exact Prog.only_bind (Bpm.only_onFrame rfl fun _ => rfl) fun _ => Bpm.only_unpinPage rfl

theorem inFile_openIndex : InFile f (openIndex f) := by
  refine Prog.only_bind (Bpm.only_fetchPage rfl) fun raw => Prog.only_bind Bpm.only_reading fun root => ?_
  refine Prog.only_bind Bpm.only_reading fun numKeys => Prog.only_bind (Prog.only_modify _) fun _ => ?_
  exact Bpm.only_unpinPage rfl

theorem inFile_create : InFile f (create f) := by
  refine Prog.only_bind (Bpm.only_allocatePage rfl) fun _ => Prog.only_bind (Prog.only_modify _) fun _ => ?_
  refine Prog.only_bind inFile_writeMetadata fun _ => ?_
  refine Prog.only_bind (Bpm.only_allocatePage rfl) fun pageId => ?_
  refine Prog.only_bind (Bpm.only_fetchPage rfl) fun _ => ?_
  exact Prog.only_bind (inFile_write pageId _) fun _ => Bpm.only_unpinPage rfl

/-! ## Finding a leaf -/

theorem inFile_findLeafFrom (key : Int) (fuel raw : Nat) (page : BTreePage) (path : List Nat) :
    InFile f (findLeafFrom f key fuel raw page path : PageProg σ (Nat × LeafPage × List Nat)) := by
  induction fuel generalizing raw page path with
  | zero => cases page <;> trivial
  | succ fuel ih =>
      cases page with
      | leaf node => exact Prog.only_pure _
      | inner node =>
          refine Prog.only_bind (Prog.only_ofExcept _) fun pageId => ?_
          refine Prog.only_bind (Bpm.only_unpinPage rfl) fun _ => ?_
          exact Prog.only_bind (inFile_fetchNode pageId) fun child => ih pageId child _

theorem inFile_findLeaf (key : Int) : InFile f (findLeaf f key) := by
  refine Prog.only_bind Prog.only_read fun tree => Prog.only_bind (inFile_fetchNode _) fun node => ?_
  exact inFile_findLeafFrom key walkLimit _ node _

theorem inFile_findLeftmostFrom (fuel raw : Nat) (page : BTreePage) :
    InFile f (findLeftmostFrom f fuel raw page : PageProg σ (Nat × LeafPage)) := by
  induction fuel generalizing raw page with
  | zero => cases page <;> trivial
  | succ fuel ih =>
      cases page with
      | leaf node => exact Prog.only_pure _
      | inner node =>
          refine Prog.only_bind (Prog.only_ofExcept _) fun pageId => ?_
          refine Prog.only_bind (Bpm.only_unpinPage rfl) fun _ => ?_
          exact Prog.only_bind (inFile_fetchNode pageId) fun child => ih pageId child

theorem inFile_findLeftmost : InFile f (findLeftmost f) := by
  refine Prog.only_bind Prog.only_read fun tree => Prog.only_bind (inFile_fetchNode _) fun node => ?_
  exact inFile_findLeftmostFrom walkLimit _ node

/-! ## Inserting -/

theorem inFile_splitRoot (pageId newPageId : Nat) (separator : Int) :
    InFile f (splitRoot f pageId newPageId separator) := by
  refine Prog.only_bind (Bpm.only_allocatePage rfl) fun rootId => ?_
  refine Prog.only_bind (Prog.only_modify _) fun _ => Prog.only_bind (Bpm.only_fetchPage rfl) fun _ => ?_
  refine Prog.only_bind (Prog.only_ofExcept _) fun rootNode => ?_
  refine Prog.only_bind (inFile_write rootId _) fun _ => ?_
  exact Prog.only_bind (Bpm.only_unpinPage rfl) fun _ => inFile_writeMetadata

theorem inFile_writeHalves (raw newPageId : Nat) (node newNode : BTreePage) :
    InFile f (writeHalves f raw newPageId node newNode : PageProg σ Unit) := by
  refine Prog.only_bind (inFile_write raw node) fun _ => ?_
  refine Prog.only_bind (inFile_write newPageId newNode) fun _ => ?_
  exact Prog.only_bind (Bpm.only_unpinPage rfl) fun _ => Bpm.only_unpinPage rfl

section

variable {above : InnerPage → InnerPage → Int → PageProg BPlusTree Unit}

theorem inFile_splitInternal (raw : Nat) (node : InnerPage)
    (habove : ∀ lower upper key, InFile f (above lower upper key)) :
    InFile f (splitInternal f raw node above) := by
  refine Prog.only_bind (Bpm.only_allocatePage rfl) fun newPageId => ?_
  refine Prog.only_bind (Bpm.only_fetchPage rfl) fun _ => ?_
  refine Prog.only_bind (Prog.only_ofExcept _) fun splitKey => ?_
  exact Prog.only_bind (inFile_writeHalves raw newPageId _ _) fun _ => habove _ _ splitKey

theorem inFile_fileNode (path : List Nat) (idx : Nat) (newNode : BTreePage) (separator : Option Int)
    (habove : ∀ lower upper key, InFile f (above lower upper key)) :
    InFile f (fileNode f path idx newNode separator above) := by
  refine Prog.only_bind (Prog.only_ofExcept _) fun raw => Prog.only_bind (inFile_fetchNode raw) fun page => ?_
  refine Prog.only_bind (Prog.only_ofExcept _) fun minKey => ?_
  refine Prog.only_bind (Prog.only_ofExcept _) fun node => Prog.only_bind (Prog.only_ofExcept _) fun node => ?_
  split
  · exact Prog.only_bind (inFile_write raw _) fun _ => Bpm.only_unpinPage rfl
  · exact inFile_splitInternal raw node habove

end

theorem inFile_updateParent (path : List Nat) (idx : Nat) (newNode : BTreePage) (separator : Option Int) :
    InFile f (updateParent f path idx newNode separator) := by
  induction idx generalizing newNode separator with
  | zero => exact inFile_fileNode path 0 newNode separator fun _ _ => inFile_splitRoot _ _
  | succ idx ih =>
      exact inFile_fileNode path (idx + 1) newNode separator fun _ upper key => ih (.inner upper) (some key)

theorem inFile_linkNext (newLeaf : LeafPage) (newPageId : Nat) :
    InFile f (linkNext f newLeaf newPageId : PageProg σ Unit) := by
  unfold linkNext
  split
  · refine Prog.only_bind (inFile_fetchNode _) fun page => Prog.only_bind (Prog.only_ofExcept _) fun next => ?_
    exact Prog.only_bind (inFile_write _ _) fun _ => Bpm.only_unpinPage rfl
  · exact Prog.only_pure ()

theorem inFile_fileLeaf (path : List Nat) (leaf newLeaf : LeafPage) :
    InFile f (fileLeaf f path leaf newLeaf) := by
  unfold fileLeaf
  split
  · exact inFile_updateParent path _ _ none
  · exact Prog.only_bind (Prog.only_ofExcept _) fun separator => inFile_splitRoot _ _ separator

theorem inFile_splitLeaf (raw : Nat) (leaf : LeafPage) (path : List Nat) :
    InFile f (splitLeaf f raw leaf path) := by
  refine Prog.only_bind (Bpm.only_allocatePage rfl) fun newPageId => ?_
  refine Prog.only_bind (Bpm.only_fetchPage rfl) fun _ => ?_
  refine Prog.only_bind (inFile_linkNext _ newPageId) fun _ => ?_
  exact Prog.only_bind (inFile_writeHalves raw newPageId _ _) fun _ => inFile_fileLeaf path _ _

theorem inFile_insert (key : Int) (rid : Rid) : InFile f (insert f key rid) := by
  refine Prog.only_bind (inFile_findLeaf key) fun (raw, leaf, path) => ?_
  refine Prog.only_bind (Prog.only_ofExcept _) fun leaf => Prog.only_bind (Prog.only_modify _) fun _ => ?_
  split
  · exact Prog.only_bind (inFile_write raw _) fun _ => Bpm.only_unpinPage rfl
  · exact inFile_splitLeaf raw leaf path

/-! ## Searching and deleting -/

/-- The step to the next leaf, as all walks along the leaves take it. -/
theorem inFile_nextLeaf {α : Type} {leaf : LeafPage} {next : LeafPage → PageProg σ α}
    (hnext : ∀ leaf, InFile f (next leaf)) :
    InFile f (do
      let page ← fetchNode f leaf.nextLeaf.toNat
      let leaf ← Prog.ofExcept (asLeaf page)
      next leaf) :=
  Prog.only_bind (inFile_fetchNode _) fun _ => Prog.only_bind (Prog.only_ofExcept _) hnext

theorem inFile_searchFrom (key : Int) (fuel : Nat) (leaf : LeafPage) (rids : List Rid) :
    InFile f (searchFrom f key fuel leaf rids : PageProg σ (List Rid)) := by
  induction fuel generalizing leaf rids with
  | zero =>
      refine Prog.only_bind (Prog.only_ofExcept _) fun found => Prog.only_bind (Bpm.only_unpinPage rfl) fun _ => ?_
      split <;> trivial
  | succ fuel ih =>
      refine Prog.only_bind (Prog.only_ofExcept _) fun found => Prog.only_bind (Bpm.only_unpinPage rfl) fun _ => ?_
      split
      · exact Prog.only_pure _
      · exact inFile_nextLeaf fun next => ih next (rids ++ found)

theorem inFile_search (key : Int) : InFile f (search f key) :=
  Prog.only_bind (inFile_findLeaf key) fun (_, leaf, _) => inFile_searchFrom key walkLimit leaf []

theorem inFile_rangeFrom (start stop : Option Int) (fuel : Nat) (leaf : LeafPage) (rids : List Rid) :
    InFile f (rangeFrom f start stop fuel leaf rids : PageProg σ (List Rid)) := by
  induction fuel generalizing leaf rids with
  | zero =>
      refine Prog.only_bind (Prog.only_ofExcept _) fun (rids, passed) => ?_
      refine Prog.only_bind (Bpm.only_unpinPage rfl) fun _ => ?_
      split <;> trivial
  | succ fuel ih =>
      refine Prog.only_bind (Prog.only_ofExcept _) fun (rids, passed) => ?_
      refine Prog.only_bind (Bpm.only_unpinPage rfl) fun _ => ?_
      split
      · exact Prog.only_pure _
      · exact inFile_nextLeaf fun next => ih next rids

theorem inFile_rangeScan (start stop : Option Int) : InFile f (rangeScan f start stop) := by
  unfold rangeScan
  cases start with
  | none =>
      exact Prog.only_bind inFile_findLeftmost fun (_, leaf) => inFile_rangeFrom none stop walkLimit leaf []
  | some key =>
      exact Prog.only_bind (inFile_findLeaf key) fun (_, leaf, _) =>
        inFile_rangeFrom (some key) stop walkLimit leaf []

theorem inFile_deleteFrom (key : Int) (rid : Rid) (fuel raw : Nat) (leaf : LeafPage) :
    InFile f (deleteFrom f key rid fuel raw leaf) := by
  have hremoved (leaf : LeafPage) (raw : Nat) : InFile f (do
      write f raw (.leaf leaf)
      Prog.modify fun tree => { tree with numKeys := tree.numKeys - 1 }
      writeMetadata f
      Bpm.unpinPage leaf.pageId f true
      pure true : PageProg BPlusTree Bool) := by
    refine Prog.only_bind (inFile_write raw _) fun _ => Prog.only_bind (Prog.only_modify _) fun _ => ?_
    refine Prog.only_bind inFile_writeMetadata fun _ => ?_
    exact Prog.only_bind (Bpm.only_unpinPage rfl) fun _ => Prog.only_pure true
  induction fuel generalizing raw leaf with
  | zero =>
      rw [deleteFrom]
      refine Prog.only_bind (Prog.only_ofExcept _) fun found => ?_
      cases found with
      | some leaf => exact hremoved leaf raw
      | none =>
          refine Prog.only_bind (Bpm.only_unpinPage rfl) fun _ => ?_
          split <;> trivial
  | succ fuel ih =>
      rw [deleteFrom]
      refine Prog.only_bind (Prog.only_ofExcept _) fun found => ?_
      cases found with
      | some leaf => exact hremoved leaf raw
      | none =>
          refine Prog.only_bind (Bpm.only_unpinPage rfl) fun _ => ?_
          split
          · exact Prog.only_pure false
          · exact inFile_nextLeaf fun next => ih _ next

theorem inFile_delete (key : Int) (rid : Rid) : InFile f (delete f key rid) :=
  Prog.only_bind (inFile_findLeaf key) fun (raw, leaf, _) => inFile_deleteFrom key rid walkLimit raw leaf

end BPlusTree

end DBEngine
