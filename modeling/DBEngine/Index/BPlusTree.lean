import DBEngine.Buffer.PoolPrograms
import DBEngine.Index.BTreePage

/-!
# The B+ tree

An index in a file of its own: page 0 names the root and counts the keys, every
other page is a node.  The methods of `BPlusTree` are programs over the pool;
the fields of the tree object are their client state.

A node object works on the frame of the page it was read from.  Where the code
carries such an object along, its page goes with it.
-/

set_option autoImplicit false

namespace DBEngine

open ByteBuffer Paged

/-- The fields of a `BPlusTree`. -/
structure BPlusTree where
  rootPageId : Nat
  numKeys : Int
  deriving DecidableEq, Repr

namespace BPlusTree

variable {σ : Type}

/-- Page numbers take four bytes, so a walk over more pages than this comes
back to a page it has seen and never ends. -/
def walkLimit : Nat := 4294967296

/-- `BTreePage(self.bpm.fetch_page(page_id, self.file_id))`. -/
def fetchNode (fileId : FileId) (pageId : Nat) : PageProg σ BTreePage := do
  let raw ← Bpm.fetchPage pageId fileId
  Bpm.reading raw BTreePage.deserialize

/-- A node used as a leaf: an inner node has no `RIDs` and no `next_leaf`. -/
def asLeaf : BTreePage → Except PyErr LeafPage
  | .leaf node => .ok node
  | .inner _ => .error .attributeError

/-- A node used as an inner node: a leaf has no `pointers`. -/
def asInner : BTreePage → Except PyErr InnerPage
  | .inner node => .ok node
  | .leaf _ => .error .attributeError

/-- `node.serialize()`, for a node on the frame of page `raw`. -/
def write (fileId : FileId) (raw : Nat) (node : BTreePage) : PageProg σ Unit :=
  Bpm.onFrame raw fileId node.serialize

/-- The two fields of the header. -/
def packHeader (tree : BPlusTree) : Buf PyErr Unit := do
  packInto formatI 0 tree.rootPageId
  packInto formatI 4 tree.numKeys

/-- `_write_metadata`. -/
def writeMetadata (fileId : FileId) : PageProg BPlusTree Unit := do
  let tree ← Prog.read
  let _ ← Bpm.fetchPage 0 fileId
  Bpm.onFrame 0 fileId tree.packHeader
  Bpm.unpinPage 0 fileId true

/-- `_read_metadata`. -/
def readMetadata (fileId : FileId) : PageProg BPlusTree Unit := do
  let raw ← Bpm.fetchPage 0 fileId
  let rootPageId ← Bpm.reading raw (unpackI 0)
  let numKeys ← Bpm.reading raw (unpackI 4)
  Prog.modify fun _ => ⟨rootPageId, numKeys⟩
  Bpm.unpinPage 0 fileId false

/-- `BPlusTree(bpm, file_id, True)`. -/
def create (fileId : FileId) : PageProg BPlusTree Unit := do
  let _ ← Bpm.allocatePage fileId
  Prog.modify fun _ => ⟨1, 0⟩
  writeMetadata fileId
  let pageId ← Bpm.allocatePage fileId
  let _ ← Bpm.fetchPage pageId fileId
  write fileId pageId (.leaf (LeafPage.new 1))
  Bpm.unpinPage 1 fileId true

/-- `BPlusTree(bpm, file_id)`. -/
def openIndex (fileId : FileId) : PageProg BPlusTree Unit := readMetadata fileId

/-! ## Finding a leaf -/

/-- The loop of `_find_leaf`, from the node on page `raw` on: the leaf, its page
and the path. -/
def findLeafFrom (fileId : FileId) (key : Int) :
    Nat → Nat → BTreePage → List Nat → PageProg σ (Nat × LeafPage × List Nat)
  | _, raw, .leaf node, path => pure (raw, node, path)
  | 0, _, .inner _, _ => Prog.raise .noReturn
  | fuel + 1, _, .inner node, path => do
      let pageId ← Prog.ofExcept (node.route key)
      Bpm.unpinPage node.pageId fileId false
      let child ← fetchNode fileId pageId
      findLeafFrom fileId key fuel pageId child (path ++ [child.pageId])

/-- `_find_leaf`. -/
def findLeaf (fileId : FileId) (key : Int) : PageProg BPlusTree (Nat × LeafPage × List Nat) := do
  let tree ← Prog.read
  let node ← fetchNode fileId tree.rootPageId
  findLeafFrom fileId key walkLimit tree.rootPageId node [tree.rootPageId]

/-- The loop of `_find_leftmost_leaft`. -/
def findLeftmostFrom (fileId : FileId) : Nat → Nat → BTreePage → PageProg σ (Nat × LeafPage)
  | _, raw, .leaf node => pure (raw, node)
  | 0, _, .inner _ => Prog.raise .noReturn
  | fuel + 1, _, .inner node => do
      let pageId ← Prog.ofExcept (node.pointer 0)
      Bpm.unpinPage node.pageId fileId false
      let child ← fetchNode fileId pageId
      findLeftmostFrom fileId fuel pageId child

/-- `_find_leftmost_leaft`; nobody uses the path it collects. -/
def findLeftmost (fileId : FileId) : PageProg BPlusTree (Nat × LeafPage) := do
  let tree ← Prog.read
  let node ← fetchNode fileId tree.rootPageId
  findLeftmostFrom fileId walkLimit tree.rootPageId node

/-! ## Inserting -/

/-- `_split_root`. -/
def splitRoot (fileId : FileId) (pageId newPageId : Nat) (separator : Int) :
    PageProg BPlusTree Unit := do
  let rootId ← Bpm.allocatePage fileId
  Prog.modify fun tree => { tree with rootPageId := rootId }
  let _ ← Bpm.fetchPage rootId fileId
  let rootNode := { InnerPage.new rootId with pointers := [pageId] }
  let rootNode ← Prog.ofExcept (rootNode.insertPointer separator newPageId)
  write fileId rootId (.inner rootNode)
  Bpm.unpinPage rootId fileId true
  writeMetadata fileId

/-- `new_node.keys[0]`. -/
def firstKey (node : BTreePage) : Except PyErr Int :=
  match node.keys with
  | key :: _ => .ok key
  | [] => .error .indexError

/-- `separator if separator else new_node.keys[0]`. -/
def minKey (separator : Option Int) (newNode : BTreePage) : Except PyErr Int :=
  match separator with
  | some key => if key ≠ 0 then .ok key else firstKey newNode
  | none => firstKey newNode

/-- Both nodes of a split are written and released. -/
def writeHalves (fileId : FileId) (raw newPageId : Nat) (node newNode : BTreePage) :
    PageProg σ Unit := do
  write fileId raw node
  write fileId newPageId newNode
  Bpm.unpinPage node.pageId fileId true
  Bpm.unpinPage newNode.pageId fileId true

/-- `_split_internal`; `above` files the new node in what is above the node. -/
def splitInternal (fileId : FileId) (raw : Nat) (node : InnerPage)
    (above : InnerPage → InnerPage → Int → PageProg BPlusTree Unit) : PageProg BPlusTree Unit := do
  let newPageId ← Bpm.allocatePage fileId
  let _ ← Bpm.fetchPage newPageId fileId
  let splitKey ← Prog.ofExcept node.splitKey
  writeHalves fileId raw newPageId (.inner node.lowerHalf) (.inner (node.upperHalf newPageId))
  above node.lowerHalf (node.upperHalf newPageId) splitKey

/-- The body of `_update_parent`; `above` is what `_split_internal` does last. -/
def fileNode (fileId : FileId) (path : List Nat) (idx : Nat) (newNode : BTreePage)
    (separator : Option Int) (above : InnerPage → InnerPage → Int → PageProg BPlusTree Unit) :
    PageProg BPlusTree Unit := do
  let raw ← Prog.ofExcept (match path[idx]? with
    | some p => .ok p
    | none => .error .indexError)
  let page ← fetchNode fileId raw
  let minKey ← Prog.ofExcept (minKey separator newNode)
  let node ← Prog.ofExcept (asInner page)
  let node ← Prog.ofExcept (node.insertPointer minKey newNode.pageId)
  if !node.isOverflow then do
    write fileId raw (.inner node)
    Bpm.unpinPage node.pageId fileId true
  else
    splitInternal fileId raw node above

/-- `_update_parent(path, idx, new_node, separator)`: a node that is split files
its new half one step up the path, or under a new root. -/
def updateParent (fileId : FileId) (path : List Nat) :
    Nat → BTreePage → Option Int → PageProg BPlusTree Unit
  | 0, newNode, separator =>
      fileNode fileId path 0 newNode separator fun lower upper splitKey =>
        splitRoot fileId lower.pageId upper.pageId splitKey
  | idx + 1, newNode, separator =>
      fileNode fileId path (idx + 1) newNode separator fun _ upper splitKey =>
        updateParent fileId path idx (.inner upper) (some splitKey)

/-- The part of `_split_leaf` that links the leaf behind a new one with it. -/
def linkNext (fileId : FileId) (newLeaf : LeafPage) (newPageId : Nat) : PageProg σ Unit := do
  if 0 < newLeaf.nextLeaf then do
    let page ← fetchNode fileId newLeaf.nextLeaf.toNat
    let next ← Prog.ofExcept (asLeaf page)
    write fileId newLeaf.nextLeaf.toNat (.leaf { next with prevLeaf := newPageId })
    Bpm.unpinPage newLeaf.nextLeaf.toNat fileId true

/-- The end of `_split_leaf`: the new leaf is filed. -/
def fileLeaf (fileId : FileId) (path : List Nat) (leaf newLeaf : LeafPage) :
    PageProg BPlusTree Unit :=
  if 2 ≤ path.length then updateParent fileId path (path.length - 2) (.leaf newLeaf) none
  else do
    let separator ← Prog.ofExcept (firstKey (.leaf newLeaf))
    splitRoot fileId leaf.pageId newLeaf.pageId separator

/-- `_split_leaf`. -/
def splitLeaf (fileId : FileId) (raw : Nat) (leaf : LeafPage) (path : List Nat) :
    PageProg BPlusTree Unit := do
  let newPageId ← Bpm.allocatePage fileId
  let _ ← Bpm.fetchPage newPageId fileId
  let newLeaf := leaf.upperHalf newPageId
  linkNext fileId newLeaf newPageId
  writeHalves fileId raw newPageId (.leaf (leaf.lowerHalf newPageId)) (.leaf newLeaf)
  fileLeaf fileId path (leaf.lowerHalf newPageId) newLeaf

/-- `insert`. -/
def insert (fileId : FileId) (key : Int) (rid : Rid) : PageProg BPlusTree Unit := do
  let (raw, leaf, path) ← findLeaf fileId key
  let leaf ← Prog.ofExcept (leaf.insert key rid)
  Prog.modify fun tree => { tree with numKeys := tree.numKeys + 1 }
  if !leaf.isOverflow then do
    write fileId raw (.leaf leaf)
    Bpm.unpinPage leaf.pageId fileId true
  else
    splitLeaf fileId raw leaf path

/-! ## Searching and deleting -/

/-- The loop of `search`. -/
def searchFrom (fileId : FileId) (key : Int) :
    Nat → LeafPage → List Rid → PageProg σ (List Rid)
  | fuel, leaf, rids => do
      let found ← Prog.ofExcept (leaf.lookup key)
      Bpm.unpinPage leaf.pageId fileId false
      if leaf.passed key ∨ leaf.nextLeaf ≤ 0 then pure (rids ++ found)
      else
        match fuel with
        | 0 => Prog.raise .noReturn
        | fuel + 1 => do
            let page ← fetchNode fileId leaf.nextLeaf.toNat
            let next ← Prog.ofExcept (asLeaf page)
            searchFrom fileId key fuel next (rids ++ found)

/-- `search`. -/
def search (fileId : FileId) (key : Int) : PageProg BPlusTree (List Rid) := do
  let (_, leaf, _) ← findLeaf fileId key
  searchFrom fileId key walkLimit leaf []

/-- The loop of `range_scan` over the entries of a leaf: the record ids taken,
and whether the end of the range was passed. -/
def takeRange (start stop : Option Int) :
    Nat → List Int → List Rid → List Rid → Except PyErr (List Rid × Bool)
  | 0, _, _, taken => .ok (taken, false)
  | _ + 1, [], _, _ => .error .indexError
  | n + 1, key :: keys, rids, taken =>
      if start.any (fun s => key < s) then takeRange start stop n keys rids.tail taken
      else if stop.any (fun s => s < key) then .ok (taken, true)
      else
        match rids with
        | [] => .error .indexError
        | rid :: rest => takeRange start stop n keys rest (taken ++ [rid])

/-- The loop of `range_scan` over the leaves. -/
def rangeFrom (fileId : FileId) (start stop : Option Int) :
    Nat → LeafPage → List Rid → PageProg σ (List Rid)
  | fuel, leaf, rids => do
      let (rids, passed) ← Prog.ofExcept (takeRange start stop leaf.numKeys leaf.keys leaf.rids rids)
      Bpm.unpinPage leaf.pageId fileId false
      if passed ∨ leaf.nextLeaf ≤ 0 then pure rids
      else
        match fuel with
        | 0 => Prog.raise .noReturn
        | fuel + 1 => do
            let page ← fetchNode fileId leaf.nextLeaf.toNat
            let next ← Prog.ofExcept (asLeaf page)
            rangeFrom fileId start stop fuel next rids

/-- `range_scan`. -/
def rangeScan (fileId : FileId) (start stop : Option Int) : PageProg BPlusTree (List Rid) := do
  match start with
  | some key => do
      let (_, leaf, _) ← findLeaf fileId key
      rangeFrom fileId start stop walkLimit leaf []
  | none => do
      let (_, leaf) ← findLeftmost fileId
      rangeFrom fileId start stop walkLimit leaf []

/-- The loop of `delete`, with the page of the leaf. -/
def deleteFrom (fileId : FileId) (key : Int) (rid : Rid) :
    Nat → Nat → LeafPage → PageProg BPlusTree Bool
  | fuel, raw, leaf => do
      match ← Prog.ofExcept (leaf.removeKey key rid) with
      | some leaf => do
          write fileId raw (.leaf leaf)
          Prog.modify fun tree => { tree with numKeys := tree.numKeys - 1 }
          writeMetadata fileId
          Bpm.unpinPage leaf.pageId fileId true
          pure true
      | none => do
          Bpm.unpinPage leaf.pageId fileId false
          if leaf.passed key ∨ leaf.nextLeaf ≤ 0 then pure false
          else
            match fuel with
            | 0 => Prog.raise .noReturn
            | fuel + 1 => do
                let page ← fetchNode fileId leaf.nextLeaf.toNat
                let next ← Prog.ofExcept (asLeaf page)
                deleteFrom fileId key rid fuel leaf.nextLeaf.toNat next

/-- `delete`. -/
def delete (fileId : FileId) (key : Int) (rid : Rid) : PageProg BPlusTree Bool := do
  let (raw, leaf, _) ← findLeaf fileId key
  deleteFrom fileId key rid walkLimit raw leaf

end BPlusTree

end DBEngine
