import DBEngine.Lib.Runs
import DBEngine.Index.BTreePageLayout

/-!
# The tree as levels of nodes

What the pages of an index amount to: the inner nodes level by level, from the
parents of the leaves up to the root, and the leaves in the order of their
chain.  `BTree.insert`, `delete`, `search` and `rangeScan` are the operations of
the index on it; the pages play no part.

Nothing here says that the keys are in order: a separator filed in the wrong
place leaves a tree whose chain is not the order of its leaves.
-/

set_option autoImplicit false

namespace DBEngine

/-! ## Nodes -/

namespace InnerPage

/-- The child to which the search for a key goes on. -/
def child? (node : InnerPage) (key : Int) : Option Nat :=
  node.pointers[node.keys.countP fun k => decide (k < key)]?

/-- The node with one more key and the pointer behind it. -/
def filed (node : InnerPage) (minKey : Int) (pointer : Nat) : InnerPage :=
  { node with
    keys := BTreePage.insertAt node.keys (node.keys.findIdx fun k => decide (minKey < k)) minKey
    pointers := BTreePage.insertAt node.pointers
      ((node.keys.findIdx fun k => decide (minKey < k)) + 1) pointer
    numKeys := node.numKeys + 1 }

/-- The key between the two halves. -/
def middle (node : InnerPage) : Int := node.keys.getD (node.numKeys / 2) 0

end InnerPage

/-- A leaf: its page and its entries in order. -/
structure Leaf where
  pageId : Nat
  entries : List (Int × Rid)
  deriving DecidableEq, Repr

namespace Leaf

def keys (leaf : Leaf) : List Int := leaf.entries.map Prod.fst

/-- The node between its neighbours. -/
def node (leaf : Leaf) (prev next : Int) : LeafPage :=
  ⟨leaf.pageId, leaf.entries.length, leaf.keys, leaf.entries.map Prod.snd, prev, next⟩

/-- The leaf with one more entry, behind those with the same key. -/
def insert (leaf : Leaf) (key : Int) (rid : Rid) : Leaf :=
  { leaf with
    entries := BTreePage.insertAt leaf.entries
      (leaf.entries.findIdx fun e => decide (key < e.1)) (key, rid) }

/-- The leaf without the first such entry. -/
def erase (leaf : Leaf) (key : Int) (rid : Rid) : Leaf :=
  { leaf with entries := leaf.entries.erase (key, rid) }

/-- The two halves of a leaf that is split. -/
def lower (leaf : Leaf) : Leaf :=
  { leaf with entries := leaf.entries.take (leaf.entries.length / 2) }

def upper (leaf : Leaf) (newPageId : Nat) : Leaf :=
  ⟨newPageId, leaf.entries.drop (leaf.entries.length / 2)⟩

/-- The record ids under a key. -/
def lookup (leaf : Leaf) (key : Int) : List Rid :=
  (leaf.entries.filter fun e => decide (e.1 = key)).map Prod.snd

/-- The last key is past this one. -/
def passed (leaf : Leaf) (key : Int) : Bool := leaf.entries.getLast?.any fun e => decide (key < e.1)

end Leaf

/-- The number of the first leaf of a chain and of the last one, and what stands
there when the chain is empty. -/
def firstId (chain : List Leaf) (next : Int) : Int :=
  (chain.head?.map fun l => (l.pageId : Int)).getD next

def lastId (prev : Int) (chain : List Leaf) : Int :=
  (chain.getLast?.map fun l => (l.pageId : Int)).getD prev

/-! ## Trees -/

/-- A tree, with the number of the next page of its file, the number of its keys
and the number that the header has. -/
structure BTree where
  levels : List (List InnerPage)
  chain : List Leaf
  root : Nat
  next : Nat
  numKeys : Int
  stored : Int
  deriving DecidableEq, Repr

namespace BTree

/-- A tree without entries. -/
def empty : BTree := ⟨[], [⟨1, []⟩], 1, 2, 0, 0⟩

/-- All entries, in the order of the chain. -/
def entries (t : BTree) : List (Int × Rid) := t.chain.flatMap Leaf.entries

/-- The way of a key from the root down through the levels: the page reached
below them, and the nodes passed, from the lowest one up. -/
def descend (key : Int) (root : Nat) : List (List InnerPage) → Option (Nat × List InnerPage)
  | [] => some (root, [])
  | level :: above => do
      let (pageId, trail) ← descend key root above
      let node ← level.find? fun n => decide (n.pageId = pageId)
      let child ← node.child? key
      pure (child, node :: trail)

/-- The level with other nodes in the place of one. -/
def replaceNode (pageId : Nat) (nodes level : List InnerPage) : List InnerPage :=
  level.flatMap fun n => if n.pageId = pageId then nodes else [n]

/-- The chain with other leaves in the place of one. -/
def replaceLeaf (pageId : Nat) (leaves chain : List Leaf) : List Leaf :=
  chain.flatMap fun l => if l.pageId = pageId then leaves else [l]

/-- The key under which a new inner node is filed. -/
def filedKey (splitKey : Int) (upper : InnerPage) : Int :=
  if splitKey ≠ 0 then splitKey else upper.keys.headD 0

/-- A root over two nodes. -/
def rootOver (rootId lower : Nat) (separator : Int) (upper : Nat) : InnerPage :=
  ⟨rootId, 1, [separator], [lower, upper]⟩

/-- What filing a new node changes: the levels, the root when there is a new
one, and the number of the next page. -/
structure Raised where
  levels : List (List InnerPage)
  newRoot : Option Nat
  next : Nat

/-- A new node is filed in the lowest node of the trail, which may be split, and
so on up. -/
def raise : List (List InnerPage) → List InnerPage → Int → Nat → Nat → Raised
  | level :: above, node :: trail, minKey, pointer, next =>
      let filed := node.filed minKey pointer
      if filed.isOverflow then
        let upper := filed.upperHalf next
        let level' := replaceNode node.pageId [filed.lowerHalf, upper] level
        match trail with
        | [] => ⟨[level', [rootOver (next + 1) node.pageId filed.middle next]], some (next + 1), next + 2⟩
        | _ :: _ =>
            let rest := raise above trail (filedKey filed.middle upper) next (next + 1)
            ⟨level' :: rest.levels, rest.newRoot, rest.next⟩
      else ⟨replaceNode node.pageId [filed] level :: above, none, next⟩
  | levels, _, _, _, next => ⟨levels, none, next⟩

/-- Filing the upper half of a leaf in what is above the leaf. -/
def raised (t : BTree) (leaf : Leaf) : List InnerPage → Raised
  | [] => ⟨[[rootOver (t.next + 1) leaf.pageId ((leaf.upper t.next).keys.headD 0) t.next]],
      some (t.next + 1), t.next + 2⟩
  | trail => raise t.levels trail ((leaf.upper t.next).keys.headD 0) t.next (t.next + 1)

/-- The tree after a leaf was split into two. -/
def splitLeaf (t : BTree) (leaf : Leaf) (trail : List InnerPage) : BTree :=
  let raised := t.raised leaf trail
  { levels := raised.levels
    chain := replaceLeaf leaf.pageId [leaf.lower, leaf.upper t.next] t.chain
    root := raised.newRoot.getD t.root
    next := raised.next
    numKeys := t.numKeys + 1
    stored := if raised.newRoot.isSome then t.numKeys + 1 else t.stored }

/-- The leaf to which the search for a key comes first. -/
def leafOf (t : BTree) (key : Int) : Option (Leaf × List InnerPage) := do
  let (pageId, trail) ← descend key t.root t.levels
  let leaf ← t.chain.find? fun l => decide (l.pageId = pageId)
  pure (leaf, trail)

/-- `insert`. -/
def insert (t : BTree) (key : Int) (rid : Rid) : BTree :=
  match t.leafOf key with
  | none => t
  | some (leaf, trail) =>
      if BTreePage.maxKeys < (leaf.insert key rid).entries.length then
        t.splitLeaf (leaf.insert key rid) trail
      else
        { t with
          chain := replaceLeaf leaf.pageId [leaf.insert key rid] t.chain
          numKeys := t.numKeys + 1 }

/-- The chain from a leaf on. -/
def chainFrom (t : BTree) (pageId : Nat) : List Leaf :=
  t.chain.dropWhile fun l => decide (l.pageId ≠ pageId)

/-- The walk of `search`. -/
def searchIn (key : Int) : List Leaf → List Rid
  | [] => []
  | leaf :: rest => leaf.lookup key ++ if leaf.passed key then [] else searchIn key rest

/-- `search`. -/
def search (t : BTree) (key : Int) : List Rid :=
  match t.leafOf key with
  | none => []
  | some (leaf, _) => searchIn key (t.chainFrom leaf.pageId)

/-- The walk of `delete`: the leaf as it is afterwards, when the entry was found. -/
def deleteIn (key : Int) (rid : Rid) : List Leaf → Option Leaf
  | [] => none
  | leaf :: rest =>
      if (key, rid) ∈ leaf.entries then some (leaf.erase key rid)
      else if leaf.passed key then none
      else deleteIn key rid rest

/-- `delete`: whether an entry was removed, and the tree afterwards. -/
def delete (t : BTree) (key : Int) (rid : Rid) : Bool × BTree :=
  match t.leafOf key with
  | none => (false, t)
  | some (leaf, _) =>
      match deleteIn key rid (t.chainFrom leaf.pageId) with
      | none => (false, t)
      | some found => (true, { t with
          chain := replaceLeaf found.pageId [found] t.chain
          numKeys := t.numKeys - 1
          stored := t.numKeys - 1 })

/-- The walk of `range_scan`: the entries at or above the start, up to the first
one past the end. -/
def rangeIn (start stop : Option Int) : List Leaf → List Rid
  | [] => []
  | leaf :: rest =>
      let inside := leaf.entries.filter fun e => !start.any fun s => decide (e.1 < s)
      if inside.any fun e => stop.any fun s => decide (s < e.1) then
        (inside.takeWhile fun e => !stop.any fun s => decide (s < e.1)).map Prod.snd
      else inside.map Prod.snd ++ rangeIn start stop rest

/-- `range_scan`. -/
def rangeScan (t : BTree) (start stop : Option Int) : List Rid :=
  match start with
  | none => rangeIn start stop t.chain
  | some key =>
      match t.leafOf key with
      | none => []
      | some (leaf, _) => rangeIn start stop (t.chainFrom leaf.pageId)

end BTree

end DBEngine
