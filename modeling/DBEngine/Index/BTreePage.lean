import DBEngine.Storage.DiskManager

/-!
# Nodes of the B+ tree

A node read from its page, its methods, and how it is written back.  A leaf
holds keys with record ids and the numbers of its neighbours; an inner node
holds keys and one pointer more than keys.
-/

set_option autoImplicit false

namespace DBEngine

open ByteBuffer

/-- A leaf. -/
structure LeafPage where
  pageId : Nat
  numKeys : Nat
  keys : List Int
  rids : List Rid
  prevLeaf : Int
  nextLeaf : Int
  deriving DecidableEq, Repr

/-- An inner node. -/
structure InnerPage where
  pageId : Nat
  numKeys : Nat
  keys : List Int
  pointers : List Nat
  deriving DecidableEq, Repr

/-- A `BTreePage` without its buffer; `is_leaf` tells which of the two it is. -/
inductive BTreePage where
  | leaf (node : LeafPage)
  | inner (node : InnerPage)
  deriving DecidableEq, Repr

namespace BTreePage

/-- `ORDER`. -/
def maxKeys : Nat := 100

def pageId : BTreePage → Nat
  | .leaf node => node.pageId
  | .inner node => node.pageId

def keys : BTreePage → List Int
  | .leaf node => node.keys
  | .inner node => node.keys

/-- The record ids of a leaf as the fields that hold them. -/
def ridFields (rids : List Rid) : List Int := rids.flatMap fun rid => [(rid.1 : Int), rid.2]

/-- The record ids in a list of fields. -/
def ridsOf : List Int → List Rid
  | pageId :: slotId :: rest => (pageId.toNat, slotId.toNat) :: ridsOf rest
  | _ => []

/-- `serialize`. -/
def serialize : BTreePage → Buf PyErr Unit
  | .leaf node => do
      packInto formatBool 0 1
      packInto formatI 1 node.pageId
      packInto formatH 5 node.numKeys
      packInto formati 7 node.prevLeaf
      packInto formati 11 node.nextLeaf
      packItems formati 15 node.numKeys node.keys
      packItems formatI (15 + 4 * node.numKeys) (2 * node.numKeys) (ridFields node.rids)
  | .inner node => do
      packInto formatBool 0 0
      packInto formatI 1 node.pageId
      packInto formatH 5 node.numKeys
      packItems formatI 7 (node.numKeys + 1) (node.pointers.map Int.ofNat)
      packItems formati (7 + 4 * (node.numKeys + 1)) node.numKeys node.keys

/-- `deserialize`. -/
def deserialize : Buf PyErr BTreePage := do
  let isLeaf ← unpackFrom formatBool 0
  let pageId ← unpackI 1
  let numKeys ← unpackH 5
  if isLeaf ≠ 0 then do
    let prevLeaf ← unpackFrom formati 7
    let nextLeaf ← unpackFrom formati 11
    let keys ← Buf.unpackAll .structError formati 15 numKeys
    let rids ← Buf.unpackAll .structError formatI (15 + 4 * numKeys) (2 * numKeys)
    pure (.leaf ⟨pageId, numKeys, keys, ridsOf rids, prevLeaf, nextLeaf⟩)
  else do
    let pointers ← Buf.unpackAll .structError formatI 7 (numKeys + 1)
    let keys ← Buf.unpackAll .structError formati (7 + 4 * (numKeys + 1)) numKeys
    pure (.inner ⟨pageId, numKeys, keys, pointers.map Int.toNat⟩)

/-- The first `i` in `range(n)` with `p (keys[i])`. -/
def findKey (p : Int → Bool) : Nat → List Int → Except PyErr (Option Nat)
  | 0, _ => .ok none
  | _ + 1, [] => .error .indexError
  | n + 1, key :: rest =>
      if p key then .ok (some 0) else (findKey p n rest).map (Option.map (· + 1))

/-- `list.insert(i, x)`. -/
def insertAt {α : Type} (xs : List α) (i : Nat) (x : α) : List α := xs.take i ++ x :: xs.drop i

end BTreePage

namespace LeafPage

/-- `BTreePage(raw, True, page_id, True)`. -/
def new (pageId : Nat) : LeafPage := ⟨pageId, 0, [], [], -1, -1⟩

/-- `is_overflow`. -/
def isOverflow (node : LeafPage) : Bool := decide (BTreePage.maxKeys < node.numKeys)

/-- `insert`. -/
def insert (node : LeafPage) (key : Int) (rid : Rid) : Except PyErr LeafPage := do
  match ← BTreePage.findKey (fun k => decide (key < k)) node.numKeys node.keys with
  | some i => .ok { node with
      keys := BTreePage.insertAt node.keys i key
      rids := BTreePage.insertAt node.rids i rid
      numKeys := node.numKeys + 1 }
  | none => .ok { node with
      keys := node.keys ++ [key]
      rids := node.rids ++ [rid]
      numKeys := node.numKeys + 1 }

/-- The loop of `lookup` over what is left of the node. -/
def lookupIn (key : Int) : Nat → List Int → List Rid → Except PyErr (List Rid)
  | 0, _, _ => .ok []
  | _ + 1, [], _ => .error .indexError
  | n + 1, k :: keys, rids =>
      if key < k then .ok []
      else if key = k then
        match rids with
        | [] => .error .indexError
        | rid :: rest => (lookupIn key n keys rest).map (rid :: ·)
      else lookupIn key n keys rids.tail

/-- `lookup`. -/
def lookup (node : LeafPage) (key : Int) : Except PyErr (List Rid) :=
  lookupIn key node.numKeys node.keys node.rids

/-- The loop of `remove_key`: the index of the entry, if it is there. -/
def findEntry (key : Int) (rid : Rid) : Nat → List Int → List Rid → Except PyErr (Option Nat)
  | 0, _, _ => .ok none
  | _ + 1, [], _ => .error .indexError
  | n + 1, k :: keys, rids =>
      if key < k then .ok none
      else if key = k then
        match rids with
        | [] => .error .indexError
        | r :: rest =>
            if rid = r then .ok (some 0)
            else (findEntry key rid n keys rest).map (Option.map (· + 1))
      else (findEntry key rid n keys rids.tail).map (Option.map (· + 1))

/-- `remove_key`: the node afterwards, when there was an entry to remove. -/
def removeKey (node : LeafPage) (key : Int) (rid : Rid) : Except PyErr (Option LeafPage) := do
  match ← findEntry key rid node.numKeys node.keys node.rids with
  | none => .ok none
  | some i => .ok (some { node with
      keys := node.keys.eraseIdx i
      rids := node.rids.eraseIdx i
      numKeys := node.numKeys - 1 })

/-- The leaf after `_split_leaf` moved the upper half of its entries to the page
`newPageId`. -/
def lowerHalf (node : LeafPage) (newPageId : Nat) : LeafPage :=
  { node with
    keys := node.keys.take (node.numKeys / 2)
    rids := node.rids.take (node.numKeys / 2)
    numKeys := (node.keys.take (node.numKeys / 2)).length
    nextLeaf := newPageId }

/-- The new leaf of `_split_leaf`, linked in behind the old one. -/
def upperHalf (node : LeafPage) (newPageId : Nat) : LeafPage where
  pageId := newPageId
  keys := node.keys.drop (node.numKeys / 2)
  rids := node.rids.drop (node.numKeys / 2)
  numKeys := (node.keys.drop (node.numKeys / 2)).length
  prevLeaf := node.pageId
  nextLeaf := node.nextLeaf

/-- `bool(keys) and keys[-1] > key`. -/
def passed (node : LeafPage) (key : Int) : Bool :=
  match node.keys.getLast? with
  | none => false
  | some last => decide (key < last)

end LeafPage

namespace InnerPage

/-- `BTreePage(raw, True, page_id, False)`. -/
def new (pageId : Nat) : InnerPage := ⟨pageId, 0, [], []⟩

/-- `is_overflow`. -/
def isOverflow (node : InnerPage) : Bool := decide (BTreePage.maxKeys < node.numKeys)

/-- `insert_pointer`. -/
def insertPointer (node : InnerPage) (minKey : Int) (pointer : Nat) : Except PyErr InnerPage := do
  match ← BTreePage.findKey (fun k => decide (minKey < k)) node.numKeys node.keys with
  | some i => .ok { node with
      keys := BTreePage.insertAt node.keys i minKey
      pointers := BTreePage.insertAt node.pointers (i + 1) pointer
      numKeys := node.numKeys + 1 }
  | none => .ok { node with
      keys := node.keys ++ [minKey]
      pointers := node.pointers ++ [pointer]
      numKeys := node.numKeys + 1 }

/-- The node after `_split_internal` moved its upper half to a new page. -/
def lowerHalf (node : InnerPage) : InnerPage :=
  { node with
    keys := node.keys.take (node.numKeys / 2)
    pointers := node.pointers.take (node.numKeys / 2 + 1)
    numKeys := (node.keys.take (node.numKeys / 2)).length }

/-- The new node of `_split_internal`. -/
def upperHalf (node : InnerPage) (newPageId : Nat) : InnerPage where
  pageId := newPageId
  keys := node.keys.drop (node.numKeys / 2 + 1)
  pointers := node.pointers.drop (node.numKeys / 2 + 1)
  numKeys := (node.keys.drop (node.numKeys / 2 + 1)).length

/-- `split_key`. -/
def splitKey (node : InnerPage) : Except PyErr Int :=
  match node.keys[node.numKeys / 2]? with
  | some key => .ok key
  | none => .error .indexError

/-- `pointers[i]`. -/
def pointer (node : InnerPage) (i : Nat) : Except PyErr Nat :=
  match node.pointers[i]? with
  | some p => .ok p
  | none => .error .indexError

/-- The loop of `_find_leaf` over the keys of a node, from key `n - 1` down. -/
def routeFrom (node : InnerPage) (key : Int) : Nat → Except PyErr Nat
  | 0 => node.pointer 0
  | n + 1 =>
      match node.keys[n]? with
      | none => .error .indexError
      | some k => if k < key then node.pointer (n + 1) else routeFrom node key n

/-- The page to which `_find_leaf` goes on from this node. -/
def route (node : InnerPage) (key : Int) : Except PyErr Nat := routeFrom node key node.numKeys

end InnerPage

end DBEngine
