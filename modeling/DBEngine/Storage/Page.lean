import DBEngine.Python
import DBEngine.Storage.DiskManager

/-!
# Slotted pages

A page starts with a header (number of slots, free-space pointer, free space)
and an array of slots (offset, length, valid); the tuples are filled in from
the end of the page.  `PageRep b rows` says that the buffer `b` holds the rows
`rows` in this way.
-/

set_option autoImplicit false

namespace DBEngine

open ByteBuffer

/-- A `Page` without its buffer, which its methods work on in place. -/
structure Page where
  numSlots : Nat
  freeSpacePointer : Int
  freeSpace : Int
  deriving DecidableEq, Repr

namespace Page

/-- `HEADER_SIZE`. -/
def headerSize : Nat := 6

/-- `SLOT_SIZE`. -/
def slotSize : Nat := 6

/-- `Page(data, new_page)`. -/
def init (newPage : Bool) : Buf PyErr Page :=
  if newPage then do
    let page : Page := ⟨0, pageSize, pageSize - headerSize⟩
    packInto formatH 2 page.freeSpacePointer
    packInto formatH 4 page.freeSpace
    pure page
  else do
    let numSlots ← unpackH 0
    let freeSpacePointer ← unpackH 2
    let freeSpace ← unpackH 4
    pure ⟨numSlots, freeSpacePointer, freeSpace⟩

/-- Where the entry of a slot starts. -/
def slotOffset (slotId : Nat) : Nat := headerSize + slotId * slotSize

/-- The fields of the page object after a tuple of `length` bytes. -/
def grow (page : Page) (length : Nat) : Page :=
  ⟨page.numSlots + 1, page.freeSpacePointer - length, page.freeSpace - (length + slotSize)⟩

/-- The three fields of the header. -/
def packHeader (page : Page) : Buf PyErr Unit := do
  packInto formatH 0 page.numSlots
  packInto formatH 2 page.freeSpacePointer
  packInto formatH 4 page.freeSpace

/-- `insert_tuple`: the slot taken and the page object afterwards. -/
def insertTuple (page : Page) (data : Bytes) : Buf PyErr (Nat × Page) := do
  let offset := page.freeSpacePointer - data.length
  setSlice offset (offset + data.length) data
  packInto formatH (slotOffset page.numSlots) offset
  packInto formatH (slotOffset page.numSlots + 2) data.length
  packInto formatH (slotOffset page.numSlots + 4) 1
  (page.grow data.length).packHeader
  pure ((page.grow data.length).numSlots - 1, page.grow data.length)

/-- `get_tuple`. -/
def getTuple (page : Page) (slotId : Nat) : Buf PyErr (Option Bytes) :=
  if page.numSlots ≤ slotId then pure none
  else do
    let tupleOffset ← unpackH (slotOffset slotId)
    let length ← unpackH (slotOffset slotId + 2)
    let isValid ← unpackH (slotOffset slotId + 4)
    if isValid = 0 then pure none
    else fun buf => (.ok (some (slice buf tupleOffset length)), buf)

/-- `delete_tuple`. -/
def deleteTuple (slotId : Nat) : Buf PyErr Bool := do
  let isValid ← unpackH (slotOffset slotId + 4)
  if isValid ≠ 0 then
    packInto formatH (slotOffset slotId + 4) 0
    pure true
  else pure false

end Page

end DBEngine
