import DBEngine.Buffer.LruKReplacer
import DBEngine.Storage.DiskManager

/-!
# The buffer pool

The pool holds pages of files in frames.  `fetchPage` pins a page, from the
frame that holds it or after taking a free frame or evicting one; `unpinPage`
releases a pin; a dirty frame is written when it is evicted or flushed.

The frame a client was handed is read and changed through `framePeek` and
`framePut`, which look the page up again: the two agree with Python's shared
bytearray as long as the page is pinned, when no fetch can give its frame away.
-/

set_option autoImplicit false

namespace DBEngine

open ByteBuffer Paged

/-- `BufferPoolManager`, with the directory behind its disk manager. -/
structure BufferPoolManager where
  frames : FrameId → Bytes
  pageTable : PageKey → Option FrameId
  frameTable : FrameId → Option PageKey
  freeFrames : Finset FrameId
  pinCount : FrameId → Nat
  dirty : FrameId → Bool
  replacer : LRUKReplacer
  disk : Disk

namespace BufferPoolManager

/-- `BufferPoolManager.__init__` over the files of `disk`. -/
def new (disk : Disk) : BufferPoolManager where
  frames _ := zeros pageSize
  pageTable _ := none
  frameTable _ := none
  freeFrames := Finset.univ
  pinCount _ := 0
  dirty _ := false
  replacer := LRUKReplacer.new
  disk := disk

/-- `record_access` and `set_evictable(frame_id, False)`, as every fetch ends. -/
def touch (frameId : FrameId) (bp : BufferPoolManager) : BufferPoolManager :=
  { bp with replacer := (bp.replacer.recordAccess frameId).setEvictable frameId false }

/-- The cache hit of `fetch_page`. -/
def fetchHit (frameId : FrameId) (bp : BufferPoolManager) : BufferPoolManager :=
  touch frameId { bp with pinCount := Function.update bp.pinCount frameId (bp.pinCount frameId + 1) }

/-- The frame that leaves: the old page goes out of the page table and is
written when its frame is dirty. -/
def dropPage (frameId : FrameId) (old : PageKey) (bp : BufferPoolManager) : BufferPoolManager :=
  { bp with
    pageTable := Function.update bp.pageTable old none
    disk := if bp.dirty frameId then bp.disk.writePage old.2 old.1 (bp.frames frameId) else bp.disk }

/-- `fetch_page`, up to the choice of a frame: a free one, or one evicted. -/
def findFrame (order : SetOrder) (bp : BufferPoolManager) :
    Except PyErr FrameId × BufferPoolManager :=
  match order.iter bp.replacer.currentTime bp.freeFrames with
  | frameId :: _ => (.ok frameId, { bp with freeFrames := bp.freeFrames.erase frameId })
  | [] =>
      match bp.replacer.evict (order.iter bp.replacer.currentTime bp.replacer.evictable) with
      | (.error e, replacer) => (.error e, { bp with replacer := replacer })
      -- `self.frame_table[None]`
      | (.ok none, replacer) => (.error (.keyError "None"), { bp with replacer := replacer })
      | (.ok (some frameId), replacer) =>
          match bp.frameTable frameId with
          | none => (.error (.keyError (toString frameId.val)), { bp with replacer := replacer })
          | some old => (.ok frameId, dropPage frameId old { bp with replacer := replacer })

/-- The rest of `fetch_page`: the tables, the read, pin count and dirty flag. -/
def loadPage (frameId : FrameId) (k : PageKey) (bp : BufferPoolManager) : BufferPoolManager :=
  touch frameId
    { bp with
      frameTable := Function.update bp.frameTable frameId (some k)
      pageTable := Function.update bp.pageTable k (some frameId)
      frames := Function.update bp.frames frameId (bp.disk.readPage k.2 k.1).1
      disk := (bp.disk.readPage k.2 k.1).2
      pinCount := Function.update bp.pinCount frameId 1
      dirty := Function.update bp.dirty frameId false }

/-- `fetch_page`. -/
def fetchPage (order : SetOrder) (pageId : Nat) (fileId : FileId) (bp : BufferPoolManager) :
    Except PyErr Bytes × BufferPoolManager :=
  match bp.pageTable (fileId, pageId) with
  | some frameId => (.ok (bp.frames frameId), bp.fetchHit frameId)
  | none =>
      match bp.findFrame order with
      | (.error e, bp') => (.error e, bp')
      | (.ok frameId, bp') =>
          let bp'' := bp'.loadPage frameId (fileId, pageId)
          (.ok (bp''.frames frameId), bp'')

/-- `unpin_page`; `false` for the calls it rejects. -/
def unpinPage (pageId : Nat) (fileId : FileId) (isDirty : Bool) (bp : BufferPoolManager) :
    Bool × BufferPoolManager :=
  match bp.pageTable (fileId, pageId) with
  | none => (false, bp)
  | some frameId =>
      if bp.pinCount frameId = 0 then (false, bp)
      else
        (true,
          { bp with
            pinCount := Function.update bp.pinCount frameId (bp.pinCount frameId - 1)
            dirty := if isDirty then Function.update bp.dirty frameId true else bp.dirty
            replacer := if bp.pinCount frameId - 1 = 0 then bp.replacer.setEvictable frameId true
              else bp.replacer })

/-- `flush_page`; `false` when the page is not cached. -/
def flushPage (k : PageKey) (bp : BufferPoolManager) : Bool × BufferPoolManager :=
  match bp.pageTable k with
  | none => (false, bp)
  | some frameId =>
      (true,
        { bp with
          disk := bp.disk.writePage k.2 k.1 (bp.frames frameId)
          dirty := Function.update bp.dirty frameId false })

/-- `allocate_page`. -/
def allocatePage (fileId : FileId) (bp : BufferPoolManager) : Nat × BufferPoolManager :=
  ((bp.disk.allocatePage fileId).1, { bp with disk := (bp.disk.allocatePage fileId).2 })

/-- The loop of `flush_all` and `close`. -/
def flushFrames : List FrameId → BufferPoolManager → Except PyErr Unit × BufferPoolManager
  | [], bp => (.ok (), bp)
  | frameId :: rest, bp =>
      if bp.dirty frameId then
        match bp.frameTable frameId with
        | none => (.error (.keyError (toString frameId.val)), bp)
        | some k => flushFrames rest (bp.flushPage k).2
      else flushFrames rest bp

/-- `flush_all`. -/
def flushAll (bp : BufferPoolManager) : Except PyErr Unit × BufferPoolManager :=
  flushFrames (List.finRange numFrames) bp

/-- The bytes of the frame that holds a page. -/
def framePeek (k : PageKey) (bp : BufferPoolManager) : Bytes :=
  match bp.pageTable k with
  | none => []
  | some frameId => bp.frames frameId

/-- A change, in place, of the frame that holds a page. -/
def framePut (k : PageKey) (b : Bytes) (bp : BufferPoolManager) : BufferPoolManager :=
  match bp.pageTable k with
  | none => bp
  | some frameId => { bp with frames := Function.update bp.frames frameId b }

/-- The pool as a store for programs. -/
def store (order : SetOrder) : Store FileId Bytes PyErr BufferPoolManager
  | .fetch k, bp => bp.fetchPage order k.2 k.1
  | .peek k, bp => (.ok (bp.framePeek k), bp)
  | .put k b, bp => (.ok (), bp.framePut k b)
  | .unpin k dirty, bp => (.ok (bp.unpinPage k.2 k.1 dirty).1, (bp.unpinPage k.2 k.1 dirty).2)
  | .alloc f, bp => (.ok (bp.allocatePage f).1, (bp.allocatePage f).2)
  | .flush k, bp => (.ok (), (bp.flushPage k).2)
  | .remove f, bp => ((bp.disk.remove f).1, { bp with disk := (bp.disk.remove f).2 })

end BufferPoolManager

end DBEngine
