import DBEngine.Buffer.PoolPrograms
import DBEngine.Storage.DirectoryPage

/-!
# Heap files

A heap file keeps its tuples in slotted pages behind a directory page.  A tuple
goes to the first page the directory lists with enough space, or to a new page
at the end of the file.
-/

set_option autoImplicit false

namespace DBEngine

open ByteBuffer Paged

variable {σ β : Type}

/-- The rest of `for slot_id, raw in page.scan()`, with `visit` for the body of
the loop; the body does not change the page. -/
def Page.scanSlots (page : Page) (raw : Bytes) (visit : β → Nat → Bytes → PageProg σ β) :
    List Nat → β → PageProg σ β
  | [], acc => pure acc
  | slotId :: rest, acc => do
      let tuple ← Bpm.reading raw (page.getTuple slotId)
      match tuple with
      | none => page.scanSlots raw visit rest acc
      | some data => do
          let acc ← visit acc slotId data
          page.scanSlots raw visit rest acc

/-- `for slot_id, raw in page.scan()`. -/
def Page.scan (page : Page) (raw : Bytes) (visit : β → Nat → Bytes → PageProg σ β) (acc : β) :
    PageProg σ β :=
  page.scanSlots raw visit (List.range page.numSlots) acc

namespace HeapFile

/-- `self.directory_id`. -/
def directoryId : Nat := 0

/-- The rest of `insert_tuple`, from the page chosen on. -/
def insertInto (fileId : FileId) (data : Bytes) (directory : DirectoryPage) (pageId : Nat)
    (newPage : Bool) : PageProg σ Rid := do
  let _ ← Bpm.fetchPage pageId fileId
  let (slotId, page) ← Bpm.onFrame pageId fileId do
    let page ← Page.init newPage
    page.insertTuple data
  Bpm.unpinPage pageId fileId true
  let _ ← Bpm.onFrame directoryId fileId
    (directory.updateDirectory pageId page.freeSpace page.numSlots)
  Bpm.unpinPage directoryId fileId true
  pure (pageId, slotId)

/-- `insert_tuple`. -/
def insertTuple (fileId : FileId) (data : Bytes) : PageProg σ Rid := do
  let dirRaw ← Bpm.fetchPage directoryId fileId
  let directory ← Bpm.reading dirRaw (DirectoryPage.init false)
  match directory.findPageWithEnoughSpace (data.length + Page.headerSize : Nat) with
  | some (p + 1) => insertInto fileId data directory (p + 1) false
  -- `if not page_id`: no page, or page 0
  | _ => do
      let pageId ← Bpm.allocatePage fileId
      let directory ← Bpm.onFrame directoryId fileId (directory.increasePageCount pageId)
      insertInto fileId data directory pageId true

/-- `get_tuple`. -/
def getTuple (fileId : FileId) (rid : Rid) : PageProg σ (Option Bytes) := do
  let pageRaw ← Bpm.fetchPage rid.1 fileId
  let page ← Bpm.reading pageRaw (Page.init false)
  Bpm.unpinPage rid.1 fileId false
  Bpm.reading pageRaw (page.getTuple rid.2)

/-- `delete_tuple`. -/
def deleteTuple (fileId : FileId) (rid : Rid) : PageProg σ Bool := do
  let pageRaw ← Bpm.fetchPage rid.1 fileId
  let _ ← Bpm.reading pageRaw (Page.init false)
  let deleted ← Bpm.onFrame rid.1 fileId (Page.deleteTuple rid.2)
  Bpm.unpinPage rid.1 fileId deleted
  pure deleted

/-- The rest of `scan`: the pages still to be read. -/
def scanPages (fileId : FileId) (visit : β → Rid → Bytes → PageProg σ β) :
    List Nat → β → PageProg σ β
  | [], acc => pure acc
  | pageId :: rest, acc => do
      let pageRaw ← Bpm.fetchPage pageId fileId
      let page ← Bpm.reading pageRaw (Page.init false)
      Bpm.unpinPage pageId fileId false
      let acc ← page.scan pageRaw (fun acc slotId data => visit acc (pageId, slotId) data) acc
      scanPages fileId visit rest acc

/-- `for rid, raw in heap_file.scan()`, with `visit` for the body of the loop;
the body does not change the file. -/
def forEach (fileId : FileId) (visit : β → Rid → Bytes → PageProg σ β) (acc : β) :
    PageProg σ β := do
  let dirRaw ← Bpm.fetchPage directoryId fileId
  let directory ← Bpm.reading dirRaw (DirectoryPage.init false)
  Bpm.unpinPage directoryId fileId false
  scanPages fileId visit (List.range' 1 (directory.pageCount - 1)) acc

/-- `list(scan())`. -/
def scan (fileId : FileId) : PageProg σ (List (Rid × Bytes)) :=
  forEach fileId (fun acc rid data => pure (acc ++ [(rid, data)])) []

/-- `create_directory`. -/
def createDirectory (fileId : FileId) : PageProg σ Unit := do
  let pageId ← Bpm.allocatePage fileId
  let _ ← Bpm.fetchPage pageId fileId
  let _ ← Bpm.onFrame pageId fileId (DirectoryPage.init true)
  Bpm.unpinPage pageId fileId false
  Bpm.flushPage (fileId, pageId)

end HeapFile

end DBEngine
