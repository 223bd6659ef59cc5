import LiteOLAP.Native.BufferPool

/-!
# Paged streams

`storage/paged_stream.{h,cpp}`: a byte stream over a chain of pages, written front to back
through the buffer pool and read back from its first page.

The page an output stream is filling stays pinned; an input stream works on a copy of the page
it is at.
-/

namespace LiteOLAP

open Bytes (ofAscii)

namespace BufferPool

/-- Change the page in frame `idx` through the pointer to it. -/
def modifyPage (idx : Nat) (f : Page → Page) (bp : BufferPool) : BufferPool :=
  bp.setFrame idx { bp.frames idx with page := f (bp.frames idx).page }

theorem modifyPage_id (idx : Nat) (bp : BufferPool) : modifyPage idx id bp = bp := by
  rw [modifyPage, setFrame, id, Function.update_eq_self]

theorem modifyPage_modifyPage (idx : Nat) (f g : Page → Page) (bp : BufferPool) :
    modifyPage idx f (modifyPage idx g bp) = modifyPage idx (f ∘ g) bp := by
  simp [modifyPage, setFrame]

end BufferPool

structure PagedOutputStream where
  firstPageId : PageId
  currentPageId : PageId
  /-- The frame of the current page. -/
  currentPage : Option Nat
  /-- Bytes used in the current page's payload. -/
  offset : Nat
  finished : Bool

namespace PagedOutputStream

/-- The header `StartNewPage` gives a page. -/
def startPage (page : Page) : Page :=
  { page with pageType := .columnData, nextPageId := kInvalidPageId, payloadBytes := 0 }

/-- The header of a page that is left behind. -/
def closePage (next : PageId) (offset : Nat) (page : Page) : Page :=
  { page with nextPageId := next, payloadBytes := UInt32.ofNat offset }

def startNewPage (s : PagedOutputStream) : EStateM Exc BufferPool PagedOutputStream := do
  let (newId, idx) ← BufferPool.newPage
  modify (BufferPool.modifyPage idx startPage)
  match s.currentPage with
  | some cur =>
    -- link the previous page to this one, then unpin it
    modify (BufferPool.modifyPage cur (closePage newId s.offset))
    modify fun bp => (BufferPool.unpinPage s.currentPageId true bp).2
    pure { s with currentPage := some idx, currentPageId := newId, offset := 0 }
  | none =>
    pure { s with
      firstPageId := newId, currentPage := some idx, currentPageId := newId, offset := 0 }

/-- The constructor. -/
def create : EStateM Exc BufferPool PagedOutputStream :=
  startNewPage ⟨kInvalidPageId, kInvalidPageId, none, 0, false⟩

/-- The head of the loop in `Write`: a full page is followed by a new one. -/
def ensureRoom (s : PagedOutputStream) : EStateM Exc BufferPool PagedOutputStream :=
  if s.offset = payloadCapacity then startNewPage s else pure s

/-- The loop of `Write`. Every round takes at least one byte, so that it ends within as many
    rounds as there are bytes. -/
def writeLoop : (fuel : Nat) → PagedOutputStream → Bytes → EStateM Exc BufferPool PagedOutputStream
  | 0, s, _ => pure s
  | fuel + 1, s, data =>
    if data = [] then pure s
    else do
      let s ← ensureRoom s
      match s.currentPage with
      | none => throw .undefinedBehaviour
      | some cur =>
        let take := min (payloadCapacity - s.offset) data.length
        modify (BufferPool.modifyPage cur fun page => page.overwrite s.offset (data.take take))
        writeLoop fuel { s with offset := s.offset + take } (data.drop take)

/-- `Write`. -/
def write (s : PagedOutputStream) (data : Bytes) : EStateM Exc BufferPool PagedOutputStream :=
  if s.finished then throw (.logicError (ofAscii "PagedOutputStream::Write after Finish"))
  else writeLoop data.length s data

/-- `Finish`: the first page of the chain. -/
def finish (s : PagedOutputStream) : EStateM Exc BufferPool (PageId × PagedOutputStream) :=
  if s.finished then throw (.logicError (ofAscii "PagedOutputStream::Finish called twice"))
  else
    match s.currentPage with
    | none => throw .undefinedBehaviour
    | some cur => do
      modify (BufferPool.modifyPage cur (closePage kInvalidPageId s.offset))
      modify fun bp => (BufferPool.unpinPage s.currentPageId true bp).2
      pure (s.firstPageId, { s with currentPage := none, finished := true })

end PagedOutputStream

structure PagedInputStream where
  offset : Nat
  nextPageId : PageId
  atEnd : Bool
  /-- Copy of the current page's payload. -/
  pageBuf : Bytes
  deriving Repr

namespace PagedInputStream

/-- `LoadPage`. -/
def loadPage (s : PagedInputStream) (pid : PageId) : EStateM Exc BufferPool PagedInputStream := do
  let idx ← BufferPool.fetchPage pid
  let page := ((← get).frames idx).page
  let pageBuf ← EStateM.ofExcept page.used
  modify fun bp => (BufferPool.unpinPage pid false bp).2
  pure ⟨0, page.nextPageId, s.atEnd || pageBuf.isEmpty, pageBuf⟩

/-- The constructor. -/
def create (firstPageId : PageId) : EStateM Exc BufferPool PagedInputStream :=
  if firstPageId = kInvalidPageId then pure ⟨0, kInvalidPageId, true, []⟩
  else loadPage ⟨0, kInvalidPageId, false, []⟩ firstPageId

/-- The exception of a read past the end. -/
def underflow : Exc := .runtimeError (ofAscii "PagedInputStream: read past end of stream")

/-- End-of-stream is detected once the final byte of the last page is consumed. -/
def detectEnd (s : PagedInputStream) : PagedInputStream :=
  { s with atEnd := s.atEnd || (s.offset == s.pageBuf.length && s.nextPageId == kInvalidPageId) }

/-- The loop of `Advance`, with `n` bytes to go: the bytes it passes over. Between two pages it
    takes at least one byte, so that it ends within `2 * n + 1` rounds. -/
def advanceLoop : (fuel : Nat) → PagedInputStream → (n : Nat) →
    EStateM Exc BufferPool (Bytes × PagedInputStream)
  | 0, _, _ => throw .diverges
  | fuel + 1, s, n =>
    if n = 0 then pure ([], s.detectEnd)
    else if s.atEnd then throw underflow
    else if s.offset = s.pageBuf.length then
      if s.nextPageId = kInvalidPageId then throw underflow
      else do
        let s ← s.loadPage s.nextPageId
        advanceLoop fuel s n
    else do
      let take := min (s.pageBuf.length - s.offset) n
      let part := (s.pageBuf.drop s.offset).take take
      let (rest, s) ← advanceLoop fuel { s with offset := s.offset + take } (n - take)
      pure (part ++ rest, s)

/-- `Advance`, which serves `Read` with the bytes and `Skip` without them. -/
def advance (s : PagedInputStream) (n : Nat) : EStateM Exc BufferPool (Bytes × PagedInputStream) :=
  advanceLoop (2 * n + 1) s n

/-- `Read`. -/
def read (s : PagedInputStream) (n : Nat) : EStateM Exc BufferPool (Bytes × PagedInputStream) :=
  advance s n

/-- `Skip`. -/
def skip (s : PagedInputStream) (n : Nat) : EStateM Exc BufferPool PagedInputStream := do
  let (_, s) ← advance s n
  pure s

end PagedInputStream

end LiteOLAP
