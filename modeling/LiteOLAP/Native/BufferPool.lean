import LiteOLAP.Native.DiskManager

/-!
# The buffer pool

`BufferPool` of `storage/buffer_pool.{h,cpp}`: a cache of pages in a fixed number of frames,
with pinning and an eviction list.

A `Page*` is the number of the frame it points into. The list `lru_` and the map `lru_pos_`
into it are one list here, since they always hold the same frames; the free list is kept with
its back first. Pin counts are 32-bit and wrap, as `std::atomic<int>::fetch_add` does.
-/

namespace LiteOLAP

open Bytes (ofAscii)

/-- `BufferPool::Frame`. -/
structure Frame where
  page : Page
  pageId : PageId
  pinCount : Int32
  dirty : Bool
  valid : Bool

/-- A frame that no page has been loaded into. -/
def Frame.empty : Frame := ⟨.zero, kInvalidPageId, 0, false, false⟩

structure BufferPool where
  disk : DiskManager
  numFrames : Nat
  frames : Nat → Frame
  pageTable : PageId → Option Nat
  /-- Frames that hold a page, the one touched last first. -/
  lru : List Nat
  freeList : List Nat

namespace BufferPool

/-- The constructor; a pool without frames is rejected. -/
def create (disk : DiskManager) (numFrames : Nat) : Except Exc BufferPool :=
  if numFrames = 0 then
    .error (.invalidArgument (ofAscii "BufferPool: num_frames must be > 0"))
  else .ok {
    disk
    numFrames
    frames := fun _ => .empty
    pageTable := fun _ => none
    lru := []
    freeList := (List.range numFrames).reverse }

/-- Run an operation of the file. -/
def withDisk {α : Type} : EStateM Exc DiskManager α → EStateM Exc BufferPool α :=
  EStateM.zoom (·.disk) fun disk bp => { bp with disk }

/-- Replace frame `idx`. -/
def setFrame (bp : BufferPool) (idx : Nat) (f : Frame) : BufferPool :=
  { bp with frames := Function.update bp.frames idx f }

/-- `f.pin_count.fetch_add(1)`. -/
def pin (bp : BufferPool) (idx : Nat) : BufferPool :=
  bp.setFrame idx { bp.frames idx with pinCount := (bp.frames idx).pinCount + 1 }

/-- `Touch`: move a frame to the front of the list. -/
def touch (bp : BufferPool) (idx : Nat) : BufferPool :=
  { bp with lru := idx :: bp.lru.erase idx }

/-- The unpinned frame closest to the back of the list. -/
def pickVictim (bp : BufferPool) : Except Exc Nat :=
  match bp.lru.reverse.find? fun idx => (bp.frames idx).pinCount = 0 with
  | some idx => .ok idx
  | none => .error (.runtimeError (ofAscii "BufferPool: all frames pinned, cannot evict"))

/-- Unlink the page of frame `idx` from the table and from the list. -/
def unlink (bp : BufferPool) (idx : Nat) : BufferPool :=
  { bp with
    pageTable := Function.update bp.pageTable (bp.frames idx).pageId none
    lru := bp.lru.erase idx
    frames := Function.update bp.frames idx { bp.frames idx with valid := false } }

/-- A frame for a new page: a free one, or that of the victim, whose page is written back
    first if it changed. -/
def takeFrame : EStateM Exc BufferPool Nat := do
  let bp ← get
  match bp.freeList with
  | idx :: rest =>
    set { bp with freeList := rest }
    pure idx
  | [] =>
    let idx ← EStateM.ofExcept bp.pickVictim
    if (bp.frames idx).dirty then
      withDisk (DiskManager.writePage (bp.frames idx).pageId (bp.frames idx).page)
    modify fun bp => bp.unlink idx
    pure idx

/-- Put a page just read into frame `idx`. -/
def install (bp : BufferPool) (idx : Nat) (pid : PageId) (page : Page) : BufferPool :=
  { bp with
    frames := Function.update bp.frames idx ⟨page, pid, 0, false, true⟩
    pageTable := Function.update bp.pageTable pid (some idx) }

def loadIntoFrame (pid : PageId) : EStateM Exc BufferPool Nat := do
  match (← get).pageTable pid with
  | some idx => pure idx
  | none =>
    let idx ← takeFrame
    let page ← withDisk (DiskManager.readPage pid)
    modify fun bp => bp.install idx pid page
    pure idx

def fetchPage (pid : PageId) : EStateM Exc BufferPool Nat := do
  match (← get).pageTable pid with
  | some idx =>
    -- fast path: the page is cached, and only its pin count changes
    modify fun bp => bp.pin idx
    pure idx
  | none =>
    let idx ← loadIntoFrame pid
    modify fun bp => (bp.pin idx).touch idx
    pure idx

/-- `UnpinPage`: `false` when the page is not cached or not pinned. -/
def unpinPage (pid : PageId) (isDirty : Bool) (bp : BufferPool) : Bool × BufferPool :=
  match bp.pageTable pid with
  | none => (false, bp)
  | some idx =>
    let f := bp.frames idx
    if f.pinCount ≤ 0 then (false, bp)
    else (true, bp.setFrame idx
      { f with pinCount := f.pinCount - 1, dirty := f.dirty || isDirty })

/-- `FlushPage`: write a cached page to disk, pinned or not. -/
def flushPage (pid : PageId) : EStateM Exc BufferPool Bool := do
  let bp ← get
  match bp.pageTable pid with
  | none => pure false
  | some idx =>
    if (bp.frames idx).valid then
      withDisk (DiskManager.writePage (bp.frames idx).pageId (bp.frames idx).page)
      modify fun bp => bp.setFrame idx { bp.frames idx with dirty := false }
      pure true
    else pure false

/-- `NewPage`: the number of a new page and the frame it is pinned in. -/
def newPage : EStateM Exc BufferPool (PageId × Nat) := do
  let pid ← withDisk DiskManager.allocatePage
  let idx ← fetchPage pid
  modify fun bp => bp.setFrame idx { bp.frames idx with page := .fresh pid }
  pure (pid, idx)

/-- One frame of `FlushAll`. -/
def flushFrame (idx : Nat) : EStateM Exc BufferPool Unit := do
  let f := (← get).frames idx
  if f.valid && f.dirty then
    withDisk (DiskManager.writePage f.pageId f.page)
    modify fun bp => bp.setFrame idx { bp.frames idx with dirty := false }

def flushAll : EStateM Exc BufferPool Unit := do
  (List.range (← get).numFrames).forM flushFrame

/-! ## The simple updates, field by field -/

section

variable (bp : BufferPool) (idx : Nat)

@[simp] theorem setFrame_disk (f : Frame) : (bp.setFrame idx f).disk = bp.disk := rfl
@[simp] theorem setFrame_numFrames (f : Frame) : (bp.setFrame idx f).numFrames = bp.numFrames := rfl
@[simp] theorem setFrame_pageTable (f : Frame) : (bp.setFrame idx f).pageTable = bp.pageTable := rfl
@[simp] theorem setFrame_lru (f : Frame) : (bp.setFrame idx f).lru = bp.lru := rfl
@[simp] theorem setFrame_freeList (f : Frame) : (bp.setFrame idx f).freeList = bp.freeList := rfl
@[simp] theorem setFrame_frames_self (f : Frame) : (bp.setFrame idx f).frames idx = f := by
  simp [setFrame]

theorem setFrame_frames_of_ne {i : Nat} (h : i ≠ idx) (f : Frame) :
    (bp.setFrame idx f).frames i = bp.frames i := by
  simp [setFrame, h]

end

end BufferPool

end LiteOLAP
