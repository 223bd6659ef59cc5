import LiteOLAP.ForStd.EState
import LiteOLAP.Native.Value

/-!
# Pages and the database file

`Page` of `storage/page.h` and `DiskManager` of `storage/disk_manager.{h,cpp}`.

The file is the list of its pages. Whether an operation of the file system fails is not up to
the program: `faults` says it of the operations to come, in order, and a file without faults
left is reliable. An operation that fails leaves the file as it was.
-/

namespace LiteOLAP

open Bytes (ofAscii)

abbrev PageId := UInt32

/-- Sentinel for "no page" and the end of a page chain. -/
def kInvalidPageId : PageId := 0xFFFFFFFF

/-- Bytes of a page behind its header. -/
def payloadCapacity : Nat := 4080

/-- How the bytes inside a page should be interpreted; a disk page may hold any number. -/
abbrev PageType := UInt16

def PageType.free : PageType := 0
def PageType.catalog : PageType := 1
def PageType.columnData : PageType := 2

/-- A page of 4096 bytes: its header, field by field, and the rest. -/
structure Page where
  pageId : PageId
  pageType : PageType
  reserved : UInt16
  /-- Meaningful bytes in this page's payload. -/
  payloadBytes : UInt32
  /-- Next page of the stream, or `kInvalidPageId`. -/
  nextPageId : PageId
  payload : Bytes
  payload_length : payload.length = payloadCapacity
  deriving DecidableEq

namespace Page

/-- The page whose bytes are all zero. -/
def zero : Page where
  pageId := 0
  pageType := .free
  reserved := 0
  payloadBytes := 0
  nextPageId := 0
  payload := List.replicate payloadCapacity 0
  payload_length := List.length_replicate

/-- The page `NewPage` hands out: zeros under an initialised header. -/
def fresh (pid : PageId) : Page := { zero with pageId := pid, nextPageId := kInvalidPageId }

/-- What a reader copies of a page. A count beyond the page is read past the buffer. -/
def used (page : Page) : Except Exc Bytes :=
  if payloadCapacity < page.payloadBytes.toNat then .error .undefinedBehaviour
  else .ok (page.payload.take page.payloadBytes.toNat)

/-- `memcpy` of `bytes` into the payload at `offset`. Bytes that reach past the page change
    nothing here; no caller has any. -/
def overwrite (page : Page) (offset : Nat) (bytes : Bytes) : Page :=
  if h : offset + bytes.length ≤ payloadCapacity then
    { page with
      payload := page.payload.take offset ++ bytes ++ page.payload.drop (offset + bytes.length)
      payload_length := by
        have := page.payload_length
        simp only [List.length_append, List.length_take, List.length_drop]
        omega }
  else page

end Page

/-- The database file. -/
structure DiskManager where
  pages : List Page
  /-- Whether the I/O operations to come fail; past the end of the list none does. -/
  faults : List Bool

namespace DiskManager

/-- A new file: `AllocatePage` has made page 0, for the catalog. -/
def create : DiskManager := ⟨[.zero], []⟩

def numPages (d : DiskManager) : Nat := d.pages.length

/-- One operation of the file system, with the text of the exception if it fails. -/
def io (what : Bytes) : EStateM Exc DiskManager Unit := do
  match (← get).faults with
  | [] => pure ()
  | fails :: faults =>
    modify fun d => { d with faults }
    if fails then throw (.runtimeError what)

def readPage (pid : PageId) : EStateM Exc DiskManager Page := do
  match (← get).pages[pid.toNat]? with
  | none => throw (.outOfRange (ofAscii "DiskManager::ReadPage: page_id out of range"))
  | some page =>
    io (ofAscii "DiskManager::ReadPage: short read")
    pure page

def writePage (pid : PageId) (page : Page) : EStateM Exc DiskManager Unit := do
  if (← get).numPages ≤ pid.toNat then
    throw (.outOfRange (ofAscii "DiskManager::WritePage: page_id out of range"))
  else
    io (ofAscii "DiskManager::WritePage: write failed")
    modify fun d => { d with pages := d.pages.set pid.toNat page }

/-- Extend the file by a zero page. Its number is cut to 32 bits. -/
def allocatePage : EStateM Exc DiskManager PageId := do
  let newId := UInt32.ofNat (← get).numPages
  io (ofAscii "DiskManager::AllocatePage: extend failed")
  modify fun d => { d with pages := d.pages ++ [.zero] }
  pure newId

/-! ## What the operations do -/

/-- An operation uses up one entry of `faults` and changes no page. -/
theorem io_cases (what : Bytes) (d : DiskManager) :
    (∃ fs, io what d = .ok () { d with faults := fs } ∧ (d.faults = [] → fs = [])) ∨
      (∃ fs, io what d = .error (.runtimeError what) { d with faults := fs } ∧ d.faults ≠ []) := by
  obtain ⟨pages, faults⟩ := d
  cases faults with
  | nil => exact .inl ⟨[], rfl, fun _ => rfl⟩
  | cons b fs =>
    cases b with
    | false => exact .inl ⟨fs, rfl, fun h => by cases h⟩
    | true => exact .inr ⟨fs, rfl, List.cons_ne_nil _ _⟩

theorem io_reliable {what : Bytes} {d : DiskManager} (h : d.faults = []) :
    io what d = .ok () d := by
  obtain ⟨pages, faults⟩ := d
  obtain rfl : faults = [] := h
  rfl

theorem readPage_reliable {d : DiskManager} {pid : PageId} {page : Page} (h : d.faults = [])
    (hpage : d.pages[pid.toNat]? = some page) : readPage pid d = .ok page d := by
  simp only [readPage, EStateM.bind_apply, EStateM.get_apply, hpage, io_reliable h,
    EStateM.pure_apply]

theorem writePage_reliable {d : DiskManager} {pid : PageId} (h : d.faults = [])
    (hpid : pid.toNat < d.numPages) (page : Page) :
    writePage pid page d = .ok () { d with pages := d.pages.set pid.toNat page } := by
  simp only [writePage, EStateM.bind_apply, EStateM.get_apply, if_neg (Nat.not_le.mpr hpid),
    io_reliable h, EStateM.modify_apply]

theorem allocatePage_reliable {d : DiskManager} (h : d.faults = []) :
    allocatePage d =
      .ok (UInt32.ofNat d.numPages) { d with pages := d.pages ++ [.zero] } := by
  simp only [allocatePage, EStateM.bind_apply, EStateM.get_apply, io_reliable h,
    EStateM.modify_apply, EStateM.pure_apply]

/-- An allocation adds a zero page, or throws and changes no page. -/
theorem allocatePage_cases (d : DiskManager) :
    (∃ fs, allocatePage d = .ok (UInt32.ofNat d.numPages) ⟨d.pages ++ [.zero], fs⟩) ∨
      (∃ e fs, allocatePage d = .error e { d with faults := fs }) := by
  rcases io_cases (ofAscii "DiskManager::AllocatePage: extend failed") d with
    ⟨fs, hio, -⟩ | ⟨fs, hio, -⟩
  · exact .inl ⟨fs, by
      simp only [allocatePage, EStateM.bind_apply, EStateM.get_apply, hio]; rfl⟩
  · exact .inr ⟨_, fs, by
      simp only [allocatePage, EStateM.bind_apply, EStateM.get_apply, hio]; rfl⟩

theorem allocatePage_eq_ok {d d' : DiskManager} {pid : PageId}
    (h : allocatePage d = .ok pid d') : pid = UInt32.ofNat d.numPages := by
  rcases d.allocatePage_cases with ⟨fs, hd⟩ | ⟨e, fs, hd⟩
  · rw [hd] at h
    injection h with hpid
    exact hpid.symm
  · rw [hd] at h
    cases h
/-- A read changes no page, whether it returns or throws. -/
theorem readPage_cases (d : DiskManager) (pid : PageId) :
    (∃ page fs, readPage pid d = .ok page { d with faults := fs } ∧
        d.pages[pid.toNat]? = some page) ∨
      (∃ e fs, readPage pid d = .error e { d with faults := fs }) := by
  cases hpage : d.pages[pid.toNat]? with
  | none =>
    exact .inr ⟨_, d.faults, by
      simp only [readPage, EStateM.bind_apply, EStateM.get_apply, hpage]; rfl⟩
  | some page =>
    rcases io_cases (ofAscii "DiskManager::ReadPage: short read") d with
      ⟨fs, hio, -⟩ | ⟨fs, hio, -⟩
    · exact .inl ⟨page, fs, by
        simp only [readPage, EStateM.bind_apply, EStateM.get_apply, hpage, hio]; rfl, rfl⟩
    · exact .inr ⟨_, fs, by
        simp only [readPage, EStateM.bind_apply, EStateM.get_apply, hpage, hio]; rfl⟩

end DiskManager

end LiteOLAP
