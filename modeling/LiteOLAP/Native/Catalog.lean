import LiteOLAP.ForStd.SortedMap
import LiteOLAP.Native.DiskManager
import LiteOLAP.Native.Schema

/-!
# The catalog

`catalog/catalog.{h,cpp}`: the registry of tables and their row groups, its image as one body of
bytes, and the chain of pages from page 0 on that keeps the body on disk.

A walk along the chain reads a file that nothing else changes meanwhile. Once it has used up
the faults to come and then visited more pages than the file has, it never ends.
-/

namespace LiteOLAP

open Bytes (ofAscii leBytes)

/-- One row group of a table: the first page of each column's stream, covering `numRows`
    rows. -/
structure RowGroup where
  numRows : UInt64
  /-- As many as the schema has columns. -/
  columnRoots : List PageId
  deriving DecidableEq, Repr

structure TableMeta where
  name : Bytes
  schema : Schema
  rowGroups : List RowGroup
  deriving DecidableEq

/-- Registry of tables; a table is filed under its own name. -/
structure Catalog where
  tables : SortedMap Bytes TableMeta
  named : ∀ k m, tables.find? k = some m → m.name = k

namespace Catalog

/-- A catalog without tables. -/
def empty : Catalog := ⟨.empty, fun _ _ h => by simp at h⟩

def getTable (c : Catalog) (name : Bytes) : Option TableMeta := c.tables.find? name

def numTables (c : Catalog) : Nat := c.tables.size

/-- File a table under its name, over the old entry if there is one. -/
def setTable (c : Catalog) (m : TableMeta) : Catalog where
  tables := c.tables.insert m.name m
  named := by
    intro k m' h
    rw [SortedMap.find?_insert] at h
    split at h
    · rename_i hk
      rw [← Option.some.inj h, hk]
    · exact c.named k m' h

def createTable (c : Catalog) (name : Bytes) (schema : Schema) : Except Exc Catalog :=
  match c.getTable name with
  | some _ => .error (.invalidArgument (ofAscii "CreateTable: table already exists: " ++ name))
  | none => .ok (c.setTable ⟨name, schema, []⟩)

/-- `DropTable`; nothing where the method returns `false`. -/
def dropTable (c : Catalog) (name : Bytes) : Option Catalog :=
  match c.getTable name with
  | none => none
  | some _ => some {
      tables := c.tables.erase name
      named := by
        intro k m h
        rw [SortedMap.find?_erase] at h
        split at h
        · cases h
        · exact c.named k m h }

/-- `AddRowGroup`: append a freshly written row group to a table. -/
def addRowGroup (c : Catalog) (table : Bytes) (rg : RowGroup) : Except Exc Catalog :=
  match c.getTable table with
  | none => .error (.invalidArgument (ofAscii "AddRowGroup: no such table"))
  | some m => .ok (c.setTable { m with rowGroups := m.rowGroups ++ [rg] })

/-- `ClearRowGroups`: drop all of a table's row groups. -/
def clearRowGroups (c : Catalog) (table : Bytes) : Except Exc Catalog :=
  match c.getTable table with
  | none => .error (.invalidArgument (ofAscii "ClearRowGroups: no such table"))
  | some m => .ok (c.setTable { m with rowGroups := [] })

/-! ## The body -/

def putRowGroup (rg : RowGroup) : Bytes :=
  leBytes 8 rg.numRows.toNat ++ rg.columnRoots.flatMap fun pid => leBytes 4 pid.toNat

/-- One table of the body. Each length is cut to its field. -/
def putTable (m : TableMeta) : Bytes :=
  leBytes 1 m.name.length ++ m.name ++ leBytes 4 m.schema.serialize.length ++
    m.schema.serialize ++ leBytes 4 m.rowGroups.length ++ m.rowGroups.flatMap putRowGroup

/-- The body that `Persist` writes. -/
def body (c : Catalog) : Bytes :=
  leBytes 4 c.numTables ++ c.tables.entries.flatMap fun p => putTable p.2

/-- `Get` of the catalog reader. -/
def get (w : Nat) (cur : Bytes) : Except Exc (Nat × Bytes) :=
  getField (ofAscii "Catalog: truncated") w cur

/-- `n` page ids. -/
def getRoots : (n : Nat) → (cur : Bytes) → Except Exc (List PageId × Bytes)
  | 0, cur => .ok ([], cur)
  | n + 1, cur => do
    let (pid, cur) ← get 4 cur
    let (pids, cur) ← getRoots n cur
    return (UInt32.ofNat pid :: pids, cur)

/-- `n` row groups of a table with `ncols` columns. -/
def getRowGroups (ncols : Nat) : (n : Nat) → (cur : Bytes) → Except Exc (List RowGroup × Bytes)
  | 0, cur => .ok ([], cur)
  | n + 1, cur => do
    let (numRows, cur) ← get 8 cur
    let (roots, cur) ← getRoots ncols cur
    let (rgs, cur) ← getRowGroups ncols n cur
    return (⟨UInt64.ofNat numRows, roots⟩ :: rgs, cur)

/-- The schema at the cursor, in the next `size` bytes, and the cursor behind these bytes.
    Bounds that reach past the body are bounds of no array. -/
def getSchema (size : Nat) (cur : Bytes) : Except Exc (Schema × Bytes) :=
  if cur.length < size then .error .undefinedBehaviour
  else do
    let (schema, _) ← Schema.deserialize (cur.take size)
    return (schema, cur.drop size)

/-- One table of `Load`. -/
def getOneTable (cur : Bytes) : Except Exc (TableMeta × Bytes) := do
  let (nameLen, cur) ← get 1 cur
  let (name, cur) ← getBytes (ofAscii "Catalog: truncated name") nameLen cur
  let (schemaSize, cur) ← get 4 cur
  let (schema, cur) ← getSchema schemaSize cur
  let (numRg, cur) ← get 4 cur
  let (rowGroups, cur) ← getRowGroups schema.numColumns numRg cur
  return (⟨name, schema, rowGroups⟩, cur)

/-- `tables_.emplace(m.name, m)`: a name that is taken keeps its table. -/
def emplace (c : Catalog) (m : TableMeta) : Catalog :=
  match c.getTable m.name with
  | some _ => c
  | none => c.setTable m

/-- The loop of `Load` over the tables. -/
def getTables : (n : Nat) → (c : Catalog) → (cur : Bytes) → Except Exc (Catalog × Bytes)
  | 0, c, cur => .ok (c, cur)
  | n + 1, c, cur => do
    let (m, cur) ← getOneTable cur
    getTables n (c.emplace m) cur

/-- The catalog a body stands for, and what is left of the body behind it. -/
def parse (body : Bytes) : Except Exc (Catalog × Bytes) := do
  let (numTables, cur) ← get 4 body
  getTables numTables empty cur

/-! ## The page chain -/

/-- The number of steps after which a walk along the chain has not ended only if it never
    does. -/
def walkFuel (d : DiskManager) : Nat := d.faults.length + d.numPages + 1

/-- `while (next != kInvalidPageId)`: the pages from `next` on. -/
def followChain : (fuel : Nat) → (next : PageId) → EStateM Exc DiskManager (List PageId)
  | 0, _ => throw .diverges
  | fuel + 1, next =>
    if next = kInvalidPageId then pure []
    else do
      let page ← DiskManager.readPage next
      let rest ← followChain fuel page.nextPageId
      pure (next :: rest)

/-- The catalog pages that an earlier `Persist` has left: page 0, and those behind it if it is
    a catalog page. -/
def existingChain : EStateM Exc DiskManager (List PageId) := do
  let fuel := walkFuel (← MonadState.get)
  let page ← DiskManager.readPage 0
  let next := if page.pageType = .catalog then page.nextPageId else kInvalidPageId
  let rest ← followChain fuel next
  pure (0 :: rest)

/-- `n` calls of `AllocatePage`. -/
def allocatePages : (n : Nat) → EStateM Exc DiskManager (List PageId)
  | 0 => pure []
  | n + 1 => do
    let pid ← DiskManager.allocatePage
    let rest ← allocatePages n
    pure (pid :: rest)

/-- How many pages a body takes. -/
def pagesFor (body : Bytes) : Nat :=
  max 1 ((body.length + payloadCapacity - 1) / payloadCapacity)

/-- The slice of the body that goes onto the `i`-th page. -/
def slice (body : Bytes) (i : Nat) : Bytes :=
  (body.drop (i * payloadCapacity)).take payloadCapacity

theorem slice_length_le (body : Bytes) (i : Nat) : (slice body i).length ≤ payloadCapacity :=
  List.length_take_le _ _

/-- The `i`-th page of the chain. -/
def chainPage (chain : List PageId) (body : Bytes) (i : Nat) : Page where
  pageId := chain.getD i kInvalidPageId
  pageType := .catalog
  reserved := 0
  payloadBytes := UInt32.ofNat (slice body i).length
  nextPageId := if i + 1 < pagesFor body then chain.getD (i + 1) kInvalidPageId
    else kInvalidPageId
  payload := slice body i ++ List.replicate (payloadCapacity - (slice body i).length) 0
  payload_length := by
    have := slice_length_le body i
    rw [List.length_append, List.length_replicate]
    omega

/-- Write the pages from number `i` on, `n` of them. -/
def writePages (chain : List PageId) (body : Bytes) :
    (n i : Nat) → EStateM Exc DiskManager Unit
  | 0, _ => pure ()
  | n + 1, i => do
    DiskManager.writePage (chain.getD i kInvalidPageId) (chainPage chain body i)
    writePages chain body n (i + 1)

/-- `Persist`, for any body: reuse the chain there is, extend it to the pages the body takes,
    and write these. `Sync` adds nothing to it, since every write is flushed. -/
def persistBody (body : Bytes) : EStateM Exc DiskManager Unit := do
  let old ← existingChain
  let new ← allocatePages (pagesFor body - old.length)
  writePages (old ++ new) body (pagesFor body) 0

def persist (c : Catalog) : EStateM Exc DiskManager Unit := persistBody c.body

/-- The loop of `Load` along the chain: the payloads from page `pid` on. -/
def readChain : (fuel : Nat) → (pid : PageId) → EStateM Exc DiskManager Bytes
  | 0, _ => throw .diverges
  | fuel + 1, pid =>
    if pid = kInvalidPageId then pure []
    else do
      let page ← DiskManager.readPage pid
      let part ← EStateM.ofExcept page.used
      let rest ← readChain fuel page.nextPageId
      pure (part ++ rest)

/-- The body on disk. -/
def readBody : EStateM Exc DiskManager Bytes := do
  readChain (walkFuel (← MonadState.get)) 0

/-- `Load` of a file whose page 0 is a catalog page. -/
def loadBody : EStateM Exc DiskManager Catalog := do
  let body ← readBody
  let (c, _) ← EStateM.ofExcept (parse body)
  pure c

/-- `Load`. -/
def load : EStateM Exc DiskManager Catalog := do
  if (← MonadState.get).numPages = 0 then pure empty
  else do
    let page ← DiskManager.readPage 0
    if page.pageType = .catalog then loadBody else pure empty

end Catalog

end LiteOLAP
