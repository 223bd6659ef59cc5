import LiteOLAP.Native.Parser
import LiteOLAP.Native.Planner

/-!
# The database

`db.{h,cpp}`: statements against a file. Inserted rows wait in memory, column by column, until a
query reads their table or the database is closed; then `FlushTable` writes them as row groups.

A statement is given as its syntax tree. What an exception leaves behind stays, as in the fields
of the C++ object.
-/

namespace LiteOLAP

open Bytes (ofAscii)

/-- Rows of a full row group. -/
def kRowGroupSize : Nat := 100000

/-- Column names plus materialized rows. -/
structure ResultSet where
  columnNames : List Bytes
  rows : List Row
  deriving DecidableEq, Repr

/-- `Coerce`: a parsed literal as a value of the declared column type. -/
def coerce (v : Value) (type : ColumnType) : Except Exc Value :=
  match type, v with
  | _, .null => .ok .null
  | .int, .int32 x => .ok (.int32 x)
  | .int, .int64 x => .ok (.int32 x.toInt32)
  | .bigInt, .int64 x => .ok (.int64 x)
  | .bigInt, .int32 x => .ok (.int64 x.toInt64)
  | .float, .double x => .ok (.double x)
  | .float, .int32 x => .ok (.double (.ofInt x.toInt))
  | .float, .int64 x => .ok (.double (.ofInt x.toInt))
  | .varchar, .string x => .ok (.string x)
  | _, _ => .error (.runtimeError (ofAscii "INSERT: value does not match column type"))

structure DB where
  /-- The pool, over the file of `disk_`. -/
  pool : BufferPool
  catalog : Catalog
  /-- Table name to the pending values, one list for each column. -/
  pending : SortedMap Bytes (List (List Value))

namespace DB

/-- Use the pool. -/
def withPool {α : Type} : EStateM Exc BufferPool α → EStateM Exc DB α :=
  EStateM.zoom (·.pool) fun pool db => { db with pool }

/-- Use the file behind the pool. -/
def withDisk {α : Type} (x : EStateM Exc DiskManager α) : EStateM Exc DB α :=
  withPool (BufferPool.withDisk x)

/-- `catalog_.Persist(*disk_)`. -/
def persistCatalog : EStateM Exc DB Unit := do
  withDisk (← get).catalog.persist

/-- Frames of the pool. -/
def kDefaultBufferPoolFrames : Nat := 1024

/-- `Open` on a file. -/
def «open» (disk : DiskManager) : Except Exc DB :=
  match Catalog.load disk with
  | .ok catalog disk => do
    let pool ← BufferPool.create disk kDefaultBufferPoolFrames
    return ⟨pool, catalog, .empty⟩
  | .error e _ => .error e

/-! ## Flushing -/

/-- `cols[c][r]`, which nothing checks. -/
def pendingAt (cols : List (List Value)) (c r : Nat) : Except Exc Value :=
  match cols[c]?.bind (·[r]?) with
  | some v => .ok v
  | none => .error .undefinedBehaviour

/-- Column `c` of the pending rows from `start` on, `n` of them, as a stream of its own. -/
def flushColumn (cols : List (List Value)) (start n c : Nat) (type : ColumnType) :
    EStateM Exc BufferPool PageId := do
  let w ← ColumnWriter.create type
  let w ← (List.range' start n).foldlM (fun w r => do
    let v ← EStateM.ofExcept (pendingAt cols c r)
    w.append v) w
  w.finish

/-- The pending rows from `start` on, `n` of them, as one row group. -/
def flushRowGroup (schema : Schema) (cols : List (List Value)) (start n : Nat) :
    EStateM Exc BufferPool RowGroup := do
  let roots ← (List.range schema.numColumns).mapM fun c => do
    let col ← EStateM.ofExcept (schema.getColumn c)
    flushColumn cols start n c col.type
  pure ⟨UInt64.ofNat n, roots⟩

/-- One round of the loop of `FlushTable`: the row group of the rows from `start` on. -/
def flushFrom (name : Bytes) (schema : Schema) (cols : List (List Value)) (total start : Nat) :
    EStateM Exc DB Unit := do
  let rg ← withPool (flushRowGroup schema cols start (min kRowGroupSize (total - start)))
  let catalog ← EStateM.ofExcept ((← get).catalog.addRowGroup name rg)
  modify fun db => { db with catalog }

/-- The starts `0`, `kRowGroupSize`, ... below `total`. -/
def rowGroupStarts (total : Nat) : List Nat :=
  (List.range ((total + kRowGroupSize - 1) / kRowGroupSize)).map (· * kRowGroupSize)

/-- Clear the pending values of a table. -/
def clearPending (name : Bytes) (db : DB) : DB :=
  match db.pending.find? name with
  | some cols => { db with pending := db.pending.insert name (cols.map fun _ => []) }
  | none => db

/-- `FlushTable`. -/
def flushTable (name : Bytes) : EStateM Exc DB Unit := do
  let db ← get
  match db.pending.find? name, db.catalog.getTable name with
  | some (col :: cols), some m =>
    if col = [] then pure ()
    else do
      (rowGroupStarts col.length).forM (flushFrom name m.schema (col :: cols) col.length)
      modify (clearPending name)
      withPool BufferPool.flushAll
      persistCatalog
  | _, _ => pure ()

/-- `FlushAllPending`. -/
def flushAllPending : EStateM Exc DB Unit := do
  (← get).pending.keys.forM flushTable

/-- `Close`. -/
def close : EStateM Exc DB Unit := do
  flushAllPending
  withPool BufferPool.flushAll
  persistCatalog

/-! ## Statements -/

def unknownTable (name : Bytes) : Exc := .runtimeError (ofAscii "unknown table: " ++ name)

/-- The columns that `Execute` makes of the definitions. -/
def columnsOf (defs : List ColumnDef) : List Column :=
  defs.mapIdx fun i d => ⟨d.name, d.type, d.varcharLen, UInt16.ofNat i⟩

def createTable (name : Bytes) (defs : List ColumnDef) : EStateM Exc DB ResultSet := do
  if ((← get).catalog.getTable name).isSome then
    throw (.runtimeError (ofAscii "table already exists: " ++ name))
  let schema ← EStateM.ofExcept (Schema.ofColumns (columnsOf defs))
  modify fun db =>
    { db with pending := db.pending.insert name (List.replicate schema.numColumns []) }
  let catalog ← EStateM.ofExcept ((← get).catalog.createTable name schema)
  modify fun db => { db with catalog }
  persistCatalog
  return ⟨[], []⟩

def dropTable (name : Bytes) : EStateM Exc DB ResultSet := do
  match (← get).catalog.dropTable name with
  | none => throw (unknownTable name)
  | some catalog =>
    modify fun db => { db with catalog, pending := db.pending.erase name }
    persistCatalog
    return ⟨[], []⟩

def truncate (name : Bytes) : EStateM Exc DB ResultSet := do
  if ((← get).catalog.getTable name).isNone then throw (unknownTable name)
  let catalog ← EStateM.ofExcept ((← get).catalog.clearRowGroups name)
  modify fun db => clearPending name { db with catalog }
  persistCatalog
  return ⟨[], []⟩

/-- The values of one row, from column `i` on, pushed onto the pending columns. -/
def insertValues (schema : Schema) : (i : Nat) → List Value →
    EStateM Exc (List (List Value)) Unit
  | _, [] => pure ()
  | i, v :: vs => do
    let col ← EStateM.ofExcept (schema.getColumn i)
    let v ← EStateM.ofExcept (coerce v col.type)
    modify fun cols => cols.modify i (· ++ [v])
    insertValues schema (i + 1) vs

/-- One row of `INSERT`. -/
def insertRow (schema : Schema) (row : List Value) : EStateM Exc (List (List Value)) Unit :=
  if row.length ≠ schema.numColumns then
    throw (.runtimeError (ofAscii "INSERT: value count does not match column count"))
  else insertValues schema 0 row

/-- Use the pending columns of a table, which `pending_[name]` creates if there are none. -/
def withPending {α : Type} (name : Bytes) :
    EStateM Exc (List (List Value)) α → EStateM Exc DB α :=
  EStateM.zoom (fun db => (db.pending.find? name).getD []) fun cols db =>
    { db with pending := db.pending.insert name cols }

def insert (name : Bytes) (rows : List (List Value)) : EStateM Exc DB ResultSet := do
  match (← get).catalog.getTable name with
  | none => throw (unknownTable name)
  | some m =>
    withPending name do
      modify fun cols =>
        if cols.length ≠ m.schema.numColumns then List.replicate m.schema.numColumns [] else cols
      rows.forM (insertRow m.schema)
    return ⟨[], []⟩

/-- `SELECT` of one table or two: the pending rows of these are flushed first. -/
def select (mach : Machine) (stmt : SelectStmt) : EStateM Exc DB ResultSet := do
  stmt.tables.forM fun t => flushTable t.name
  let plan ← EStateM.ofExcept (Planner.planSelect stmt (← get).catalog)
  let stream ← withPool (plan.open mach)
  let rows ← EStateM.ofExcept (stream.forEach (fun rows b => .ok (rows ++ b.rows)) [])
  return ⟨plan.outputNames, rows⟩

/-- `Execute`. -/
def execute (mach : Machine) : Statement → EStateM Exc DB ResultSet
  | .createTable name defs => createTable name defs
  | .dropTable name => dropTable name
  | .truncate name => truncate name
  | .insert name rows => insert name rows
  | .select stmt => select mach stmt

/-- `Execute` of a text: nothing is done of a text that is not parsed. -/
def executeSql (stod : Bytes → Option Double) (mach : Machine) (sql : Bytes) :
    EStateM Exc DB ResultSet := do
  let stmt ← EStateM.ofExcept (parse stod sql)
  execute mach stmt

end DB

end LiteOLAP
