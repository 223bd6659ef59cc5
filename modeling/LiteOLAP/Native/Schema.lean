import LiteOLAP.Native.Value

/-!
# Schemas

`catalog/schema.{h,cpp}`: the ordered columns of a table and their image on disk.

The class numbers its columns and bounds the length of their names; both facts are fields.
-/

namespace LiteOLAP

open Bytes (ofAscii leBytes ofLeBytes)

def kMaxColumnNameLen : Nat := 64

structure Column where
  name : Bytes
  type : ColumnType
  varcharLen : UInt16
  columnIndex : UInt16
  deriving DecidableEq, Repr

/-- Ordered set of columns describing a table's layout. -/
structure Schema where
  columns : List Column
  numbered : ∀ i c, columns[i]? = some c → c.columnIndex = UInt16.ofNat i
  named : ∀ c ∈ columns, c.name.length ≤ kMaxColumnNameLen
  deriving DecidableEq

/-- `Get<T>` of an unsigned integer of `w` bytes, with the text of the exception at the end of
    the data: the number and the advanced cursor. -/
def getField (what : Bytes) (w : Nat) (cur : Bytes) : Except Exc (Nat × Bytes) :=
  if cur.length < w then .error (.runtimeError what)
  else .ok (ofLeBytes (cur.take w), cur.drop w)

/-- `assign` of the next `n` bytes: the bytes and the advanced cursor. -/
def getBytes (what : Bytes) (n : Nat) (cur : Bytes) : Except Exc (Bytes × Bytes) :=
  if cur.length < n then .error (.runtimeError what) else .ok (cur.take n, cur.drop n)

/-- The column type a disk byte stands for. The C++ enumeration can hold any byte; no column
    has a type without a name. -/
def ColumnType.ofByte (b : Nat) : Except Exc ColumnType :=
  match b with
  | 1 => .ok .int
  | 2 => .ok .bigInt
  | 3 => .ok .float
  | 4 => .ok .varchar
  | _ => .error .undefinedBehaviour

namespace Schema

/-- `Schema::Schema(columns)`: number the columns, reject a name that is too long. -/
def ofColumns (cols : List Column) : Except Exc Schema :=
  if h : ∀ c ∈ cols, c.name.length ≤ kMaxColumnNameLen then
    .ok {
      columns := cols.mapIdx fun i c => { c with columnIndex := UInt16.ofNat i }
      numbered := by
        intro i c hc
        rw [List.getElem?_mapIdx] at hc
        obtain ⟨c', _, rfl⟩ := Option.map_eq_some_iff.mp hc
        rfl
      named := by
        intro c hc
        obtain ⟨i, hi, rfl⟩ := List.mem_mapIdx.mp hc
        exact h cols[i] (List.getElem_mem hi) }
  else .error (.invalidArgument (ofAscii "Schema: column name too long"))

def numColumns (s : Schema) : Nat := s.columns.length

/-- `GetColumn`: `columns_.at(idx)`. -/
def getColumn (s : Schema) (idx : Nat) : Except Exc Column :=
  match s.columns[idx]? with
  | some c => .ok c
  | none => .error (.outOfRange (ofAscii "vector::at"))

/-- `FindColumn`: the first column of that name. -/
def findColumn (s : Schema) (name : Bytes) : Option Nat :=
  s.columns.findIdx? fun c => c.name == name

/-- The list of column types in order. -/
def types (s : Schema) : List ColumnType := s.columns.map (·.type)

/-! ## On disk -/

/-- One column of `Serialize`. Each number is cut to its field. -/
def putColumn (c : Column) : Bytes :=
  leBytes 1 c.name.length ++ c.name ++ leBytes 1 c.type.toByte.toNat ++
    leBytes 2 c.varcharLen.toNat

def serialize (s : Schema) : Bytes :=
  leBytes 2 s.columns.length ++ s.columns.flatMap putColumn

/-- `Get` of the schema reader. -/
def get (w : Nat) (cur : Bytes) : Except Exc (Nat × Bytes) :=
  getField (ofAscii "Schema: truncated") w cur

/-- One column of `Deserialize`. -/
def getOneColumn (index : Nat) (cur : Bytes) : Except Exc (Column × Bytes) := do
  let (len, cur) ← get 1 cur
  let (name, cur) ← getBytes (ofAscii "Schema: truncated name") len cur
  let (type, cur) ← get 1 cur
  let type ← ColumnType.ofByte type
  let (varcharLen, cur) ← get 2 cur
  return (⟨name, type, UInt16.ofNat varcharLen, UInt16.ofNat index⟩, cur)

/-- The loop of `Deserialize` over the columns from number `index` on. -/
def getColumns : (n index : Nat) → (cur : Bytes) → Except Exc (List Column × Bytes)
  | 0, _, cur => .ok ([], cur)
  | n + 1, index, cur => do
    let (c, cur) ← getOneColumn index cur
    let (cs, cur) ← getColumns n (index + 1) cur
    return (c :: cs, cur)

/-- `Deserialize`: the schema in the given bytes and the number of bytes consumed. -/
def deserialize (data : Bytes) : Except Exc (Schema × Nat) := do
  let (n, cur) ← get 2 data
  let (cols, cur) ← getColumns n 0 cur
  let schema ← ofColumns cols
  return (schema, data.length - cur.length)

end Schema

end LiteOLAP
