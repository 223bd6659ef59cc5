import LiteOLAP.Native.Value

/-!
# The buffers of a vector

`Vector` as `vector/vector.{h,cpp}` lays it out: the slots of a fixed-width type one after the
other, or for `VARCHAR` the bytes of all strings with the offset of each, and a validity byte for
every row. `LiteOLAP.Vector` is the list of values that the buffers stand for.

Reading behind the end of a buffer has no meaning. The source of `AppendFrom` is a vector of its
own.
-/

namespace LiteOLAP

open Bytes (leBytes ofLeBytes)

/-- The members of the class `Vector`. -/
structure VectorBuffers where
  type : ColumnType
  size : Nat
  /-- Fixed-width packed values. -/
  data : Bytes
  /-- 1 = valid, 0 = NULL. -/
  validity : List UInt8
  /-- `VARCHAR` offsets, one more than rows. -/
  offsets : List UInt32
  /-- `VARCHAR` payload. -/
  strbytes : Bytes

namespace VectorBuffers

/-- `Vector::Vector(type)`. -/
def new (type : ColumnType) : VectorBuffers where
  type := type
  size := 0
  data := []
  validity := []
  offsets := if type = .varchar then [0] else []
  strbytes := []

/-- `Clear`. -/
def clear (vec : VectorBuffers) : VectorBuffers where
  type := vec.type
  size := 0
  data := []
  validity := []
  offsets := if vec.type = .varchar then [0] else []
  strbytes := []

/-! ## Typed append -/

/-- The slot of a value at the end of `data_`, for a valid row. -/
def appendSlot (vec : VectorBuffers) (slot : Bytes) : VectorBuffers :=
  { vec with
    data := vec.data ++ slot
    validity := vec.validity ++ [1]
    size := vec.size + 1 }

/-- `AppendInt32`. -/
def appendInt32 (vec : VectorBuffers) (v : Int32) : VectorBuffers :=
  vec.appendSlot (leBytes 4 v.toUInt32.toNat)

/-- `AppendInt64`. -/
def appendInt64 (vec : VectorBuffers) (v : Int64) : VectorBuffers :=
  vec.appendSlot (leBytes 8 v.toUInt64.toNat)

/-- `AppendDouble`. -/
def appendDouble (vec : VectorBuffers) (v : Double) : VectorBuffers :=
  vec.appendSlot (leBytes 8 v.bits.toNat)

/-- `AppendString`. -/
def appendString (vec : VectorBuffers) (v : Bytes) : VectorBuffers :=
  { vec with
    strbytes := vec.strbytes ++ v
    offsets := vec.offsets ++ [UInt32.ofNat (vec.strbytes ++ v).length]
    validity := vec.validity ++ [1]
    size := vec.size + 1 }

/-- The slot that `AppendNull` reserves. -/
def reserve (vec : VectorBuffers) : VectorBuffers :=
  match vec.type with
  | .int => { vec with data := vec.data ++ List.replicate 4 0 }
  | .bigInt => { vec with data := vec.data ++ List.replicate 8 0 }
  | .float => { vec with data := vec.data ++ List.replicate 8 0 }
  | .varchar => { vec with offsets := vec.offsets ++ [UInt32.ofNat vec.strbytes.length] }

/-- `AppendNull`. -/
def appendNull (vec : VectorBuffers) : VectorBuffers :=
  { vec.reserve with
    validity := vec.reserve.validity ++ [0]
    size := vec.reserve.size + 1 }

/-! ## Generic access -/

/-- `AppendValue`. -/
def appendValue (vec : VectorBuffers) (v : Value) : Except Exc VectorBuffers :=
  match v, vec.type with
  | .null, _ => .ok vec.appendNull
  | .int32 x, .int => .ok (vec.appendInt32 x)
  | .int64 x, .bigInt => .ok (vec.appendInt64 x)
  | .double x, .float => .ok (vec.appendDouble x)
  | .string x, .varchar => .ok (vec.appendString x)
  | _, _ => .error .badVariantAccess

/-- `IsValid`. -/
def isValid (vec : VectorBuffers) (i : Nat) : Except Exc Bool :=
  match vec.validity[i]? with
  | some b => .ok (b != 0)
  | none => .error .undefinedBehaviour

/-- `GetData<T>()[i]`, for a type of `w` bytes: the number in slot `i`. -/
def getData (vec : VectorBuffers) (w i : Nat) : Except Exc Nat :=
  if (i + 1) * w ≤ vec.data.length then .ok (ofLeBytes ((vec.data.drop (i * w)).take w))
  else .error .undefinedBehaviour

/-- `GetStringView`: the view of `end - begin` bytes, as 32-bit offsets. -/
def getStringView (vec : VectorBuffers) (i : Nat) : Except Exc Bytes :=
  match vec.offsets[i]?, vec.offsets[i + 1]? with
  | some start, some stop =>
    if start.toNat + (stop - start).toNat ≤ vec.strbytes.length then
      .ok ((vec.strbytes.drop start.toNat).take (stop - start).toNat)
    else .error .undefinedBehaviour
  | _, _ => .error .undefinedBehaviour

/-- `GetValue`. -/
def getValue (vec : VectorBuffers) (i : Nat) : Except Exc Value := do
  if ← vec.isValid i then
    match vec.type with
    | .int => return .int32 (UInt32.ofNat (← vec.getData 4 i)).toInt32
    | .bigInt => return .int64 (UInt64.ofNat (← vec.getData 8 i)).toInt64
    | .float => return .double ⟨UInt64.ofNat (← vec.getData 8 i)⟩
    | .varchar => return .string (← vec.getStringView i)
  else return .null

/-- `AppendFrom`: row `i` of another vector. -/
def appendFrom (vec src : VectorBuffers) (i : Nat) : Except Exc VectorBuffers := do
  if ← src.isValid i then
    match vec.type with
    | .int => return vec.appendInt32 (UInt32.ofNat (← src.getData 4 i)).toInt32
    | .bigInt => return vec.appendInt64 (UInt64.ofNat (← src.getData 8 i)).toInt64
    | .float => return vec.appendDouble ⟨UInt64.ofNat (← src.getData 8 i)⟩
    | .varchar => return vec.appendString (← src.getStringView i)
  else return vec.appendNull

end VectorBuffers

end LiteOLAP
