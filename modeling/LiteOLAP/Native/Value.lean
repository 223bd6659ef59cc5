import LiteOLAP.ForStd.Except

/-!
# Scalar values

`ColumnType`, `Value` and `CompareValues` of `common/value.{h,cpp}`, with the C++ `double`
they rest on and the exceptions the engine throws.

A `double` is kept as its 64-bit pattern, so that copying one through `memcpy` is the
identity; arithmetic, comparison and the conversion from integers are the IEEE 754
operations of `Float.Model`.
-/

namespace LiteOLAP

open Bytes (ofAscii)

/-- How a call can fail: a C++ exception with its text, or one of three ways of not
    returning at all. -/
inductive Exc where
  | runtimeError (what : Bytes)
  | invalidArgument (what : Bytes)
  | logicError (what : Bytes)
  | outOfRange (what : Bytes)
  /-- `std::bad_variant_access`, from `std::get` on the wrong alternative. -/
  | badVariantAccess
  /-- The C++ standard gives the access no meaning (an index out of range, a null `optional`). -/
  | undefinedBehaviour
  /-- `std::terminate`, from an exception that leaves a worker thread. -/
  | terminate
  /-- The loop never ends. -/
  | diverges
  deriving DecidableEq, Repr

/-- The four scalar types LiteOLAP supports. -/
inductive ColumnType where
  | int
  | bigInt
  | float
  | varchar
  deriving DecidableEq, Repr

/-- The disk byte of a column type. -/
def ColumnType.toByte : ColumnType → UInt8
  | .int => 1
  | .bigInt => 2
  | .float => 3
  | .varchar => 4

/-- Byte width of a fixed-width type (`0` for `VARCHAR`). -/
def fixedWidth : ColumnType → Nat
  | .int => 4
  | .bigInt => 8
  | .float => 8
  | .varchar => 0

/-! ## `double` -/

/-- An IEEE 754 binary64 number, as its bit pattern. -/
structure Double where
  bits : UInt64
  deriving DecidableEq, Repr

namespace Double

/-- The IEEE value the bits stand for. -/
def toModel (d : Double) : Float.Model := .ofBits d.bits

def ofModel (m : Float.Model) : Double := ⟨m.toBits⟩

/-- `static_cast<double>` of an integer: round to nearest, ties to even. -/
def ofInt (n : Int) : Double := ofModel (.ofInt n)

instance : Add Double := ⟨fun a b => ofModel (a.toModel + b.toModel)⟩
instance : Sub Double := ⟨fun a b => ofModel (a.toModel - b.toModel)⟩
instance : Mul Double := ⟨fun a b => ofModel (a.toModel * b.toModel)⟩
instance : Div Double := ⟨fun a b => ofModel (a.toModel / b.toModel)⟩

/-- C++ `a < b` on doubles. -/
def lt (a b : Double) : Bool := a.toModel.lt b.toModel

/-- C++ `a <= b` on doubles. -/
def le (a b : Double) : Bool := a.toModel.le b.toModel

/-- C++ `a == b` on doubles. -/
def beq (a b : Double) : Bool := a.toModel.beq b.toModel

def isNaN (d : Double) : Bool := d.toModel.isNaN

/-- `0.0`. -/
def zero : Double := ⟨0⟩

end Double

/-! ## `Value` -/

/-- Runtime representation of a single scalar value:
    `std::variant<Null, std::int32_t, std::int64_t, double, std::string>`. -/
inductive Value where
  | null
  | int32 (v : Int32)
  | int64 (v : Int64)
  | double (v : Double)
  | string (v : Bytes)
  deriving DecidableEq, Repr

namespace Value

def isNull : Value → Bool
  | .null => true
  | _ => false

/-- `v` is `NULL` or holds the alternative that columns of type `t` store. -/
def hasType : Value → ColumnType → Bool
  | .null, _ => true
  | .int32 _, .int => true
  | .int64 _, .bigInt => true
  | .double _, .float => true
  | .string _, .varchar => true
  | _, _ => false

/-- The column type that stores the alternative a value holds. -/
def alternative : Value → Option ColumnType
  | .null => none
  | .int32 _ => some .int
  | .int64 _ => some .bigInt
  | .double _ => some .float
  | .string _ => some .varchar

theorem hasType_iff {v : Value} {t : ColumnType} :
    v.hasType t = true ↔ v = .null ∨ v.alternative = some t := by
  cases v <;> cases t <;> simp [hasType, alternative]

/-- Non-NULL values of one column hold the same alternative. -/
theorem alternative_eq {v w : Value} {t : ColumnType} (hv : v.hasType t = true)
    (hw : w.hasType t = true) (hvn : v ≠ .null) (hwn : w ≠ .null) :
    v.alternative = w.alternative :=
  ((hasType_iff.mp hv).resolve_left hvn).trans ((hasType_iff.mp hw).resolve_left hwn).symm

/-- The non-NULL values of an `INT` column. -/
theorem exists_int32 {v : Value} (h : v.hasType .int = true) (hnull : v ≠ .null) :
    ∃ x, v = .int32 x := by
  cases v with
  | int32 x => exact ⟨x, rfl⟩
  | null => exact absurd rfl hnull
  | int64 x | double x | string x => cases h

/-- The non-NULL values of a `BIGINT` column. -/
theorem exists_int64 {v : Value} (h : v.hasType .bigInt = true) (hnull : v ≠ .null) :
    ∃ x, v = .int64 x := by
  cases v with
  | int64 x => exact ⟨x, rfl⟩
  | null => exact absurd rfl hnull
  | int32 x | double x | string x => cases h

/-- The non-NULL values of a `FLOAT` column. -/
theorem exists_double {v : Value} (h : v.hasType .float = true) (hnull : v ≠ .null) :
    ∃ x, v = .double x := by
  cases v with
  | double x => exact ⟨x, rfl⟩
  | null => exact absurd rfl hnull
  | int32 x | int64 x | string x => cases h

/-- The non-NULL values of a `VARCHAR` column. -/
theorem exists_string {v : Value} (h : v.hasType .varchar = true) (hnull : v ≠ .null) :
    ∃ x, v = .string x := by
  cases v with
  | string x => exact ⟨x, rfl⟩
  | null => exact absurd rfl hnull
  | int32 x | int64 x | double x => cases h

@[simp] theorem hasType_null (t : ColumnType) : Value.null.hasType t = true := by
  cases t <;> rfl

@[simp] theorem isNull_eq_true {v : Value} : v.isNull = true ↔ v = .null := by
  cases v <;> simp [isNull]

@[simp] theorem isNull_eq_false {v : Value} : v.isNull = false ↔ v ≠ .null := by
  cases v <;> simp [isNull]

end Value

/-- Three-way comparison with the type's own `<`, as `CompareArith` and the string branch
    of `CompareValues` make it: neither smaller means equal. -/
def compareBy {α : Type} (lt : α → α → Bool) (a b : α) : Ordering :=
  if lt a b then .lt else if lt b a then .gt else .eq

/-- `CompareArith` on two different arithmetic types: both sides are cast to `double`. -/
def compareMixed (a b : Double) : Ordering := compareBy Double.lt a b

/-- Three-way comparison of two non-null values. Mixed numeric types compare as doubles;
    `VARCHAR` compares lexicographically and must not be mixed with numerics. -/
def compareValues : Value → Value → Except Exc Ordering
  | .string a, .string b => .ok (compareBy (fun x y => decide (x < y)) a b)
  | .string _, _ | _, .string _ =>
    .error (.invalidArgument (ofAscii "CompareValues: cannot mix VARCHAR with numeric"))
  | .null, _ | _, .null =>
    .error (.invalidArgument (ofAscii "CompareValues: unsupported value kind"))
  | .int32 a, .int32 b => .ok (compareBy (fun x y => decide (x < y)) a b)
  | .int64 a, .int64 b => .ok (compareBy (fun x y => decide (x < y)) a b)
  | .double a, .double b => .ok (compareBy Double.lt a b)
  | .int32 a, .int64 b => .ok (compareMixed (.ofInt a.toInt) (.ofInt b.toInt))
  | .int64 a, .int32 b => .ok (compareMixed (.ofInt a.toInt) (.ofInt b.toInt))
  | .int32 a, .double b => .ok (compareMixed (.ofInt a.toInt) b)
  | .double a, .int32 b => .ok (compareMixed a (.ofInt b.toInt))
  | .int64 a, .double b => .ok (compareMixed (.ofInt a.toInt) b)
  | .double a, .int64 b => .ok (compareMixed a (.ofInt b.toInt))

/-! ## Rendering -/

/-- `std::to_string(double)`: the exact value rounded to six decimals (`"%f"`). -/
def Double.toText (d : Double) : Bytes :=
  let digits (neg : Bool) (scaled : Nat) : Bytes :=
    let frac := Nat.repr (scaled % 1000000)
    ofAscii ((if neg then "-" else "") ++ Nat.repr (scaled / 1000000) ++ "." ++
      "".pushn '0' (6 - frac.length) ++ frac)
  match d.toModel.unpack with
  | .notANumber => ofAscii "nan"
  | .infinity .positive => ofAscii "inf"
  | .infinity .negative => ofAscii "-inf"
  | .zero .positive => digits false 0
  | .zero .negative => digits true 0
  | .finite s m e _ =>
    let num := m * 1000000 * 2 ^ e.toNat
    let den := 2 ^ (-e).toNat
    -- round half to even on the exact quotient
    let q := num / den
    let r := num % den
    let scaled := if 2 * r > den ∨ (2 * r = den ∧ q % 2 = 1) then q + 1 else q
    digits (s == .negative) scaled

/-- Renders a value as text. -/
def valueToString : Value → Bytes
  | .null => ofAscii "NULL"
  | .string s => s
  | .int32 v => ofAscii (toString v.toInt)
  | .int64 v => ofAscii (toString v.toInt)
  | .double v => v.toText

end LiteOLAP
