import LiteOLAP.ForStd.BitStream
import LiteOLAP.ForStd.KeyMap
import LiteOLAP.Native.DataChunk

/-!
# Column chunk encodings

`compression/encoding.{h,cpp}`: the four ways to lay out one chunk of a column (plain slots,
runs, a dictionary with packed indices, packed offsets from a frame minimum), the chooser that
keeps the smallest, and their decoders.

A cursor into a payload is the suffix that is left of it; reading past the end is an exception
where the source checks and has no meaning where it does not. A chunk's row count is an
`std::uint32_t`, so a list of values stands for a chunk when it has fewer than `2 ^ 32` entries.
-/

namespace LiteOLAP

open Bytes (ofAscii leBytes ofLeBytes)

/-- On-disk encoding scheme of a column chunk. -/
inductive Encoding where
  | plain
  | rle
  | dictionary
  | bitpack
  deriving DecidableEq, Repr

/-- The disk byte of a scheme. -/
def Encoding.toByte : Encoding → UInt8
  | .plain => 0
  | .rle => 1
  | .dictionary => 2
  | .bitpack => 3

/-- The scheme a disk byte stands for. -/
def Encoding.ofByte (b : Nat) : Option Encoding :=
  match b with
  | 0 => some .plain
  | 1 => some .rle
  | 2 => some .dictionary
  | 3 => some .bitpack
  | _ => none

/-- Result of encoding one logical chunk of values. The zone map is for `INT` and `BIGINT`
    only. -/
structure EncodedChunk where
  encoding : Encoding
  numRows : Nat := 0
  nullCount : Nat := 0
  hasZoneMap : Bool := false
  minValue : Int64 := 0
  maxValue : Int64 := 0
  payload : Bytes
  deriving DecidableEq, Repr

/-! ## Byte helpers -/

/-- `GetPod` of an unsigned integer of `w` bytes, and the advanced cursor. -/
def getPod (w : Nat) (cur : Bytes) : Except Exc (Nat × Bytes) :=
  if cur.length < w then .error (.runtimeError (ofAscii "encoding: truncated payload"))
  else .ok (ofLeBytes (cur.take w), cur.drop w)

/-- A `memcpy` of `w` bytes that nothing guards. -/
def load (w : Nat) (cur : Bytes) : Except Exc Nat :=
  if cur.length < w then .error .undefinedBehaviour else .ok (ofLeBytes (cur.take w))

/-! ## Validity bitmap -/

def validityBytes (n : Nat) : Nat := (n + 7) / 8

/-- One bit per value, set where the value is not NULL. -/
def writeValidity (values : List Value) : Bytes :=
  values.zipIdx.foldl
    (fun bitmap (v, i) =>
      if v.isNull then bitmap else bitmap.modify (i / 8) (· ||| UInt8.ofNat (1 <<< (i % 8))))
    (List.replicate (validityBytes values.length) 0)

def testValidity (bitmap : Bytes) (i : Nat) : Except Exc Bool :=
  match bitmap[i / 8]? with
  | none => .error .undefinedBehaviour
  | some b => .ok (b.toNat &&& (1 <<< (i % 8)) != 0)

/-! ## Value extraction -/

/-- `AsI64`: either integer alternative, widened. -/
def getI64 : Value → Except Exc Int64
  | .int32 v => .ok v.toInt64
  | .int64 v => .ok v
  | _ => .error (.runtimeError (ofAscii "encoding: expected integer value"))

/-- `AsDouble`: `std::get<double>`. -/
def getDouble : Value → Except Exc Double
  | .double v => .ok v
  | _ => .error .badVariantAccess

/-- `std::get<std::string>`. -/
def getString : Value → Except Exc Bytes
  | .string s => .ok s
  | _ => .error .badVariantAccess

/-! ## Bit packing -/

/-- The loop of `BitsRequired`, with `b` bits counted. -/
def countBits (b maxVal : Nat) : Nat :=
  if 0 < maxVal then countBits (b + 1) (maxVal >>> 1) else b
termination_by maxVal
decreasing_by simp only [Nat.shiftRight_one]; omega

/-- Minimum bits needed to represent values in `[0, maxVal]` (1 for 0). -/
def bitsRequired (maxVal : UInt64) : Nat :=
  let b := countBits 0 maxVal.toNat
  if b = 0 then 1 else b

/-- The inner loop of `PackBits`: `remaining` more bits of one value. -/
def packValue (w : BitWriter) (v remaining : Nat) : BitWriter :=
  if 0 < remaining then
    let take := min (8 - w.bits) remaining
    packValue (w.put v take (by have := w.bits_lt; omega)) (v >>> take) (remaining - take)
  else w
termination_by remaining
decreasing_by have := w.bits_lt; omega

/-- Pack values of `bitWidth` bits each, LSB-first, at the end of `out`. -/
def packBits (vals : List UInt64) (bitWidth : Nat) (out : Bytes) : Bytes :=
  if bitWidth = 0 then out
  else (vals.foldl (fun w v => packValue w v.toNat bitWidth) (.start out)).flush

/-- The inner loop of `UnpackBits`: the value read so far, of which `got` bits are known.
    Shifting a 64-bit word by 64 or more has no meaning. -/
def unpackValue (bitWidth : Nat) (r : BitReader) (got val : Nat) :
    Except Exc (UInt64 × BitReader) :=
  if got < bitWidth then
    match hr : r.refill with
    | none => .error .undefinedBehaviour
    | some r' =>
      let take := min r'.bits (bitWidth - got)
      if 64 ≤ got then .error .undefinedBehaviour
      else
        let read := r'.take take (Nat.min_le_left _ _)
        unpackValue bitWidth read.2 (got + take) ((val ||| (read.1 <<< got)) % 2 ^ 64)
  else .ok (UInt64.ofNat val, r)
termination_by bitWidth - got
decreasing_by have := BitReader.bits_pos_of_refill hr; omega

/-- The outer loop of `UnpackBits`. -/
def unpackValues (bitWidth : Nat) : (n : Nat) → BitReader → Except Exc (List UInt64)
  | 0, _ => .ok []
  | n + 1, r => do
    let (v, r) ← unpackValue bitWidth r 0 0
    let vs ← unpackValues bitWidth n r
    pure (v :: vs)

/-- Inverse of `packBits`. -/
def unpackBits (cur : Bytes) (n bitWidth : Nat) : Except Exc (List UInt64) :=
  if bitWidth = 0 then .ok (List.replicate n 0) else unpackValues bitWidth n (.start cur)

/-! ## Fixed-width slots -/

/-- The bytes of a non-NULL value of a fixed-width type. -/
def putFixed (type : ColumnType) (v : Value) : Except Exc Bytes :=
  match type with
  | .float => do pure (leBytes 8 (← getDouble v).bits.toNat)
  | .int => do pure (leBytes 4 (← getI64 v).toInt32.toUInt32.toNat)
  | _ => do pure (leBytes 8 (← getI64 v).toUInt64.toNat)

/-- The value whose slot reads as the unsigned integer `n`. -/
def fixedValue (type : ColumnType) (n : Nat) : Value :=
  match type with
  | .int => .int32 (UInt32.ofNat n).toInt32
  | .bigInt => .int64 (UInt64.ofNat n).toInt64
  | _ => .double ⟨UInt64.ofNat n⟩

/-- One row of a decoder: NULL where the bitmap says so, else the value the row's slot holds. -/
def appendSlot (validity : Bytes) (i : Nat) (slot : Except Exc Value) (out : Vector) :
    Except Exc Vector := do
  if ← testValidity validity i then out.append (← slot) else out.append .null

/-! ## Plain -/

/-- The offsets and the concatenated bytes of the strings; a NULL takes no bytes. -/
def plainStrings (values : List Value) : Except Exc (List Nat × Bytes) := do
  let (_, offsets, bytes) ← values.foldlM
    (fun (cur, offsets, bytes) v =>
      if v.isNull then pure (cur, offsets ++ [cur], bytes)
      else do
        let s ← getString v
        let cur := (cur + s.length) % 2 ^ 32
        pure (cur, offsets ++ [cur], bytes ++ s))
    (0, [0], [])
  pure (offsets, bytes)

/-- One slot of the plain layout; a NULL leaves it zero. -/
def plainSlot (type : ColumnType) (v : Value) : Except Exc Bytes :=
  if v.isNull then .ok (List.replicate (fixedWidth type) 0) else putFixed type v

def encodePlain (type : ColumnType) (values : List Value) : Except Exc EncodedChunk := do
  if type = .varchar then
    let (offsets, bytes) ← plainStrings values
    pure { encoding := .plain
           payload := writeValidity values ++ offsets.flatMap (leBytes 4) ++ bytes }
  else
    let slots ← values.mapM (plainSlot type)
    pure { encoding := .plain, payload := writeValidity values ++ slots.flatten }

/-- The string of `len` bytes at offset `b`, unchecked. -/
def viewString (strbase : Bytes) (b len : Nat) : Except Exc Value :=
  if (strbase.drop b).length < len then .error .undefinedBehaviour
  else .ok (.string ((strbase.drop b).take len))

/-- String `i` of the plain layout: the bytes between its two offsets, whose difference is
    taken in 32 bits. -/
def plainString (offbase strbase : Bytes) (i : Nat) : Except Exc Value := do
  let b ← load 4 (offbase.drop (i * 4))
  let e ← load 4 (offbase.drop ((i + 1) * 4))
  viewString strbase b ((e + 2 ^ 32 - b) % 2 ^ 32)

def decodePlain (type : ColumnType) (n : Nat) (payload : Bytes) (out : Vector) :
    Except Exc Vector :=
  let cur := payload.drop (validityBytes n)
  if type = .varchar then
    -- `n + 1` is computed in 32 bits before it is widened
    let strbase := cur.drop ((n + 1) % 2 ^ 32 * 4)
    (List.range n).foldlM (fun out i => appendSlot payload i (plainString cur strbase i) out) out
  else
    let w := fixedWidth type
    (List.range n).foldlM
      (fun out i => do
        let slot := cur.drop (i * w)
        if slot.length < w then throw (.runtimeError (ofAscii "encoding: plain underflow"))
        appendSlot payload i (pure (fixedValue type (ofLeBytes (slot.take w)))) out)
      out

/-! ## Runs -/

/-- The raw slot of a value in 64 bits; NULL slots carry 0. -/
def slotBits (type : ColumnType) (v : Value) : Except Exc UInt64 :=
  if v.isNull then .ok 0
  else if type = .float then do pure (← getDouble v).bits
  else do pure (← getI64 v).toUInt64

/-- Maximal runs of equal slots. -/
def rleRuns : List UInt64 → List (UInt64 × Nat)
  | [] => []
  | v :: rest =>
    (v, (rest.takeWhile (· == v)).length + 1) :: rleRuns (rest.dropWhile (· == v))
termination_by slots => slots.length
decreasing_by
  have := (List.dropWhile_sublist (l := rest) (· == v)).length_le
  simp only [List.length_cons]
  omega

/-- A run on disk: its slot, cut to four bytes for `INT`, and its length. -/
def putRun (type : ColumnType) (run : UInt64 × Nat) : Bytes :=
  (if fixedWidth type = 4 then leBytes 4 run.1.toUInt32.toNat else leBytes 8 run.1.toNat) ++
    leBytes 4 run.2

def encodeRle (type : ColumnType) (values : List Value) : Except Exc EncodedChunk := do
  let slots ← values.mapM (slotBits type)
  let runs := rleRuns slots
  pure { encoding := .rle
         payload := writeValidity values ++ leBytes 4 runs.length ++
           runs.flatMap (putRun type) }

/-- The slot of a run read back: four bytes are sign-extended. -/
def getRunBits (type : ColumnType) (cur : Bytes) : Except Exc (UInt64 × Bytes) := do
  if fixedWidth type = 4 then
    let (n, cur) ← getPod 4 cur
    pure ((UInt32.ofNat n).toInt32.toInt64.toUInt64, cur)
  else
    let (n, cur) ← getPod 8 cur
    pure (UInt64.ofNat n, cur)

/-- The value of a row whose slot is `bits`. -/
def runValue (type : ColumnType) (bits : UInt64) : Value :=
  match type with
  | .int => .int32 bits.toUInt32.toInt32
  | .bigInt => .int64 bits.toInt64
  | _ => .double ⟨bits⟩

/-- One run of `DecodeRle`: read it and append its rows, counted in 32 bits from `row`. -/
def decodeRun (type : ColumnType) (validity : Bytes) (st : Bytes × Nat × Vector) :
    Except Exc (Bytes × Nat × Vector) := do
  let (cur, row, out) := st
  let (bits, cur) ← getRunBits type cur
  let (runLen, cur) ← getPod 4 cur
  let out ← (List.range runLen).foldlM
    (fun out k => appendSlot validity ((row + k) % 2 ^ 32) (pure (runValue type bits)) out) out
  pure (cur, (row + runLen) % 2 ^ 32, out)

def decodeRle (type : ColumnType) (n : Nat) (payload : Bytes) (out : Vector) :
    Except Exc Vector := do
  let (numRuns, cur) ← getPod 4 (payload.drop (validityBytes n))
  let (_, _, out) ← (List.range numRuns).foldlM (fun st _ => decodeRun type payload st)
    (cur, 0, out)
  pure out

/-! ## Dictionary -/

/-- The dictionary under construction: where each key is, the distinct values in the order of
    their first occurrence, and the index of every value seen. -/
structure Dictionary (κ : Type) where
  lookup : KeyMap κ Nat
  dict : List Value
  indices : List UInt64

/-- Look one value up, adding it when it is new. NULL gets index 0 and no entry. -/
def Dictionary.add {κ : Type} [DecidableEq κ] (key : Value → Except Exc κ) (d : Dictionary κ)
    (v : Value) : Except Exc (Dictionary κ) :=
  if v.isNull then .ok { d with indices := d.indices ++ [0] }
  else do
    let k ← key v
    match d.lookup.find? k with
    | none =>
      let id := d.dict.length % 2 ^ 32
      pure ⟨d.lookup.insert k id, d.dict ++ [v], d.indices ++ [UInt64.ofNat id]⟩
    | some id => pure { d with indices := d.indices ++ [UInt64.ofNat id] }

/-- The distinct values and the index of every value. -/
def buildDictionary {κ : Type} [DecidableEq κ] (key : Value → Except Exc κ)
    (values : List Value) : Except Exc (List Value × List UInt64) := do
  let d ← values.foldlM (Dictionary.add key) ⟨.empty, [], []⟩
  pure (d.dict, d.indices)

/-- The `std::map` key of a fixed-width value; a `double` is keyed by its bits. -/
def fixedKey (type : ColumnType) (v : Value) : Except Exc Int64 :=
  if type = .float then do pure (← getDouble v).bits.toInt64 else getI64 v

/-- The dictionary of a column: strings are looked up by their bytes. -/
def distinctValues (type : ColumnType) (values : List Value) :
    Except Exc (List Value × List UInt64) :=
  if type = .varchar then buildDictionary getString values
  else buildDictionary (fixedKey type) values

/-- A dictionary entry on disk. -/
def putEntry (type : ColumnType) (v : Value) : Except Exc Bytes := do
  if type = .varchar then
    let s ← getString v
    pure (leBytes 4 s.length ++ s)
  else putFixed type v

def encodeDictionary (type : ColumnType) (values : List Value) : Except Exc EncodedChunk := do
  let (dict, indices) ← distinctValues type values
  let entries ← dict.mapM (putEntry type)
  let bw := if dict.isEmpty then 0 else bitsRequired (UInt64.ofNat (dict.length - 1))
  pure { encoding := .dictionary
         payload := packBits indices bw
           (writeValidity values ++ leBytes 4 dict.length ++ entries.flatten ++ leBytes 1 bw) }

/-- Read one dictionary entry. -/
def getEntry (type : ColumnType) (cur : Bytes) : Except Exc (Value × Bytes) := do
  if type = .varchar then
    let (slen, cur) ← getPod 4 cur
    if cur.length < slen then throw (.runtimeError (ofAscii "encoding: dict str underflow"))
    pure (.string (cur.take slen), cur.drop slen)
  else
    let (n, cur) ← getPod (fixedWidth type) cur
    pure (fixedValue type n, cur)

def decodeDictionary (type : ColumnType) (n : Nat) (payload : Bytes) (out : Vector) :
    Except Exc Vector := do
  let (dictCount, cur) ← getPod 4 (payload.drop (validityBytes n))
  let (dict, cur) ← (List.range dictCount).foldlM
    (fun (dict, cur) _ => do
      let (v, cur) ← getEntry type cur
      pure (dict ++ [v], cur))
    ([], cur)
  let (bw, cur) ← getPod 1 cur
  let indices ← unpackBits cur n bw
  (List.range n).foldlM
    (fun out i => do
      if ← testValidity payload i then
        match indices[i]? with
        | none => .error .undefinedBehaviour
        | some idx =>
          match dict[idx.toNat]? with
          | none => .error .undefinedBehaviour
          | some v => out.appendValue v
      else out.append .null)
    out

/-! ## Frame of reference -/

/-- The distance of a value from the frame minimum, in unsigned space. -/
def delta (minV : Int64) (v : Value) : Except Exc UInt64 :=
  if v.isNull then .ok 0 else do pure ((← getI64 v).toUInt64 - minV.toUInt64)

def encodeBitpack (values : List Value) (minV maxV : Int64) : Except Exc EncodedChunk := do
  let range := maxV.toUInt64 - minV.toUInt64
  let bw := if maxV = minV then 0 else bitsRequired range
  let deltas ← values.mapM (delta minV)
  pure { encoding := .bitpack
         payload := packBits deltas bw
           (writeValidity values ++ leBytes 8 minV.toUInt64.toNat ++ leBytes 1 bw) }

def decodeBitpack (type : ColumnType) (n : Nat) (payload : Bytes) (out : Vector) :
    Except Exc Vector := do
  let (frame, cur) ← getPod 8 (payload.drop (validityBytes n))
  let frameMin := (UInt64.ofNat frame).toInt64
  let (bw, cur) ← getPod 1 cur
  let deltas ← unpackBits cur n bw
  (List.range n).foldlM
    (fun out i => do
      if ← testValidity payload i then
        match deltas[i]? with
        | none => .error .undefinedBehaviour
        | some d =>
          let v := frameMin + d.toInt64
          if type = .int then out.append (.int32 v.toInt32) else out.append (.int64 v)
      else out.append .null)
    out

/-! ## Chunks -/

/-- Minimum, maximum and presence of the non-NULL integers, from the sentinels that any of
    them replaces. -/
def scanBounds (values : List Value) : Except Exc (Int64 × Int64 × Bool) :=
  values.foldlM
    (fun (mn, mx, any) v =>
      if v.isNull then pure (mn, mx, any)
      else do
        let x ← getI64 v
        pure (min mn x, max mx x, true))
    (Int64.maxValue, Int64.minValue, false)

/-- Encode with a specific scheme. -/
def encodeChunkWith (type : ColumnType) (values : List Value) (enc : Encoding) :
    Except Exc EncodedChunk :=
  match enc with
  | .plain => encodePlain type values
  | .rle => encodeRle type values
  | .dictionary => encodeDictionary type values
  | .bitpack => do
    let (mn, mx, any) ← scanBounds values
    if any then encodeBitpack values mn mx else encodeBitpack values 0 0

/-- The schemes `EncodeChunk` tries for a type. -/
def candidates : ColumnType → List Encoding
  | .int | .bigInt => [.plain, .rle, .dictionary, .bitpack]
  | .float => [.plain, .rle, .dictionary]
  | .varchar => [.plain, .dictionary]

/-- The smaller of the best chunk so far and a new one; the earlier one wins a tie. -/
def keepSmaller (best : Option EncodedChunk) (c : EncodedChunk) : EncodedChunk :=
  match best with
  | none => c
  | some b => if c.payload.length < b.payload.length then c else b

/-- The bounds of an integer column; other types have none. -/
def zoneBounds (type : ColumnType) (values : List Value) : Except Exc (Int64 × Int64 × Bool) :=
  if type = .int ∨ type = .bigInt then scanBounds values else .ok (0, 0, false)

/-- Encode with the scheme that yields the smallest payload, and record row and NULL counts
    and the zone map. -/
def encodeChunk (type : ColumnType) (values : List Value) : Except Exc EncodedChunk := do
  let (mn, mx, anyInt) ← zoneBounds type values
  let best ← (candidates type).foldlM
    (fun best e => do
      let c ← encodeChunkWith type values e
      pure (some (keepSmaller best c)))
    none
  match best with
  | none => .error .undefinedBehaviour
  | some c =>
    pure { c with
      numRows := values.length % 2 ^ 32
      nullCount := (values.filter Value.isNull).length % 2 ^ 32
      hasZoneMap := anyInt
      minValue := if anyInt then mn else 0
      maxValue := if anyInt then mx else 0 }

/-- Decode a payload, appending `numRows` rows to `out`. -/
def decodeChunk (type : ColumnType) (enc : Encoding) (numRows : Nat) (payload : Bytes)
    (out : Vector) : Except Exc Vector :=
  match enc with
  | .plain => decodePlain type numRows payload out
  | .rle => decodeRle type numRows payload out
  | .dictionary => decodeDictionary type numRows payload out
  | .bitpack => decodeBitpack type numRows payload out

end LiteOLAP
