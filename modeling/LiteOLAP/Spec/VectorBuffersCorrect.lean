import LiteOLAP.ForStd.List
import LiteOLAP.Native.DataChunk
import LiteOLAP.Native.VectorBuffers

/-!
# The buffers of a vector stand for a list of values

Every buffer is a function of the values that were appended since the last `Clear`: `layout` is the
state of the class for a list of values. Each operation takes the layout of a list to the layout of
the list it makes of it, so that every vector that the operations build is a layout. Below `2 ^ 32`
string bytes, where offsets are exact, each row reads as its value.

## Key results

- `VectorBuffers.Builds.eq_layout`: what the operations build is the layout of the values appended
- `VectorBuffers.represents_layout`: the rows of a layout read as its values
- `VectorBuffers.appendValue_buffers`: the buffers refine the vectors of the operators
- `VectorBuffers.builds_represents`: both together, with the operations that may throw
-/

namespace LiteOLAP

open Bytes (leBytes ofLeBytes)

namespace VectorBuffers

/-! ## The layout of a list of values -/

/-- The slot of a value in `data_`. -/
def slot : ColumnType → Value → Bytes
  | .int, .int32 v => leBytes 4 v.toUInt32.toNat
  | .bigInt, .int64 v => leBytes 8 v.toUInt64.toNat
  | .float, .double v => leBytes 8 v.bits.toNat
  | type, _ => List.replicate (fixedWidth type) 0

/-- The string bytes of a value. -/
def text : Value → Bytes
  | .string s => s
  | _ => []

/-- The bytes of all strings. -/
def texts (vs : List Value) : Bytes := vs.flatMap text

/-- Where row `i` begins in the string bytes. -/
def start (vs : List Value) (i : Nat) : Nat := (texts (vs.take i)).length

/-- The buffers for a list of values. -/
def layout (type : ColumnType) (vs : List Value) : VectorBuffers where
  type := type
  size := vs.length
  data := vs.flatMap (slot type)
  validity := vs.map fun v => if v.isNull then 0 else 1
  offsets := if type = .varchar then
      (List.range (vs.length + 1)).map fun i => UInt32.ofNat (start vs i) else []
  strbytes := texts vs

section

variable {type : ColumnType} {vs : List Value} {v : Value} {i : Nat}

theorem length_slot (type : ColumnType) (v : Value) : (slot type v).length = fixedWidth type := by
  unfold slot
  split <;> simp [fixedWidth]

theorem new_eq_layout (type : ColumnType) : new type = layout type [] := by
  cases type <;> rfl

theorem clear_eq_layout (vec : VectorBuffers) : vec.clear = layout vec.type [] := by
  obtain ⟨type, size, data, validity, offsets, strbytes⟩ := vec
  cases type <;> rfl

theorem start_append_of_le {ws : List Value} (h : i ≤ vs.length) :
    start (vs ++ ws) i = start vs i := by
  rw [start, List.take_append_of_le_length h, start]

/-- The offsets of the list with one more value. -/
theorem offsets_append (vs : List Value) (v : Value) :
    ((List.range ((vs ++ [v]).length + 1)).map fun i => UInt32.ofNat (start (vs ++ [v]) i)) =
      ((List.range (vs.length + 1)).map fun i => UInt32.ofNat (start vs i)) ++
        [UInt32.ofNat (texts vs ++ text v).length] := by
  rw [List.length_append, List.length_singleton, List.range_succ, List.map_append]
  congr 1
  · refine List.map_congr_left fun i hi => ?_
    rw [List.mem_range] at hi
    rw [start_append_of_le (by omega)]
  · simp [start, texts]

/-! ## Each operation on a layout -/

/-- A value in its slot. -/
theorem appendSlot_layout (htype : type ≠ .varchar) (hnull : v ≠ .null) (htext : text v = []) :
    (layout type vs).appendSlot (slot type v) = layout type (vs ++ [v]) := by
  simp [appendSlot, layout, htype, hnull, texts, htext]

theorem appendString_layout (s : Bytes) :
    (layout .varchar vs).appendString s = layout .varchar (vs ++ [.string s]) := by
  have hoffsets := offsets_append vs (.string s)
  simp only [appendString, layout, if_true, hoffsets]
  simp [slot, fixedWidth, texts, text, Value.isNull]

theorem appendNull_layout (type : ColumnType) :
    (layout type vs).appendNull = layout type (vs ++ [.null]) := by
  have hoffsets := offsets_append vs .null
  rw [show text .null = [] from rfl, List.append_nil] at hoffsets
  cases type with
  | varchar =>
    simp only [appendNull, reserve, layout, if_true, hoffsets]
    simp [slot, fixedWidth, texts, text, Value.isNull]
  | _ => simp [appendNull, reserve, layout, slot, fixedWidth, texts, text, Value.isNull]

/-- `AppendValue` of a value of the vector's type. -/
theorem appendValue_layout (hv : v.hasType type) :
    (layout type vs).appendValue v = .ok (layout type (vs ++ [v])) := by
  cases v with
  | null => exact congrArg Except.ok (appendNull_layout type)
  | int32 x =>
    cases type with
    | int => exact congrArg Except.ok (appendSlot_layout (v := .int32 x) (by decide) (by simp) rfl)
    | _ => cases hv
  | int64 x =>
    cases type with
    | bigInt => exact congrArg Except.ok (appendSlot_layout (v := .int64 x) (by decide) (by simp) rfl)
    | _ => cases hv
  | double x =>
    cases type with
    | float => exact congrArg Except.ok (appendSlot_layout (v := .double x) (by decide) (by simp) rfl)
    | _ => cases hv
  | string x =>
    cases type with
    | varchar => exact congrArg Except.ok (appendString_layout x)
    | _ => cases hv

/-! ## Reading a layout -/

theorem isValid_layout (hi : vs[i]? = some v) : (layout type vs).isValid i = .ok (!v.isNull) := by
  have hget : (layout type vs).validity[i]? = some (if v.isNull then 0 else 1) := by
    simp [layout, hi]
  rw [isValid, hget]
  cases v.isNull <;> rfl

variable (type) in
/-- Slot `i` is that of value `i`. -/
theorem getData_layout (hi : vs[i]? = some v) :
    (layout type vs).getData (fixedWidth type) i = .ok (ofLeBytes (slot type v)) := by
  obtain ⟨hlt, rfl⟩ := List.getElem?_eq_some_iff.1 hi
  have hwidth : ∀ s ∈ vs.map (slot type), s.length = fixedWidth type := by
    intro s hs
    obtain ⟨w, -, rfl⟩ := List.mem_map.1 hs
    exact length_slot type w
  have hdata : (layout type vs).data = (vs.map (slot type)).flatten := List.flatMap_def
  have hlength : ((vs.map (slot type)).flatten).length = vs.length * fixedWidth type := by
    rw [← List.flatMap_def, List.length_flatMap]
    simp [length_slot]
  have hle : (i + 1) * fixedWidth type ≤ vs.length * fixedWidth type :=
    Nat.mul_le_mul_right _ hlt
  rw [getData, hdata, hlength, if_pos hle, List.drop_flatten_of_length hwidth,
    List.drop_eq_getElem_cons (by simpa using hlt), List.flatten_cons, List.getElem_map,
    List.take_left' (length_slot type _)]

theorem start_succ (hi : vs[i]? = some v) : start vs (i + 1) = start vs i + (text v).length := by
  rw [start, List.take_add_one, hi, texts, List.flatMap_append, List.length_append, start, texts]
  simp

theorem start_le (vs : List Value) (i : Nat) : start vs i ≤ (texts vs).length := by
  have hsplit : texts vs = texts (vs.take i) ++ texts (vs.drop i) := by
    rw [texts, texts, texts, ← List.flatMap_append, List.take_append_drop]
  rw [hsplit, List.length_append, start]
  omega

theorem start_mono (vs : List Value) {j k : Nat} (h : j ≤ k) : start vs j ≤ start vs k := by
  have hle := start_le (vs.take k) j
  rwa [start, List.take_take, Nat.min_eq_left h] at hle

/-- Below `2 ^ 32` string bytes the offsets are exact. -/
theorem toNat_start (hbytes : (texts vs).length < 2 ^ 32) (k : Nat) :
    (UInt32.ofNat (start vs k)).toNat = start vs k := by
  have hle := start_le vs k
  rw [UInt32.toNat_ofNat']
  omega

/-- The view of row `i` is the string of value `i`, and empty for NULL. -/
theorem getStringView_layout (hbytes : (texts vs).length < 2 ^ 32) (hi : vs[i]? = some v) :
    (layout .varchar vs).getStringView i = .ok (text v) := by
  obtain ⟨hlt, -⟩ := List.getElem?_eq_some_iff.1 hi
  have hoffset : ∀ k ≤ vs.length,
      (layout .varchar vs).offsets[k]? = some (UInt32.ofNat (start vs k)) := by
    intro k hk
    simp [layout, List.getElem?_range (show k < vs.length + 1 by omega)]
  have hnat := toNat_start hbytes
  have hnext := start_succ hi
  have hend := start_le vs (i + 1)
  have hview : (UInt32.ofNat (start vs (i + 1)) - UInt32.ofNat (start vs i)).toNat =
      (text v).length := by
    have hle : UInt32.ofNat (start vs i) ≤ UInt32.ofNat (start vs (i + 1)) := by
      rw [UInt32.le_iff_toNat_le, hnat, hnat]
      omega
    rw [UInt32.toNat_sub_of_le _ _ hle, hnat, hnat]
    omega
  have hsplit : texts vs = texts (vs.take i) ++ (text v ++ texts (vs.drop (i + 1))) := by
    have hdrop : vs.drop i = v :: vs.drop (i + 1) := by
      obtain ⟨h, rfl⟩ := List.getElem?_eq_some_iff.1 hi
      exact List.drop_eq_getElem_cons h
    conv_lhs => rw [← List.take_append_drop i vs, hdrop]
    simp [texts]
  have hstrbytes : (layout .varchar vs).strbytes = texts vs := rfl
  rw [getStringView, hoffset i (by omega), hoffset (i + 1) (by omega)]
  simp only [hnat, hview, hstrbytes]
  have hstart : (texts (vs.take i)).length = start vs i := rfl
  rw [if_pos (by omega), hsplit, List.drop_left' hstart, List.take_left' rfl]

/-- Row `i` reads as value `i`. -/
theorem getValue_layout (htyped : v.hasType type) (hbytes : (texts vs).length < 2 ^ 32)
    (hi : vs[i]? = some v) : (layout type vs).getValue i = .ok v := by
  rw [getValue, isValid_layout hi, Except.ok_bind]
  have htype : (layout type vs).type = type := rfl
  cases v with
  | null => rfl
  | int32 x =>
    cases type with
    | int =>
      have hdata := getData_layout .int hi
      have hx := x.toUInt32.toNat_lt
      rw [slot, Bytes.ofLeBytes_leBytes_of_lt (by simpa using hx)] at hdata
      show (do
        let n ← (layout .int vs).getData 4 i
        pure (Value.int32 (UInt32.ofNat n).toInt32)) = _
      rw [show (layout .int vs).getData 4 i = _ from hdata, Except.ok_bind, UInt32.ofNat_toNat]
      rfl
    | _ => cases htyped
  | int64 x =>
    cases type with
    | bigInt =>
      have hdata := getData_layout .bigInt hi
      have hx := x.toUInt64.toNat_lt
      rw [slot, Bytes.ofLeBytes_leBytes_of_lt (by simpa using hx)] at hdata
      show (do
        let n ← (layout .bigInt vs).getData 8 i
        pure (Value.int64 (UInt64.ofNat n).toInt64)) = _
      rw [show (layout .bigInt vs).getData 8 i = _ from hdata, Except.ok_bind, UInt64.ofNat_toNat]
      rfl
    | _ => cases htyped
  | double x =>
    cases type with
    | float =>
      have hdata := getData_layout .float hi
      have hx := x.bits.toNat_lt
      rw [slot, Bytes.ofLeBytes_leBytes_of_lt (by simpa using hx)] at hdata
      show (do
        let n ← (layout .float vs).getData 8 i
        pure (Value.double ⟨UInt64.ofNat n⟩)) = _
      rw [show (layout .float vs).getData 8 i = _ from hdata, Except.ok_bind, UInt64.ofNat_toNat]
      rfl
    | _ => cases htyped
  | string x =>
    cases type with
    | varchar => simp [htype, getStringView_layout hbytes hi, text]
    | _ => cases htyped

/-- `AppendFrom` copies a row by its value. -/
theorem appendFrom_eq (vec src : VectorBuffers) (htype : src.type = vec.type) (i : Nat) :
    vec.appendFrom src i = src.getValue i >>= vec.appendValue := by
  rw [appendFrom, getValue]
  cases src.isValid i with
  | error e => rfl
  | ok valid =>
    cases valid with
    | false => rfl
    | true =>
      cases hvec : vec.type with
      | varchar => cases src.getStringView i <;> simp [htype, hvec, appendValue]
      | int => cases src.getData 4 i <;> simp [htype, hvec, appendValue]
      | bigInt => cases src.getData 8 i <;> simp [htype, hvec, appendValue]
      | float => cases src.getData 8 i <;> simp [htype, hvec, appendValue]

theorem appendFrom_layout {us : List Value} (htyped : v.hasType type)
    (hbytes : (texts us).length < 2 ^ 32) (hi : us[i]? = some v) :
    (layout type vs).appendFrom (layout type us) i = .ok (layout type (vs ++ [v])) := by
  rw [appendFrom_eq (layout type vs) (layout type us) rfl, getValue_layout htyped hbytes hi, Except.ok_bind,
    appendValue_layout htyped]

end

/-! ## The vectors of the operators -/

/-- The buffers of a vector as the operators see it. -/
def buffers (vec : Vector) : VectorBuffers := layout vec.type vec.values

theorem buffers_empty (type : ColumnType) : buffers (.empty type) = new type :=
  (new_eq_layout type).symm

/-- `AppendValue` on the buffers is `AppendValue` on the values, with the same exception. -/
theorem appendValue_buffers (vec : Vector) (v : Value) :
    (buffers vec).appendValue v = (vec.appendValue v).map buffers := by
  by_cases hv : v.hasType vec.type = true
  · rw [buffers, appendValue_layout hv, Vector.appendValue, if_pos hv, Vector.append, dif_pos hv]
    rfl
  · rw [Vector.appendValue, if_neg hv]
    obtain ⟨type, values, typed⟩ := vec
    cases v with
    | null => exact absurd (Value.hasType_null type) hv
    | _ => cases type <;> first | rfl | exact absurd rfl hv

/-! ## What the operations build -/

/-- A vector of the given type built by the class's operations, with the values appended since the
    last `Clear`. The source of `AppendFrom` is built in the same way, with less than `2 ^ 32`
    string bytes. -/
inductive Builds (type : ColumnType) : VectorBuffers → List Value → Prop where
  | new : Builds type (new type) []
  | appendInt32 {vec : VectorBuffers} {vs : List Value} (h : Builds type vec vs)
      (htype : type = .int) (v : Int32) : Builds type (vec.appendInt32 v) (vs ++ [.int32 v])
  | appendInt64 {vec : VectorBuffers} {vs : List Value} (h : Builds type vec vs)
      (htype : type = .bigInt) (v : Int64) : Builds type (vec.appendInt64 v) (vs ++ [.int64 v])
  | appendDouble {vec : VectorBuffers} {vs : List Value} (h : Builds type vec vs)
      (htype : type = .float) (v : Double) : Builds type (vec.appendDouble v) (vs ++ [.double v])
  | appendString {vec : VectorBuffers} {vs : List Value} (h : Builds type vec vs)
      (htype : type = .varchar) (v : Bytes) : Builds type (vec.appendString v) (vs ++ [.string v])
  | appendNull {vec : VectorBuffers} {vs : List Value} (h : Builds type vec vs) :
      Builds type vec.appendNull (vs ++ [.null])
  | appendValue {vec vec' : VectorBuffers} {vs : List Value} (h : Builds type vec vs) {v : Value}
      (hv : v.hasType type) (happend : vec.appendValue v = .ok vec') : Builds type vec' (vs ++ [v])
  | appendFrom {vec vec' src : VectorBuffers} {vs us : List Value} (h : Builds type vec vs)
      (hsrc : Builds type src us) (hbytes : (texts us).length < 2 ^ 32) {i : Nat} {v : Value}
      (hi : us[i]? = some v) (happend : vec.appendFrom src i = .ok vec') :
      Builds type vec' (vs ++ [v])
  | clear {vec : VectorBuffers} {vs : List Value} (h : Builds type vec vs) : Builds type vec.clear []

/-- The vector represents exactly these values. -/
structure Represents (type : ColumnType) (vec : VectorBuffers) (vs : List Value) : Prop where
  size : vec.size = vs.length
  value : ∀ i v, vs[i]? = some v → vec.getValue i = .ok v
  valid : ∀ i v, vs[i]? = some v → vec.isValid i = .ok (!v.isNull)
  /-- The view of a NULL row is empty. -/
  view : type = .varchar → ∀ i v, vs[i]? = some v → vec.getStringView i = .ok (text v)
  data : vec.data.length = vec.size * fixedWidth type
  offsets_length : type = .varchar → vec.offsets.length = vec.size + 1
  offsets_first : type = .varchar → vec.offsets.head? = some 0
  offsets_last : type = .varchar →
    vec.offsets.getLast?.map UInt32.toNat = some vec.strbytes.length
  offsets_sorted : type = .varchar → vec.offsets.Pairwise (· ≤ ·)

section

variable {type : ColumnType} {vec src : VectorBuffers} {vs us : List Value}

/-- What the operations build is the layout of the values appended, which have the vector's type. -/
theorem Builds.eq_layout (h : Builds type vec vs) :
    vec = layout type vs ∧ ∀ v ∈ vs, v.hasType type := by
  have happend : ∀ {vs : List Value} {v : Value}, (∀ v ∈ vs, v.hasType type) → v.hasType type →
      ∀ u ∈ vs ++ [v], u.hasType type := by
    intro vs v hvs hv u hu
    rcases List.mem_append.1 hu with hu | hu
    · exact hvs u hu
    · obtain rfl := List.mem_singleton.1 hu
      exact hv
  induction h with
  | new => exact ⟨new_eq_layout type, fun v hv => by cases hv⟩
  | appendInt32 h htype v ih =>
    obtain ⟨rfl, htyped⟩ := ih
    subst htype
    exact ⟨appendSlot_layout (v := .int32 v) (by decide) (by simp) rfl, happend htyped rfl⟩
  | appendInt64 h htype v ih =>
    obtain ⟨rfl, htyped⟩ := ih
    subst htype
    exact ⟨appendSlot_layout (v := .int64 v) (by decide) (by simp) rfl, happend htyped rfl⟩
  | appendDouble h htype v ih =>
    obtain ⟨rfl, htyped⟩ := ih
    subst htype
    exact ⟨appendSlot_layout (v := .double v) (by decide) (by simp) rfl, happend htyped rfl⟩
  | appendString h htype v ih =>
    obtain ⟨rfl, htyped⟩ := ih
    subst htype
    exact ⟨appendString_layout v, happend htyped rfl⟩
  | appendNull h ih =>
    obtain ⟨rfl, htyped⟩ := ih
    exact ⟨appendNull_layout type, happend htyped (Value.hasType_null type)⟩
  | appendValue h hv happended ih =>
    obtain ⟨rfl, htyped⟩ := ih
    rw [appendValue_layout hv] at happended
    cases happended
    exact ⟨rfl, happend htyped hv⟩
  | appendFrom h hsrc hbytes hi happended ih ihsrc =>
    obtain ⟨rfl, htyped⟩ := ih
    obtain ⟨rfl, hsrctyped⟩ := ihsrc
    have hv := hsrctyped _ (List.mem_of_getElem? hi)
    rw [appendFrom_layout hv hbytes hi] at happended
    cases happended
    exact ⟨rfl, happend htyped hv⟩
  | clear h ih =>
    obtain ⟨rfl, htyped⟩ := ih
    exact ⟨clear_eq_layout _, fun v hv => by cases hv⟩

/-- A layout represents its values while offsets are exact. -/
theorem represents_layout (htyped : ∀ v ∈ vs, v.hasType type) (hbytes : (texts vs).length < 2 ^ 32) :
    Represents type (layout type vs) vs where
  size := rfl
  value i v hi := getValue_layout (htyped v (List.mem_of_getElem? hi)) hbytes hi
  valid i v hi := isValid_layout hi
  view htype i v hi := by
    subst htype
    exact getStringView_layout hbytes hi
  data := by simp [layout, List.length_flatMap, length_slot]
  offsets_length htype := by simp [layout, htype]
  offsets_first htype := by simp [layout, htype, List.range_succ_eq_map, start, texts]
  offsets_last htype := by
    have hend : start vs vs.length = (texts vs).length := by rw [start, List.take_length]
    simpa [layout, htype, List.getLast?_range, hend] using hbytes
  offsets_sorted htype := by
    simp only [layout, htype, if_true]
    refine List.pairwise_map.2 (List.pairwise_lt_range.imp fun {i j} hij => ?_)
    rw [UInt32.le_iff_toNat_le, toNat_start hbytes, toNat_start hbytes]
    exact start_mono vs (Nat.le_of_lt hij)

/-- Every vector that the operations build with less than `2 ^ 32` string bytes represents the
    values appended since the last `Clear`, and takes values of its type and rows of such vectors. -/
theorem builds_represents (h : Builds type vec vs) (hbytes : (texts vs).length < 2 ^ 32) :
    Represents type vec vs ∧
      (∀ v : Value, v.hasType type → ∃ vec', vec.appendValue v = .ok vec') ∧
      ∀ src us, Builds type src us → (texts us).length < 2 ^ 32 → ∀ i < us.length,
        ∃ vec', vec.appendFrom src i = .ok vec' := by
  obtain ⟨rfl, htyped⟩ := h.eq_layout
  refine ⟨represents_layout htyped hbytes, fun v hv => ⟨_, appendValue_layout hv⟩,
    fun src us hsrc hsrcbytes i hi => ?_⟩
  obtain ⟨rfl, hsrctyped⟩ := hsrc.eq_layout
  exact ⟨_, appendFrom_layout (hsrctyped _ (List.getElem_mem hi)) hsrcbytes
    (List.getElem?_eq_getElem hi)⟩

/-- A `VARCHAR` vector with a string and a NULL copied from another one. -/
theorem builds_represents_two :
    Represents .varchar (((new .varchar).appendString [97, 98]).appendNull)
        [.string [97, 98], .null] ∧
      (∀ v : Value, v.hasType .varchar → ∃ vec',
        (((new .varchar).appendString [97, 98]).appendNull).appendValue v = .ok vec') ∧
      ∀ src us, Builds .varchar src us → (texts us).length < 2 ^ 32 → ∀ i < us.length,
        ∃ vec', (((new .varchar).appendString [97, 98]).appendNull).appendFrom src i = .ok vec' := by
  have hstring : Builds .varchar ((new .varchar).appendString [97, 98]) [.string [97, 98]] :=
    .appendString .new rfl _
  have hsource : Builds .varchar (new .varchar).appendNull [.null] := .appendNull .new
  refine builds_represents (.appendFrom (i := 0) hstring hsource (by simp [texts, text]) rfl rfl) ?_
  simp [texts, text]

end

end VectorBuffers

end LiteOLAP
