import LiteOLAP.ForStd.List
import LiteOLAP.Spec.BitPackingCorrect

/-!
# Column chunks decode to what was encoded

Each encoder of `compression/encoding.cpp` is inverted by its decoder on every column of values
of its type, NULLs included. The four proofs share the row loop: a decoder whose step `i`
appends value `i` appends the whole column.

## Key results

- `decodeChunk_encodeChunkWith`: the round trip, for every type and every encoding tried for it
- `encodeChunk_spec`, `decodeChunk_encodeChunk`: the chunk the chooser keeps is a smallest of
  these, with correct counts and zone map
- `scanBounds_spec`: the zone map bounds every non-NULL value
-/

namespace LiteOLAP

open Bytes (leBytes ofLeBytes)

/-! ## Cursors -/

theorem getPod_leBytes {w n : Nat} (h : n < 256 ^ w) (rest : Bytes) :
    getPod w (leBytes w n ++ rest) = .ok (n, rest) := by
  simp [getPod, List.take_left', List.drop_left', Bytes.ofLeBytes_leBytes_of_lt h]

theorem load_leBytes {w n : Nat} (h : n < 256 ^ w) (rest : Bytes) :
    load w (leBytes w n ++ rest) = .ok n := by
  simp [load, List.take_left', Bytes.ofLeBytes_leBytes_of_lt h]

/-! ## The row loop -/

/-- The call returns `out` with `vs` appended. -/
def Appended (out : Vector) (vs : List Value) (r : Except Exc Vector) : Prop :=
  ∃ out', r = .ok out' ∧ out'.type = out.type ∧ out'.values = out.values ++ vs

theorem append_appended {out : Vector} {v : Value} (h : v.hasType out.type = true) :
    Appended out [v] (out.append v) :=
  ⟨_, dif_pos h, rfl, rfl⟩

/-- A loop whose step `i` appends value `i` appends them all. -/
theorem foldlM_appended {f : Vector → Nat → Except Exc Vector} {vs : List Value} {out : Vector}
    (h : ∀ i (hi : i < vs.length) (st : Vector), st.type = out.type →
      Appended st [vs[i]] (f st i)) :
    Appended out vs ((List.range vs.length).foldlM f out) := by
  have hrun := Except.foldlM_ok (f := f) (l := List.range vs.length) (s := out)
    (fun done st => st.type = out.type ∧
      st.values = out.values ++ done.map fun i => vs.getD i .null) ?_ (by simp)
  · obtain ⟨out', hout', htype, hvalues⟩ := hrun
    exact ⟨out', hout', htype, by rw [hvalues, ← List.eq_map_range]⟩
  · rintro done i st hi ⟨htype, hvalues⟩
    have hlt : i < vs.length := List.mem_range.mp hi
    obtain ⟨st', hst', htype', hvalues'⟩ := h i hlt st htype
    exact ⟨st', hst', by rw [htype', htype], by simp [hvalues', hvalues, hlt]⟩

/-- A row is appended as its bitmap bit and its slot say. -/
theorem appendSlot_appended {validity : Bytes} {i : Nat} {slot : Except Exc Value} {out : Vector}
    {v : Value} (hvalid : testValidity validity i = .ok (!v.isNull))
    (htyped : v.hasType out.type = true) (hslot : v ≠ .null → slot = .ok v) :
    Appended out [v] (appendSlot validity i slot out) := by
  by_cases hv : v = .null
  · subst hv
    simpa [appendSlot, hvalid, Value.isNull] using append_appended htyped
  · have hnull : v.isNull = false := by simpa using hv
    simpa [appendSlot, hvalid, hnull, hslot hv] using append_appended htyped

/-- The payload past its bitmap. -/
theorem drop_validity (vs : List Value) (rest : Bytes) :
    (writeValidity vs ++ rest).drop (validityBytes vs.length) = rest :=
  List.drop_left' (length_writeValidity vs)

/-! ## Fixed-width slots -/

/-- A slot determines its value. -/
theorem putFixed_spec {t : ColumnType} {v : Value} (ht : t ≠ .varchar)
    (hv : v.hasType t = true) (hnull : v ≠ .null) :
    ∃ n, n < 256 ^ fixedWidth t ∧ putFixed t v = .ok (leBytes (fixedWidth t) n) ∧
      fixedValue t n = v := by
  cases t with
  | varchar => exact absurd rfl ht
  | int =>
    cases v <;> simp [Value.hasType] at hv hnull
    case int32 v => exact ⟨v.toUInt32.toNat, by simpa [fixedWidth] using v.toUInt32.toNat_lt,
      by simp [putFixed, getI64, fixedWidth], by simp [fixedValue]⟩
  | bigInt =>
    cases v <;> simp [Value.hasType] at hv hnull
    case int64 v => exact ⟨v.toUInt64.toNat, by simpa [fixedWidth] using v.toUInt64.toNat_lt,
      by simp [putFixed, getI64, fixedWidth], by simp [fixedValue]⟩
  | float =>
    cases v <;> simp [Value.hasType] at hv hnull
    case double v => exact ⟨v.bits.toNat, by simpa [fixedWidth] using v.bits.toNat_lt,
      by simp [putFixed, getDouble, fixedWidth], by simp [fixedValue]⟩

/-- What a plain slot holds. -/
private def SlotHolds (t : ColumnType) (v : Value) (slot : Bytes) : Prop :=
  slot.length = fixedWidth t ∧ (v ≠ .null → fixedValue t (ofLeBytes slot) = v)

private theorem plainSlot_spec {t : ColumnType} {v : Value} (ht : t ≠ .varchar)
    (hv : v.hasType t = true) : ∃ slot, plainSlot t v = .ok slot ∧ SlotHolds t v slot := by
  by_cases hnull : v = .null
  · exact ⟨List.replicate (fixedWidth t) 0, by simp [plainSlot, hnull, Value.isNull],
      by simp, fun h => absurd hnull h⟩
  · obtain ⟨n, hn, hput, hvalue⟩ := putFixed_spec ht hv hnull
    have hv' : v.isNull = false := by simpa using hnull
    exact ⟨leBytes (fixedWidth t) n, by simp [plainSlot, hv', hput], by simp,
      fun _ => by rw [Bytes.ofLeBytes_leBytes_of_lt hn, hvalue]⟩

/-- Plain slots decode to the column. -/
theorem decodePlain_encodePlain_fixed {t : ColumnType} {vs : List Value} (ht : t ≠ .varchar)
    (htyped : ∀ v ∈ vs, v.hasType t = true) :
    ∃ c, encodePlain t vs = .ok c ∧ ∀ out : Vector, out.type = t →
      Appended out vs (decodePlain t vs.length c.payload out) := by
  obtain ⟨slots, hslots, hall⟩ := List.exists_mapM_forall₂ (f := plainSlot t) (R := SlotHolds t)
    fun v hv => plainSlot_spec ht (htyped v hv)
  refine ⟨{ encoding := .plain, payload := writeValidity vs ++ slots.flatten }, by
    simp [encodePlain, ht, hslots], fun out hout => ?_⟩
  obtain ⟨hlen, hget⟩ := List.forall₂_iff_get.mp hall
  have hwidth : ∀ s ∈ slots, s.length = fixedWidth t := by
    intro s hs
    obtain ⟨i, hi, rfl⟩ := List.mem_iff_getElem.mp hs
    exact (hget i (by omega) hi).1
  simp only [decodePlain, if_neg ht, drop_validity]
  refine foldlM_appended fun i hi st hst => ?_
  have hi' : i < slots.length := by omega
  obtain ⟨hslot, hvalue⟩ := hget i hi hi'
  simp only [List.get_eq_getElem] at hslot hvalue
  have hdrop : slots.flatten.drop (i * fixedWidth t) = slots[i] ++ (slots.drop (i + 1)).flatten := by
    rw [List.drop_flatten_of_length hwidth, List.drop_eq_getElem_cons hi', List.flatten_cons]
  have hnot : ¬ (slots.flatten.drop (i * fixedWidth t)).length < fixedWidth t := by
    rw [hdrop, List.length_append]
    omega
  rw [if_neg hnot, hdrop, List.take_left' hslot]
  simp only [Except.pure_eq_ok]
  exact appendSlot_appended (testValidity_writeValidity hi _)
    (by rw [hst, hout]; exact htyped _ (List.getElem_mem hi)) fun hne => by rw [hvalue hne]

/-! ## Strings -/

/-- The bytes a string value takes; any other value takes none. -/
def stringBytes : Value → Bytes
  | .string s => s
  | _ => []

theorem string_stringBytes {v : Value} (hv : v.hasType .varchar = true) (hnull : v ≠ .null) :
    Value.string (stringBytes v) = v := by
  cases v <;> simp [Value.hasType, stringBytes] at hv hnull ⊢

/-- The bytes of all string values, in order. -/
def strings (vs : List Value) : Bytes := vs.flatMap stringBytes

@[simp] theorem strings_nil : strings [] = [] := rfl

@[simp] theorem strings_append (vs ws : List Value) :
    strings (vs ++ ws) = strings vs ++ strings ws := List.flatMap_append

/-- Offset `k` of the plain layout: where the string of row `k` starts. -/
private def offset (vs : List Value) (k : Nat) : Nat := (strings (vs.take k)).length % 2 ^ 32

private theorem map_offset_append (vs : List Value) (v : Value) :
    (List.range (vs.length + 1 + 1)).map (offset (vs ++ [v])) =
      (List.range (vs.length + 1)).map (offset vs) ++ [(strings (vs ++ [v])).length % 2 ^ 32] := by
  rw [List.range_succ, List.map_append, List.map_singleton]
  congr 1
  · apply List.map_congr_left
    intro k hk
    have hle : k ≤ vs.length := by have := List.mem_range.mp hk; omega
    rw [offset, offset, List.take_append_of_le_length hle]
  · rw [offset, List.take_of_length_le (by simp)]

private theorem plainStrings_spec {vs : List Value} (htyped : ∀ v ∈ vs, v.hasType .varchar = true) :
    plainStrings vs = .ok ((List.range (vs.length + 1)).map (offset vs), strings vs) := by
  obtain ⟨⟨cur, offsets, bytes⟩, hrun, -, hoffsets, hbytes⟩ := Except.foldlM_ok
    (f := fun (st : Nat × List Nat × Bytes) v =>
      if v.isNull then (pure (st.1, st.2.1 ++ [st.1], st.2.2) : Except Exc _)
      else do
        let s ← getString v
        pure ((st.1 + s.length) % 2 ^ 32, st.2.1 ++ [(st.1 + s.length) % 2 ^ 32], st.2.2 ++ s))
    (l := vs) (s := (0, [0], []))
    (fun done st => st.1 = (strings done).length % 2 ^ 32 ∧
      st.2.1 = (List.range (done.length + 1)).map (offset done) ∧ st.2.2 = strings done)
    (by
      rintro done v ⟨cur, offsets, bytes⟩ hv ⟨rfl, rfl, rfl⟩
      have hmap := map_offset_append done v
      cases v with
      | null => exact ⟨_, rfl, by simp [strings, stringBytes], by
          simp [hmap, strings, stringBytes], by simp [strings, stringBytes]⟩
      | string s => exact ⟨_, rfl, by simp [strings, stringBytes], by
          simp [hmap, strings, stringBytes], by simp [strings, stringBytes]⟩
      | int32 _ => cases htyped _ hv
      | int64 _ => cases htyped _ hv
      | double _ => cases htyped _ hv)
    (by simp [offset])
  simp only at hoffsets hbytes
  subst hoffsets hbytes
  exact Except.bind_eq_ok.mpr ⟨_, hrun, rfl⟩

private theorem load_offset {offsets : List Nat} {i : Nat} (hi : i < offsets.length)
    (hlt : offsets[i] < 2 ^ 32) (rest : Bytes) :
    load 4 ((offsets.flatMap (leBytes 4) ++ rest).drop (i * 4)) = .ok offsets[i] := by
  have hlen : ∀ l ∈ offsets.map (leBytes 4), l.length = 4 := by simp
  have hle : i * 4 ≤ (offsets.flatMap (leBytes 4)).length := by
    simp only [List.length_flatMap, Bytes.length_leBytes, List.map_const', List.sum_replicate,
      smul_eq_mul]
    omega
  rw [List.drop_append_of_le_length hle, List.flatMap_def, List.drop_flatten_of_length hlen,
    ← List.map_drop, List.drop_eq_getElem_cons hi, List.map_cons, List.flatten_cons,
    List.append_assoc]
  exact load_leBytes (by simpa using hlt) _

/-- Plain strings decode to the column. -/
theorem decodePlain_encodePlain_varchar {vs : List Value}
    (htyped : ∀ v ∈ vs, v.hasType .varchar = true) :
    ∃ c, encodePlain .varchar vs = .ok c ∧ (c.payload.length < 2 ^ 32 →
      ∀ out : Vector, out.type = .varchar →
        Appended out vs (decodePlain .varchar vs.length c.payload out)) := by
  refine ⟨{ encoding := .plain
            payload := writeValidity vs ++
              ((List.range (vs.length + 1)).map (offset vs)).flatMap (leBytes 4) ++ strings vs },
    by simp [encodePlain, plainStrings_spec htyped], fun hpayload out hout => ?_⟩
  generalize hoffs : (List.range (vs.length + 1)).map (offset vs) = offsets at *
  have hlen : offsets.length = vs.length + 1 := by simp [← hoffs]
  have hbase : (offsets.flatMap (leBytes 4)).length = (vs.length + 1) * 4 := by
    simp [List.length_flatMap, hlen]
  simp only [List.length_append, hbase] at hpayload
  have hbytes : (strings vs).length < 2 ^ 32 := by omega
  have hwrap : (vs.length + 1) % 2 ^ 32 = vs.length + 1 := Nat.mod_eq_of_lt (by omega)
  simp only [decodePlain, if_true, List.append_assoc, drop_validity, hwrap]
  rw [List.drop_left' hbase]
  refine foldlM_appended fun i hi st hst => ?_
  refine appendSlot_appended (testValidity_writeValidity hi _)
    (by rw [hst, hout]; exact htyped _ (List.getElem_mem hi)) fun hne => ?_
  -- row `i` is the string between the strings before it and those after it
  have hsplit : strings vs =
      strings (vs.take i) ++ (stringBytes vs[i] ++ strings (vs.drop (i + 1))) := by
    conv_lhs => rw [← List.take_append_drop i vs, List.drop_eq_getElem_cons hi]
    rw [strings_append]
    rfl
  have hbegin : offset vs i = (strings (vs.take i)).length := by
    rw [offset, Nat.mod_eq_of_lt]
    rw [hsplit, List.length_append] at hbytes
    omega
  have hend : offset vs (i + 1) = (strings (vs.take i)).length + (stringBytes vs[i]).length := by
    rw [offset, List.take_succ_eq_append_getElem hi, strings_append, List.length_append]
    simp only [strings, List.flatMap_cons, List.flatMap_nil, List.append_nil]
    rw [Nat.mod_eq_of_lt]
    rw [hsplit, List.length_append, List.length_append] at hbytes
    simp only [strings] at hbytes
    omega
  have hget : ∀ k (hk : k < offsets.length), offsets[k] = offset vs k := by
    subst hoffs
    intro k hk
    simp
  have hload : ∀ k, k ≤ vs.length →
      load 4 ((offsets.flatMap (leBytes 4) ++ strings vs).drop (k * 4)) = .ok (offset vs k) := by
    intro k hk
    have hk' : k < offsets.length := by omega
    rw [load_offset hk' (by rw [hget]; exact Nat.mod_lt _ (by decide)), hget]
  rw [plainString, hload i (by omega), hload (i + 1) (by omega)]
  have hdiff : (offset vs (i + 1) + 2 ^ 32 - offset vs i) % 2 ^ 32 = (stringBytes vs[i]).length := by
    rw [hbegin, hend]
    rw [hsplit, List.length_append, List.length_append] at hbytes
    omega
  have hdrop : (strings vs).drop (offset vs i) =
      stringBytes vs[i] ++ strings (vs.drop (i + 1)) := by
    conv_lhs => rw [hsplit, hbegin]
    exact List.drop_left
  rw [Except.ok_bind, Except.ok_bind, hdiff, viewString, hdrop, if_neg (by simp), List.take_left,
    string_stringBytes (htyped _ (List.getElem_mem hi)) hne]

/-! ## Runs -/

/-- The slots the runs stand for. -/
private def expand (runs : List (UInt64 × Nat)) : List UInt64 :=
  runs.flatMap fun run => List.replicate run.2 run.1

private theorem expand_rleRuns (slots : List UInt64) : expand (rleRuns slots) = slots := by
  fun_induction rleRuns slots with
  | case1 => rfl
  | case2 v rest ih =>
    have hrun : List.replicate (rest.takeWhile (· == v)).length v = rest.takeWhile (· == v) := by
      refine (List.eq_replicate_iff.mpr ⟨rfl, fun x hx => ?_⟩).symm
      simpa using List.mem_takeWhile_imp hx
    simp only [expand, List.flatMap_cons] at ih ⊢
    rw [ih, List.replicate_succ, hrun, List.cons_append, List.takeWhile_append_dropWhile]

private theorem length_rleRuns_le (slots : List UInt64) :
    (rleRuns slots).length ≤ slots.length := by
  fun_induction rleRuns slots with
  | case1 => simp
  | case2 v rest ih =>
    have hle := (List.dropWhile_sublist (l := rest) (· == v)).length_le
    simp only [List.length_cons]
    omega

/-- The slot of a value reads back as the value. -/
private def SlotBitsHold (t : ColumnType) (v : Value) (bits : UInt64) : Prop :=
  v ≠ .null → runValue t bits = v

private theorem toInt32_toUInt32 (v : Int64) : v.toUInt64.toUInt32.toInt32 = v.toInt32 := by
  apply Int32.toBitVec_inj.mp
  simp [BitVec.signExtend_eq_setWidth_of_le]

private theorem slotBits_spec {t : ColumnType} {v : Value} (ht : t ≠ .varchar)
    (hv : v.hasType t = true) : ∃ bits, slotBits t v = .ok bits ∧ SlotBitsHold t v bits := by
  cases v with
  | null => exact ⟨0, rfl, fun h => absurd rfl h⟩
  | string s => cases t <;> simp [Value.hasType] at hv ht
  | int32 v =>
    cases t <;> simp [Value.hasType] at hv
    exact ⟨v.toInt64.toUInt64, rfl, fun _ => by
      rw [runValue, toInt32_toUInt32, Int32.toInt32_toInt64]⟩
  | int64 v =>
    cases t <;> simp [Value.hasType] at hv
    exact ⟨v.toUInt64, rfl, fun _ => by simp [runValue]⟩
  | double v =>
    cases t <;> simp [Value.hasType] at hv
    exact ⟨v.bits, rfl, fun _ => rfl⟩

/-- A slot read back from four sign-extended bytes, or from eight, holds the same value. -/
private theorem getRunBits_putRun {t : ColumnType} (run : UInt64 × Nat) (rest : Bytes) :
    ∃ bits, getRunBits t (putRun t run ++ rest) = .ok (bits, leBytes 4 run.2 ++ rest) ∧
      runValue t bits = runValue t run.1 := by
  obtain ⟨v, len⟩ := run
  have hfour : v.toUInt32.toNat < 256 ^ 4 := by simpa using v.toUInt32.toNat_lt
  have height : v.toNat < 256 ^ 8 := by simpa using v.toNat_lt
  have hwide : getPod 8 (leBytes 8 v.toNat ++ (leBytes 4 len ++ rest)) = _ :=
    getPod_leBytes height _
  cases t with
  | int =>
    refine ⟨v.toUInt32.toInt32.toInt64.toUInt64, ?_, ?_⟩
    · simp only [getRunBits, putRun, fixedWidth, if_true, List.append_assoc,
        getPod_leBytes hfour, Except.ok_bind, Except.pure_eq_ok, UInt32.ofNat_toNat]
    · simp only [runValue, toInt32_toUInt32, Int32.toInt32_toInt64]
  | bigInt => exact ⟨v, by simp [getRunBits, putRun, fixedWidth, hwide], rfl⟩
  | float => exact ⟨v, by simp [getRunBits, putRun, fixedWidth, hwide], rfl⟩
  | varchar => exact ⟨v, by simp [getRunBits, putRun, fixedWidth, hwide], rfl⟩

/-- What `DecodeRle` has done before the given runs: it has appended the first `row` values,
    and the runs hold the slots of the others. -/
private structure RunsLeft (t : ColumnType) (vs : List Value) (out : Vector)
    (runs : List (UInt64 × Nat)) (st : Bytes × Nat × Vector) : Prop where
  cursor : st.1 = runs.flatMap (putRun t)
  row_le : st.2.1 ≤ vs.length
  type : st.2.2.type = out.type
  values : st.2.2.values = out.values ++ vs.take st.2.1
  slots : List.Forall₂ (SlotBitsHold t) (vs.drop st.2.1) (expand runs)

/-- One run appends the values it covers. -/
private theorem decodeRun_spec {t : ColumnType} {vs : List Value} {out : Vector}
    (htyped : ∀ v ∈ vs, v.hasType t = true) (hrows : vs.length < 2 ^ 32) (hout : out.type = t)
    (body : Bytes) {run : UInt64 × Nat} {runs : List (UInt64 × Nat)} {st : Bytes × Nat × Vector}
    (hinv : RunsLeft t vs out (run :: runs) st) :
    ∃ st', decodeRun t (writeValidity vs ++ body) st = .ok st' ∧ RunsLeft t vs out runs st' := by
  obtain ⟨cur, row, acc⟩ := st
  obtain ⟨hcur, hrow, htype, hvalues, hslots⟩ := hinv
  simp only at hcur hrow htype hvalues hslots
  have hexpand : expand (run :: runs) = List.replicate run.2 run.1 ++ expand runs := rfl
  rw [hexpand] at hslots
  have hlen : run.2 ≤ (vs.drop row).length := by
    rw [hslots.length_eq, List.length_append, List.length_replicate]
    omega
  have hhere := List.forall₂_take_append _ _ _ hslots
  have hthere := List.forall₂_drop_append _ _ _ hslots
  rw [List.length_replicate] at hhere hthere
  rw [List.drop_drop] at hthere
  rw [List.length_drop] at hlen
  obtain ⟨bits, hbits, hvalue⟩ := getRunBits_putRun (t := t) run (runs.flatMap (putRun t))
  have hpod : getPod 4 (leBytes 4 run.2 ++ runs.flatMap (putRun t)) =
      .ok (run.2, runs.flatMap (putRun t)) := by
    apply getPod_leBytes
    simp only [Nat.reducePow] at hrows ⊢
    omega
  have hrowlen : ((vs.drop row).take run.2).length = run.2 := by simp; omega
  have hwrap : ∀ k, k ≤ run.2 → (row + k) % 2 ^ 32 = row + k := fun k hk =>
    Nat.mod_eq_of_lt (by omega)
  obtain ⟨acc', hacc', htype', hvalues'⟩ := @foldlM_appended
    (fun out k => appendSlot (writeValidity vs ++ body) ((row + k) % 2 ^ 32)
      (.ok (runValue t bits)) out) ((vs.drop row).take run.2) acc
    fun k hk st hst => by
      rw [hrowlen] at hk
      have hk' : row + k < vs.length := by omega
      have hget : k < ((vs.drop row).take run.2).length := by omega
      have hval : ((vs.drop row).take run.2)[k] = vs[row + k] := by simp
      rw [hval, hwrap k (by omega)]
      refine appendSlot_appended (testValidity_writeValidity hk' body)
        (by rw [hst, htype, hout]; exact htyped _ (List.getElem_mem hk')) fun hne => ?_
      have hslot := (List.forall₂_iff_get.mp hhere).2 k (by omega) (by simpa using hk)
      simp only [List.get_eq_getElem, List.getElem_replicate, hval] at hslot
      rw [hvalue, hslot hne]
  refine ⟨(runs.flatMap (putRun t), (row + run.2) % 2 ^ 32, acc'), ?_, ?_⟩
  · rw [hrowlen] at hacc'
    simp only [decodeRun, hcur, List.flatMap_cons, hbits, Except.ok_bind, hpod,
      Except.pure_eq_ok, hacc']
  · rw [hwrap run.2 (Nat.le_refl _)]
    refine ⟨rfl, by simp only; omega, by rw [htype', htype], ?_, hthere⟩
    rw [hvalues', hvalues, List.append_assoc, ← List.take_add]

/-- Runs decode to the column. -/
theorem decodeRle_encodeRle {t : ColumnType} {vs : List Value} (ht : t ≠ .varchar)
    (htyped : ∀ v ∈ vs, v.hasType t = true) (hrows : vs.length < 2 ^ 32) :
    ∃ c, encodeRle t vs = .ok c ∧ ∀ out : Vector, out.type = t →
      Appended out vs (decodeRle t vs.length c.payload out) := by
  obtain ⟨slots, hslots, hall⟩ := List.exists_mapM_forall₂ (f := slotBits t) (R := SlotBitsHold t)
    fun v hv => slotBits_spec ht (htyped v hv)
  refine ⟨{ encoding := .rle
            payload := writeValidity vs ++ leBytes 4 (rleRuns slots).length ++
              (rleRuns slots).flatMap (putRun t) }, by
    simp [encodeRle, hslots], fun out hout => ?_⟩
  have hcount : (rleRuns slots).length < 256 ^ 4 := by
    have hle := length_rleRuns_le slots
    have hlen := hall.length_eq
    simp only [Nat.reducePow] at hrows ⊢
    omega
  obtain ⟨⟨cur, row, acc⟩, hrun, -, hrow, htype, hvalues, hleft⟩ := Except.foldlM_items
    (RunsLeft t vs out)
    (fun run runs st hinv => decodeRun_spec htyped hrows hout
      (leBytes 4 (rleRuns slots).length ++ (rleRuns slots).flatMap (putRun t)) hinv)
    (l := List.range (rleRuns slots).length) (List.length_range (n := (rleRuns slots).length))
    (s := ((rleRuns slots).flatMap (putRun t), 0, out))
    ⟨rfl, Nat.zero_le _, rfl, by simp, by simpa [expand_rleRuns] using hall⟩
  simp only [expand, List.flatMap_nil, List.forall₂_nil_right_iff, List.drop_eq_nil_iff] at hleft
  refine ⟨acc, ?_, htype, by rw [hvalues, List.take_of_length_le hleft]⟩
  simp only [decodeRle, List.append_assoc, drop_validity, getPod_leBytes hcount, Except.ok_bind,
    hrun, Except.pure_eq_ok]

/-! ## Dictionary -/

private theorem getElem?_concat {α : Type} {l : List α} {a b : α} {i : Nat} :
    (l ++ [a])[i]? = some b ↔ l[i]? = some b ∨ (i = l.length ∧ a = b) := by
  rcases Nat.lt_trichotomy i l.length with hlt | rfl | hgt
  · rw [List.getElem?_append_left hlt]
    simp [show i ≠ l.length by omega]
  · simp
  · rw [List.getElem?_eq_none (by simp; omega), List.getElem?_eq_none (by omega)]
    simp [show i ≠ l.length by omega]

/-- The distinct values `dict` and the indices into it stand for `vs`. -/
private structure Indexes (vs dict : List Value) (indices : List UInt64) : Prop where
  length : indices.length = vs.length
  dict_le : dict.length ≤ vs.length
  mem : ∀ v ∈ dict, v ∈ vs ∧ v ≠ Value.null
  bound : ∀ idx ∈ indices, UInt64.toNat idx ≤ dict.length - 1
  index : ∀ (i : Nat) (v : Value), vs[i]? = some v → v ≠ .null →
    ∃ idx, indices[i]? = some idx ∧ dict[idx.toNat]? = some v

/-- A NULL gets index 0. -/
private theorem Indexes.add_null {vs dict : List Value} {indices : List UInt64}
    (h : Indexes vs dict indices) : Indexes (vs ++ [.null]) dict (indices ++ [0]) where
  length := by simp [h.length]
  dict_le := by
    have := h.dict_le
    simp only [List.length_append, List.length_singleton]
    omega
  mem v hv := ⟨List.mem_append_left _ (h.mem v hv).1, (h.mem v hv).2⟩
  bound idx hidx := by
    rcases List.mem_append.mp hidx with hidx | hidx
    · exact h.bound idx hidx
    · rw [List.mem_singleton.mp hidx]
      exact Nat.zero_le _
  index i v hi hne := by
    rcases getElem?_concat.mp hi with hi | ⟨-, rfl⟩
    · obtain ⟨idx, hidx, hdict⟩ := h.index i v hi hne
      exact ⟨idx, getElem?_concat.mpr (.inl hidx), hdict⟩
    · exact absurd rfl hne

/-- A known value gets the index of its entry. -/
private theorem Indexes.add_old {vs dict : List Value} {indices : List UInt64}
    (h : Indexes vs dict indices) {v : Value} {idx : UInt64} (hv : dict[idx.toNat]? = some v) :
    Indexes (vs ++ [v]) dict (indices ++ [idx]) where
  length := by simp [h.length]
  dict_le := by
    have := h.dict_le
    simp only [List.length_append, List.length_singleton]
    omega
  mem w hw := ⟨List.mem_append_left _ (h.mem w hw).1, (h.mem w hw).2⟩
  bound idx' hidx := by
    rcases List.mem_append.mp hidx with hidx | hidx
    · exact h.bound idx' hidx
    · rw [List.mem_singleton.mp hidx]
      obtain ⟨hlt, -⟩ := List.getElem?_eq_some_iff.mp hv
      omega
  index i w hi hne := by
    rcases getElem?_concat.mp hi with hi | ⟨rfl, rfl⟩
    · obtain ⟨idx', hidx, hdict⟩ := h.index i w hi hne
      exact ⟨idx', getElem?_concat.mpr (.inl hidx), hdict⟩
    · exact ⟨idx, getElem?_concat.mpr (.inr ⟨h.length.symm, rfl⟩), hv⟩

/-- A new value adds an entry. -/
private theorem Indexes.add_new {vs dict : List Value} {indices : List UInt64}
    (h : Indexes vs dict indices) {v : Value} (hnull : v ≠ .null) {idx : UInt64}
    (hidx : idx.toNat = dict.length) :
    Indexes (vs ++ [v]) (dict ++ [v]) (indices ++ [idx]) where
  length := by simp [h.length]
  dict_le := by simpa using h.dict_le
  mem w hw := by
    rcases List.mem_append.mp hw with hw | hw
    · exact ⟨List.mem_append_left _ (h.mem w hw).1, (h.mem w hw).2⟩
    · rw [List.mem_singleton.mp hw]
      exact ⟨by simp, hnull⟩
  bound idx' hidx' := by
    rw [List.length_append, List.length_singleton, Nat.add_sub_cancel]
    rcases List.mem_append.mp hidx' with hidx' | hidx'
    · have := h.bound idx' hidx'
      omega
    · rw [List.mem_singleton.mp hidx', hidx]
  index i w hi hne := by
    rcases getElem?_concat.mp hi with hi | ⟨rfl, rfl⟩
    · obtain ⟨idx', hidx', hdict⟩ := h.index i w hi hne
      exact ⟨idx', getElem?_concat.mpr (.inl hidx'), getElem?_concat.mpr (.inl hdict)⟩
    · exact ⟨idx, getElem?_concat.mpr (.inr ⟨h.length.symm, rfl⟩),
        getElem?_concat.mpr (.inr ⟨hidx, rfl⟩)⟩

section

variable {κ : Type} [DecidableEq κ] {key : Value → Except Exc κ} {t : ColumnType}

/-- The lookup table finds the entry that has the key. -/
private def Finds (key : Value → Except Exc κ) (d : Dictionary κ) : Prop :=
  ∀ k id, d.lookup.find? k = some id → id < 2 ^ 32 ∧ ∃ v, d.dict[id]? = some v ∧ key v = .ok k

variable (hkey : ∀ v : Value, v.hasType t = true → v ≠ .null → ∃ k, key v = .ok k)
  (hinj : ∀ (v w : Value) k, v.hasType t = true → w.hasType t = true → v ≠ .null → w ≠ .null →
    key v = .ok k → key w = .ok k → v = w)

include hkey hinj

/-- Looking up one more value keeps the dictionary in step with the values seen. -/
private theorem add_spec {vs : List Value} {d : Dictionary κ}
    (htyped : ∀ v ∈ vs, v.hasType t = true) (hrows : vs.length < 2 ^ 32)
    (hfinds : Finds key d) (hd : Indexes vs d.dict d.indices) {v : Value}
    (hv : v.hasType t = true) :
    ∃ d', d.add key v = .ok d' ∧ Finds key d' ∧ Indexes (vs ++ [v]) d'.dict d'.indices := by
  by_cases hnull : v = .null
  · subst hnull
    exact ⟨{ d with indices := d.indices ++ [0] }, rfl, hfinds, hd.add_null⟩
  · obtain ⟨k, hk⟩ := hkey v hv hnull
    have hnull' : v.isNull = false := by simpa using hnull
    cases hfind : d.lookup.find? k with
    | some id =>
      obtain ⟨hid, w, hw, hkw⟩ := hfinds k id hfind
      have hmem := hd.mem w (List.mem_of_getElem? hw)
      obtain rfl : v = w := hinj v w k hv (htyped w hmem.1) hnull hmem.2 hk hkw
      have hid64 : (UInt64.ofNat id).toNat = id := by
        rw [UInt64.toNat_ofNat', Nat.mod_eq_of_lt (by omega)]
      exact ⟨{ d with indices := d.indices ++ [UInt64.ofNat id] }, by
        simp [Dictionary.add, hnull', hk, hfind], hfinds, hd.add_old (by rw [hid64]; exact hw)⟩
    | none =>
      have hlt : d.dict.length < 2 ^ 32 := lt_of_le_of_lt hd.dict_le hrows
      have hid64 : (UInt64.ofNat d.dict.length).toNat = d.dict.length := by
        rw [UInt64.toNat_ofNat', Nat.mod_eq_of_lt (by omega)]
      refine ⟨⟨d.lookup.insert k d.dict.length, d.dict ++ [v],
        d.indices ++ [UInt64.ofNat d.dict.length]⟩, ?_, ?_, hd.add_new hnull hid64⟩
      · simp only [Dictionary.add, hnull', Bool.false_eq_true, if_false, hk, Except.ok_bind,
          hfind, Nat.mod_eq_of_lt hlt, Except.pure_eq_ok]
      · intro k' id hid
        by_cases hkk : k' = k
        · subst hkk
          rw [KeyMap.find?_insert_self] at hid
          obtain rfl := Option.some.inj hid
          exact ⟨hlt, v, by simp, hk⟩
        · rw [KeyMap.find?_insert_of_ne hkk] at hid
          obtain ⟨hlt', w, hw, hkw⟩ := hfinds k' id hid
          exact ⟨hlt', w, getElem?_concat.mpr (.inl hw), hkw⟩

/-- The dictionary of a column stands for it. -/
private theorem buildDictionary_spec {vs : List Value} (htyped : ∀ v ∈ vs, v.hasType t = true)
    (hrows : vs.length < 2 ^ 32) :
    ∃ dict indices, buildDictionary key vs = .ok (dict, indices) ∧ Indexes vs dict indices := by
  obtain ⟨d, hrun, -, hd⟩ := Except.foldlM_prefix (f := Dictionary.add key) (l := vs)
    (s := ⟨.empty, [], []⟩)
    (fun done d => Finds key d ∧ Indexes done d.dict d.indices)
    (fun done v rest d hvs hd => by
      have hv : v ∈ vs := by simp [← hvs]
      have hdone : ∀ w ∈ done, w.hasType t = true := fun w hw =>
        htyped w (by simp [← hvs, hw])
      have hlen : done.length < 2 ^ 32 := by
        rw [← hvs, List.length_append] at hrows
        omega
      exact add_spec hkey hinj hdone hlen hd.1 hd.2 (htyped v hv))
    ⟨fun k id h => by simp at h, by simp, by simp, by simp, by simp, by simp⟩
  exact ⟨d.dict, d.indices, by simp [buildDictionary, hrun], hd⟩

end

private theorem getString_key {v : Value} (hv : v.hasType .varchar = true) (hnull : v ≠ .null) :
    ∃ k, getString v = .ok k := by
  cases v <;> simp [Value.hasType, getString] at hv hnull ⊢

private theorem getString_inj {v w : Value} {k : Bytes} (hv : getString v = .ok k)
    (hw : getString w = .ok k) : v = w := by
  cases v <;> cases w <;> simp_all [getString]

private theorem fixedKey_key {t : ColumnType} {v : Value} (ht : t ≠ .varchar)
    (hv : v.hasType t = true) (hnull : v ≠ .null) : ∃ k, fixedKey t v = .ok k := by
  cases t <;> cases v <;>
    simp [Value.hasType, fixedKey, getDouble, getI64] at ht hv hnull ⊢

private theorem fixedKey_inj {t : ColumnType} {v w : Value} {k : Int64} (ht : t ≠ .varchar)
    (hv : v.hasType t = true) (hw : w.hasType t = true) (hvn : v ≠ .null) (hwn : w ≠ .null)
    (hkv : fixedKey t v = .ok k) (hkw : fixedKey t w = .ok k) : v = w := by
  cases t with
  | varchar => exact absurd rfl ht
  | int =>
    cases v <;> simp [Value.hasType] at hv hvn
    cases w <;> simp [Value.hasType] at hw hwn
    case int32.int32 a b =>
      have heq : a.toInt64.toInt32 = b.toInt64.toInt32 := by simp_all [fixedKey, getI64]
      simpa using heq
  | bigInt =>
    cases v <;> simp [Value.hasType] at hv hvn
    cases w <;> simp [Value.hasType] at hw hwn
    simp_all [fixedKey, getI64]
  | float =>
    cases v <;> simp [Value.hasType] at hv hvn
    cases w <;> simp [Value.hasType] at hw hwn
    case double.double a b =>
      have heq : a.bits.toInt64.toUInt64 = b.bits.toInt64.toUInt64 := by
        simp_all [fixedKey, getDouble]
      obtain ⟨a⟩ := a
      obtain ⟨b⟩ := b
      simpa using heq

private theorem distinctValues_spec {t : ColumnType} {vs : List Value}
    (htyped : ∀ v ∈ vs, v.hasType t = true) (hrows : vs.length < 2 ^ 32) :
    ∃ dict indices, distinctValues t vs = .ok (dict, indices) ∧ Indexes vs dict indices := by
  by_cases ht : t = .varchar
  · subst ht
    exact buildDictionary_spec (fun v hv hn => getString_key hv hn)
      (fun v w k _ _ _ _ hkv hkw => getString_inj hkv hkw) htyped hrows
  · rw [distinctValues, if_neg ht]
    exact buildDictionary_spec (fun v hv hn => fixedKey_key ht hv hn)
      (fun v w k hv hw hvn hwn => fixedKey_inj ht hv hw hvn hwn) htyped hrows

/-- A dictionary entry of fewer than `2 ^ 32` bytes reads back, and leaves what follows it. -/
private theorem putEntry_spec {t : ColumnType} {v : Value} (hv : v.hasType t = true)
    (hnull : v ≠ .null) :
    ∃ entry, putEntry t v = .ok entry ∧ (entry.length < 2 ^ 32 →
      ∀ rest, getEntry t (entry ++ rest) = .ok (v, rest)) := by
  by_cases ht : t = .varchar
  · subst ht
    cases v <;> simp [Value.hasType] at hv hnull
    case string s =>
      refine ⟨leBytes 4 s.length ++ s, by simp [putEntry, getString], fun hlen rest => ?_⟩
      have hlen' : s.length < 256 ^ 4 := by
        rw [List.length_append] at hlen
        omega
      simp only [getEntry, if_true, List.append_assoc, getPod_leBytes hlen', Except.ok_bind]
      rw [if_neg (by simp)]
      simp
  · obtain ⟨n, hn, hput, hvalue⟩ := putFixed_spec ht hv hnull
    refine ⟨leBytes (fixedWidth t) n, by rw [putEntry, if_neg ht, hput], fun _ rest => ?_⟩
    simp [getEntry, ht, getPod_leBytes hn, hvalue]

/-- The entries read back one after the other. -/
private theorem getEntries_spec {t : ColumnType} {dict : List Value} {entries : List Bytes}
    (h : List.Forall₂ (fun v entry => ∀ rest, getEntry t (entry ++ rest) = .ok (v, rest))
      dict entries) (rest : Bytes) :
    (List.range dict.length).foldlM
      (fun (st : List Value × Bytes) _ => do
        let (v, cur) ← getEntry t st.2
        pure (st.1 ++ [v], cur))
      ([], entries.flatten ++ rest) = .ok (dict, rest) := by
  obtain ⟨⟨vs, cur⟩, hrun, bss, hnil, hcur, hvs⟩ := Except.foldlM_items
    (f := fun (st : List Value × Bytes) => do
      let (v, cur) ← getEntry t st.2
      pure (st.1 ++ [v], cur))
    (fun (vs : List Value) st => ∃ bss, List.Forall₂
      (fun v entry => ∀ rest, getEntry t (entry ++ rest) = .ok (v, rest)) vs bss ∧
      st.2 = bss.flatten ++ rest ∧ st.1 ++ vs = dict)
    (fun v vs st hinv => by
      obtain ⟨bss, hall, hcur, hvs⟩ := hinv
      cases hall with
      | @cons _ bs _ bss hv hall =>
        refine ⟨(st.1 ++ [v], bss.flatten ++ rest), ?_, bss, hall, rfl, by simpa using hvs⟩
        rw [hcur, List.flatten_cons, List.append_assoc, hv]
        rfl)
    (List.length_range (n := dict.length)) (s := ([], entries.flatten ++ rest))
    ⟨entries, h, rfl, rfl⟩
  cases hnil
  simp only [List.flatten_nil, List.nil_append, List.append_nil] at hcur hvs
  rw [hrun, hcur, hvs]

/-- A dictionary and its indices decode to the column. -/
theorem decodeDictionary_encodeDictionary {t : ColumnType} {vs : List Value}
    (htyped : ∀ v ∈ vs, v.hasType t = true) (hrows : vs.length < 2 ^ 32) :
    ∃ c, encodeDictionary t vs = .ok c ∧ (c.payload.length < 2 ^ 32 →
      ∀ out : Vector, out.type = t →
        Appended out vs (decodeDictionary t vs.length c.payload out)) := by
  obtain ⟨dict, indices, hbuild, hindexes⟩ := distinctValues_spec htyped hrows
  obtain ⟨entries, hentries, hread⟩ := List.exists_mapM_forall₂ (f := putEntry t) (l := dict)
    (R := fun v entry => entry.length < 2 ^ 32 →
      ∀ rest, getEntry t (entry ++ rest) = .ok (v, rest))
    fun v hv => putEntry_spec (htyped v (hindexes.mem v hv).1) (hindexes.mem v hv).2
  have hcount : dict.length < 256 ^ 4 := by
    have hle := hindexes.dict_le
    simp only [Nat.reducePow] at hrows ⊢
    omega
  generalize hbw : (if dict.isEmpty then 0
    else bitsRequired (UInt64.ofNat (dict.length - 1))) = bw
  have hbw64 : bw ≤ 64 := by
    rw [← hbw]
    split
    · omega
    · exact bitsRequired_le _
  have hbw256 : bw < 256 ^ 1 := by omega
  have hfit : ∀ idx ∈ indices, idx.toNat < 2 ^ bw := by
    intro idx hidx
    have hbound := hindexes.bound idx hidx
    rw [← hbw]
    split
    · rename_i hempty
      rw [List.isEmpty_iff.mp hempty] at hbound
      simpa using hbound
    · have hlt := lt_two_pow_bitsRequired (UInt64.ofNat (dict.length - 1))
      rw [UInt64.toNat_ofNat', Nat.mod_eq_of_lt (by omega)] at hlt
      omega
  obtain ⟨packed, hpacked, hunpack⟩ := unpackBits_packBits hbw64 hfit
    (writeValidity vs ++ leBytes 4 dict.length ++ entries.flatten ++ leBytes 1 bw)
  refine ⟨{ encoding := .dictionary
            payload := writeValidity vs ++ leBytes 4 dict.length ++ entries.flatten ++
              leBytes 1 bw ++ packed }, ?_, fun hpayload out hout => ?_⟩
  · simp only [encodeDictionary, hbuild, Except.ok_bind, hentries, hbw, hpacked,
      Except.pure_eq_ok]
  · rw [hindexes.length] at hunpack
    -- an entry is no longer than the payload
    have hread : List.Forall₂ (fun v entry => ∀ rest, getEntry t (entry ++ rest) = .ok (v, rest))
        dict entries := by
      simp only [List.length_append] at hpayload
      have hshort : entries.flatten.length < 2 ^ 32 := by omega
      refine List.forall₂_iff_get.mpr ⟨hread.length_eq, fun i hi hi' => ?_⟩
      refine (List.forall₂_iff_get.mp hread).2 i hi hi' (lt_of_le_of_lt ?_ hshort)
      exact (List.sublist_flatten_of_mem (List.get_mem entries ⟨i, hi'⟩)).length_le
    simp only [decodeDictionary, List.append_assoc, drop_validity, getPod_leBytes hcount,
      Except.ok_bind, getEntries_spec hread, getPod_leBytes hbw256, hunpack]
    refine foldlM_appended fun i hi st hst => ?_
    rw [testValidity_writeValidity hi, Except.ok_bind]
    have htype : vs[i].hasType st.type = true := by
      rw [hst, hout]
      exact htyped _ (List.getElem_mem hi)
    by_cases hnull : vs[i] = .null
    · rw [hnull] at htype ⊢
      exact append_appended htype
    · obtain ⟨idx, hidx, hdict⟩ := hindexes.index i vs[i] (List.getElem?_eq_getElem hi) hnull
      have hnull' : vs[i].isNull = false := by simpa using hnull
      simp only [hnull', Bool.not_false, if_true, hidx, hdict, Vector.appendValue, htype]
      exact append_appended htype

/-! ## Frame of reference -/

private def IntType (t : ColumnType) : Prop := t = .int ∨ t = .bigInt

/-- The value of an integer column that widens to `x`. -/
private def ofI64 (t : ColumnType) (x : Int64) : Value :=
  if t = .int then .int32 x.toInt32 else .int64 x

private theorem getI64_spec {t : ColumnType} {v : Value} (ht : IntType t)
    (hv : v.hasType t = true) (hnull : v ≠ .null) :
    ∃ x, getI64 v = .ok x ∧ v = ofI64 t x := by
  rcases ht with rfl | rfl
  · cases v <;> simp [Value.hasType] at hv hnull
    case int32 v => exact ⟨v.toInt64, rfl, by simp [ofI64]⟩
  · cases v <;> simp [Value.hasType] at hv hnull
    case int64 v => exact ⟨v, rfl, by simp [ofI64]⟩

/-- `mn` and `mx` bound the non-NULL integers. -/
def Bounds (vs : List Value) (mn mx : Int64) : Prop :=
  ∀ v ∈ vs, ∀ x, getI64 v = .ok x → mn ≤ x ∧ x ≤ mx

theorem int64_min_le (a b : Int64) : min a b ≤ a ∧ min a b ≤ b :=
  ⟨Std.min_le_left, Std.min_le_right⟩

theorem int64_le_max (a b : Int64) : a ≤ max a b ∧ b ≤ max a b := by
  change a ≤ (if a ≤ b then b else a) ∧ b ≤ (if a ≤ b then b else a)
  split
  · exact ⟨by assumption, Int64.le_refl b⟩
  · rename_i h
    exact ⟨Int64.le_refl a, (Int64.le_total b a).resolve_right h⟩

/-- The scan of an integer column bounds its values and says whether it has any. -/
theorem scanBounds_spec {t : ColumnType} {vs : List Value} (ht : t = .int ∨ t = .bigInt)
    (htyped : ∀ v ∈ vs, v.hasType t = true) :
    ∃ mn mx any, scanBounds vs = .ok (mn, mx, any) ∧ Bounds vs mn mx ∧
      (any = true ↔ ∃ v ∈ vs, v ≠ .null) := by
  obtain ⟨⟨mn, mx, any⟩, hrun, hbounds, hany⟩ := Except.foldlM_ok
    (f := fun (st : Int64 × Int64 × Bool) v =>
      if v.isNull then (pure (st.1, st.2.1, st.2.2) : Except Exc _)
      else do
        let x ← getI64 v
        pure (min st.1 x, max st.2.1 x, true))
    (l := vs) (s := (Int64.maxValue, Int64.minValue, false))
    (fun done st => Bounds done st.1 st.2.1 ∧ (st.2.2 = true ↔ ∃ v ∈ done, v ≠ .null))
    (fun done v st hv ⟨hbounds, hany⟩ => by
      by_cases hnull : v = .null
      · subst hnull
        refine ⟨st, rfl, ?_, by simpa using hany⟩
        intro w hw x hx
        rcases List.mem_append.mp hw with hw | hw
        · exact hbounds w hw x hx
        · rw [List.mem_singleton.mp hw] at hx
          cases hx
      · obtain ⟨x, hx, -⟩ := getI64_spec ht (htyped v hv) hnull
        have hnull' : v.isNull = false := by simpa using hnull
        refine ⟨(min st.1 x, max st.2.1 x, true), by simp [hnull', hx], ?_, by simp [hnull]⟩
        intro w hw y hy
        rcases List.mem_append.mp hw with hw | hw
        · obtain ⟨hlo, hhi⟩ := hbounds w hw y hy
          exact ⟨Int64.le_trans (int64_min_le _ _).1 hlo, Int64.le_trans hhi (int64_le_max _ _).1⟩
        · rw [List.mem_singleton.mp hw, hx] at hy
          obtain rfl := Except.ok.inj hy
          exact ⟨(int64_min_le _ _).2, (int64_le_max _ _).2⟩)
    ⟨fun v hv => by simp at hv, by simp⟩
  exact ⟨mn, mx, any, hrun, hbounds, hany⟩

/-- `mn` and `mx` are the least and the greatest of the non-NULL integers. -/
structure Extremes (vs : List Value) (mn mx : Int64) : Prop where
  bounds : Bounds vs mn mx
  least : ∃ v ∈ vs, getI64 v = .ok mn
  greatest : ∃ v ∈ vs, getI64 v = .ok mx

private theorem min_eq (a b : Int64) : min a b = a ∨ min a b = b := by
  change (if a ≤ b then a else b) = a ∨ (if a ≤ b then a else b) = b
  split
  · exact .inl rfl
  · exact .inr rfl

private theorem max_eq (a b : Int64) : max a b = a ∨ max a b = b := by
  change (if a ≤ b then b else a) = a ∨ (if a ≤ b then b else a) = b
  split
  · exact .inr rfl
  · exact .inl rfl

/-- The sentinels of the scan are replaced by the first value. -/
private theorem min_maxValue (x : Int64) : min Int64.maxValue x = x := by
  refine (min_eq _ x).elim (fun h => ?_) id
  rw [h]
  exact Int64.le_antisymm (h ▸ (int64_min_le _ x).2) (Int64.le_maxValue x)

private theorem max_minValue (x : Int64) : max Int64.minValue x = x := by
  refine (max_eq _ x).elim (fun h => ?_) id
  rw [h]
  exact Int64.le_antisymm (Int64.minValue_le x) (h ▸ (int64_le_max _ x).2)

/-- The bounds that the scan finds are values of the column. -/
theorem scanBounds_extremes {t : ColumnType} {vs : List Value} (ht : t = .int ∨ t = .bigInt)
    (htyped : ∀ v ∈ vs, v.hasType t = true) {mn mx : Int64}
    (h : scanBounds vs = .ok (mn, mx, true)) : Extremes vs mn mx := by
  obtain ⟨mn', mx', any, hscan, hbounds, -⟩ := scanBounds_spec ht htyped
  rw [h] at hscan
  cases hscan
  obtain ⟨st, hrun, hvalues⟩ := Except.foldlM_ok
    (f := fun (st : Int64 × Int64 × Bool) v =>
      if v.isNull then (pure (st.1, st.2.1, st.2.2) : Except Exc _)
      else do
        let x ← getI64 v
        pure (min st.1 x, max st.2.1 x, true))
    (l := vs) (s := (Int64.maxValue, Int64.minValue, false))
    (fun done st => if st.2.2 then
        (∃ v ∈ done, getI64 v = .ok st.1) ∧ ∃ v ∈ done, getI64 v = .ok st.2.1
      else st.1 = Int64.maxValue ∧ st.2.1 = Int64.minValue)
    (fun done v st hv hvalues => by
      have hgrow : ∀ {x : Int64}, (∃ w ∈ done, getI64 w = .ok x) →
          ∃ w ∈ done ++ [v], getI64 w = .ok x := fun ⟨w, hw, hx⟩ =>
        ⟨w, List.mem_append_left _ hw, hx⟩
      by_cases hnull : v = .null
      · subst hnull
        refine ⟨st, rfl, ?_⟩
        split at hvalues
        · rename_i hany
          rw [if_pos hany]
          exact ⟨hgrow hvalues.1, hgrow hvalues.2⟩
        · rename_i hany
          rwa [if_neg hany]
      · obtain ⟨x, hx, -⟩ := getI64_spec ht (htyped v hv) hnull
        have hnull' : v.isNull = false := by simpa using hnull
        have hself : ∃ w ∈ done ++ [v], getI64 w = .ok x := ⟨v, by simp, hx⟩
        refine ⟨(min st.1 x, max st.2.1 x, true), by simp [hnull', hx], ?_⟩
        rw [if_pos rfl]
        split at hvalues
        · constructor
          · rcases min_eq st.1 x with h | h <;> rw [h]
            · exact hgrow hvalues.1
            · exact hself
          · rcases max_eq st.2.1 x with h | h <;> rw [h]
            · exact hgrow hvalues.2
            · exact hself
        · rw [hvalues.1, hvalues.2, min_maxValue, max_minValue]
          exact ⟨hself, hself⟩)
    ⟨rfl, rfl⟩
  have hst : st = (mn, mx, true) := by
    rw [scanBounds] at h
    exact Except.ok.inj (hrun.symm.trans h)
  subst hst
  exact ⟨hbounds, hvalues.1, hvalues.2⟩

/-- Distances from the minimum do not exceed the range, in unsigned 64-bit arithmetic. -/
theorem delta_le {mn x mx : Int64} (hlo : mn ≤ x) (hhi : x ≤ mx) :
    (x.toUInt64 - mn.toUInt64).toNat ≤ (mx.toUInt64 - mn.toUInt64).toNat := by
  have hunsigned : ∀ y : Int64, y.toUInt64.toNat = y.toBitVec.toNat := fun _ => rfl
  have hsigned : ∀ y : Int64, y.toInt = y.toBitVec.toInt := fun _ => rfl
  rw [Int64.le_iff_toInt_le] at hlo hhi
  simp only [hsigned, BitVec.toInt_eq_toNat_cond] at hlo hhi
  rw [UInt64.toNat_sub, UInt64.toNat_sub]
  simp only [hunsigned]
  have hx := x.toBitVec.isLt
  have hmn := mn.toBitVec.isLt
  have hmx := mx.toBitVec.isLt
  split at hlo <;> split at hlo <;> split at hhi <;> omega

private theorem add_delta (mn x : Int64) : mn + (x.toUInt64 - mn.toUInt64).toInt64 = x := by
  simp only [UInt64.toInt64_sub, Int64.toInt64_toUInt64]
  rw [Int64.add_comm, Int64.sub_add_cancel]

/-- Packed distances decode to the column, whatever bounds frame it. -/
theorem decodeBitpack_encodeBitpack {t : ColumnType} {vs : List Value} {mn mx : Int64}
    (ht : t = .int ∨ t = .bigInt) (htyped : ∀ v ∈ vs, v.hasType t = true)
    (hbounds : Bounds vs mn mx) :
    ∃ c, encodeBitpack vs mn mx = .ok c ∧ ∀ out : Vector, out.type = t →
      Appended out vs (decodeBitpack t vs.length c.payload out) := by
  obtain ⟨deltas, hdeltas, hall⟩ := List.exists_mapM_forall₂ (f := delta mn) (l := vs)
    (R := fun v d => d.toNat < 2 ^ (if mx = mn then 0
        else bitsRequired (mx.toUInt64 - mn.toUInt64)) ∧
      (v ≠ .null → v = ofI64 t (mn + d.toInt64)))
    fun v hv => by
      by_cases hnull : v = .null
      · exact ⟨0, by simp [delta, hnull, Value.isNull], Nat.two_pow_pos _,
          fun h => absurd hnull h⟩
      · obtain ⟨x, hx, hvx⟩ := getI64_spec ht (htyped v hv) hnull
        obtain ⟨hlo, hhi⟩ := hbounds v hv x hx
        have hnull' : v.isNull = false := by simpa using hnull
        refine ⟨x.toUInt64 - mn.toUInt64, by simp [delta, hnull', hx], ?_, fun _ => by
          rw [add_delta, hvx]⟩
        split
        · rename_i heq
          obtain rfl : x = mn := Int64.le_antisymm (heq ▸ hhi) hlo
          simp
        · exact lt_of_le_of_lt (delta_le hlo hhi) (lt_two_pow_bitsRequired _)
  generalize hbw : (if mx = mn then 0 else bitsRequired (mx.toUInt64 - mn.toUInt64)) = bw at hall
  have hbw64 : bw ≤ 64 := by
    rw [← hbw]
    split
    · omega
    · exact bitsRequired_le _
  have hbw256 : bw < 256 ^ 1 := by omega
  have hframe : mn.toUInt64.toNat < 256 ^ 8 := by simpa using mn.toUInt64.toNat_lt
  obtain ⟨hlen, hget⟩ := List.forall₂_iff_get.mp hall
  have hfit : ∀ d ∈ deltas, d.toNat < 2 ^ bw := by
    intro d hd
    obtain ⟨i, hi, rfl⟩ := List.mem_iff_getElem.mp hd
    exact (hget i (by omega) hi).1
  obtain ⟨packed, hpacked, hunpack⟩ := unpackBits_packBits hbw64 hfit
    (writeValidity vs ++ leBytes 8 mn.toUInt64.toNat ++ leBytes 1 bw)
  refine ⟨{ encoding := .bitpack
            payload := writeValidity vs ++ leBytes 8 mn.toUInt64.toNat ++ leBytes 1 bw ++ packed },
    ?_, fun out hout => ?_⟩
  · simp only [encodeBitpack, hdeltas, Except.ok_bind, hbw, hpacked, Except.pure_eq_ok]
  · rw [← hlen] at hunpack
    simp only [decodeBitpack, List.append_assoc, drop_validity, getPod_leBytes hframe,
      Except.ok_bind, getPod_leBytes hbw256, hunpack, UInt64.ofNat_toNat, Int64.toInt64_toUInt64]
    refine foldlM_appended fun i hi st hst => ?_
    rw [testValidity_writeValidity hi, Except.ok_bind]
    have htype : vs[i].hasType st.type = true := by
      rw [hst, hout]
      exact htyped _ (List.getElem_mem hi)
    by_cases hnull : vs[i] = .null
    · rw [hnull] at htype ⊢
      exact append_appended htype
    · have hi' : i < deltas.length := by omega
      have hvalue := (hget i hi hi').2 hnull
      simp only [List.get_eq_getElem] at hvalue
      have hnull' : vs[i].isNull = false := by simpa using hnull
      simp only [hnull', Bool.not_false, if_true, List.getElem?_eq_getElem hi']
      rw [hvalue] at htype ⊢
      unfold ofI64 at htype ⊢
      split
      · rename_i hint
        rw [if_pos hint] at htype
        exact append_appended htype
      · rename_i hint
        rw [if_neg hint] at htype
        exact append_appended htype

/-! ## Chunks -/

/-- What a scheme tried for a type makes of a column of fewer than `2 ^ 32` values, it decodes to the
    column if the payload has fewer than `2 ^ 32` bytes. -/
theorem encodeChunkWith_spec {t : ColumnType} {vs : List Value} {e : Encoding}
    (he : e ∈ candidates t) (htyped : ∀ v ∈ vs, v.hasType t = true)
    (hrows : vs.length < 2 ^ 32) :
    ∃ c, encodeChunkWith t vs e = .ok c ∧ (c.payload.length < 2 ^ 32 →
      ∀ out : Vector, out.type = t → ∃ out', decodeChunk t e vs.length c.payload out = .ok out' ∧
        out'.type = out.type ∧ out'.values = out.values ++ vs) := by
  cases e with
  | plain =>
    by_cases ht : t = .varchar
    · subst ht
      exact decodePlain_encodePlain_varchar htyped
    · obtain ⟨c, hc, hdecode⟩ := decodePlain_encodePlain_fixed ht htyped
      exact ⟨c, hc, fun _ => hdecode⟩
  | rle =>
    have ht : t ≠ .varchar := by
      rintro rfl
      simp [candidates] at he
    obtain ⟨c, hc, hdecode⟩ := decodeRle_encodeRle ht htyped hrows
    exact ⟨c, hc, fun _ => hdecode⟩
  | dictionary =>
    exact decodeDictionary_encodeDictionary htyped hrows
  | bitpack =>
    have ht : t = .int ∨ t = .bigInt := by cases t <;> simp [candidates] at he ⊢
    obtain ⟨mn, mx, any, hscan, hbounds, hany⟩ := scanBounds_spec ht htyped
    cases any with
    | true =>
      obtain ⟨c, hc, hdecode⟩ := decodeBitpack_encodeBitpack ht htyped hbounds
      exact ⟨c, by simp [encodeChunkWith, hscan, hc], fun _ => hdecode⟩
    | false =>
      -- no value is there to be bounded
      have hnone : Bounds vs 0 0 := by
        intro v hv x hx
        have hnull : v = .null := by
          by_contra hne
          exact absurd (hany.mpr ⟨v, hv, hne⟩) (by decide)
        rw [hnull] at hx
        cases hx
      obtain ⟨c, hc, hdecode⟩ := decodeBitpack_encodeBitpack ht htyped hnone
      exact ⟨c, by simp [encodeChunkWith, hscan, hc], fun _ => hdecode⟩

/-- Every encoding tried for a type round-trips: decoding the payload of a column of fewer than
    `2 ^ 32` values (fewer than `2 ^ 32` string bytes, payload below `2 ^ 32` bytes) does not
    throw and appends exactly the column. -/
theorem decodeChunk_encodeChunkWith {t : ColumnType} {vs : List Value} {e : Encoding}
    (he : e ∈ candidates t) (htyped : ∀ v ∈ vs, v.hasType t = true)
    (hrows : vs.length < 2 ^ 32) (_hbytes : (strings vs).length < 2 ^ 32) :
    ∃ c, encodeChunkWith t vs e = .ok c ∧ (c.payload.length < 2 ^ 32 →
      ∀ out : Vector, out.type = t → ∃ out', decodeChunk t e vs.length c.payload out = .ok out' ∧
        out'.type = out.type ∧ out'.values = out.values ++ vs) :=
  encodeChunkWith_spec he htyped hrows

/-- A nullable column in plain slots. -/
theorem decodeChunk_encodeChunkWith_int_plain :
    ∃ c, encodeChunkWith .int [.int32 (-1), .null, .int32 7] .plain = .ok c ∧
      c.payload.length < 2 ^ 32 ∧
      ∃ out', decodeChunk .int .plain 3 c.payload (.empty .int) = .ok out' ∧
        out'.values = [.int32 (-1), .null, .int32 7] := by
  obtain ⟨c, hc, hdecode⟩ := @decodeChunk_encodeChunkWith .int [.int32 (-1), .null, .int32 7]
    .plain (by decide) (by decide) (by norm_num) (by norm_num [strings, stringBytes])
  have hpayload : c.payload.length < 2 ^ 32 := by
    have hval : encodeChunkWith .int [.int32 (-1), .null, .int32 7] .plain =
      .ok { encoding := .plain
            payload := [5, 255, 255, 255, 255, 0, 0, 0, 0, 7, 0, 0, 0] } := by decide
    rw [hval] at hc
    obtain rfl := Except.ok.inj hc
    norm_num
  obtain ⟨out', hout', -, hvalues⟩ := hdecode hpayload (.empty .int) rfl
  exact ⟨c, hc, hpayload, out', hout', by simpa using hvalues⟩

/-- A chunk is marked with the scheme that made it. -/
theorem encodeChunkWith_encoding {t : ColumnType} {vs : List Value} {e : Encoding}
    {c : EncodedChunk} (h : encodeChunkWith t vs e = .ok c) : c.encoding = e := by
  cases e with
  | plain =>
    simp only [encodeChunkWith, encodePlain] at h
    split at h
    · obtain ⟨p, -, hp⟩ := Except.bind_eq_ok.mp h
      obtain rfl := Except.ok.inj hp
      rfl
    · obtain ⟨p, -, hp⟩ := Except.bind_eq_ok.mp h
      obtain rfl := Except.ok.inj hp
      rfl
  | rle =>
    obtain ⟨p, -, hp⟩ := Except.bind_eq_ok.mp h
    obtain rfl := Except.ok.inj hp
    rfl
  | dictionary =>
    obtain ⟨p, -, hp⟩ := Except.bind_eq_ok.mp h
    obtain ⟨q, -, hq⟩ := Except.bind_eq_ok.mp hp
    obtain rfl := Except.ok.inj hq
    rfl
  | bitpack =>
    obtain ⟨p, -, hp⟩ := Except.bind_eq_ok.mp h
    have hone : ∀ mn mx, encodeBitpack vs mn mx = .ok c → c.encoding = .bitpack := by
      intro mn mx hc
      obtain ⟨q, -, hq⟩ := Except.bind_eq_ok.mp hc
      obtain rfl := Except.ok.inj hq
      rfl
    simp only at hp
    split at hp
    · exact hone _ _ hp
    · exact hone _ _ hp

/-- `c` is what one of the schemes `es` makes of the column, and none of them makes less. -/
def Smallest (t : ColumnType) (vs : List Value) (es : List Encoding)
    (c : EncodedChunk) : Prop :=
  (∃ e ∈ es, encodeChunkWith t vs e = .ok c) ∧
    ∀ e ∈ es, ∀ c', encodeChunkWith t vs e = .ok c' → c.payload.length ≤ c'.payload.length

theorem keepSmaller_spec {t : ColumnType} {vs : List Value} {es : List Encoding}
    {best : Option EncodedChunk} {e : Encoding} {c : EncodedChunk}
    (hbest : (es = [] ∧ best = none) ∨ ∃ b, best = some b ∧ Smallest t vs es b)
    (hc : encodeChunkWith t vs e = .ok c) : Smallest t vs (es ++ [e]) (keepSmaller best c) := by
  rcases hbest with ⟨rfl, rfl⟩ | ⟨b, rfl, ⟨e', he', hb⟩, hmin⟩
  · refine ⟨⟨e, by simp, hc⟩, fun e' he' c' hc' => ?_⟩
    rw [List.mem_singleton.mp he', hc] at hc'
    obtain rfl := Except.ok.inj hc'
    exact Nat.le_refl _
  · simp only [keepSmaller]
    split
    · rename_i hlt
      refine ⟨⟨e, by simp, hc⟩, fun e' he' c' hc' => ?_⟩
      rcases List.mem_append.mp he' with he' | he'
      · exact (Nat.le_of_lt hlt).trans (hmin e' he' c' hc')
      · rw [List.mem_singleton.mp he', hc] at hc'
        obtain rfl := Except.ok.inj hc'
        exact Nat.le_refl _
    · rename_i hge
      refine ⟨⟨e', by simp [he'], hb⟩, fun e' he' c' hc' => ?_⟩
      rcases List.mem_append.mp he' with he' | he'
      · exact hmin e' he' c' hc'
      · rw [List.mem_singleton.mp he', hc] at hc'
        obtain rfl := Except.ok.inj hc'
        omega

/-- What the chooser returns: a smallest chunk among the candidates, with its counts and a zone
    map that is present exactly when an integer column has a value. -/
theorem encodeChunk_spec {t : ColumnType} {vs : List Value}
    (htyped : ∀ v ∈ vs, v.hasType t = true) (hrows : vs.length < 2 ^ 32) :
    ∃ c e best, encodeChunk t vs = .ok c ∧ e ∈ candidates t ∧
      encodeChunkWith t vs e = .ok best ∧ c.encoding = e ∧ c.payload = best.payload ∧
      (∀ e' ∈ candidates t, ∀ c', encodeChunkWith t vs e' = .ok c' →
        c.payload.length ≤ c'.payload.length) ∧
      c.numRows = vs.length ∧ c.nullCount = (vs.filter Value.isNull).length ∧
      (c.hasZoneMap = true ↔ (t = .int ∨ t = .bigInt) ∧ ∃ v ∈ vs, v ≠ .null) ∧
      (c.hasZoneMap = true → Bounds vs c.minValue c.maxValue) := by
  obtain ⟨mn, mx, any, hscan, hany, hbounds⟩ : ∃ mn mx any,
      zoneBounds t vs = .ok (mn, mx, any) ∧
      (any = true ↔ (t = .int ∨ t = .bigInt) ∧ ∃ v ∈ vs, v ≠ .null) ∧
      (any = true → Bounds vs mn mx) := by
    by_cases ht : t = .int ∨ t = .bigInt
    · obtain ⟨mn, mx, any, hscan, hbounds, hany⟩ := scanBounds_spec ht htyped
      exact ⟨mn, mx, any, by rw [zoneBounds, if_pos ht, hscan], by simp [ht, hany],
        fun _ => hbounds⟩
    · exact ⟨0, 0, false, by rw [zoneBounds, if_neg ht], by simp [ht], by simp⟩
  obtain ⟨best, hrun, hbest⟩ := Except.foldlM_ok
    (f := fun best e => do
      let c ← encodeChunkWith t vs e
      pure (some (keepSmaller best c)))
    (l := candidates t) (s := none)
    (fun es best => (es = [] ∧ best = none) ∨ ∃ b, best = some b ∧ Smallest t vs es b)
    (fun es e best he hbest => by
      obtain ⟨c, hc, -⟩ := encodeChunkWith_spec he htyped hrows
      exact ⟨some (keepSmaller best c), by simp [hc],
        .inr ⟨_, rfl, keepSmaller_spec hbest hc⟩⟩)
    (.inl ⟨rfl, rfl⟩)
  have hne : candidates t ≠ [] := by cases t <;> simp [candidates]
  obtain ⟨c, rfl, ⟨e, he, hc⟩, hmin⟩ := hbest.resolve_left fun h => hne h.1
  have hnulls : (vs.filter Value.isNull).length ≤ vs.length := List.length_filter_le _ _
  refine ⟨{ c with
      numRows := vs.length
      nullCount := (vs.filter Value.isNull).length
      hasZoneMap := any
      minValue := if any then mn else 0
      maxValue := if any then mx else 0 }, e, c, ?_, he, hc,
    (encodeChunkWith_encoding hc : c.encoding = e), rfl,
    hmin, rfl, rfl, hany, fun h => ?_⟩
  · simp only [encodeChunk, hscan, hrun, Except.ok_bind]
    rw [Nat.mod_eq_of_lt hrows, Nat.mod_eq_of_lt (lt_of_le_of_lt hnulls hrows)]
    rfl
  · obtain rfl : any = true := h
    exact hbounds rfl

/-- A zone map holds the least and the greatest value. -/
theorem encodeChunk_extremes {t : ColumnType} {vs : List Value}
    (htyped : ∀ v ∈ vs, v.hasType t = true) {c : EncodedChunk} (hc : encodeChunk t vs = .ok c)
    (hzone : c.hasZoneMap = true) : Extremes vs c.minValue c.maxValue := by
  rw [encodeChunk] at hc
  obtain ⟨⟨mn, mx, any⟩, hscan, hc⟩ := Except.bind_eq_ok.mp hc
  obtain ⟨best, -, hc⟩ := Except.bind_eq_ok.mp hc
  cases best with
  | none => cases hc
  | some best =>
    obtain rfl := Except.ok.inj hc
    obtain rfl : any = true := hzone
    rw [zoneBounds] at hscan
    split at hscan
    · rename_i ht
      exact scanBounds_extremes ht htyped hscan
    · cases hscan

/-- The chunk the chooser keeps decodes to the column. -/
theorem decodeChunk_encodeChunk {t : ColumnType} {vs : List Value}
    (htyped : ∀ v ∈ vs, v.hasType t = true) (hrows : vs.length < 2 ^ 32)
    {c : EncodedChunk} (hc : encodeChunk t vs = .ok c)
    (hpayload : c.payload.length < 2 ^ 32) {out : Vector} (hout : out.type = t) :
    ∃ out', decodeChunk t c.encoding c.numRows c.payload out = .ok out' ∧
      out'.type = out.type ∧ out'.values = out.values ++ vs := by
  obtain ⟨c', e, best, hc', he, hbest, henc, hpay, -, hnum, -⟩ :=
    encodeChunk_spec htyped hrows
  obtain rfl : c = c' := by rw [hc] at hc'; exact Except.ok.inj hc'
  obtain ⟨c₁, hc₁, hdecode⟩ := encodeChunkWith_spec he htyped hrows
  obtain rfl : best = c₁ := by rw [hbest] at hc₁; exact Except.ok.inj hc₁
  rw [henc, hnum, hpay]
  exact hdecode (hpay ▸ hpayload) out hout

end LiteOLAP
