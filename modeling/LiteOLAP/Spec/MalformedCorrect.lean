import LiteOLAP.Spec.EncodingCorrect

/-!
# Payloads that no encoder has made

Lengths, counts, offsets, bit widths and indices come from the payload itself. The decoders check
some of them against its end. This module says which payloads they get through without an access
out of range, for every byte string and every row count.

In the model an unchecked read of a payload byte or of a dictionary entry that does not exist is
`Exc.undefinedBehaviour`. A validity bit that no row has may still lie in the payload;
`decodeRleBelow` counts it as out of range too. The other decoders test the bits of their loop over
`n` rows only.

## Key results

- `foldlM_rows`: a loop over rows, each of which is read or is out of range
- `safelyDecoded_iff`: the payloads that are decoded safely
-/

namespace LiteOLAP

open Bytes (ofLeBytes)

/-! ## Safety -/

/-- The decoder throws an exception, or it appends `n` rows. -/
def ThrowsOrAppends (n : Nat) (out : Vector) : Except Exc Vector → Prop
  | .ok out' => out'.values.length = out.values.length + n
  | .error e => ∃ what, e = .runtimeError what

/-- `appendSlot` for a row below `n`. -/
def appendSlotBelow (n : Nat) (validity : Bytes) (i : Nat) (slot : Except Exc Value)
    (out : Vector) : Except Exc Vector :=
  if i < n then appendSlot validity i slot out else .error .undefinedBehaviour

/-- `decodeRun`, where a validity bit that none of the `n` rows has is out of range. -/
def decodeRunBelow (n : Nat) (type : ColumnType) (validity : Bytes) (st : Bytes × Nat × Vector) :
    Except Exc (Bytes × Nat × Vector) := do
  let (cur, row, out) := st
  let (bits, cur) ← getRunBits type cur
  let (runLen, cur) ← getPod 4 cur
  let out ← (List.range runLen).foldlM
    (fun out k => appendSlotBelow n validity ((row + k) % 2 ^ 32) (pure (runValue type bits)) out)
    out
  pure (cur, (row + runLen) % 2 ^ 32, out)

/-- `decodeRle`, where a validity bit that no row has is out of range. -/
def decodeRleBelow (type : ColumnType) (n : Nat) (payload : Bytes) (out : Vector) :
    Except Exc Vector := do
  let (numRuns, cur) ← getPod 4 (payload.drop (validityBytes n))
  let (_, _, out) ← (List.range numRuns).foldlM (fun st _ => decodeRunBelow n type payload st)
    (cur, 0, out)
  pure out

/-- The decoder throws or appends `n` rows, and no access is out of range: of a payload byte, of a
    dictionary entry, of the validity bit of a row. -/
structure SafelyDecoded (type : ColumnType) (enc : Encoding) (n : Nat) (payload : Bytes)
    (out : Vector) : Prop where
  outcome : ThrowsOrAppends n out (decodeChunk type enc n payload out)
  bits : enc = .rle → decodeRleBelow type n payload out ≠ .error .undefinedBehaviour

/-! ## Layouts -/

/-- The number in the `w` bytes at an offset. -/
def numberAt (payload : Bytes) (w off : Nat) : Nat := ofLeBytes ((payload.drop off).take w)

/-- The offsets of string `i` are in the payload, and so are the bytes between them. -/
def StringInside (n : Nat) (payload : Bytes) (i : Nat) : Prop :=
  validityBytes n + i * 4 + 8 ≤ payload.length ∧
    let b := numberAt payload 4 (validityBytes n + i * 4)
    let e := numberAt payload 4 (validityBytes n + i * 4 + 4)
    let len := (e + 2 ^ 32 - b) % 2 ^ 32
    len = 0 ∨ validityBytes n + (n + 1) % 2 ^ 32 * 4 + b + len ≤ payload.length

/-- The bitmap is in the payload, and so is the string of every row that is not NULL. -/
def StringsInside (n : Nat) (payload : Bytes) : Prop :=
  ∀ i < n, i / 8 < payload.length ∧ (bitAt payload i = true → StringInside n payload i)

/-- Where the first run is. -/
def firstRun (n : Nat) : Nat := validityBytes n + 4

/-- Bytes of a run. -/
def runWidth (type : ColumnType) : Nat := fixedWidth type + 4

/-- How many runs there should be. -/
def numRuns (n : Nat) (payload : Bytes) : Nat := numberAt payload 4 (validityBytes n)

/-- How many of them are whole. -/
def wholeRuns (type : ColumnType) (n : Nat) (payload : Bytes) : Nat :=
  min (numRuns n payload) ((payload.length - firstRun n) / runWidth type)

/-- Rows of run `r`. -/
def runLength (type : ColumnType) (n : Nat) (payload : Bytes) (r : Nat) : Nat :=
  numberAt payload 4 (firstRun n + r * runWidth type + fixedWidth type)

/-- Rows of the first `r` runs. -/
def rowsBefore (type : ColumnType) (n : Nat) (payload : Bytes) (r : Nat) : Nat :=
  ((List.range r).map (runLength type n payload)).sum

/-- The whole runs have no more than `n` rows, and exactly `n` if all runs are whole. -/
def RunsInside (type : ColumnType) (n : Nat) (payload : Bytes) : Prop :=
  firstRun n ≤ payload.length →
    rowsBefore type n payload (wholeRuns type n payload) ≤ n ∧
    (wholeRuns type n payload = numRuns n payload →
      rowsBefore type n payload (wholeRuns type n payload) = n)

/-- Where the dictionary entry at an offset ends. -/
def entryEnd (type : ColumnType) (payload : Bytes) (off : Nat) : Nat :=
  if type = .varchar then off + 4 + numberAt payload 4 off else off + fixedWidth type

/-- Where the last of several entries ends, if all of them are in the payload. -/
def entriesEnd (type : ColumnType) (payload : Bytes) : (count off : Nat) → Option Nat
  | 0, off => some off
  | count + 1, off =>
    if entryEnd type payload off ≤ payload.length then
      entriesEnd type payload count (entryEnd type payload off)
    else none

/-- If the dictionary and the bit width behind it are in the payload, then the packed indices are,
    and the index of every row that is not NULL is below the number of entries. -/
def IndicesInside (type : ColumnType) (n : Nat) (payload : Bytes) : Prop :=
  ∀ off, entriesEnd type payload (numberAt payload 4 (validityBytes n)) (validityBytes n + 4) =
      some off → off < payload.length →
    PackedInside n (numberAt payload 1 off) (payload.drop (off + 1)) ∧
    ∀ i < n, bitAt payload i = true →
      (packedValue (numberAt payload 1 off) (ofLeBytes (payload.drop (off + 1))) i).toNat <
        numberAt payload 4 (validityBytes n)

/-- If the frame and the bit width are in the payload, then the packed distances are. -/
def DeltasInside (n : Nat) (payload : Bytes) : Prop :=
  validityBytes n + 9 ≤ payload.length →
    PackedInside n (numberAt payload 1 (validityBytes n + 8)) (payload.drop (validityBytes n + 9))

/-- What the payload says is in the payload, as far as the decoder does not check it. -/
def LayoutInside (type : ColumnType) (enc : Encoding) (n : Nat) (payload : Bytes) : Prop :=
  match enc with
  | .plain => type = .varchar → StringsInside n payload
  | .rle => RunsInside type n payload
  | .dictionary => IndicesInside type n payload
  | .bitpack => DeltasInside n payload

/-! ## Loops over rows -/

section

variable {n : Nat} {out : Vector} {f : Vector → Nat → Except Exc Vector}

/-- Every row is appended or out of range, whatever came before it: the loop appends all rows, or
    one of them is out of range. -/
theorem foldlM_rows {P : Nat → Prop} (out : Vector)
    (hstep : ∀ i < n, ∀ st : Vector, st.type = out.type →
      (P i ∧ ∃ v, Appended st [v] (f st i)) ∨
        (¬ P i ∧ f st i = .error .undefinedBehaviour)) :
    ((∀ i < n, P i) ∧ ∃ vs, vs.length = n ∧ Appended out vs ((List.range n).foldlM f out)) ∨
      ((∃ i < n, ¬ P i) ∧ (List.range n).foldlM f out = .error .undefinedBehaviour) := by
  induction n with
  | zero => exact .inl ⟨fun _ h => (by omega), [], rfl, out, rfl, rfl, by simp⟩
  | succ n ih =>
    rw [List.range_succ, List.foldlM_append]
    rcases ih fun i hi => hstep i (by omega) with ⟨hinside, vs, hlen, st, hst, htype, hvalues⟩ | ⟨hout, hst⟩
    · rw [hst, Except.ok_bind, List.foldlM_cons]
      rcases hstep n (Nat.lt_succ_self n) st htype with ⟨hn, v, st', hst', htype', hvalues'⟩ | ⟨hn, hst'⟩
      · refine .inl ⟨fun i hi => ?_, vs ++ [v], by simp [hlen], st', ?_, htype'.trans htype, ?_⟩
        · by_cases hlast : i = n
          · exact hlast ▸ hn
          · exact hinside i (by omega)
        · rw [hst']
          rfl
        · rw [hvalues', hvalues, List.append_assoc]
      · refine .inr ⟨⟨n, Nat.lt_succ_self n, hn⟩, ?_⟩
        rw [hst']
        rfl
    · obtain ⟨i, hi, hinside⟩ := hout
      exact .inr ⟨⟨i, by omega, hinside⟩, by rw [hst]; rfl⟩

theorem throwsOrAppends_of_appended {vs : List Value} {r : Except Exc Vector}
    (h : Appended out vs r) : ThrowsOrAppends vs.length out r := by
  obtain ⟨out', rfl, -, hvalues⟩ := h
  show _ = _
  rw [hvalues, List.length_append]

theorem throwsOrAppends_of_error {what : Bytes} {r : Except Exc Vector}
    (h : r = .error (.runtimeError what)) : ThrowsOrAppends n out r := h ▸ ⟨what, rfl⟩

theorem not_throwsOrAppends : ¬ ThrowsOrAppends n out (.error .undefinedBehaviour) := by
  rintro ⟨what, h⟩
  cases h

/-- A loop over rows is safe just if no row is out of range. -/
theorem throwsOrAppends_rows_iff {P : Nat → Prop} (out : Vector)
    (hstep : ∀ i < n, ∀ st : Vector, st.type = out.type →
      (P i ∧ ∃ v, Appended st [v] (f st i)) ∨
        (¬ P i ∧ f st i = .error .undefinedBehaviour)) :
    ThrowsOrAppends n out ((List.range n).foldlM f out) ↔ ∀ i < n, P i := by
  rcases foldlM_rows out hstep with ⟨hinside, vs, rfl, happended⟩ | ⟨⟨i, hi, hinside⟩, herror⟩
  · exact ⟨fun _ => hinside, fun _ => throwsOrAppends_of_appended happended⟩
  · refine ⟨fun h => ?_, fun h => absurd (h i hi) hinside⟩
    rw [herror] at h
    exact absurd h not_throwsOrAppends

/-- A loop each of whose steps throws or appends a row throws or appends them all. -/
theorem throwsOrAppends_foldlM (out : Vector)
    (hstep : ∀ i < n, ∀ st : Vector, st.type = out.type →
      (∃ v, Appended st [v] (f st i)) ∨ ∃ what, f st i = .error (.runtimeError what)) :
    (∃ vs, vs.length = n ∧ Appended out vs ((List.range n).foldlM f out)) ∨
      ∃ what, (List.range n).foldlM f out = .error (.runtimeError what) := by
  induction n with
  | zero => exact .inl ⟨[], rfl, out, rfl, rfl, by simp⟩
  | succ n ih =>
    rw [List.range_succ, List.foldlM_append]
    rcases ih fun i hi => hstep i (by omega) with ⟨vs, hlen, st, hst, htype, hvalues⟩ | ⟨what, hst⟩
    · rw [hst, Except.ok_bind, List.foldlM_cons]
      rcases hstep n (Nat.lt_succ_self n) st htype with ⟨v, st', hst', htype', hvalues'⟩ | ⟨what, hst'⟩
      · exact .inl ⟨vs ++ [v], by simp [hlen], st', by rw [hst']; rfl, htype'.trans htype,
          by rw [hvalues', hvalues, List.append_assoc]⟩
      · exact .inr ⟨what, by rw [hst']; rfl⟩
    · exact .inr ⟨what, by rw [hst]; rfl⟩

end

/-- A row is out of range where its bit is, or its slot. -/
theorem appendSlot_cases (validity : Bytes) (i : Nat) {slot : Except Exc Value} {out : Vector}
    {P : Prop} (hslot : (P ∧ ∃ v, slot = .ok v ∧ v.hasType out.type = true) ∨
      (¬ P ∧ slot = .error .undefinedBehaviour)) :
    ((i / 8 < validity.length ∧ (bitAt validity i = true → P)) ∧
        ∃ v, Appended out [v] (appendSlot validity i slot out)) ∨
      (¬ (i / 8 < validity.length ∧ (bitAt validity i = true → P)) ∧
        appendSlot validity i slot out = .error .undefinedBehaviour) := by
  unfold appendSlot
  rw [testValidity_eq]
  by_cases hbyte : i / 8 < validity.length
  · rw [if_pos hbyte, Except.ok_bind]
    cases hbit : bitAt validity i with
    | false =>
      exact .inl ⟨⟨hbyte, fun h => (by cases h)⟩, .null, append_appended (Value.hasType_null _)⟩
    | true =>
      rcases hslot with ⟨hp, v, hv, htyped⟩ | ⟨hp, hv⟩
      · refine .inl ⟨⟨hbyte, fun _ => hp⟩, v, ?_⟩
        rw [hv]
        exact append_appended htyped
      · refine .inr ⟨fun h => hp (h.2 rfl), ?_⟩
        rw [hv]
        rfl
  · rw [if_neg hbyte]
    exact .inr ⟨fun h => hbyte h.1, rfl⟩

/-- The bits of all rows are in the bitmap. -/
theorem div_lt_validityBytes {i n : Nat} (h : i < n) : i / 8 < validityBytes n := by
  unfold validityBytes
  omega

theorem load_drop (w : Nat) (payload : Bytes) (off : Nat) : load w (payload.drop off) =
    if off + w ≤ payload.length ∨ w = 0 then .ok (numberAt payload w off)
    else .error .undefinedBehaviour := by
  unfold load numberAt
  rw [List.length_drop]
  by_cases h : off + w ≤ payload.length ∨ w = 0
  · rw [if_pos h, if_neg (by omega)]
  · rw [if_neg h, if_pos (by omega)]

theorem getPod_drop {w : Nat} (hw : 0 < w) (payload : Bytes) (off : Nat) :
    getPod w (payload.drop off) =
      if off + w ≤ payload.length then .ok (numberAt payload w off, payload.drop (off + w))
      else .error (.runtimeError (Bytes.ofAscii "encoding: truncated payload")) := by
  unfold getPod numberAt
  rw [List.length_drop, List.drop_drop]
  by_cases h : off + w ≤ payload.length
  · rw [if_pos h, if_neg (by omega)]
  · rw [if_neg h, if_pos (by omega)]

/-! ## Plain -/

section

variable {n : Nat} {payload : Bytes} {out : Vector}

/-- Slots of a fixed width are checked one by one. -/
theorem decodePlain_fixed {type : ColumnType} (htype : type ≠ .varchar) (hout : out.type = type) :
    ThrowsOrAppends n out (decodePlain type n payload out) := by
  have hw : 0 < fixedWidth type := by cases type <;> first | decide | exact absurd rfl htype
  rw [decodePlain, if_neg htype]
  have hloop := throwsOrAppends_foldlM (n := n) out
    (f := fun out i => do
      let slot := (payload.drop (validityBytes n)).drop (i * fixedWidth type)
      if slot.length < fixedWidth type then
        throw (.runtimeError (Bytes.ofAscii "encoding: plain underflow"))
      appendSlot payload i
        (pure (fixedValue type (ofLeBytes (slot.take (fixedWidth type))))) out)
    fun i hi st hst => ?_
  · rcases hloop with ⟨vs, rfl, happended⟩ | ⟨what, hthrow⟩
    · exact throwsOrAppends_of_appended happended
    · exact throwsOrAppends_of_error hthrow
  · dsimp only
    rw [List.drop_drop]
    split
    · exact .inr ⟨_, rfl⟩
    · rename_i hlen
      rw [List.length_drop] at hlen
      have hbit := div_lt_validityBytes hi
      have htyped : ∀ m, (fixedValue type m).hasType st.type = true := fun m => by
        rw [hst, hout]
        cases type <;> first | rfl | exact absurd rfl htype
      rcases appendSlot_cases payload i (P := True)
        (.inl ⟨trivial, _, rfl, htyped _⟩) with ⟨-, happended⟩ | ⟨hnot, -⟩
      · exact .inl happended
      · exact absurd ⟨by omega, fun _ => trivial⟩ hnot

/-- A string is read where its offsets and its bytes are in the payload. -/
theorem plainString_eq (n : Nat) (payload : Bytes) (i : Nat) :
    (StringInside n payload i ∧ ∃ s, plainString (payload.drop (validityBytes n))
        ((payload.drop (validityBytes n)).drop ((n + 1) % 2 ^ 32 * 4)) i = .ok (.string s)) ∨
      (¬ StringInside n payload i ∧ plainString (payload.drop (validityBytes n))
        ((payload.drop (validityBytes n)).drop ((n + 1) % 2 ^ 32 * 4)) i =
          .error .undefinedBehaviour) := by
  unfold plainString StringInside
  rw [List.drop_drop, List.drop_drop, List.drop_drop, load_drop, load_drop, Nat.succ_mul,
    ← Nat.add_assoc]
  by_cases hoffsets : validityBytes n + i * 4 + 8 ≤ payload.length
  · rw [if_pos (by omega), if_pos (by omega), Except.ok_bind, Except.ok_bind, viewString]
    generalize numberAt payload 4 (validityBytes n + i * 4) = b
    generalize numberAt payload 4 (validityBytes n + i * 4 + 4) = e
    dsimp only
    rw [List.drop_drop, List.length_drop]
    generalize (e + 2 ^ 32 - b) % 2 ^ 32 = len
    by_cases hbytes : len = 0 ∨ validityBytes n + (n + 1) % 2 ^ 32 * 4 + b + len ≤ payload.length
    · rw [if_neg (by omega)]
      exact .inl ⟨⟨hoffsets, hbytes⟩, _, rfl⟩
    · rw [if_pos (by omega)]
      exact .inr ⟨fun h => hbytes h.2, rfl⟩
  · refine .inr ⟨fun h => hoffsets h.1, ?_⟩
    split
    · rw [Except.ok_bind, if_neg (by omega)]
      rfl
    · rfl

/-- Strings are not checked at all. -/
theorem decodePlain_varchar_iff (hout : out.type = .varchar) :
    ThrowsOrAppends n out (decodePlain .varchar n payload out) ↔ StringsInside n payload := by
  rw [decodePlain, if_pos rfl]
  refine throwsOrAppends_rows_iff out fun i _ st hst => ?_
  refine appendSlot_cases payload i ?_
  rcases plainString_eq n payload i with ⟨hinside, s, hs⟩ | ⟨hinside, herror⟩
  · exact .inl ⟨hinside, _, hs, by rw [hst, hout]; rfl⟩
  · exact .inr ⟨hinside, herror⟩

/-! ## Packed indices and distances -/

/-- The bitmap of a payload that goes on behind it is in the payload. -/
theorem validity_inside {i off : Nat} (hi : i < n) (h : validityBytes n + off ≤ payload.length) :
    i / 8 < payload.length :=
  Nat.lt_of_lt_of_le (div_lt_validityBytes hi) (by omega)

/-- A row of a decoder whose bitmap is in the payload: NULL, or what the slot says. -/
theorem row_cases {i : Nat} {g : Except Exc Vector} {st : Vector} {P : Prop}
    (hbyte : i / 8 < payload.length)
    (hg : (P ∧ ∃ v, Appended st [v] g) ∨ (¬ P ∧ g = .error .undefinedBehaviour)) :
    ((bitAt payload i = true → P) ∧ ∃ v, Appended st [v] (do
        if ← testValidity payload i then g else st.append .null)) ∨
      (¬ (bitAt payload i = true → P) ∧ (do
        if ← testValidity payload i then g else st.append .null) = .error .undefinedBehaviour) := by
  rw [testValidity_eq, if_pos hbyte, Except.ok_bind]
  cases hbit : bitAt payload i with
  | false => exact .inl ⟨fun h => (by cases h), .null, append_appended (Value.hasType_null _)⟩
  | true =>
    rcases hg with ⟨hp, v, hv⟩ | ⟨hp, herror⟩
    · exact .inl ⟨fun _ => hp, v, hv⟩
    · exact .inr ⟨fun h => hp (h rfl), herror⟩

/-- The distances are not checked. -/
theorem decodeBitpack_iff {type : ColumnType} (htype : type = .int ∨ type = .bigInt)
    (hout : out.type = type) :
    ThrowsOrAppends n out (decodeBitpack type n payload out) ↔ DeltasInside n payload := by
  unfold decodeBitpack DeltasInside
  rw [getPod_drop (by decide)]
  by_cases hframe : validityBytes n + 8 ≤ payload.length
  · rw [if_pos hframe, Except.ok_bind]
    dsimp only
    rw [getPod_drop (by decide)]
    by_cases hwidth : validityBytes n + 8 + 1 ≤ payload.length
    · rw [if_pos hwidth, Except.ok_bind, unpackBits_eq]
      generalize numberAt payload 1 (validityBytes n + 8) = bw
      by_cases hpacked : PackedInside n bw (payload.drop (validityBytes n + 8 + 1))
      · refine ⟨fun _ _ => hpacked, fun _ => ?_⟩
        rw [if_pos hpacked, Except.ok_bind]
        refine (throwsOrAppends_rows_iff out (P := fun i => bitAt payload i = true → True)
          fun i hi st hst => ?_).mpr fun _ _ _ => trivial
        refine row_cases (validity_inside hi hframe) (.inl ⟨trivial, ?_⟩)
        rw [List.getElem?_map, List.getElem?_range hi]
        rcases htype with rfl | rfl <;> exact ⟨_, append_appended (by rw [hst, hout]; rfl)⟩
      · rw [if_neg hpacked]
        exact ⟨fun h => absurd h not_throwsOrAppends, fun h => absurd (h hwidth) hpacked⟩
    · rw [if_neg hwidth]
      exact ⟨fun _ h => absurd h hwidth, fun _ => ⟨_, rfl⟩⟩
  · rw [if_neg hframe]
    exact ⟨fun _ h => absurd h (by omega), fun _ => ⟨_, rfl⟩⟩

/-! ## Dictionaries -/

/-- An entry is checked. -/
theorem getEntry_drop (type : ColumnType) (payload : Bytes) (off : Nat) :
    (entryEnd type payload off ≤ payload.length ∧ ∃ v, v.hasType type = true ∧
        getEntry type (payload.drop off) = .ok (v, payload.drop (entryEnd type payload off))) ∨
      (¬ entryEnd type payload off ≤ payload.length ∧ ∃ what,
        getEntry type (payload.drop off) = .error (.runtimeError what)) := by
  unfold getEntry entryEnd
  by_cases htype : type = .varchar
  · subst htype
    rw [if_pos rfl, if_pos rfl, getPod_drop (by decide)]
    by_cases hlen : off + 4 ≤ payload.length
    · rw [if_pos hlen, Except.ok_bind]
      dsimp only
      rw [List.length_drop]
      by_cases hbytes : off + 4 + numberAt payload 4 off ≤ payload.length
      · rw [if_neg (by omega), List.drop_drop]
        exact .inl ⟨hbytes, _, rfl, rfl⟩
      · rw [if_pos (by omega)]
        exact .inr ⟨hbytes, _, rfl⟩
    · rw [if_neg hlen]
      exact .inr ⟨by omega, _, rfl⟩
  · have hw : 0 < fixedWidth type := by cases type <;> first | decide | exact absurd rfl htype
    rw [if_neg htype, if_neg htype, getPod_drop hw]
    by_cases hlen : off + fixedWidth type ≤ payload.length
    · rw [if_pos hlen]
      refine .inl ⟨hlen, _, ?_, rfl⟩
      cases type <;> first | rfl | exact absurd rfl htype
    · rw [if_neg hlen]
      exact .inr ⟨hlen, _, rfl⟩

/-- The entries are read up to their end, or one of them is cut off. -/
theorem getEntries_drop (type : ColumnType) (payload : Bytes) (l : List Nat) :
    ∀ (off : Nat) (dict : List Value), (∀ v ∈ dict, v.hasType type = true) →
    (∃ last entries, entriesEnd type payload l.length off = some last ∧
        entries.length = dict.length + l.length ∧ (∀ v ∈ entries, v.hasType type = true) ∧
        l.foldlM (fun (p : List Value × Bytes) _ => do
          let (v, cur) ← getEntry type p.2
          pure (p.1 ++ [v], cur)) (dict, payload.drop off) = .ok (entries, payload.drop last)) ∨
      (entriesEnd type payload l.length off = none ∧ ∃ what,
        l.foldlM (fun (p : List Value × Bytes) _ => do
          let (v, cur) ← getEntry type p.2
          pure (p.1 ++ [v], cur)) (dict, payload.drop off) = .error (.runtimeError what)) := by
  induction l with
  | nil => exact fun off dict hdict => .inl ⟨off, dict, rfl, rfl, hdict, rfl⟩
  | cons i l ih =>
    intro off dict hdict
    rw [List.foldlM_cons, List.length_cons, entriesEnd]
    rcases getEntry_drop type payload off with ⟨hend, v, hv, hget⟩ | ⟨hend, what, hget⟩
    · rw [if_pos hend, hget, Except.ok_bind]
      have hdict' : ∀ w ∈ dict ++ [v], w.hasType type = true := fun w hw => by
        rcases List.mem_append.mp hw with hw | hw
        · exact hdict w hw
        · exact List.mem_singleton.mp hw ▸ hv
      rcases ih (entryEnd type payload off) (dict ++ [v]) hdict' with
        ⟨last, entries, hlast, hlen, htyped, hrun⟩ | ⟨hnone, what, hrun⟩
      · refine .inl ⟨last, entries, hlast, ?_, htyped, hrun⟩
        rw [hlen, List.length_append, List.length_singleton]
        omega
      · exact .inr ⟨hnone, what, hrun⟩
    · rw [if_neg hend, hget]
      exact .inr ⟨rfl, what, rfl⟩

/-- The indices are not checked. -/
theorem decodeDictionary_iff {type : ColumnType} (hout : out.type = type) :
    ThrowsOrAppends n out (decodeDictionary type n payload out) ↔ IndicesInside type n payload := by
  have hcut : ∀ {off last : Nat} (count : Nat), entriesEnd type payload count off = some last →
      off ≤ last := by
    intro off last count
    induction count generalizing off with
    | zero => exact fun h => Nat.le_of_eq (Option.some.inj h)
    | succ count ih =>
      intro h
      rw [entriesEnd] at h
      split at h
      · have hle : off ≤ entryEnd type payload off := by
          unfold entryEnd
          split <;> omega
        exact Nat.le_trans hle (ih h)
      · cases h
  unfold decodeDictionary IndicesInside
  rw [getPod_drop (by decide)]
  by_cases hcount : validityBytes n + 4 ≤ payload.length
  · rw [if_pos hcount, Except.ok_bind]
    dsimp only
    generalize numberAt payload 4 (validityBytes n) = count
    have hloop := getEntries_drop type payload (List.range count) (validityBytes n + 4) []
      (fun v hv => by cases hv)
    rw [List.length_range] at hloop
    rcases hloop with ⟨last, entries, hlast, hlen, htyped, hrun⟩ | ⟨hnone, what, hrun⟩
    · have hrun' : (List.range count).foldlM (fun (dict, cur) _ => do
          let (v, cur) ← getEntry type cur
          pure (dict ++ [v], cur)) (([] : List Value), payload.drop (validityBytes n + 4)) =
          .ok (entries, payload.drop last) := hrun
      rw [hrun', Except.ok_bind]
      dsimp only
      rw [getPod_drop (by decide)]
      by_cases hwidth : last + 1 ≤ payload.length
      · rw [if_pos hwidth, Except.ok_bind, unpackBits_eq]
        have hsame : ∀ off, entriesEnd type payload count (validityBytes n + 4) = some off →
            off = last := fun off h => Option.some.inj (h.symm.trans hlast)
        by_cases hpacked : PackedInside n (numberAt payload 1 last) (payload.drop (last + 1))
        · rw [if_pos hpacked, Except.ok_bind]
          refine (throwsOrAppends_rows_iff (n := n) out
            (P := fun i => bitAt payload i = true →
              (packedValue (numberAt payload 1 last) (ofLeBytes (payload.drop (last + 1))) i).toNat <
                count)
            fun i hi st hst => ?_).trans
              ⟨fun h off hoff _ => ?_, fun h => (h last hlast hwidth).2⟩
          rotate_left
          · obtain rfl := hsame off hoff
            exact ⟨hpacked, h⟩
          · refine row_cases (validity_inside hi hcount) ?_
            rw [List.getElem?_map, List.getElem?_range hi, Option.map_some]
            dsimp only
            generalize packedValue (numberAt payload 1 last) _ i = idx
            by_cases hidx : idx.toNat < count
            · have hlt : idx.toNat < entries.length := by simpa [hlen] using hidx
              have hv := htyped _ (List.getElem_mem hlt)
              refine .inl ⟨hidx, entries[idx.toNat], ?_⟩
              rw [List.getElem?_eq_getElem hlt]
              dsimp only
              rw [Vector.appendValue, if_pos (by rw [hst, hout]; exact hv)]
              exact append_appended (by rw [hst, hout]; exact hv)
            · refine .inr ⟨hidx, ?_⟩
              rw [List.getElem?_eq_none (by simpa [hlen] using hidx)]
        · rw [if_neg hpacked]
          exact ⟨fun h => absurd h not_throwsOrAppends,
            fun h => absurd (h last hlast hwidth).1 hpacked⟩
      · rw [if_neg hwidth]
        refine ⟨fun _ off hoff hlt => ?_, fun _ => ⟨_, rfl⟩⟩
        obtain rfl := Option.some.inj (hoff.symm.trans hlast)
        exact absurd hlt (by omega)
    · have hrun' : (List.range count).foldlM (fun (dict, cur) _ => do
          let (v, cur) ← getEntry type cur
          pure (dict ++ [v], cur)) (([] : List Value), payload.drop (validityBytes n + 4)) =
          .error (.runtimeError what) := hrun
      rw [hrun']
      refine ⟨fun _ off hoff => ?_, fun _ => ⟨_, rfl⟩⟩
      rw [hnone] at hoff
      cases hoff
  · rw [if_neg hcount]
    refine ⟨fun _ off hoff hlt => ?_, fun _ => ⟨_, rfl⟩⟩
    have hle := hcut _ hoff
    omega

/-! ## Runs -/

/-- What a decoder that checks the bits does without an access out of range, the other does. -/
theorem decodeRun_of_below {type : ColumnType} {st : Bytes × Nat × Vector}
    (h : decodeRunBelow n type payload st ≠ .error .undefinedBehaviour) :
    decodeRun type payload st = decodeRunBelow n type payload st := by
  have hslot : ∀ i slot out, appendSlotBelow n payload i slot out ≠ .error .undefinedBehaviour →
      appendSlot payload i slot out = appendSlotBelow n payload i slot out := by
    intro i slot out
    unfold appendSlotBelow
    split
    · exact fun _ => rfl
    · exact fun h => absurd rfl h
  obtain ⟨cur, row, out⟩ := st
  unfold decodeRun decodeRunBelow at *
  dsimp only at *
  cases hbits : getRunBits type cur with
  | error e => rfl
  | ok p =>
    rw [hbits, Except.ok_bind] at h
    rw [Except.ok_bind, Except.ok_bind]
    cases hlen : getPod 4 p.2 with
    | error e => rfl
    | ok q =>
      rw [hlen, Except.ok_bind] at h
      rw [Except.ok_bind, Except.ok_bind]
      rw [Except.foldlM_eq_of_ne (fun out k => hslot _ _ out) fun herror => h (by rw [herror]; rfl)]

theorem decodeRle_of_below {type : ColumnType}
    (h : decodeRleBelow type n payload out ≠ .error .undefinedBehaviour) :
    decodeRle type n payload out = decodeRleBelow type n payload out := by
  unfold decodeRle decodeRleBelow at *
  cases hcount : getPod 4 (payload.drop (validityBytes n)) with
  | error e => rfl
  | ok p =>
    obtain ⟨count, cur⟩ := p
    rw [hcount, Except.ok_bind] at h
    rw [Except.ok_bind, Except.ok_bind]
    dsimp only at *
    rw [Except.foldlM_eq_of_ne (fun st _ => decodeRun_of_below) fun herror => h (by rw [herror]; rfl)]

/-- The decoder of runs is safe just if the one that checks the bits throws or appends all rows. -/
theorem safelyDecoded_rle_iff {type : ColumnType} : SafelyDecoded type .rle n payload out ↔
    ThrowsOrAppends n out (decodeRleBelow type n payload out) := by
  constructor
  · rintro ⟨houtcome, hbits⟩
    rwa [decodeChunk, decodeRle_of_below (hbits rfl)] at houtcome
  · intro h
    have hne : decodeRleBelow type n payload out ≠ .error .undefinedBehaviour := fun herror =>
      not_throwsOrAppends (herror ▸ h)
    exact ⟨by rwa [decodeChunk, decodeRle_of_below hne], fun _ => hne⟩

/-- One whole run: its rows are appended if there are no more than `n` rows with them. -/
theorem decodeRunBelow_whole {type : ColumnType} (htype : type ≠ .varchar) (hn : n < 2 ^ 32)
    (off : Nat) {row : Nat} (hwhole : off + runWidth type ≤ payload.length)
    (hbitmap : validityBytes n ≤ payload.length) (hrow : row ≤ n) {st : Vector}
    (hst : st.type = type) :
    if row + numberAt payload 4 (off + fixedWidth type) ≤ n then
      ∃ vs, vs.length = numberAt payload 4 (off + fixedWidth type) ∧ ∃ st' : Vector,
        st'.type = st.type ∧ st'.values = st.values ++ vs ∧
        decodeRunBelow n type payload (payload.drop off, row, st) =
          .ok (payload.drop (off + runWidth type),
            row + numberAt payload 4 (off + fixedWidth type), st')
    else decodeRunBelow n type payload (payload.drop off, row, st) = .error .undefinedBehaviour := by
  unfold runWidth at *
  have hbits : ∃ bits, getRunBits type (payload.drop off) =
      .ok (bits, payload.drop (off + fixedWidth type)) := by
    unfold getRunBits
    cases type with
    | varchar => exact absurd rfl htype
    | int =>
      rw [if_pos (show fixedWidth .int = 4 from rfl), getPod_drop (by decide),
        if_pos (by simp only [fixedWidth] at *; omega)]
      exact ⟨_, rfl⟩
    | bigInt | float =>
      rw [if_neg (by decide), getPod_drop (by decide),
        if_pos (by simp only [fixedWidth] at *; omega)]
      exact ⟨_, rfl⟩
  obtain ⟨bits, hbits⟩ := hbits
  have hlength : off + fixedWidth type + 4 ≤ payload.length := by omega
  unfold decodeRunBelow
  dsimp only
  rw [hbits, Except.ok_bind, getPod_drop (by decide), if_pos hlength, Except.ok_bind]
  dsimp only
  generalize numberAt payload 4 (off + fixedWidth type) = len
  have hloop := foldlM_rows (n := len) st
    (f := fun out k => appendSlotBelow n payload ((row + k) % 2 ^ 32) (pure (runValue type bits)) out)
    (P := fun k => (row + k) % 2 ^ 32 < n) fun k _ st' hst' => by
      unfold appendSlotBelow
      by_cases hk : (row + k) % 2 ^ 32 < n
      · have htyped : (runValue type bits).hasType st'.type = true := by
          rw [hst', hst]
          cases type <;> first | rfl | exact absurd rfl htype
        rw [if_pos hk]
        rcases appendSlot_cases payload ((row + k) % 2 ^ 32) (P := True)
          (.inl ⟨trivial, _, rfl, htyped⟩) with ⟨-, happended⟩ | ⟨hnot, -⟩
        · exact .inl ⟨hk, happended⟩
        · exact absurd ⟨Nat.lt_of_lt_of_le (div_lt_validityBytes hk) hbitmap, fun _ => trivial⟩ hnot
      · rw [if_neg hk]
        exact .inr ⟨hk, rfl⟩
  by_cases hfits : row + len ≤ n
  · rw [if_pos hfits]
    rcases hloop with ⟨-, vs, hlen, st', hst', htype', hvalues'⟩ | ⟨⟨k, hk, hnot⟩, -⟩
    · refine ⟨vs, hlen, st', htype', hvalues', ?_⟩
      rw [hst', Nat.mod_eq_of_lt (Nat.lt_of_le_of_lt hfits hn), Nat.add_assoc]
      rfl
    · exact absurd (by rw [Nat.mod_eq_of_lt (by omega)]; omega) hnot
  · rw [if_neg hfits]
    rcases hloop with ⟨hinside, -⟩ | ⟨-, herror⟩
    · -- the rows are counted through `n` itself
      have hlast := hinside (n - row) (by omega)
      rw [Nat.add_sub_cancel' hrow, Nat.mod_eq_of_lt hn] at hlast
      exact absurd hlast (Nat.lt_irrefl n)
    · rw [herror]
      rfl

/-- A run that is cut off is noticed. -/
theorem decodeRunBelow_cut {type : ColumnType} (htype : type ≠ .varchar) {off row : Nat}
    (hcut : ¬ off + runWidth type ≤ payload.length) (st : Vector) : ∃ what,
    decodeRunBelow n type payload (payload.drop off, row, st) = .error (.runtimeError what) := by
  unfold runWidth at hcut
  have hbits : (∃ bits, getRunBits type (payload.drop off) =
      .ok (bits, payload.drop (off + fixedWidth type))) ∨
        ∃ what, getRunBits type (payload.drop off) = .error (.runtimeError what) := by
    unfold getRunBits
    cases type with
    | varchar => exact absurd rfl htype
    | int =>
      rw [if_pos (show fixedWidth .int = 4 from rfl), getPod_drop (by decide)]
      split
      · exact .inl ⟨_, rfl⟩
      · exact .inr ⟨_, rfl⟩
    | bigInt | float =>
      rw [if_neg (by decide), getPod_drop (by decide)]
      split
      · exact .inl ⟨_, rfl⟩
      · exact .inr ⟨_, rfl⟩
  unfold decodeRunBelow
  dsimp only
  rcases hbits with ⟨bits, hbits⟩ | ⟨what, hthrow⟩
  · rw [hbits, Except.ok_bind, getPod_drop (by decide), if_neg (by omega)]
    exact ⟨_, rfl⟩
  · rw [hthrow]
    exact ⟨_, rfl⟩

theorem rowsBefore_succ (type : ColumnType) (n : Nat) (payload : Bytes) (r : Nat) :
    rowsBefore type n payload (r + 1) =
      rowsBefore type n payload r + runLength type n payload r := by
  simp [rowsBefore, List.range_succ]

/-- The whole runs: their rows are appended if there are no more than `n`. -/
theorem decodeRuns_whole {type : ColumnType} (htype : type ≠ .varchar) (hn : n < 2 ^ 32)
    (hout : out.type = type) (hfirst : firstRun n ≤ payload.length) {r : Nat}
    (hr : r * runWidth type ≤ payload.length - firstRun n) :
    if rowsBefore type n payload r ≤ n then
      ∃ vs, vs.length = rowsBefore type n payload r ∧ ∃ st : Vector,
        st.type = out.type ∧ st.values = out.values ++ vs ∧
        (List.range r).foldlM (fun st _ => decodeRunBelow n type payload st)
          (payload.drop (firstRun n), 0, out) =
          .ok (payload.drop (firstRun n + r * runWidth type), rowsBefore type n payload r, st)
    else (List.range r).foldlM (fun st _ => decodeRunBelow n type payload st)
      (payload.drop (firstRun n), 0, out) = .error .undefinedBehaviour := by
  induction r with
  | zero => exact ⟨[], rfl, out, rfl, by simp, by simp [rowsBefore]⟩
  | succ r ih =>
    rw [Nat.succ_mul] at hr
    have hrest := ih (by omega)
    rw [rowsBefore_succ, List.range_succ, List.foldlM_append]
    by_cases hbefore : rowsBefore type n payload r ≤ n
    · rw [if_pos hbefore] at hrest
      obtain ⟨vs, hlen, st, hst, hvalues, hrun⟩ := hrest
      rw [hrun, Except.ok_bind, List.foldlM_cons]
      have hbitmap : validityBytes n ≤ payload.length := by
        unfold firstRun at hfirst
        omega
      have hstep := decodeRunBelow_whole htype hn (firstRun n + r * runWidth type)
        (show _ ≤ payload.length by omega) hbitmap hbefore (hst.trans hout)
      rw [runLength]
      generalize numberAt payload 4 (firstRun n + r * runWidth type + fixedWidth type) = len at *
      split
      · rename_i hfits
        rw [if_pos hfits] at hstep
        obtain ⟨ws, hws, st', hst', hvalues', hrun'⟩ := hstep
        refine ⟨vs ++ ws, by simp [hlen, hws], st', hst'.trans hst, ?_, ?_⟩
        · rw [hvalues', hvalues, List.append_assoc]
        · rw [hrun', Nat.succ_mul, ← Nat.add_assoc]
          rfl
      · rename_i hfits
        rw [if_neg hfits] at hstep
        rw [hstep]
        rfl
    · rw [if_neg hbefore] at hrest
      rw [if_neg (by omega), hrest]
      rfl

/-- Run lengths are not checked against the number of rows. -/
theorem decodeRleBelow_iff {type : ColumnType} (htype : type ≠ .varchar) (hn : n < 2 ^ 32)
    (hout : out.type = type) : ThrowsOrAppends n out (decodeRleBelow type n payload out) ↔
      RunsInside type n payload := by
  unfold decodeRleBelow RunsInside
  rw [getPod_drop (by decide), ← firstRun, ← numRuns]
  by_cases hfirst : firstRun n ≤ payload.length
  · rw [if_pos hfirst, Except.ok_bind]
    have hwidth : 0 < runWidth type := Nat.succ_pos _
    have hwhole : wholeRuns type n payload * runWidth type ≤ payload.length - firstRun n :=
      (Nat.le_div_iff_mul_le hwidth).mp (Nat.min_le_right _ _)
    have hmin : wholeRuns type n payload ≤ numRuns n payload := Nat.min_le_left _ _
    obtain ⟨d, hd⟩ := Nat.exists_eq_add_of_le hmin
    have hloop := decodeRuns_whole htype hn hout hfirst hwhole
    dsimp only
    rw [hd, List.range_add, List.foldlM_append]
    by_cases hbefore : rowsBefore type n payload (wholeRuns type n payload) ≤ n
    · rw [if_pos hbefore] at hloop
      obtain ⟨vs, hlen, st, -, hvalues, hrun⟩ := hloop
      rw [hrun, Except.ok_bind]
      cases d with
      | zero =>
        -- all runs are whole
        have hrows : ThrowsOrAppends n out (.ok st) ↔
            rowsBefore type n payload (wholeRuns type n payload) = n := by
          show st.values.length = out.values.length + n ↔ _
          rw [hvalues, List.length_append, hlen]
          omega
        exact hrows.trans ⟨fun h _ => ⟨hbefore, fun _ => h⟩, fun h => (h hfirst).2 rfl⟩
      | succ d =>
        -- the next run is cut off
        have hcut : ¬ firstRun n + wholeRuns type n payload * runWidth type + runWidth type ≤
            payload.length := by
          intro hle
          have hmore : (wholeRuns type n payload + 1) * runWidth type ≤
              payload.length - firstRun n := by
            rw [Nat.succ_mul]
            omega
          have hdiv := (Nat.le_div_iff_mul_le hwidth).mpr hmore
          have hwhole : wholeRuns type n payload = min (numRuns n payload)
            ((payload.length - firstRun n) / runWidth type) := rfl
          omega
        obtain ⟨what, hthrow⟩ := decodeRunBelow_cut htype hcut st
        rw [List.range_succ_eq_map, List.map_cons, List.foldlM_cons, hthrow]
        exact ⟨fun _ _ => ⟨hbefore, fun hall => absurd hall (by omega)⟩, fun _ => ⟨_, rfl⟩⟩
    · rw [if_neg hbefore] at hloop
      rw [hloop]
      exact ⟨fun h => absurd h not_throwsOrAppends, fun h => absurd (h hfirst).1 hbefore⟩
  · rw [if_neg hfirst]
    exact ⟨fun _ h => absurd h hfirst, fun _ => ⟨_, rfl⟩⟩

/-! ## All decoders -/

/-- A decoder throws or appends `n` rows without an access out of range just if what the payload
    says, as far as the decoder does not check it, is in the payload. -/
theorem safelyDecoded_iff {type : ColumnType} {enc : Encoding} (henc : enc ∈ candidates type)
    (hn : n < 2 ^ 32) (hout : out.type = type) :
    SafelyDecoded type enc n payload out ↔ LayoutInside type enc n payload := by
  have hother : enc ≠ .rle → (SafelyDecoded type enc n payload out ↔
      ThrowsOrAppends n out (decodeChunk type enc n payload out)) := fun hne =>
    ⟨fun h => h.outcome, fun h => ⟨h, fun heq => absurd heq hne⟩⟩
  unfold LayoutInside
  cases enc with
  | plain =>
    refine (hother (by decide)).trans ?_
    dsimp only
    by_cases htype : type = .varchar
    · subst htype
      exact (decodePlain_varchar_iff hout).trans ⟨fun h _ => h, fun h => h rfl⟩
    · exact ⟨fun _ h => absurd h htype, fun _ => decodePlain_fixed htype hout⟩
  | rle =>
    have htype : type ≠ .varchar := by
      rintro rfl
      exact absurd henc (by decide)
    exact safelyDecoded_rle_iff.trans (decodeRleBelow_iff htype hn hout)
  | dictionary => exact (hother (by decide)).trans (decodeDictionary_iff hout)
  | bitpack =>
    refine (hother (by decide)).trans (decodeBitpack_iff ?_ hout)
    cases type with
    | int => exact .inl rfl
    | bigInt => exact .inr rfl
    | float | varchar => exact absurd henc (by decide)

end

/-- One run of two rows for a chunk of two rows. -/
theorem safelyDecoded_iff_two :
    SafelyDecoded .int .rle 2 [3, 1, 0, 0, 0, 7, 0, 0, 0, 2, 0, 0, 0] (.empty .int) := by
  have henc : Encoding.rle ∈ candidates .int := by decide
  have hlayout : LayoutInside .int .rle 2 [3, 1, 0, 0, 0, 7, 0, 0, 0, 2, 0, 0, 0] :=
    fun _ => by decide
  exact (safelyDecoded_iff henc (by decide) rfl).mpr hlayout

/-- One run of two rows for a chunk of one row: two rows are appended. -/
theorem not_safelyDecoded_two : ¬ ∀ (type : ColumnType) (enc : Encoding) (n : Nat)
    (payload : Bytes) (out : Vector), enc ∈ candidates type → n < 2 ^ 32 → out.type = type →
    SafelyDecoded type enc n payload out := by
  intro h
  have htwo := (h .int .rle 1 [1, 1, 0, 0, 0, 7, 0, 0, 0, 2, 0, 0, 0] (.empty .int) (by decide)
    (by decide) rfl).outcome
  have hlength : (2 : Nat) = 1 := htwo
  cases hlength

end LiteOLAP
