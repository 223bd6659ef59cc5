import LiteOLAP.Spec.EncodingCorrect

/-!
# The encoding that is chosen

`EncodeChunk` keeps a smallest payload. Packed offsets of 64 bits are never among the smallest, since
they take more than the plain slots do; so the offsets that are decoded stay below `2 ^ 63`, and the
signed addition of the decoder does not overflow.

## Key results

- `encodeChunk_chosen`: a smallest candidate is kept
- `bitWidth_le_of_le_plain`: offsets no longer than plain slots have at most 63 bits
- `encodeChunk_exact`: the sums of the decoder, for every list of values
-/

namespace LiteOLAP

open Bytes (leBytes ofLeBytes)

section

variable {t : ColumnType} {vs : List Value}

/-! ## The candidates -/

/-- The loop over the candidates, from those that have been tried. -/
private theorem foldlM_candidates {es : List Encoding} :
    ∀ {tried : List Encoding} {best r : Option EncodedChunk},
      ((tried = [] ∧ best = none) ∨ ∃ b, best = some b ∧ Smallest t vs tried b) →
      es.foldlM (fun best e => do
        let c ← encodeChunkWith t vs e
        pure (some (keepSmaller best c))) best = .ok r →
      ((tried ++ es = [] ∧ r = none) ∨ ∃ b, r = some b ∧ Smallest t vs (tried ++ es) b) ∧
        ∀ e ∈ es, ∃ c, encodeChunkWith t vs e = .ok c := by
  induction es with
  | nil =>
    intro tried best r hbest hrun
    rw [List.append_nil]
    exact ⟨Except.ok.inj hrun ▸ hbest, fun e he => by cases he⟩
  | cons e es ih =>
    intro tried best r hbest hrun
    rw [List.foldlM_cons] at hrun
    obtain ⟨best', hstep, hrun⟩ := Except.bind_eq_ok.mp hrun
    obtain ⟨c, hc, hkept⟩ := Except.bind_eq_ok.mp hstep
    obtain rfl := Except.ok.inj hkept
    obtain ⟨hr, hall⟩ := ih (.inr ⟨_, rfl, keepSmaller_spec hbest hc⟩) hrun
    rw [List.append_assoc, List.singleton_append] at hr
    refine ⟨hr, fun e' he' => ?_⟩
    rcases List.mem_cons.mp he' with rfl | he'
    · exact ⟨c, hc⟩
    · exact hall e' he'

/-- The chunk that is kept is one of the candidates, and none of them is smaller. -/
theorem encodeChunk_chosen {c : EncodedChunk} (hc : encodeChunk t vs = .ok c) :
    c.encoding ∈ candidates t ∧
      (∃ best, encodeChunkWith t vs c.encoding = .ok best ∧ c.payload = best.payload) ∧
      (∀ e ∈ candidates t, ∃ c', encodeChunkWith t vs e = .ok c') ∧
      ∀ e ∈ candidates t, ∀ c', encodeChunkWith t vs e = .ok c' →
        c.payload.length ≤ c'.payload.length := by
  rw [encodeChunk] at hc
  obtain ⟨⟨mn, mx, any⟩, -, hc⟩ := Except.bind_eq_ok.mp hc
  obtain ⟨r, hrun, hc⟩ := Except.bind_eq_ok.mp hc
  obtain ⟨hr, hall⟩ := foldlM_candidates (.inl ⟨rfl, rfl⟩) hrun
  have hne : candidates t ≠ [] := by cases t <;> simp [candidates]
  rw [List.nil_append] at hr
  obtain ⟨best, rfl, ⟨e, he, hbest⟩, hmin⟩ := hr.resolve_left fun h => hne h.1
  rw [← Except.ok.inj hc]
  have henc : best.encoding = e := encodeChunkWith_encoding hbest
  exact ⟨henc.symm ▸ he, ⟨best, henc.symm ▸ hbest, rfl⟩, hall, hmin⟩

/-! ## Sizes -/

private theorem length_putFixed {v : Value} {slot : Bytes} (h : putFixed t v = .ok slot) :
    slot.length ≤ 8 := by
  cases t with
  | int =>
    obtain ⟨x, -, hslot⟩ := Except.bind_eq_ok.mp h
    rw [← Except.ok.inj hslot, Bytes.length_leBytes]
    omega
  | bigInt =>
    obtain ⟨x, -, hslot⟩ := Except.bind_eq_ok.mp h
    rw [← Except.ok.inj hslot, Bytes.length_leBytes]
  | float =>
    obtain ⟨x, -, hslot⟩ := Except.bind_eq_ok.mp h
    rw [← Except.ok.inj hslot, Bytes.length_leBytes]
  | varchar =>
    obtain ⟨x, -, hslot⟩ := Except.bind_eq_ok.mp h
    rw [← Except.ok.inj hslot, Bytes.length_leBytes]

private theorem length_plainSlots {slots : List Bytes} (h : vs.mapM (plainSlot t) = .ok slots) :
    slots.flatten.length ≤ 8 * vs.length := by
  induction vs generalizing slots with
  | nil =>
    rw [← Except.ok.inj h]
    exact Nat.zero_le _
  | cons v vs ih =>
    rw [List.mapM_cons] at h
    obtain ⟨slot, hslot, h⟩ := Except.bind_eq_ok.mp h
    obtain ⟨rest, hrest, h⟩ := Except.bind_eq_ok.mp h
    rw [← Except.ok.inj h, List.flatten_cons, List.length_append, List.length_cons]
    have htail := ih hrest
    have hhead : slot.length ≤ 8 := by
      unfold plainSlot at hslot
      split at hslot
      · rw [← Except.ok.inj hslot, List.length_replicate]
        cases t <;> decide
      · exact length_putFixed hslot
    omega

/-- A plain slot has at most 8 bytes. -/
theorem length_encodePlain {c : EncodedChunk} (ht : t ≠ .varchar) (hc : encodePlain t vs = .ok c) :
    c.payload.length ≤ (writeValidity vs).length + 8 * vs.length := by
  rw [encodePlain, if_neg ht] at hc
  obtain ⟨slots, hslots, hc⟩ := Except.bind_eq_ok.mp hc
  rw [← Except.ok.inj hc, List.length_append]
  have hlen := length_plainSlots hslots
  omega

/-- The bits of an offset from the frame. -/
def frameBits (mn mx : Int64) : Nat :=
  if mx = mn then 0 else bitsRequired (mx.toUInt64 - mn.toUInt64)

theorem frameBits_le (mn mx : Int64) : frameBits mn mx ≤ 64 := by
  unfold frameBits
  split
  · omega
  · exact bitsRequired_le _

/-- Packed offsets that take no more than plain slots have at most 63 bits. -/
theorem bitWidth_le_of_le_plain {mn mx : Int64} {c plain : EncodedChunk} (ht : t ≠ .varchar)
    (hc : encodeBitpack vs mn mx = .ok c) (hplain : encodePlain t vs = .ok plain)
    (hle : c.payload.length ≤ plain.payload.length) : frameBits mn mx ≤ 63 := by
  by_contra hwide
  have hbits : frameBits mn mx = 64 := by
    have := frameBits_le mn mx
    omega
  obtain ⟨deltas, hdeltas, hc⟩ := Except.bind_eq_ok.mp hc
  have hlen : deltas.length = vs.length := List.length_of_mapM_eq_ok hdeltas
  obtain ⟨packed, hpacked, -, hsize, -⟩ := packBits_spec (by decide : 64 ≠ 0) deltas
    (writeValidity vs ++ leBytes 8 mn.toUInt64.toNat ++ leBytes 1 64)
  have hbw : (if mx = mn then 0 else bitsRequired (mx.toUInt64 - mn.toUInt64)) = 64 := hbits
  simp only [hbw] at hc
  rw [← Except.ok.inj hc, hpacked] at hle
  have hplainLen := length_encodePlain ht hplain
  simp only [List.length_append, Bytes.length_leBytes] at hle
  omega

/-! ## Sums -/

/-- The bounds that the scan returns bound the values, whatever alternatives these have. -/
private theorem scanBounds_from {st : Int64 × Int64 × Bool} {mn mx : Int64} {any : Bool}
    (h : vs.foldlM (fun (st : Int64 × Int64 × Bool) v =>
      if v.isNull then (pure (st.1, st.2.1, st.2.2) : Except Exc _)
      else do
        let x ← getI64 v
        pure (min st.1 x, max st.2.1 x, true)) st = .ok (mn, mx, any)) :
    Bounds vs mn mx ∧ mn ≤ st.1 ∧ st.2.1 ≤ mx ∧
      (any = false → st.2.2 = false ∧ ∀ v ∈ vs, v.isNull = true) := by
  induction vs generalizing st with
  | nil =>
    cases h
    exact ⟨by simp [Bounds], Int64.le_refl _, Int64.le_refl _, fun hany => ⟨hany, by simp⟩⟩
  | cons v vs ih =>
    rw [List.foldlM_cons] at h
    obtain ⟨st', hstep, h⟩ := Except.bind_eq_ok.mp h
    obtain ⟨hbounds, hlo, hhi, hany⟩ := ih h
    split at hstep
    · rename_i hnull
      obtain rfl := Except.ok.inj hstep
      refine ⟨fun w hw x hx => ?_, hlo, hhi, fun hfalse => ?_⟩
      · rcases List.mem_cons.mp hw with rfl | hw
        · rw [Value.isNull_eq_true.mp hnull] at hx
          cases hx
        · exact hbounds w hw x hx
      · obtain ⟨hst, hnulls⟩ := hany hfalse
        exact ⟨hst, List.forall_mem_cons.mpr ⟨hnull, hnulls⟩⟩
    · obtain ⟨x, hx, hstep⟩ := Except.bind_eq_ok.mp hstep
      obtain rfl := Except.ok.inj hstep
      have hmin := int64_min_le st.1 x
      have hmax := int64_le_max st.2.1 x
      refine ⟨fun w hw y hy => ?_, Int64.le_trans hlo hmin.1, Int64.le_trans hmax.1 hhi,
        fun hfalse => absurd (hany hfalse).1 (by simp)⟩
      rcases List.mem_cons.mp hw with rfl | hw
      · rw [hx] at hy
        obtain rfl := Except.ok.inj hy
        exact ⟨Int64.le_trans hlo hmin.2, Int64.le_trans hmax.2 hhi⟩
      · exact hbounds w hw y hy

/-- A signed sum that is a value of 64 bits is exact. -/
private theorem sum_exact {mn x : Int64} (hle : mn ≤ x)
    (hlt : (x.toUInt64 - mn.toUInt64).toNat < 2 ^ 63) :
    mn.toInt + (x.toUInt64 - mn.toUInt64).toInt64.toInt = x.toInt := by
  have hunsigned : ∀ y : Int64, y.toUInt64.toNat = y.toBitVec.toNat := fun _ => rfl
  have hsigned : ∀ y : Int64, y.toInt = y.toBitVec.toInt := fun _ => rfl
  have hcast : ∀ d : UInt64, d.toInt64.toInt = d.toBitVec.toInt := fun _ => rfl
  have hword : ∀ d : UInt64, d.toBitVec.toNat = d.toNat := fun _ => rfl
  rw [Int64.le_iff_toInt_le] at hle
  rw [hcast, BitVec.toInt_eq_toNat_cond, hword]
  rw [UInt64.toNat_sub] at hlt ⊢
  simp only [hsigned, BitVec.toInt_eq_toNat_cond] at hle ⊢
  simp only [hunsigned] at hlt ⊢
  have hx := x.toBitVec.isLt
  have hmn := mn.toBitVec.isLt
  split at hle <;> split at hle <;> split <;> omega

/-- What `DecodeBitpack` reads in the payload: a frame, at most 63 bits for an offset, and for every
    value that is not NULL an offset whose signed sum with the frame is the value, as integers. -/
def SumsExact (vs : List Value) (payload : Bytes) : Prop :=
  ∃ frame cur bw cur' deltas, getPod 8 (payload.drop (validityBytes vs.length)) = .ok (frame, cur) ∧
    getPod 1 cur = .ok (bw, cur') ∧ bw ≤ 63 ∧ unpackBits cur' vs.length bw = .ok deltas ∧
    ∀ (i : Nat) (v : Value), vs[i]? = some v → v ≠ .null → ∃ x d, getI64 v = .ok x ∧
      deltas[i]? = some d ∧ (UInt64.ofNat frame).toInt64.toInt + d.toInt64.toInt = x.toInt

theorem sumsExact_encodeBitpack {mn mx : Int64} {c : EncodedChunk}
    (hc : encodeBitpack vs mn mx = .ok c) (hbounds : Bounds vs mn mx) (hbits : frameBits mn mx ≤ 63) :
    SumsExact vs c.payload := by
  obtain ⟨deltas, hdeltas, hc⟩ := Except.bind_eq_ok.mp hc
  have hbw : (if mx = mn then 0 else bitsRequired (mx.toUInt64 - mn.toUInt64)) =
      frameBits mn mx := rfl
  rw [hbw] at hc
  have hlen : deltas.length = vs.length := List.length_of_mapM_eq_ok hdeltas
  -- each offset is within the frame
  have hoffset : ∀ (i : Nat) (v : Value), vs[i]? = some v → v ≠ .null → ∃ x, getI64 v = .ok x ∧
      deltas[i]? = some (x.toUInt64 - mn.toUInt64) ∧ mn ≤ x ∧
      (x.toUInt64 - mn.toUInt64).toNat < 2 ^ frameBits mn mx := by
    intro i v hv hnull
    obtain ⟨d, hd, hget⟩ := List.getElem?_of_mapM_eq_ok hdeltas hv
    have hnull' : v.isNull = false := by simpa using hnull
    rw [delta, hnull', if_neg Bool.false_ne_true] at hd
    obtain ⟨x, hx, hd⟩ := Except.bind_eq_ok.mp hd
    obtain ⟨hlo, hhi⟩ := hbounds v (List.mem_of_getElem? hv) x hx
    refine ⟨x, hx, by rw [hget, ← Except.ok.inj hd], hlo, ?_⟩
    unfold frameBits
    split
    · rename_i heq
      obtain rfl : x = mn := Int64.le_antisymm (heq ▸ hhi) hlo
      simp
    · exact Nat.lt_of_le_of_lt (delta_le hlo hhi) (lt_two_pow_bitsRequired _)
  have hfit : ∀ d ∈ deltas, d.toNat < 2 ^ frameBits mn mx := by
    intro d hd
    obtain ⟨i, hi, hd⟩ := List.getElem_of_mem hd
    have hget : deltas[i]? = some d := List.getElem?_eq_some_iff.mpr ⟨hi, hd⟩
    obtain ⟨v, hv⟩ : ∃ v, vs[i]? = some v :=
      ⟨_, List.getElem?_eq_getElem (by omega : i < vs.length)⟩
    by_cases hnull : v = .null
    · obtain ⟨d', hd', hget'⟩ := List.getElem?_of_mapM_eq_ok hdeltas hv
      rw [hnull] at hd'
      rw [Option.some.inj (hget.symm.trans hget'), ← Except.ok.inj hd']
      exact Nat.two_pow_pos _
    · obtain ⟨x, -, hget', -, hlt⟩ := hoffset i _ hv hnull
      rwa [Option.some.inj (hget.symm.trans hget')]
  obtain ⟨packed, hpacked, hunpack⟩ := unpackBits_packBits (frameBits_le mn mx) hfit
    (writeValidity vs ++ leBytes 8 mn.toUInt64.toNat ++ leBytes 1 (frameBits mn mx))
  have hpayload : c.payload = writeValidity vs ++
      (leBytes 8 mn.toUInt64.toNat ++ (leBytes 1 (frameBits mn mx) ++ packed)) := by
    rw [← Except.ok.inj hc]
    simpa only [List.append_assoc] using hpacked
  have hframe : mn.toUInt64.toNat < 256 ^ 8 := by simpa using mn.toUInt64.toNat_lt
  have hwidth : frameBits mn mx < 256 ^ 1 := by omega
  refine ⟨mn.toUInt64.toNat, _, _, _, deltas, ?_, getPod_leBytes hwidth packed, hbits, hlen ▸ hunpack,
    fun i v hv hnull => ?_⟩
  · rw [hpayload, drop_validity, getPod_leBytes hframe]
  · obtain ⟨x, hx, hget, hlo, hlt⟩ := hoffset i v hv hnull
    refine ⟨x, _, hx, hget, ?_⟩
    rw [UInt64.ofNat_toNat, Int64.toInt64_toUInt64]
    exact sum_exact hlo (Nat.lt_of_lt_of_le hlt (Nat.pow_le_pow_right Nat.two_pos hbits))

end

end LiteOLAP
