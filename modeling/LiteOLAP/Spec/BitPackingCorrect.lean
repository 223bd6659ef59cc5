import LiteOLAP.Native.Encoding

/-!
# Packed values and the validity bitmap read back

`PackBits` writes the number whose digits in base `2 ^ bitWidth` are the values, and
`UnpackBits` divides it up again.

## Key results

- `unpackBits_packBits`: values of at most `bitWidth` bits come back from what was appended
- `packBits_exact`: what is appended, to the byte, and what it is read back as at any width
- `lt_two_pow_bitsRequired`: `BitsRequired` is wide enough
- `testValidity_writeValidity`: the bitmap says which values are not NULL
-/

namespace LiteOLAP

open Bytes (ofLeBytes)

/-! ## BitsRequired -/

private theorem countBits_add (b m : Nat) : countBits b m = b + countBits 0 m := by
  induction m using Nat.strong_induction_on generalizing b with
  | _ m ih =>
    rw [countBits, countBits.eq_def 0]
    split
    · rename_i hpos
      have hlt : m >>> 1 < m := by rw [Nat.shiftRight_one]; omega
      rw [ih _ hlt, ih _ hlt (0 + 1)]
      omega
    · rfl

private theorem lt_two_pow_countBits (m : Nat) : m < 2 ^ countBits 0 m := by
  induction m using Nat.strong_induction_on with
  | _ m ih =>
    rw [countBits]
    split
    · rename_i hpos
      have hhalf := ih (m >>> 1) (by rw [Nat.shiftRight_one]; omega)
      rw [countBits_add, Nat.pow_add]
      rw [Nat.shiftRight_one] at hhalf ⊢
      omega
    · omega

private theorem countBits_le {m k : Nat} (h : m < 2 ^ k) : countBits 0 m ≤ k := by
  induction k generalizing m with
  | zero =>
    obtain rfl : m = 0 := by simpa using h
    simp [countBits]
  | succ k ih =>
    rw [countBits]
    split
    · have hhalf : m >>> 1 < 2 ^ k := by
        rw [Nat.shiftRight_one]
        rw [Nat.pow_succ] at h
        omega
      have hle := ih hhalf
      rw [countBits_add]
      omega
    · omega

theorem bitsRequired_pos (m : UInt64) : 0 < bitsRequired m := by
  simp only [bitsRequired]
  split <;> omega

theorem bitsRequired_le (m : UInt64) : bitsRequired m ≤ 64 := by
  have hle : countBits 0 m.toNat ≤ 64 := countBits_le m.toNat_lt
  simp only [bitsRequired]
  split <;> omega

/-- A number fits in the bits it requires. -/
theorem lt_two_pow_bitsRequired (m : UInt64) : m.toNat < 2 ^ bitsRequired m := by
  have hlt := lt_two_pow_countBits m.toNat
  simp only [bitsRequired]
  split
  · rename_i hzero
    rw [hzero] at hlt
    omega
  · exact hlt

/-! ## PackBits -/

/-- The number that has the values as its digits in base `2 ^ bitWidth`. -/
def packedNumber (bitWidth : Nat) : List UInt64 → Nat
  | [] => 0
  | v :: vs => v.toNat % 2 ^ bitWidth + 2 ^ bitWidth * packedNumber bitWidth vs

private theorem mod_two_pow_split {v take n : Nat} (h : take ≤ n) :
    v % 2 ^ n = v % 2 ^ take + 2 ^ take * (v / 2 ^ take % 2 ^ (n - take)) := by
  obtain ⟨d, rfl⟩ := Nat.exists_eq_add_of_le h
  rw [Nat.pow_add, Nat.mod_mul, Nat.add_sub_cancel_left]

/-- The inner loop writes the low bits of the value. -/
theorem packValue_spec (w : BitWriter) (v n : Nat) :
    (packValue w v n).count = w.count + n ∧
      (packValue w v n).value = w.value + 2 ^ w.count * (v % 2 ^ n) ∧
      w.out <+: (packValue w v n).out := by
  induction n using Nat.strong_induction_on generalizing w v with
  | _ n ih =>
    rw [packValue]
    split
    · rename_i hpos
      have hbits := w.bits_lt
      have hle : min (8 - w.bits) n ≤ n := Nat.min_le_right _ _
      have hroom : w.bits + min (8 - w.bits) n ≤ 8 := by omega
      dsimp only
      generalize hput : w.put v (min (8 - w.bits) n) hroom = w'
      have hcount : w'.count = w.count + min (8 - w.bits) n := by rw [← hput, BitWriter.count_put]
      have hvalue : w'.value = w.value + 2 ^ w.count * (v % 2 ^ min (8 - w.bits) n) := by
        rw [← hput, BitWriter.value_put]
      have hextends : w.out <+: w'.out := hput ▸ BitWriter.out_prefix_put _ _ _ _
      obtain ⟨hc, hv, hp⟩ :=
        ih (n - min (8 - w.bits) n) (by omega) w' (v >>> min (8 - w.bits) n)
      refine ⟨by rw [hc, hcount]; omega, ?_, hextends.trans hp⟩
      rw [hv, hvalue, hcount, mod_two_pow_split hle, Nat.shiftRight_eq_div_pow, Nat.pow_add]
      ring
    · obtain rfl : n = 0 := by omega
      simp [Nat.mod_one]

private theorem foldl_packValue_spec (bitWidth : Nat) (vals : List UInt64) (w : BitWriter) :
    (vals.foldl (fun w v => packValue w v.toNat bitWidth) w).count =
        w.count + bitWidth * vals.length ∧
      (vals.foldl (fun w v => packValue w v.toNat bitWidth) w).value =
        w.value + 2 ^ w.count * packedNumber bitWidth vals ∧
      w.out <+: (vals.foldl (fun w v => packValue w v.toNat bitWidth) w).out := by
  induction vals generalizing w with
  | nil => simp [packedNumber]
  | cons v vs ih =>
    obtain ⟨hc₁, hv₁, hp₁⟩ := packValue_spec w v.toNat bitWidth
    obtain ⟨hc, hv, hp⟩ := ih (packValue w v.toNat bitWidth)
    rw [List.foldl_cons]
    refine ⟨?_, ?_, hp₁.trans hp⟩
    · rw [hc, hc₁, List.length_cons, Nat.mul_add]
      omega
    · rw [hv, hv₁, hc₁, packedNumber, Nat.pow_add]
      ring

/-- Packing appends bytes that stand for the packed number. -/
theorem packBits_spec {bitWidth : Nat} (h : bitWidth ≠ 0) (vals : List UInt64) (out : Bytes) :
    ∃ packed, packBits vals bitWidth out = out ++ packed ∧
      ofLeBytes packed = packedNumber bitWidth vals ∧
      bitWidth * vals.length ≤ 8 * packed.length ∧
      8 * packed.length < bitWidth * vals.length + 8 := by
  obtain ⟨hcount, hvalue, hextends⟩ := foldl_packValue_spec bitWidth vals (.start out)
  rw [packBits, if_neg h]
  generalize vals.foldl (fun w v => packValue w v.toNat bitWidth) (.start out) = w at *
  obtain ⟨packed, hpacked⟩ := hextends.trans w.out_prefix_flush
  have hout : (BitWriter.start out).out = out := rfl
  rw [hout] at hpacked
  have hflush := w.ofLeBytes_flush
  have hlen := w.count_le_flush
  have hpadding := w.flush_lt_count
  rw [← hpacked, Bytes.ofLeBytes_append, hvalue] at hflush
  rw [← hpacked, hcount, List.length_append] at hlen hpadding
  simp only [BitWriter.value_start, BitWriter.count_start] at hflush hlen hpadding
  refine ⟨packed, hpacked.symm, ?_, by omega, by omega⟩
  exact Nat.eq_of_mul_eq_mul_left (Nat.two_pow_pos (8 * out.length)) (by omega)

/-! ## UnpackBits -/

/-- The inner loop reads the bits of the value that are still missing. -/
theorem unpackValue_spec {bitWidth : Nat} (hbw : bitWidth ≤ 64) {r : BitReader} {got val : Nat}
    (hgot : got ≤ bitWidth) (hval : val < 2 ^ got) (havail : bitWidth - got ≤ r.avail) :
    ∃ r', unpackValue bitWidth r got val =
        .ok (UInt64.ofNat (val + 2 ^ got * (r.value % 2 ^ (bitWidth - got))), r') ∧
      r'.avail = r.avail - (bitWidth - got) ∧ r'.value = r.value / 2 ^ (bitWidth - got) := by
  induction hn : bitWidth - got using Nat.strong_induction_on generalizing r got val with
  | _ n ih =>
    subst hn
    rw [unpackValue]
    split
    · rename_i hlt
      obtain ⟨r₁, hr₁, hbits₁, havail₁, hvalue₁⟩ := BitReader.refill_eq_some (r := r) (by omega)
      split
      · rename_i hnone
        rw [hr₁] at hnone
        cases hnone
      · rename_i r' hsome
        obtain rfl : r₁ = r' := by rw [hr₁] at hsome; exact Option.some.inj hsome
        rw [if_neg (by omega)]
        have hroom : min r₁.bits (bitWidth - got) ≤ r₁.bits := Nat.min_le_left _ _
        dsimp only
        generalize hread : r₁.take (min r₁.bits (bitWidth - got)) hroom = read
        have hbits : read.1 = r.value % 2 ^ min r₁.bits (bitWidth - got) := by
          rw [← hread, BitReader.take_fst, hvalue₁]
        have hleft : read.2.avail = r.avail - min r₁.bits (bitWidth - got) := by
          rw [← hread, BitReader.avail_take, havail₁]
        have hrest : read.2.value = r.value / 2 ^ min r₁.bits (bitWidth - got) := by
          rw [← hread, BitReader.value_take, hvalue₁]
        have hpos : 0 < min r₁.bits (bitWidth - got) := by omega
        have hle : min r₁.bits (bitWidth - got) ≤ bitWidth - got := Nat.min_le_right _ _
        generalize min r₁.bits (bitWidth - got) = take at *
        have hnew : val ||| ((r.value % 2 ^ take) <<< got) = val + 2 ^ got * (r.value % 2 ^ take) :=
          Nat.or_shiftLeft_eq_add hval _
        have hnewlt : val + 2 ^ got * (r.value % 2 ^ take) < 2 ^ (got + take) := by
          have hmod : r.value % 2 ^ take + 1 ≤ 2 ^ take := Nat.mod_lt _ (Nat.two_pow_pos take)
          have hmul := Nat.mul_le_mul_left (2 ^ got) hmod
          rw [Nat.pow_add]
          rw [Nat.mul_add] at hmul
          omega
        have h64 : val + 2 ^ got * (r.value % 2 ^ take) < 2 ^ 64 :=
          lt_of_lt_of_le hnewlt (Nat.pow_le_pow_right (by decide) (by omega))
        rw [hbits, hnew, Nat.mod_eq_of_lt h64]
        obtain ⟨r₂, hr₂, havail₂, hvalue₂⟩ := ih (bitWidth - (got + take)) (by omega)
          (r := read.2) (by omega) hnewlt (by omega) rfl
        have hsub : bitWidth - (got + take) = bitWidth - got - take := by omega
        rw [hrest, hsub] at hr₂
        refine ⟨r₂, ?_, by omega, ?_⟩
        · rw [hr₂, mod_two_pow_split hle, Nat.pow_add]
          congr 3
          ring
        · rw [hvalue₂, hrest, Nat.div_div_eq_div_mul, ← Nat.pow_add]
          congr 2
          omega
    · obtain rfl : got = bitWidth := by omega
      exact ⟨r, by simp [Nat.mod_one], by simp, by simp⟩

/-- The low bits of a value. -/
def lowBits (bitWidth : Nat) (v : UInt64) : UInt64 := .ofNat (v.toNat % 2 ^ bitWidth)

theorem lowBits_of_lt {bitWidth : Nat} {v : UInt64} (h : v.toNat < 2 ^ bitWidth) :
    lowBits bitWidth v = v := by
  rw [lowBits, Nat.mod_eq_of_lt h, UInt64.ofNat_toNat]

/-- The outer loop divides the packed number up, whatever is packed behind it. -/
theorem unpackValues_packedNumber {bitWidth : Nat} (hbw : bitWidth ≤ 64) {vals : List UInt64}
    {r : BitReader} {k : Nat}
    (hvalue : r.value = packedNumber bitWidth vals + 2 ^ (bitWidth * vals.length) * k)
    (havail : bitWidth * vals.length ≤ r.avail) :
    unpackValues bitWidth vals.length r = .ok (vals.map (lowBits bitWidth)) := by
  induction vals generalizing r with
  | nil => rfl
  | cons v vs ih =>
    rw [List.length_cons, Nat.mul_add, Nat.mul_one] at havail
    obtain ⟨r', hr', havail', hvalue'⟩ :=
      unpackValue_spec hbw (r := r) (Nat.zero_le bitWidth) Nat.one_pos (by omega)
    have hsplit : r.value = v.toNat % 2 ^ bitWidth +
        2 ^ bitWidth * (packedNumber bitWidth vs + 2 ^ (bitWidth * vs.length) * k) := by
      rw [hvalue, packedNumber, List.length_cons, Nat.mul_add, Nat.mul_one, Nat.pow_add]
      ring
    have hlt : v.toNat % 2 ^ bitWidth < 2 ^ bitWidth := Nat.mod_lt _ (Nat.two_pow_pos bitWidth)
    simp only [Nat.sub_zero, Nat.pow_zero, Nat.one_mul, Nat.zero_add, hsplit] at hr' hvalue'
    rw [Nat.add_mul_mod_self_left, Nat.mod_eq_of_lt hlt] at hr'
    rw [Nat.add_mul_div_left _ _ (Nat.two_pow_pos bitWidth), Nat.div_eq_of_lt hlt,
      Nat.zero_add] at hvalue'
    have hrest := ih hvalue' (by omega)
    simp [unpackValues, hr', hrest, lowBits]

/-- Where bits of the value are missing, the inner loop reads past the end. -/
theorem unpackValue_short {bitWidth : Nat} {r : BitReader} {got val : Nat}
    (havail : r.avail < bitWidth - got) :
    unpackValue bitWidth r got val = .error .undefinedBehaviour := by
  induction hn : bitWidth - got using Nat.strong_induction_on generalizing r got val with
  | _ n ih =>
    subst hn
    rw [unpackValue, if_pos (by omega)]
    split
    · rfl
    · rename_i r' hr'
      dsimp only
      split
      · rfl
      · have hpos := BitReader.bits_pos_of_refill hr'
        have hsame := BitReader.avail_refill hr'
        have hbits : r'.bits ≤ r'.avail := Nat.le_add_right _ _
        refine ih _ ?_ ?_ rfl
        · omega
        · rw [BitReader.avail_take]
          omega

/-- From a byte boundary no value of more than 64 bits can be read: the loop shifts by 64. -/
theorem unpackValue_wide {bitWidth : Nat} (hbw : 64 < bitWidth) {r : BitReader} {got val : Nat}
    (hbits : r.bits = 0) (hgot : got ≤ 64) (haligned : 8 ∣ got) :
    unpackValue bitWidth r got val = .error .undefinedBehaviour := by
  induction hn : bitWidth - got using Nat.strong_induction_on generalizing r got val with
  | _ n ih =>
    subst hn
    rw [unpackValue, if_pos (by omega)]
    split
    · rfl
    · rename_i r' hr'
      dsimp only
      split
      · rfl
      · -- a whole byte is taken, and the next value bit is again the first of a byte
        have hbyte : r'.bits = 8 := BitReader.bits_refill hr' hbits
        have htake : min r'.bits (bitWidth - got) = 8 := by omega
        refine ih _ (by omega) ?_ (by omega) (by omega) rfl
        have hbits' : r'.bits - min r'.bits (bitWidth - got) = 0 := by omega
        exact hbits'

/-- Value `i` of those packed in the given bytes. -/
def packedValue (bitWidth value i : Nat) : UInt64 :=
  UInt64.ofNat (value / 2 ^ (bitWidth * i) % 2 ^ bitWidth)

/-- The outer loop reads as many values as it should if all their bits are there. -/
theorem unpackValues_eq {bitWidth : Nat} (hbw : bitWidth ≤ 64) (n : Nat) (r : BitReader) :
    unpackValues bitWidth n r = if bitWidth * n ≤ r.avail then
      .ok ((List.range n).map (packedValue bitWidth r.value)) else .error .undefinedBehaviour := by
  induction n generalizing r with
  | zero => simp [unpackValues]
  | succ n ih =>
    rw [Nat.mul_add, Nat.mul_one]
    by_cases hfirst : bitWidth ≤ r.avail
    · obtain ⟨r', hr', havail', hvalue'⟩ :=
        unpackValue_spec hbw (r := r) (Nat.zero_le bitWidth) Nat.one_pos (by omega)
      simp only [Nat.sub_zero, Nat.pow_zero, Nat.one_mul, Nat.zero_add] at hr' havail' hvalue'
      rw [unpackValues, hr', Except.ok_bind]
      dsimp only
      rw [ih]
      have hshift : (List.range n).map (packedValue bitWidth r'.value) =
          (List.range n).map (packedValue bitWidth r.value ∘ Nat.succ) := by
        refine List.map_congr_left fun i _ => ?_
        simp only [packedValue, Function.comp_apply, hvalue', Nat.div_div_eq_div_mul, ← Nat.pow_add]
        rw [Nat.succ_eq_add_one, Nat.mul_add, Nat.mul_one, Nat.add_comm]
      by_cases hrest : bitWidth * n ≤ r'.avail
      · rw [if_pos hrest, if_pos (by omega), List.range_succ_eq_map, List.map_cons, List.map_map,
          hshift]
        simp [packedValue]
      · rw [if_neg hrest, if_neg (by omega)]
        rfl
    · rw [unpackValues, unpackValue_short (by omega), if_neg (by omega)]
      rfl

/-- The packed values lie in the given bytes, and each fits in a 64-bit word. -/
def PackedInside (n bitWidth : Nat) (packed : Bytes) : Prop :=
  n = 0 ∨ bitWidth ≤ 64 ∧ bitWidth * n ≤ 8 * packed.length

instance (n bitWidth : Nat) (packed : Bytes) : Decidable (PackedInside n bitWidth packed) :=
  inferInstanceAs (Decidable (_ ∨ _))

/-- `UnpackBits` on any bytes. -/
theorem unpackBits_eq (packed : Bytes) (n bitWidth : Nat) : unpackBits packed n bitWidth =
    if PackedInside n bitWidth packed then
      .ok ((List.range n).map (packedValue bitWidth (ofLeBytes packed)))
    else .error .undefinedBehaviour := by
  have hvalue := BitReader.value_start packed
  have havail := BitReader.avail_start packed
  unfold unpackBits
  by_cases hzero : bitWidth = 0
  · subst hzero
    have hinside : PackedInside n 0 packed := .inr ⟨Nat.zero_le _, by omega⟩
    rw [if_pos rfl, if_pos hinside]
    have hnone : ∀ i, packedValue 0 (ofLeBytes packed) i = 0 := fun i => by
      simp [packedValue, Nat.mod_one]
    congr 1
    refine (List.eq_replicate_iff.mpr ⟨by simp, fun v hv => ?_⟩).symm
    obtain ⟨i, -, rfl⟩ := List.mem_map.mp hv
    exact hnone i
  · rw [if_neg hzero]
    cases n with
    | zero => simp [unpackValues, PackedInside]
    | succ n =>
      by_cases hbw : bitWidth ≤ 64
      · rw [unpackValues_eq hbw, hvalue, havail]
        simp [hbw, PackedInside]
      · have hwide : unpackValue bitWidth (.start packed) 0 0 = .error .undefinedBehaviour :=
          unpackValue_wide (Nat.lt_of_not_le hbw) rfl (Nat.zero_le 64) (Nat.dvd_zero 8)
        have hinside : ¬ PackedInside (n + 1) bitWidth packed := by
          rintro (h | h)
          · cases h
          · exact hbw h.1
        rw [unpackValues, hwide, if_neg hinside]
        rfl

/-- The low bits of the values come back from what packing them appended, whatever is behind it. -/
theorem unpackBits_append {bitWidth : Nat} (hbw : bitWidth ≤ 64) (vals : List UInt64)
    {packed : Bytes} (hnumber : ofLeBytes packed = packedNumber bitWidth vals)
    (hlen : bitWidth * vals.length ≤ 8 * packed.length) (beyond : Bytes) :
    unpackBits (packed ++ beyond) vals.length bitWidth = .ok (vals.map (lowBits bitWidth)) := by
  by_cases h : bitWidth = 0
  · have hzero : ∀ v, lowBits 0 v = 0 := fun v => by simp [lowBits, Nat.mod_one]
    have hmap : vals.map (lowBits 0) = List.replicate vals.length 0 :=
      List.eq_replicate_iff.mpr ⟨List.length_map _, fun v hv => by
        obtain ⟨u, -, rfl⟩ := List.mem_map.mp hv
        exact hzero u⟩
    rw [unpackBits, if_pos h, h, hmap]
  · rw [unpackBits, if_neg h]
    refine unpackValues_packedNumber hbw
      (k := 2 ^ (8 * packed.length - bitWidth * vals.length) * ofLeBytes beyond) ?_ ?_
    · rw [BitReader.value_start, Bytes.ofLeBytes_append, hnumber, ← Nat.mul_assoc, ← Nat.pow_add,
        Nat.add_sub_cancel' hlen]
    · rw [BitReader.avail_start, List.length_append]
      omega

/-- Values of at most `bitWidth` bits come back from what packing them appended. -/
theorem unpackBits_packBits {bitWidth : Nat} (hbw : bitWidth ≤ 64) {vals : List UInt64}
    (hvals : ∀ v ∈ vals, v.toNat < 2 ^ bitWidth) (out : Bytes) :
    ∃ packed, packBits vals bitWidth out = out ++ packed ∧
      unpackBits packed vals.length bitWidth = .ok vals := by
  by_cases h : bitWidth = 0
  · refine ⟨[], by simp [packBits, h], ?_⟩
    have hzero : vals = List.replicate vals.length 0 := by
      refine List.eq_replicate_iff.mpr ⟨rfl, fun v hv => ?_⟩
      have hlt := hvals v hv
      simp only [h, Nat.pow_zero, Nat.lt_one_iff] at hlt
      exact UInt64.toNat_inj.mp hlt
    rw [unpackBits, if_pos h, ← hzero]
  · obtain ⟨packed, hout, hnumber, hlen, -⟩ := packBits_spec h vals out
    have hread := unpackBits_append hbw vals hnumber hlen []
    have hlow : vals.map (lowBits bitWidth) = vals := by
      rw [List.map_congr_left fun v hv => lowBits_of_lt (hvals v hv), List.map_id']
    rw [List.append_nil, hlow] at hread
    exact ⟨packed, hout, hread⟩

/-- Packing appends the least number of bytes that hold all the bits, and reading them, and none
    behind them, gives every value modulo `2 ^ bitWidth`; the bits that `BitsRequired` counts are
    enough for every value up to its argument. -/
theorem packBits_exact {bitWidth : Nat} (hbw : bitWidth ≤ 64) (vals : List UInt64) (out : Bytes) :
    (∃ packed, packBits vals bitWidth out = out ++ packed ∧
      packed.length = (vals.length * bitWidth + 7) / 8 ∧
      ∀ beyond, unpackBits (packed ++ beyond) vals.length bitWidth =
        .ok (vals.map (lowBits bitWidth))) ∧
    ∀ m v : UInt64, v ≤ m →
      v.toNat < 2 ^ bitsRequired m ∧ lowBits (bitsRequired m) v = v := by
  constructor
  · by_cases h : bitWidth = 0
    · have hnumber : packedNumber bitWidth vals = 0 := by
        rw [h]
        induction vals with
        | nil => rfl
        | cons v vs ih => simp [packedNumber, ih, Nat.mod_one]
      have hnone : ofLeBytes [] = packedNumber bitWidth vals := hnumber.symm
      exact ⟨[], by simp [packBits, h], by simp [h], unpackBits_append hbw vals hnone (by simp [h])⟩
    · obtain ⟨packed, hout, hnumber, hlen, hpadding⟩ := packBits_spec h vals out
      have hcomm := Nat.mul_comm vals.length bitWidth
      exact ⟨packed, hout, by omega, unpackBits_append hbw vals hnumber hlen⟩
  · intro m v hv
    have hlt := Nat.lt_of_le_of_lt (UInt64.le_iff_toNat_le.1 hv) (lt_two_pow_bitsRequired m)
    exact ⟨hlt, lowBits_of_lt hlt⟩

theorem packBits_exact_three :
    (∃ packed, packBits [5, 8, 7] 3 [255] = [255] ++ packed ∧ packed.length = (3 * 3 + 7) / 8 ∧
      ∀ beyond, unpackBits (packed ++ beyond) 3 3 = .ok ([5, 8, 7].map (lowBits 3))) ∧
    ∀ m v : UInt64, v ≤ m → v.toNat < 2 ^ bitsRequired m ∧ lowBits (bitsRequired m) v = v :=
  packBits_exact (by decide) [5, 8, 7] [255]

/-! ## Validity -/

/-- Bit `i` of a bitmap, `false` past its end. -/
def bitAt (bitmap : Bytes) (i : Nat) : Bool :=
  (bitmap.getD (i / 8) 0).toNat.testBit (i % 8)

private def setBit (bitmap : Bytes) (i : Nat) : Bytes :=
  bitmap.modify (i / 8) (· ||| UInt8.ofNat (1 <<< (i % 8)))

private theorem testBit_or_one_shiftLeft (b : UInt8) {m k : Nat} (hm : m < 8) :
    (b ||| UInt8.ofNat (1 <<< m)).toNat.testBit k = (b.toNat.testBit k || decide (k = m)) := by
  have hlt : 1 <<< m < 256 := by
    rw [Nat.one_shiftLeft]
    exact Nat.pow_lt_pow_right (by decide) hm
  rw [UInt8.toNat_or, UInt8.toNat_ofNat', Nat.mod_eq_of_lt hlt, Nat.testBit_or, Nat.one_shiftLeft,
    Nat.testBit_two_pow]
  simp [eq_comm]

private theorem bitAt_setBit {bitmap : Bytes} {i : Nat} (h : i / 8 < bitmap.length) (j : Nat) :
    bitAt (setBit bitmap i) j = (bitAt bitmap j || decide (j = i)) := by
  simp only [bitAt, setBit, List.getD_eq_getElem?_getD, List.getElem?_modify]
  by_cases hij : i / 8 = j / 8
  · have hj : j / 8 < bitmap.length := hij ▸ h
    rw [List.getElem?_eq_getElem hj]
    simp only [hij, if_true, Option.map_eq_map, Option.map_some, Option.getD_some]
    rw [testBit_or_one_shiftLeft _ (Nat.mod_lt _ (by decide))]
    congr 1
    apply decide_eq_decide.mpr
    omega
  · have hne : j ≠ i := fun heq => hij (heq ▸ rfl)
    simp [hij, hne]

/-- The loop of `WriteValidity`, from position `k` on. -/
private theorem bitAt_foldl {values : List Value} {k : Nat} {bitmap : Bytes}
    (h : k + values.length ≤ 8 * bitmap.length) (j : Nat) :
    bitAt ((values.zipIdx k).foldl
        (fun bitmap p => if p.1.isNull then bitmap else setBit bitmap p.2) bitmap) j =
      (bitAt bitmap j || (decide (k ≤ j) && !(values.getD (j - k) .null).isNull)) := by
  induction values generalizing k bitmap with
  | nil => simp [Value.isNull]
  | cons v vs ih =>
    rw [List.length_cons] at h
    rw [List.zipIdx_cons, List.foldl_cons]
    have hlen : (if v.isNull then bitmap else setBit bitmap k).length = bitmap.length := by
      split <;> simp [setBit]
    rw [ih (by rw [hlen]; omega)]
    have hhead : bitAt (if v.isNull then bitmap else setBit bitmap k) j =
        (bitAt bitmap j || (decide (j = k) && !v.isNull)) := by
      split
      · rename_i hv
        simp [hv]
      · rename_i hv
        rw [bitAt_setBit (by omega)]
        simp [hv]
    rw [hhead, Bool.or_assoc]
    congr 1
    rcases Nat.lt_trichotomy j k with hlt | rfl | hgt
    · simp [show ¬ j = k by omega, show ¬ k ≤ j by omega, show ¬ k + 1 ≤ j by omega]
    · simp [show ¬ j + 1 ≤ j by omega]
    · obtain ⟨d, rfl⟩ := Nat.exists_eq_add_of_lt hgt
      simp [show ¬ k + d + 1 = k by omega, show k + d + 1 - k = d + 1 by omega,
        show k + d + 1 - (k + 1) = d by omega, show k ≤ k + d + 1 by omega]

private theorem writeValidity_eq (values : List Value) :
    writeValidity values = (values.zipIdx 0).foldl
      (fun bitmap p => if p.1.isNull then bitmap else setBit bitmap p.2)
      (List.replicate (validityBytes values.length) 0) := rfl

private theorem length_foldl_setBit (l : List (Value × Nat)) (bitmap : Bytes) :
    (l.foldl (fun bitmap p => if p.1.isNull then bitmap else setBit bitmap p.2) bitmap).length =
      bitmap.length := by
  induction l generalizing bitmap with
  | nil => rfl
  | cons p l ih =>
    rw [List.foldl_cons, ih]
    split <;> simp [setBit]

@[simp] theorem length_writeValidity (values : List Value) :
    (writeValidity values).length = validityBytes values.length := by
  rw [writeValidity_eq, length_foldl_setBit, List.length_replicate]

/-- A bit is read where the bitmap has it. -/
theorem testValidity_eq (bitmap : Bytes) (i : Nat) : testValidity bitmap i =
    if i / 8 < bitmap.length then .ok (bitAt bitmap i) else .error .undefinedBehaviour := by
  unfold testValidity
  split
  · rename_i hnone
    rw [if_neg (Nat.not_lt.mpr (List.getElem?_eq_none_iff.mp hnone))]
  · rename_i b hsome
    obtain ⟨hlt, hb⟩ := List.getElem?_eq_some_iff.mp hsome
    rw [if_pos hlt, bitAt, List.getD_eq_getElem _ _ hlt, hb]
    simp only [Nat.one_shiftLeft, Nat.and_two_pow]
    cases b.toNat.testBit (i % 8) <;> simp

/-- The bitmap at the front of a payload says which values are not NULL. -/
theorem testValidity_writeValidity {values : List Value} {i : Nat} (hi : i < values.length)
    (rest : Bytes) :
    testValidity (writeValidity values ++ rest) i = .ok (!values[i].isNull) := by
  have hbytes : i / 8 < (writeValidity values).length := by
    rw [length_writeValidity, validityBytes]
    omega
  have hbit : bitAt (writeValidity values) i = !values[i].isNull := by
    rw [writeValidity_eq, bitAt_foldl (by simp [validityBytes]; omega)]
    have hzero : bitAt (List.replicate (validityBytes values.length) 0) i = false := by
      simp only [bitAt, List.getD_eq_getElem?_getD, List.getElem?_replicate]
      split <;> simp
    simp [hzero, hi]
  have hlong : i / 8 < (writeValidity values ++ rest).length := by
    rw [List.length_append]
    omega
  rw [testValidity_eq, if_pos hlong, ← hbit, bitAt, bitAt]
  simp only [List.getD_eq_getElem?_getD, List.getElem?_append_left hbytes]

end LiteOLAP
