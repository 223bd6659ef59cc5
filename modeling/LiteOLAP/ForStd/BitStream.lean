import LiteOLAP.ForStd.Except

/-!
# Bit streams, least significant bit first

A `BitWriter` fills one byte at a time from its low end and a `BitReader` empties one the same
way. Both stand for a natural number whose binary digits are the bits of the stream, so that
writing adds a shifted number and reading divides by a power of two.

## Key results

- `BitWriter.value_put`, `BitWriter.ofLeBytes_flush`: what is written, as a number
- `BitReader.take_fst`, `BitReader.value_take`: what is read, as a number
-/

open Bytes (ofLeBytes)

namespace Bytes

/-- Later bytes count for more. -/
theorem ofLeBytes_append (xs ys : Bytes) :
    ofLeBytes (xs ++ ys) = ofLeBytes xs + 2 ^ (8 * xs.length) * ofLeBytes ys := by
  induction xs with
  | nil => simp [ofLeBytes]
  | cons x xs ih =>
    simp only [List.cons_append, ofLeBytes, ih, List.length_cons, Nat.mul_add, Nat.pow_add,
      Nat.mul_one]
    ring

end Bytes

/-- Setting bits above those of a number adds them. -/
theorem Nat.or_shiftLeft_eq_add {a k : Nat} (h : a < 2 ^ k) (b : Nat) :
    a ||| (b <<< k) = a + 2 ^ k * b := by
  rw [Nat.or_comm, ← Nat.shiftLeft_add_eq_or_of_lt h, Nat.shiftLeft_eq]
  ring

/-- A byte string under construction: full bytes, and the low `bits` bits of one more. -/
structure BitWriter where
  out : Bytes
  cur : Nat
  bits : Nat
  bits_lt : bits < 8
  cur_lt : cur < 2 ^ bits

namespace BitWriter

/-- A writer that appends to `out`, at a byte boundary. -/
def start (out : Bytes) : BitWriter := ⟨out, 0, 0, by decide, by decide⟩

/-- The bits written so far. -/
def count (w : BitWriter) : Nat := 8 * w.out.length + w.bits

/-- The number whose binary digits they are. -/
def value (w : BitWriter) : Nat := ofLeBytes w.out + 2 ^ (8 * w.out.length) * w.cur

private theorem put_cur_lt {a b j k : Nat} (ha : a < 2 ^ j) :
    a ||| ((b % 2 ^ k) <<< j) < 2 ^ (j + k) := by
  rw [Nat.or_shiftLeft_eq_add ha, Nat.pow_add]
  have hb : b % 2 ^ k + 1 ≤ 2 ^ k := Nat.mod_lt _ (Nat.two_pow_pos k)
  calc a + 2 ^ j * (b % 2 ^ k) < 2 ^ j * (b % 2 ^ k + 1) := by rw [Nat.mul_add]; omega
    _ ≤ 2 ^ j * 2 ^ k := Nat.mul_le_mul_left _ hb

/-- Write the low `take` bits of `v` into the current byte, and start a new one once it is
    full. -/
def put (w : BitWriter) (v take : Nat) (h : w.bits + take ≤ 8) : BitWriter :=
  if hfull : w.bits + take = 8 then
    start (w.out ++ [UInt8.ofNat (w.cur ||| ((v % 2 ^ take) <<< w.bits))])
  else
    ⟨w.out, w.cur ||| ((v % 2 ^ take) <<< w.bits), w.bits + take, by omega, put_cur_lt w.cur_lt⟩

/-- The bytes written, the last one padded with zero bits. -/
def flush (w : BitWriter) : Bytes :=
  if w.bits > 0 then w.out ++ [UInt8.ofNat w.cur] else w.out

@[simp] theorem count_start (out : Bytes) : (start out).count = 8 * out.length := rfl

@[simp] theorem value_start (out : Bytes) : (start out).value = ofLeBytes out := by
  simp [start, value]

@[simp] theorem count_put (w : BitWriter) (v take : Nat) (h : w.bits + take ≤ 8) :
    (w.put v take h).count = w.count + take := by
  simp only [put, count]
  split
  · simp only [start, List.length_append, List.length_cons, List.length_nil]
    omega
  · simp only
    omega

private theorem ofLeBytes_single {n : Nat} (h : n < 256) : ofLeBytes [UInt8.ofNat n] = n := by
  simp [ofLeBytes, Nat.mod_eq_of_lt h]

/-- Writing adds the written bits above those already there. -/
@[simp] theorem value_put (w : BitWriter) (v take : Nat) (h : w.bits + take ≤ 8) :
    (w.put v take h).value = w.value + 2 ^ w.count * (v % 2 ^ take) := by
  have hcur : w.cur ||| ((v % 2 ^ take) <<< w.bits) = w.cur + 2 ^ w.bits * (v % 2 ^ take) :=
    Nat.or_shiftLeft_eq_add w.cur_lt _
  simp only [put, value, count]
  split
  · rename_i hfull
    have hbyte : w.cur ||| ((v % 2 ^ take) <<< w.bits) < 256 := by
      have hlt := put_cur_lt (b := v) (k := take) w.cur_lt
      rwa [hfull] at hlt
    simp only [start, Nat.mul_zero, Nat.add_zero]
    rw [Bytes.ofLeBytes_append, ofLeBytes_single hbyte, hcur, Nat.pow_add]
    ring
  · simp only [hcur, Nat.pow_add]
    ring

/-- Padding does not change the number. -/
theorem ofLeBytes_flush (w : BitWriter) : ofLeBytes w.flush = w.value := by
  simp only [flush, value]
  split
  · have hlt : w.cur < 256 := lt_of_lt_of_le w.cur_lt
      (Nat.pow_le_pow_right (by decide) (Nat.le_of_lt w.bits_lt) : 2 ^ w.bits ≤ 2 ^ 8)
    rw [Bytes.ofLeBytes_append, ofLeBytes_single hlt]
  · rename_i hbits
    have hcur : w.cur = 0 := by
      have hlt := w.cur_lt
      rw [show w.bits = 0 by omega] at hlt
      omega
    simp [hcur]

/-- What has been written stays. -/
theorem out_prefix_put (w : BitWriter) (v take : Nat) (h : w.bits + take ≤ 8) :
    w.out <+: (w.put v take h).out := by
  simp only [put]
  split
  · exact List.prefix_append _ _
  · exact List.prefix_rfl

theorem out_prefix_flush (w : BitWriter) : w.out <+: w.flush := by
  simp only [flush]
  split
  · exact List.prefix_append _ _
  · exact List.prefix_rfl

theorem count_le_flush (w : BitWriter) : w.count ≤ 8 * w.flush.length := by
  have hbits := w.bits_lt
  simp only [flush, count]
  split
  · simp only [List.length_append, List.length_cons, List.length_nil]
    omega
  · omega

/-- Less than a byte is padding. -/
theorem flush_lt_count (w : BitWriter) : 8 * w.flush.length < w.count + 8 := by
  have hbits := w.bits_lt
  simp only [flush, count]
  split
  · simp only [List.length_append, List.length_cons, List.length_nil]
    omega
  · omega

end BitWriter

/-- A byte string being read: `bits` bits left of the current byte, then whole bytes. -/
structure BitReader where
  cur : Nat
  bits : Nat
  rest : Bytes
  cur_lt : cur < 2 ^ bits

namespace BitReader

/-- A reader at a byte boundary. -/
def start (bs : Bytes) : BitReader := ⟨0, 0, bs, by decide⟩

/-- The bits that are left. -/
def avail (r : BitReader) : Nat := r.bits + 8 * r.rest.length

/-- The number whose binary digits they are. -/
def value (r : BitReader) : Nat := r.cur + 2 ^ r.bits * ofLeBytes r.rest

/-- Load the next byte when the current one is used up. -/
def refill (r : BitReader) : Option BitReader :=
  if r.bits = 0 then
    match r.rest with
    | [] => none
    | b :: bs => some ⟨b.toNat, 8, bs, b.toNat_lt⟩
  else some r

/-- Take the low `k` bits of the current byte. -/
def take (r : BitReader) (k : Nat) (h : k ≤ r.bits) : Nat × BitReader :=
  (r.cur % 2 ^ k, ⟨r.cur >>> k, r.bits - k, r.rest, by
    rw [Nat.shiftRight_eq_div_pow]
    apply Nat.div_lt_of_lt_mul
    rw [← Nat.pow_add, Nat.add_sub_cancel' h]
    exact r.cur_lt⟩)

@[simp] theorem avail_start (bs : Bytes) : (start bs).avail = 8 * bs.length := by
  simp [start, avail]

@[simp] theorem value_start (bs : Bytes) : (start bs).value = ofLeBytes bs := by
  simp [start, value]

/-- A reader that has bits left can go on, and loading a byte loses none of them. -/
theorem refill_eq_some {r : BitReader} (h : 0 < r.avail) :
    ∃ r', r.refill = some r' ∧ 0 < r'.bits ∧ r'.avail = r.avail ∧ r'.value = r.value := by
  by_cases hbits : r.bits = 0
  · obtain ⟨cur, bits, rest, hcur⟩ := r
    obtain rfl : bits = 0 := hbits
    obtain rfl : cur = 0 := by simpa using hcur
    cases rest with
    | nil => simp [avail] at h
    | cons b bs =>
      refine ⟨⟨b.toNat, 8, bs, b.toNat_lt⟩, rfl, by simp, ?_, ?_⟩
      · simp only [avail, List.length_cons]
        omega
      · simp [value, ofLeBytes]
  · exact ⟨r, by simp [refill, hbits], by omega, rfl, rfl⟩

theorem bits_pos_of_refill {r r' : BitReader} (h : r.refill = some r') : 0 < r'.bits := by
  unfold refill at h
  split at h
  · split at h
    · cases h
    · obtain rfl := Option.some.inj h
      simp
  · obtain rfl := Option.some.inj h
    omega

theorem avail_refill {r r' : BitReader} (h : r.refill = some r') : r'.avail = r.avail := by
  by_cases havail : 0 < r.avail
  · obtain ⟨r₁, hr₁, -, hsame, -⟩ := refill_eq_some havail
    rw [← Option.some.inj (hr₁.symm.trans h), hsame]
  · obtain ⟨hbits, hrest⟩ : r.bits = 0 ∧ r.rest = [] := by
      rw [avail] at havail
      exact ⟨by omega, List.length_eq_zero_iff.mp (by omega)⟩
    rw [refill, if_pos hbits, hrest] at h
    cases h

/-- At a byte boundary a whole byte is loaded. -/
theorem bits_refill {r r' : BitReader} (h : r.refill = some r') (hbits : r.bits = 0) :
    r'.bits = 8 := by
  rw [refill, if_pos hbits] at h
  split at h
  · cases h
  · rw [← Option.some.inj h]

@[simp] theorem take_fst (r : BitReader) (k : Nat) (h : k ≤ r.bits) :
    (r.take k h).1 = r.value % 2 ^ k := by
  obtain ⟨d, hd⟩ := Nat.exists_eq_add_of_le h
  simp only [take, value, hd, Nat.pow_add, Nat.mul_assoc, Nat.add_mul_mod_self_left]

@[simp] theorem avail_take (r : BitReader) (k : Nat) (h : k ≤ r.bits) :
    (r.take k h).2.avail = r.avail - k := by
  simp only [take, avail]
  omega

/-- Taking bits leaves the higher ones. -/
@[simp] theorem value_take (r : BitReader) (k : Nat) (h : k ≤ r.bits) :
    (r.take k h).2.value = r.value / 2 ^ k := by
  obtain ⟨d, hd⟩ := Nat.exists_eq_add_of_le h
  simp only [take, value, hd, Nat.pow_add, Nat.mul_assoc, Nat.shiftRight_eq_div_pow,
    Nat.add_mul_div_left _ _ (Nat.two_pow_pos k), Nat.add_sub_cancel_left]

end BitReader
