import Mathlib

/-!
# Byte strings and little-endian integers

`Bytes` is the byte string that stands for `std::string` and `std::vector<std::byte>`.
`leBytes w n` is the `w`-byte little-endian image of a natural number, what `memcpy` of an
unsigned integer of `w` bytes produces on the supported platforms, and `ofLeBytes` reads
it back.

## Key results

- `ofLeBytes_leBytes`: reading back `w` bytes gives the number modulo `256 ^ w`
- `leBytes_inj`: numbers below `256 ^ w` with the same image are equal
-/

/-- A sequence of bytes. -/
abbrev Bytes := List UInt8

namespace Bytes

/-- The lexicographic order is transitive. -/
instance transLt : Trans (α := Bytes) (· < ·) (· < ·) (· < ·) := inferInstance

/-- Any two byte strings compare. -/
instance trichotomousLt : Std.Trichotomous (α := Bytes) (· < ·) := inferInstance

/-- The bytes of an ASCII string literal. -/
def ofAscii (s : String) : Bytes := s.toList.map fun c => UInt8.ofNat c.toNat

/-- The `w` low bytes of `n`, least significant first. -/
def leBytes : (w n : Nat) → Bytes
  | 0, _ => []
  | w + 1, n => UInt8.ofNat n :: leBytes w (n / 256)

/-- The number whose little-endian bytes are given. -/
def ofLeBytes : Bytes → Nat
  | [] => 0
  | b :: bs => b.toNat + 256 * ofLeBytes bs

@[simp] theorem length_leBytes (w n : Nat) : (leBytes w n).length = w := by
  induction w generalizing n with
  | zero => rfl
  | succ w ih => simp [leBytes, ih]

/-- Reading back `w` bytes recovers the number modulo `256 ^ w`. -/
theorem ofLeBytes_leBytes (w n : Nat) : ofLeBytes (leBytes w n) = n % 256 ^ w := by
  induction w generalizing n with
  | zero => simp [leBytes, ofLeBytes, Nat.mod_one]
  | succ w ih =>
    simp only [leBytes, ofLeBytes, ih]
    have hbyte : (UInt8.ofNat n).toNat = n % 256 := by simp
    rw [hbyte, Nat.pow_succ', Nat.mod_mul]

/-- A number that fits in `w` bytes is read back exactly. -/
theorem ofLeBytes_leBytes_of_lt {w n : Nat} (h : n < 256 ^ w) :
    ofLeBytes (leBytes w n) = n := by
  rw [ofLeBytes_leBytes, Nat.mod_eq_of_lt h]

/-- Numbers that fit in `w` bytes are determined by their image. -/
theorem leBytes_inj {w m n : Nat} (hm : m < 256 ^ w) (hn : n < 256 ^ w)
    (h : leBytes w m = leBytes w n) : m = n := by
  rw [← ofLeBytes_leBytes_of_lt hm, h, ofLeBytes_leBytes_of_lt hn]

/-- `k` bytes read a number below `256 ^ k`. -/
theorem ofLeBytes_lt (bs : Bytes) : ofLeBytes bs < 256 ^ bs.length := by
  induction bs with
  | nil => simp [ofLeBytes]
  | cons b bs ih =>
    have hb : b.toNat < 256 := b.toNat_lt
    simp only [ofLeBytes, List.length_cons, Nat.pow_succ]
    omega

end Bytes
