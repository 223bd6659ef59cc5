import LiteOLAP.ForStd.Bytes
import Mathlib.Data.Prod.Lex
import Mathlib.Order.Compare

/-!
# Comparing integers through binary64

`Float.Model` is the IEEE 754 binary64 model of the standard library: operations unpack to a
sign, a mantissa and an exponent, and round back to nearest, ties to even. This file follows
an integer through that rounding. An integer below `2 ^ 53` in absolute value is exact, and a
64-bit integer is compared with it as if both were exact.

## Key results

- `compare_ofInt`: `compare (ofInt m) (ofInt n)` is `compare m n` when `|n| < 2 ^ 53`
- `compare_swap`, `compare_isSome`, `compare_eq_none`: the order of two numbers is total, but
  for NaN
- `compare_eq_rank`: but for NaN, the numbers compare as their ranks in a linear order
- `ofBits_toBits`: the bits of a number stand for that number
-/

namespace Float.Model

open UnpackedFloat

/-! ## Rounding an integer -/

/-- Shifting right divides the mantissa. -/
private theorem shiftRight_mantissa (em : ExtendedMantissa) (k : Nat) :
    (em >>> k).mantissa = em.mantissa / 2 ^ k := by
  show (Nat.repeat ExtendedMantissa.shiftRightOne k em).mantissa = _
  induction k with
  | zero => simp [Nat.repeat]
  | succ k ih =>
    simp [Nat.repeat, ExtendedMantissa.shiftRightOne, ih, Nat.div_div_eq_div_mul, Nat.pow_succ]

/-- Rounding moves the mantissa up by at most one. -/
private theorem roundedMantissa_bounds (em : ExtendedMantissa) :
    em.mantissa ≤ em.roundedMantissa ∧ em.roundedMantissa ≤ em.mantissa + 1 := by
  obtain ⟨m, r, s⟩ := em
  cases r <;> cases s <;>
    simp [ExtendedMantissa.roundedMantissa, ExtendedMantissa.accuracy, Accuracy.roundToNearestEven]
  omega

/-- Putting the implicit bit back in front of the stored mantissa. -/
private theorem toNat_implicitBit {m : Nat} (hlo : 2 ^ 52 ≤ m) (hhi : m < 2 ^ 53) :
    (1#1 ++ BitVec.ofNat 52 m).toNat = m := by
  have hm : m % 2 ^ 52 = m - 2 ^ 52 := by omega
  rw [BitVec.toNat_append, BitVec.toNat_ofNat, BitVec.toNat_ofNat, hm,
    ← Nat.shiftLeft_add_eq_or_of_lt (by omega), Nat.shiftLeft_eq]
  omega

/-- Away from the subnormals the target exponent leaves 53 bits of mantissa. -/
private theorem targetExponent_normal {k : Int} (hk : -1021 ≤ k) :
    Format.binary64.targetExponent k = k - 53 := by
  simp only [Format.targetExponent, Format.minExponent, Format.mantissaBits]
  omega

/-- A mantissa that already has 53 bits is not shifted. -/
private theorem shiftToTargetExponent_normal {m : Nat} {e : Int} (hm : m.log2 = 52)
    (he : -1074 ≤ e) :
    shiftToTargetExponent Format.binary64 m e .exact = (⟨m, false, false⟩, e) := by
  have ht : Format.binary64.targetExponent (totalExponent m e) = e := by
    rw [targetExponent_normal] <;> simp only [totalExponent, hm] <;> omega
  simp only [shiftToTargetExponent, shiftToExponent, ht, Int.sub_self]
  simp only [ExtendedMantissa.ofMantissaAndAccuracy]
  simp [HShiftRight.hShiftRight, Nat.repeat]

private theorem log2_eq_of_bounds {m k : Nat} (hlo : 2 ^ k ≤ m) (hhi : m < 2 ^ (k + 1)) :
    m.log2 = k := by
  have h0 : m ≠ 0 := by have := Nat.two_pow_pos k; omega
  exact (Nat.log2_eq_iff h0).mpr ⟨hlo, hhi⟩

/-- The result of rounding, from the two shifts it makes. -/
private theorem roundWithAccuracy_eq {s : Sign} {n m : Nat} {e e₁ e₂ : Int}
    {em₁ em₂ : ExtendedMantissa}
    (h₁ : shiftToTargetExponent Format.binary64 n e .exact = (em₁, e₁))
    (h₂ : shiftToTargetExponent Format.binary64 em₁.roundedMantissa e₁ .exact = (em₂, e₂))
    (hm : em₂.mantissa = m) (h : 0 < m) :
    roundWithAccuracy Format.binary64 s n e .exact = .finite s m e₂ h := by
  subst hm
  simp only [roundWithAccuracy, h₁, h₂]
  rw [dif_neg (by omega)]

/-- The finite number that a positive integer below `2 ^ 64` rounds to: it has 53 bits of
    mantissa, and is exact below `2 ^ 53`. -/
theorem round_ofNat (s : Sign) (n : Nat) (hn : 0 < n) (hn' : n < 2 ^ 64) :
    ∃ m e h, UnpackedFloat.round Format.binary64 s n 0 = .finite s m e h ∧ m.log2 = 52 ∧ e ≤ 12 ∧
      -52 ≤ e ∧ (n < 2 ^ 53 → e = (n.log2 : Int) - 52 ∧ m = n * 2 ^ (52 - n.log2)) ∧
      (2 ^ 53 ≤ n → 1 ≤ e) := by
  have hL : n.log2 < 64 := (Nat.log2_lt (by omega)).mpr hn'
  have hlo : 2 ^ n.log2 ≤ n := Nat.log2_self_le (by omega)
  have hhi : n < 2 ^ (n.log2 + 1) := Nat.lt_log2_self
  have ht : Format.binary64.targetExponent (totalExponent n 0) = (n.log2 : Int) - 52 := by
    rw [targetExponent_normal] <;> simp only [totalExponent] <;> omega
  simp only [UnpackedFloat.round, decreaseExponent, ht]
  by_cases hsmall : n < 2 ^ 53
  -- at most 53 bits: the mantissa is padded on the right and nothing is dropped
  · have hL' : n.log2 ≤ 52 := by
      have : n.log2 < 53 := (Nat.log2_lt (by omega)).mpr hsmall
      omega
    have hsh : (0 - ((n.log2 : Int) - 52)).toNat = 52 - n.log2 := by omega
    have hm : (n <<< (52 - n.log2)) = n * 2 ^ (52 - n.log2) := Nat.shiftLeft_eq ..
    have hpow : 2 ^ n.log2 * 2 ^ (52 - n.log2) = 2 ^ 52 := by
      rw [← Nat.pow_add]; congr 1; omega
    have hlog : (n * 2 ^ (52 - n.log2)).log2 = 52 := by
      apply log2_eq_of_bounds
      · rw [← hpow]; exact Nat.mul_le_mul_right _ hlo
      · have : 2 ^ (n.log2 + 1) * 2 ^ (52 - n.log2) = 2 ^ 53 := by
          rw [← Nat.pow_add]; congr 1; omega
        rw [← this]
        exact Nat.mul_lt_mul_of_pos_right hhi (Nat.two_pow_pos _)
    have hexp : (0 : Int) - ((52 - n.log2 : Nat) : Int) = (n.log2 : Int) - 52 := by omega
    have hpos : 0 < n * 2 ^ (52 - n.log2) := Nat.mul_pos hn (Nat.two_pow_pos _)
    refine ⟨n * 2 ^ (52 - n.log2), (n.log2 : Int) - 52, hpos, ?_, hlog, by omega, by omega,
      fun _ => ⟨rfl, rfl⟩, fun h => by omega⟩
    rw [hsh, hm, hexp]
    have hfirst := shiftToTargetExponent_normal (e := (n.log2 : Int) - 52) hlog (by omega)
    exact roundWithAccuracy_eq hfirst hfirst rfl hpos
  -- more than 53 bits: `k` bits are dropped, and rounding up may carry into a 54th bit
  · have hL' : 53 ≤ n.log2 := (Nat.le_log2 (by omega)).mpr (by omega)
    obtain ⟨k, hk⟩ : ∃ k, n.log2 = 52 + k := ⟨n.log2 - 52, by omega⟩
    have hsh : (0 - ((n.log2 : Int) - 52)).toNat = 0 := by omega
    have hfirst : ∃ em, shiftToTargetExponent Format.binary64 n 0 .exact = (em, (k : Int)) ∧
        em.mantissa = n / 2 ^ k := by
      refine ⟨_, ?_, shiftRight_mantissa ⟨n, false, false⟩ k⟩
      have hamount : ((n.log2 : Int) - 52 - 0).toNat = k := by omega
      simp only [shiftToTargetExponent, shiftToExponent, ht, hamount,
        ExtendedMantissa.ofMantissaAndAccuracy, Int.zero_add]
    obtain ⟨em, hem, hman⟩ := hfirst
    have hq : 2 ^ 52 ≤ em.mantissa ∧ em.mantissa < 2 ^ 53 := by
      rw [hman]
      refine ⟨(Nat.le_div_iff_mul_le (Nat.two_pow_pos k)).mpr ?_,
        (Nat.div_lt_iff_lt_mul (Nat.two_pow_pos k)).mpr ?_⟩
      · rw [← Nat.pow_add, ← hk]; exact hlo
      · rw [← Nat.pow_add, show 53 + k = n.log2 + 1 by omega]; exact hhi
    have hr := roundedMantissa_bounds em
    rw [hsh, Nat.shiftLeft_zero, show (0 : Int) - ((0 : Nat) : Int) = 0 by rfl]
    by_cases hcarry : em.roundedMantissa < 2 ^ 53
    · have hlog : em.roundedMantissa.log2 = 52 := log2_eq_of_bounds (by omega) (by omega)
      refine ⟨em.roundedMantissa, k, by omega, ?_, hlog, by omega, by omega, fun h => by omega,
        fun _ => by omega⟩
      exact roundWithAccuracy_eq hem (shiftToTargetExponent_normal hlog (by omega)) rfl _
    · have hR : em.roundedMantissa = 2 ^ 53 := by omega
      have hsecond : ∃ em', shiftToTargetExponent Format.binary64 (2 ^ 53) k .exact =
          (em', (k : Int) + 1) ∧ em'.mantissa = 2 ^ 52 := by
        refine ⟨_, ?_, (shiftRight_mantissa ⟨2 ^ 53, false, false⟩ 1).trans (by decide)⟩
        have hlog : (2 ^ 53 : Nat).log2 = 53 := Nat.log2_two_pow
        have ht' : Format.binary64.targetExponent (totalExponent (2 ^ 53) k) = (k : Int) + 1 := by
          rw [targetExponent_normal] <;> simp only [totalExponent, hlog] <;> omega
        have hamount : ((k : Int) + 1 - k).toNat = 1 := by omega
        simp only [shiftToTargetExponent, shiftToExponent, ht', hamount,
          ExtendedMantissa.ofMantissaAndAccuracy]
        rfl
      obtain ⟨em', hem', hman'⟩ := hsecond
      refine ⟨2 ^ 52, (k : Int) + 1, by omega, ?_, Nat.log2_two_pow, by omega, by omega,
        fun h => by omega, fun _ => by omega⟩
      exact roundWithAccuracy_eq hem (by rw [hR]; exact hem') hman' _

/-- A number with 53 bits of mantissa and an exponent in range survives packing. -/
private theorem unpack_pack_normal {s : Sign} {m : Nat} {e : Int} {h : 0 < m} (hm : m.log2 = 52)
    (he : -1074 ≤ e) (he' : e ≤ 900) :
    UnpackedFloat.unpack Format.binary64 (UnpackedFloat.pack Format.binary64 (.finite s m e h)) =
      .finite s m e h := by
  have hlo : 2 ^ 52 ≤ m := by rw [← hm]; exact Nat.log2_self_le (by omega)
  have hhi : m < 2 ^ 53 := by
    have hlt := Nat.lt_log2_self (n := m)
    rwa [hm] at hlt
  obtain ⟨k, hk⟩ : ∃ k : Nat, e + 1075 = k := ⟨(e + 1075).toNat, by omega⟩
  have hexp : (e + ((Format.binary64.exponentBias : Nat) : Int) +
      ((Format.binary64.mantissaBitsWithoutImplicit : Nat) : Int)).toNat = k := by
    simp [Format.exponentBias]; omega
  have hpack : UnpackedFloat.pack Format.binary64 (.finite s m e h) =
      packComponents Format.binary64 s (BitVec.ofNat _ k) (BitVec.ofNat _ m) := by
    simp only [UnpackedFloat.pack, hexp, hm]
    rw [if_neg (by simp; omega), if_pos (by simp [Format.mantissaBits])]
  rw [hpack]
  simp only [UnpackedFloat.unpack, unpackExponent_packComponents, unpackMantissa_packComponents,
    unpackSign_packComponents, Sign.ofBitVec_toBitVec]
  have hkn : (BitVec.ofNat 11 k).toNat = k := by simp; omega
  have h1 : ¬ (BitVec.ofNat 11 k = -1#11) := by
    intro hc
    have hc' := congrArg BitVec.toNat hc
    simp at hc'
    omega
  have h2 : ¬ (BitVec.ofNat 11 k = 0#11) := by
    intro hc
    have hc' := congrArg BitVec.toNat hc
    simp at hc'
    omega
  rw [if_neg h1, if_neg h2]
  simp only [hkn, toNat_implicitBit hlo hhi]
  congr 1
  simp [Format.exponentBias]
  omega

/-! ## Comparing -/

/-- Packing loses nothing of a 64-bit integer that has been rounded. -/
private theorem unpack_ofInt {n : Int} (hn : n.natAbs < 2 ^ 64) :
    (Float.Model.ofInt n).unpack = UnpackedFloat.normalize Format.binary64 n 0 .positive := by
  have key : ∀ s k, 0 < k → k < 2 ^ 64 → UnpackedFloat.unpack Format.binary64
      (UnpackedFloat.pack Format.binary64 (UnpackedFloat.round Format.binary64 s k 0)) =
      UnpackedFloat.round Format.binary64 s k 0 := by
    intro s k hk hk'
    obtain ⟨m, e, h, hr, hm, he, he', -, -⟩ := round_ofNat s k hk hk'
    rw [hr, unpack_pack_normal hm (by omega) (by omega)]
  show UnpackedFloat.unpack Format.binary64 (UnpackedFloat.pack Format.binary64
    (UnpackedFloat.normalize Format.binary64 n 0 .positive)) = _
  rcases lt_trichotomy n 0 with h | rfl | h
  · have hc : compare n 0 = .lt := compare_lt_iff_lt.mpr h
    simp only [UnpackedFloat.normalize, hc]
    exact key _ _ (by omega) (by omega)
  · have hc : compare (0 : Int) 0 = .eq := compare_eq_iff_eq.mpr rfl
    simp only [UnpackedFloat.normalize, hc, UnpackedFloat.pack]
    exact unpack_packedZero
  · have hc : compare n 0 = .gt := compare_gt_iff_gt.mpr h
    simp only [UnpackedFloat.normalize, hc]
    exact key _ _ (by omega) (by omega)

/-- Rounding keeps the order against a number that is exact. -/
private theorem compare_round_ofNat {a b : Nat} (s : Sign) (ha : 0 < a) (ha' : a < 2 ^ 64)
    (hb : 0 < b) (hb' : b < 2 ^ 53) : ∃ m₁ e₁ h₁ m₂ e₂ h₂,
      UnpackedFloat.round Format.binary64 s a 0 = .finite s m₁ e₁ h₁ ∧
      UnpackedFloat.round Format.binary64 s b 0 = .finite s m₂ e₂ h₂ ∧
      (compare e₁ e₂).then (compare m₁ m₂) = compare a b := by
  obtain ⟨m₁, e₁, h₁, hr₁, -, -, -, hsmall, hbig⟩ := round_ofNat s a ha ha'
  obtain ⟨m₂, e₂, h₂, hr₂, -, -, -, hexact, -⟩ := round_ofNat s b hb (by omega)
  refine ⟨m₁, e₁, h₁, m₂, e₂, h₂, hr₁, hr₂, ?_⟩
  obtain ⟨he₂, hm₂⟩ := hexact hb'
  have hLb : b.log2 < 53 := (Nat.log2_lt (by omega)).mpr hb'
  by_cases hab : a < 2 ^ 53
  · obtain ⟨he₁, hm₁⟩ := hsmall hab
    rcases lt_trichotomy a.log2 b.log2 with h | h | h
    · have hlt : a < b := (Nat.lt_log2_self).trans_le
        ((Nat.pow_le_pow_right (by omega) h).trans (Nat.log2_self_le (by omega)))
      rw [compare_lt_iff_lt.mpr (by omega), compare_lt_iff_lt.mpr hlt]
      rfl
    · have he : e₁ = e₂ := by omega
      have hpos : 0 < 2 ^ (52 - b.log2) := Nat.two_pow_pos _
      rw [compare_eq_iff_eq.mpr he, Ordering.eq_then, hm₁, hm₂, h]
      rcases lt_trichotomy a b with hlt | rfl | hgt
      · rw [compare_lt_iff_lt.mpr hlt, compare_lt_iff_lt.mpr (Nat.mul_lt_mul_of_pos_right hlt hpos)]
      · rw [compare_eq_iff_eq.mpr rfl, compare_eq_iff_eq.mpr rfl]
      · rw [compare_gt_iff_gt.mpr hgt, compare_gt_iff_gt.mpr (Nat.mul_lt_mul_of_pos_right hgt hpos)]
    · have hlt : b < a := (Nat.lt_log2_self).trans_le
        ((Nat.pow_le_pow_right (by omega) h).trans (Nat.log2_self_le (by omega)))
      rw [compare_gt_iff_gt.mpr (show e₂ < e₁ by omega), compare_gt_iff_gt.mpr hlt]
      rfl
  · have he₁ := hbig (by omega)
    rw [compare_gt_iff_gt.mpr (show e₂ < e₁ by omega), compare_gt_iff_gt.mpr (show b < a by omega)]
    rfl

/-- Comparing with an integer that is exact in binary64 compares the integers. -/
theorem compare_ofInt {m n : Int} (hm : m.natAbs < 2 ^ 64) (hn : n.natAbs < 2 ^ 53) :
    (Float.Model.ofInt m).compare (Float.Model.ofInt n) = some (compare m n) := by
  unfold Float.Model.compare
  rw [unpack_ofInt hm, unpack_ofInt (by omega)]
  have hfin : ∀ (s : Sign) (k : Nat), 0 < k → k < 2 ^ 64 →
      ∃ m e h, UnpackedFloat.round Format.binary64 s k 0 = .finite s m e h := by
    intro s k hk hk'
    obtain ⟨m, e, h, hr, -⟩ := round_ofNat s k hk hk'
    exact ⟨m, e, h, hr⟩
  have hneg : ∀ {k : Int}, k < 0 →
      UnpackedFloat.normalize Format.binary64 k 0 .positive =
        UnpackedFloat.round Format.binary64 .negative (-k).toNat 0 := by
    intro k hk
    simp only [UnpackedFloat.normalize, compare_lt_iff_lt.mpr hk]
  have hpos : ∀ {k : Int}, 0 < k →
      UnpackedFloat.normalize Format.binary64 k 0 .positive =
        UnpackedFloat.round Format.binary64 .positive k.toNat 0 := by
    intro k hk
    simp only [UnpackedFloat.normalize, compare_gt_iff_gt.mpr hk]
  have hzero : UnpackedFloat.normalize Format.binary64 0 0 .positive = .zero .positive := rfl
  rcases lt_trichotomy m 0 with h | rfl | h
  · rcases lt_trichotomy n 0 with h' | rfl | h'
    · obtain ⟨m₁, e₁, p₁, m₂, e₂, p₂, hr₁, hr₂, hcmp⟩ := compare_round_ofNat .negative
        (a := (-m).toNat) (b := (-n).toNat) (by omega) (by omega) (by omega) (by omega)
      simp only [hneg h, hneg h', hr₁, hr₂, UnpackedFloat.compare, hcmp]
      congr 1
      rcases lt_trichotomy m n with hc | rfl | hc
      · rw [compare_lt_iff_lt.mpr hc, compare_gt_iff_gt.mpr (by omega)]; rfl
      · rw [compare_eq_iff_eq.mpr rfl, compare_eq_iff_eq.mpr rfl]; rfl
      · rw [compare_gt_iff_gt.mpr hc, compare_lt_iff_lt.mpr (by omega)]; rfl
    · obtain ⟨m₁, e₁, p₁, hr₁⟩ := hfin .negative (-m).toNat (by omega) (by omega)
      simp only [hneg h, hzero, hr₁, UnpackedFloat.compare, compare_lt_iff_lt.mpr h]
    · obtain ⟨m₁, e₁, p₁, hr₁⟩ := hfin .negative (-m).toNat (by omega) (by omega)
      obtain ⟨m₂, e₂, p₂, hr₂⟩ := hfin .positive n.toNat (by omega) (by omega)
      simp only [hneg h, hpos h', hr₁, hr₂, UnpackedFloat.compare,
        compare_lt_iff_lt.mpr (h.trans h')]
  · rcases lt_trichotomy n 0 with h' | rfl | h'
    · obtain ⟨m₂, e₂, p₂, hr₂⟩ := hfin .negative (-n).toNat (by omega) (by omega)
      simp only [hneg h', hzero, hr₂, UnpackedFloat.compare, compare_gt_iff_gt.mpr h']
    · simp only [hzero, UnpackedFloat.compare, compare_eq_iff_eq.mpr rfl]
    · obtain ⟨m₂, e₂, p₂, hr₂⟩ := hfin .positive n.toNat (by omega) (by omega)
      simp only [hpos h', hzero, hr₂, UnpackedFloat.compare, compare_lt_iff_lt.mpr h']
  · rcases lt_trichotomy n 0 with h' | rfl | h'
    · obtain ⟨m₁, e₁, p₁, hr₁⟩ := hfin .positive m.toNat (by omega) (by omega)
      obtain ⟨m₂, e₂, p₂, hr₂⟩ := hfin .negative (-n).toNat (by omega) (by omega)
      simp only [hpos h, hneg h', hr₁, hr₂, UnpackedFloat.compare,
        compare_gt_iff_gt.mpr (h'.trans h)]
    · obtain ⟨m₁, e₁, p₁, hr₁⟩ := hfin .positive m.toNat (by omega) (by omega)
      simp only [hpos h, hzero, hr₁, UnpackedFloat.compare, compare_gt_iff_gt.mpr h]
    · obtain ⟨m₁, e₁, p₁, m₂, e₂, p₂, hr₁, hr₂, hcmp⟩ := compare_round_ofNat .positive
        (a := m.toNat) (b := n.toNat) (by omega) (by omega) (by omega) (by omega)
      simp only [hpos h, hpos h', hr₁, hr₂, UnpackedFloat.compare, hcmp]
      congr 1
      rcases lt_trichotomy m n with hc | rfl | hc
      · rw [compare_lt_iff_lt.mpr hc, compare_lt_iff_lt.mpr (by omega)]
      · rw [compare_eq_iff_eq.mpr rfl, compare_eq_iff_eq.mpr rfl]
      · rw [compare_gt_iff_gt.mpr hc, compare_gt_iff_gt.mpr (by omega)]

private theorem compare_then_swap (e₁ e₂ : Int) (m₁ m₂ : Nat) :
    (compare e₂ e₁).then (compare m₂ m₁) = ((compare e₁ e₂).then (compare m₁ m₂)).swap := by
  rw [Ordering.swap_then, ← Std.OrientedCmp.eq_swap, ← Std.OrientedCmp.eq_swap]

/-- Comparing the other way round swaps the result. -/
theorem compare_swap (a b : Float.Model) : b.compare a = (a.compare b).map Ordering.swap := by
  unfold Float.Model.compare
  generalize a.unpack = x
  generalize b.unpack = y
  cases x with
  | notANumber => cases y <;> rfl
  | infinity s => cases s <;> cases y with
    | infinity t => cases t <;> rfl
    | notANumber => rfl
    | zero t => rfl
    | finite t => rfl
  | zero s => cases y with
    | infinity t => cases t <;> rfl
    | notANumber => rfl
    | zero t => rfl
    | finite t => cases t <;> rfl
  | finite s m₁ e₁ => cases s <;> cases y with
    | infinity t => cases t <;> rfl
    | notANumber => rfl
    | zero t => rfl
    | finite t m₂ e₂ =>
      cases t <;>
        simp only [UnpackedFloat.compare, Option.map_some, compare_then_swap e₁ e₂ m₁ m₂,
          Ordering.swap_lt, Ordering.swap_gt]

/-- Only a NaN is incomparable. -/
theorem compare_isSome {a b : Float.Model} (ha : a.isNaN = false) (hb : b.isNaN = false) :
    ∃ c, a.compare b = some c := by
  unfold Float.Model.isNaN at ha hb
  unfold Float.Model.compare
  generalize a.unpack = x at ha
  generalize b.unpack = y at hb
  cases x with
  | notANumber => cases ha
  | infinity s => cases s <;> cases y with
    | notANumber => cases hb
    | infinity t => exact ⟨_, rfl⟩
    | zero t => exact ⟨_, rfl⟩
    | finite t => exact ⟨_, rfl⟩
  | zero s => cases y with
    | notANumber => cases hb
    | infinity t => cases t <;> exact ⟨_, rfl⟩
    | zero t => exact ⟨_, rfl⟩
    | finite t => cases t <;> exact ⟨_, rfl⟩
  | finite s => cases s <;> cases y with
    | notANumber => cases hb
    | infinity t => cases t <;> exact ⟨_, rfl⟩
    | zero t => exact ⟨_, rfl⟩
    | finite t => cases t <;> exact ⟨_, rfl⟩

/-- A NaN is not ordered with anything. -/
theorem compare_eq_none {a b : Float.Model} (h : a.isNaN = true ∨ b.isNaN = true) :
    a.compare b = none := by
  unfold Float.Model.isNaN at h
  unfold Float.Model.compare
  generalize a.unpack = x at h
  generalize b.unpack = y at h
  rcases h with h | h
  · cases x with
    | notANumber => rfl
    | infinity s | zero s | finite s => cases h
  · cases y with
    | notANumber => cases x <;> rfl
    | infinity s | zero s | finite s => cases h

private theorem compare_toLex {α β : Type} [LinearOrder α] [LinearOrder β] (a b : α) (x y : β) :
    compare (toLex (a, x)) (toLex (b, y)) = (compare a b).then (compare x y) := by
  rcases lt_trichotomy a b with h | rfl | h
  · rw [compare_lt_iff_lt.mpr h, compare_lt_iff_lt.mpr (Prod.Lex.toLex_lt_toLex.mpr (.inl h))]
    rfl
  · have hsnd : ∀ {x y : β}, x < y → toLex (a, x) < toLex (a, y) := fun h =>
      Prod.Lex.toLex_lt_toLex.mpr (.inr ⟨rfl, h⟩)
    rw [compare_eq_iff_eq.mpr rfl, Ordering.eq_then]
    rcases lt_trichotomy x y with h | rfl | h
    · rw [compare_lt_iff_lt.mpr h, compare_lt_iff_lt.mpr (hsnd h)]
    · rw [compare_eq_iff_eq.mpr rfl, compare_eq_iff_eq.mpr rfl]
    · rw [compare_gt_iff_gt.mpr h, compare_gt_iff_gt.mpr (hsnd h)]
  · rw [compare_gt_iff_gt.mpr h, compare_gt_iff_gt.mpr (Prod.Lex.toLex_lt_toLex.mpr (.inl h))]
    rfl

private theorem compare_neg (a b : Int) : compare (-a) (-b) = (compare a b).swap := by
  rcases lt_trichotomy a b with h | rfl | h
  · rw [compare_lt_iff_lt.mpr h, compare_gt_iff_gt.mpr (by omega)]
    rfl
  · rw [compare_eq_iff_eq.mpr rfl, compare_eq_iff_eq.mpr rfl]
    rfl
  · rw [compare_gt_iff_gt.mpr h, compare_lt_iff_lt.mpr (by omega)]
    rfl

private theorem compare_natCast (m n : Nat) : compare (m : Int) (n : Int) = compare m n := by
  rcases lt_trichotomy m n with h | rfl | h
  · rw [compare_lt_iff_lt.mpr h, compare_lt_iff_lt.mpr (by omega)]
  · rw [compare_eq_iff_eq.mpr rfl, compare_eq_iff_eq.mpr rfl]
  · rw [compare_gt_iff_gt.mpr h, compare_gt_iff_gt.mpr (by omega)]

/-- The place of a number: the infinities outermost, the two zeros in one place, and between them
    the exponent before the mantissa. -/
def UnpackedFloat.rank : UnpackedFloat → Int ×ₗ Int ×ₗ Int
  | .notANumber => toLex (0, toLex (0, 0))
  | .infinity .negative => toLex (-2, toLex (0, 0))
  | .finite .negative m e _ => toLex (-1, toLex (-e, -(m : Int)))
  | .zero _ => toLex (0, toLex (0, 0))
  | .finite .positive m e _ => toLex (1, toLex (e, (m : Int)))
  | .infinity .positive => toLex (2, toLex (0, 0))

/-- Numbers that are not NaN compare as their ranks. -/
theorem compare_eq_rank {a b : Float.Model} (ha : a.isNaN = false) (hb : b.isNaN = false) :
    a.compare b = some (compare a.unpack.rank b.unpack.rank) := by
  unfold Float.Model.isNaN at ha hb
  unfold Float.Model.compare
  generalize a.unpack = x at ha
  generalize b.unpack = y at hb
  cases x with
  | notANumber => cases ha
  | infinity s => cases s <;> cases y with
    | notANumber => cases hb
    | infinity t => cases t <;> rfl
    | zero t => rfl
    | finite t => cases t <;> rfl
  | zero s => cases y with
    | notANumber => cases hb
    | infinity t | zero t | finite t =>
      cases t <;> simp only [UnpackedFloat.compare, rank, compare_toLex] <;> rfl
  | finite s m e => cases s <;> cases y with
    | notANumber => cases hb
    | infinity t | zero t =>
      cases t <;> simp only [UnpackedFloat.compare, rank, compare_toLex] <;> rfl
    -- of two negative numbers the one with the smaller magnitude is greater
    | finite t m' e' =>
      cases t <;>
        simp only [UnpackedFloat.compare, rank, compare_toLex, compare_neg, compare_natCast,
          Ordering.swap_then]
      all_goals rfl

/-- An integer below `2 ^ 64` in absolute value does not become a NaN. -/
theorem isNaN_ofInt {n : Int} (hn : n.natAbs < 2 ^ 64) : (Float.Model.ofInt n).isNaN = false := by
  unfold Float.Model.isNaN
  rw [unpack_ofInt hn]
  rcases lt_trichotomy n 0 with h | rfl | h
  · obtain ⟨m, e, p, hr, -⟩ := round_ofNat .negative (-n).toNat (by omega) (by omega)
    simp only [UnpackedFloat.normalize, compare_lt_iff_lt.mpr h, hr]
    rfl
  · rfl
  · obtain ⟨m, e, p, hr, -⟩ := round_ofNat .positive n.toNat (by omega) (by omega)
    simp only [UnpackedFloat.normalize, compare_gt_iff_gt.mpr h, hr]
    rfl

/-- The bits of a number stand for that number. -/
theorem ofBits_toBits (m : Float.Model) : Float.Model.ofBits m.toBits = m := by
  obtain ⟨bits, hvalid⟩ := m
  have h := UInt64.toBitVec_inj.mp (pack_unpack_of_valid hvalid)
  simp only [Float.Model.ofBits, Float.Model.pack, Float.Model.mk.injEq]
  exact h

end Float.Model
