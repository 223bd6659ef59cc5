import LiteOLAP.Spec.AccumulatorCorrect
import LiteOLAP.Spec.FastPathCorrect
import LiteOLAP.Spec.HashJoinCorrect

/-!
# The key equality of the join

`HashJoin` joins rows whose `KeyOf` strings are equal, and `KeyOf` tags an `INT` and a
`BIGINT` with different letters. A residual filter `a = b` compares the two as numbers.

## Key results

- `keyOf_inj`: non-NULL values have one key string only when they are the same
- `joins_agree_iff`: the two equalities differ exactly on an `INT` and a `BIGINT` that are the
  same integer
-/

namespace LiteOLAP

open Bytes (leBytes_inj)

/-- Column types that an equi-join may compare: both numeric, or both `VARCHAR`. -/
def joinable : ColumnType → ColumnType → Bool
  | .int, .int | .int, .bigInt | .bigInt, .int | .bigInt, .bigInt => true
  | .varchar, .varchar => true
  | _, _ => false

/-- The integer that an `INT` or `BIGINT` value stands for. -/
def integerOf : Value → Option Int
  | .int32 v => some v.toInt
  | .int64 v => some v.toInt
  | _ => none

/-- `column = column` as a residual filter would decide it. -/
def residualKeeps (leftKey rightKey : Nat) (l r : Row) : Bool :=
  match compareResult .eq (keyAt leftKey l) (keyAt rightKey r) with
  | .ok v => valueTruthy v
  | .error _ => false

/-- The two equalities agree on a pair of rows: on their keys, and on whether the pair is
    kept. -/
def EqualitiesAgree (leftKey rightKey : Nat) (l r : Row) : Prop :=
  (keyOf (keyAt leftKey l) = keyOf (keyAt rightKey r) ↔
    compareValues (keyAt leftKey l) (keyAt rightKey r) = .ok .eq) ∧
  joins leftKey rightKey l r = residualKeeps leftKey rightKey l r

/-! ## Key strings -/

/-- A key string tells the alternative and the value. -/
theorem keyOf_inj {v w : Value} (hv : v ≠ .null) (hw : w ≠ .null) (h : keyOf v = keyOf w) :
    v = w := by
  cases v with
  | null => exact absurd rfl hv
  | int32 x =>
    cases w with
    | null => exact absurd rfl hw
    | int32 y =>
      have hbytes := leBytes_inj x.toUInt32.toNat_lt y.toUInt32.toNat_lt (List.cons.inj h).2
      obtain ⟨n⟩ := x
      obtain ⟨n'⟩ := y
      exact congrArg _ (congrArg _ (UInt32.toNat_inj.mp hbytes))
    | int64 y | double y | string y => simp [keyOf] at h
  | int64 x =>
    cases w with
    | null => exact absurd rfl hw
    | int64 y =>
      have hbytes := leBytes_inj x.toUInt64.toNat_lt y.toUInt64.toNat_lt (List.cons.inj h).2
      obtain ⟨n⟩ := x
      obtain ⟨n'⟩ := y
      exact congrArg _ (congrArg _ (UInt64.toNat_inj.mp hbytes))
    | int32 y | double y | string y => simp [keyOf] at h
  | double x =>
    cases w with
    | null => exact absurd rfl hw
    | double y =>
      have hbytes := leBytes_inj x.bits.toNat_lt y.bits.toNat_lt (List.cons.inj h).2
      obtain ⟨b⟩ := x
      obtain ⟨b'⟩ := y
      exact congrArg _ (congrArg _ (UInt64.toNat_inj.mp hbytes))
    | int32 y | int64 y | string y => simp [keyOf] at h
  | string s =>
    cases w with
    | null => exact absurd rfl hw
    | string s' => exact congrArg _ (List.cons.inj h).2
    | int32 y | int64 y | double y => simp [keyOf] at h

theorem keyOf_eq_iff {v w : Value} (hv : v ≠ .null) (hw : w ≠ .null) :
    keyOf v = keyOf w ↔ v = w :=
  ⟨keyOf_inj hv hw, congrArg keyOf⟩

/-! ## Comparing two keys -/

/-- Promoting an `int32` and a 64-bit integer to `double` keeps their order. -/
theorem compareMixed_int32_int64 (a : Int32) (b : Int64) :
    compareMixed (.ofInt a.toInt) (.ofInt b.toInt) = compare a.toInt b.toInt := by
  apply (Double.ordersAs _).compareBy_eq
  have h := Float.Model.compare_ofInt (m := b.toInt) (n := a.toInt)
    (by have h₁ := b.toInt_lt; have h₂ := b.le_toInt; omega)
    (by have h₁ := a.toInt_lt; have h₂ := a.le_toInt; omega)
  rw [Double.toModel_ofInt, Double.toModel_ofInt, Float.Model.compare_swap, h, Option.map_some,
    ← Std.OrientedOrd.eq_swap]

/-- Values of one type compare as equal when they are the same. -/
theorem compareValues_eq_iff_of_comparable {t : ColumnType} {v w : Value}
    (hv : Comparable t v) (hw : Comparable t w) :
    compareValues v w = .ok .eq ↔ v = w := by
  constructor
  · obtain ⟨c, hc, -, heq⟩ := hv.compare_spec hw
    intro h
    rw [hc] at h
    exact heq (Except.ok.inj h)
  · rintro rfl
    obtain ⟨c, hc, hswap, -⟩ := hv.compare_spec hv
    rw [hc] at hswap ⊢
    have hself := Except.ok.inj hswap
    cases c with
    | eq => rfl
    | lt | gt => cases hself
/-- An `INT` and a `BIGINT` compare as equal when they are the same integer. -/
theorem compareValues_mixed {v w : Value} (hvn : v ≠ .null) (hwn : w ≠ .null)
    (htypes : v.hasType .int = true ∧ w.hasType .bigInt = true ∨
      v.hasType .bigInt = true ∧ w.hasType .int = true) :
    v ≠ w ∧ (compareValues v w = .ok .eq ↔ integerOf v = integerOf w) := by
  have hmixed : ∀ {a b : Int}, Except.ok (compare a b) = (.ok .eq : Except Exc Ordering) ↔
      some a = some b := by
    intro a b
    simp
  rcases htypes with ⟨hv, hw⟩ | ⟨hv, hw⟩
  · cases v with
    | int32 x =>
      cases w with
      | int64 y =>
        refine ⟨fun h => (by cases h), ?_⟩
        simp only [compareValues, compareMixed_int32_int64]
        exact hmixed
      | null => exact absurd rfl hwn
      | int32 y | double y | string y => cases hw
    | null => exact absurd rfl hvn
    | int64 x | double x | string x => cases hv
  · cases v with
    | int64 x =>
      cases w with
      | int32 y =>
        refine ⟨fun h => (by cases h), ?_⟩
        simp only [compareValues, compareMixed_int64_int32]
        exact hmixed
      | null => exact absurd rfl hwn
      | int64 y | double y | string y => cases hw
    | null => exact absurd rfl hvn
    | int32 x | double x | string x => cases hv
/-- When `CompareValues` and the key strings say the same of two join keys. -/
theorem keys_agree_iff {t u : ColumnType} (htu : joinable t u = true) {v w : Value}
    (hv : v.hasType t = true) (hw : w.hasType u = true) (hvn : v ≠ .null) (hwn : w ≠ .null) :
    (keyOf v = keyOf w ↔ compareValues v w = .ok .eq) ↔ t = u ∨ integerOf v ≠ integerOf w := by
  rw [keyOf_eq_iff hvn hwn]
  by_cases ht : t = u
  · subst ht
    have hordered : t ≠ .float := by
      rintro rfl
      cases htu
    simp [compareValues_eq_iff_of_comparable ⟨hordered, hv, hvn⟩ ⟨hordered, hw, hwn⟩]
  · have htypes : v.hasType .int = true ∧ w.hasType .bigInt = true ∨
        v.hasType .bigInt = true ∧ w.hasType .int = true := by
      cases t with
      | int =>
        cases u with
        | bigInt => exact .inl ⟨hv, hw⟩
        | int => exact absurd rfl ht
        | float | varchar => cases htu
      | bigInt =>
        cases u with
        | int => exact .inr ⟨hv, hw⟩
        | bigInt => exact absurd rfl ht
        | float | varchar => cases htu
      | varchar =>
        cases u with
        | varchar => exact absurd rfl ht
        | int | bigInt | float => cases htu
      | float => cases htu
    obtain ⟨hne, heq⟩ := compareValues_mixed hvn hwn htypes
    simp [hne, heq, ht]

/-! ## Rows -/

/-- On keys that can be compared, the residual filter keeps what `CompareValues` calls equal. -/
theorem residualKeeps_eq_true_iff {leftKey rightKey : Nat} {l r : Row}
    (hl : keyAt leftKey l ≠ .null) (hr : keyAt rightKey r ≠ .null) :
    residualKeeps leftKey rightKey l r = true ↔
      compareValues (keyAt leftKey l) (keyAt rightKey r) = .ok .eq := by
  simp only [residualKeeps, compareResult, Value.isNull_eq_false.mpr hl,
    Value.isNull_eq_false.mpr hr]
  cases compareValues (keyAt leftKey l) (keyAt rightKey r) with
  | error e => simp
  | ok c => cases c <;> simp [BoundOp.holds, boolValue, valueTruthy]

theorem joins_eq_true_iff {leftKey rightKey : Nat} {l r : Row}
    (hl : keyAt leftKey l ≠ .null) (hr : keyAt rightKey r ≠ .null) :
    joins leftKey rightKey l r = true ↔ keyOf (keyAt leftKey l) = keyOf (keyAt rightKey r) := by
  simp [joins, Value.isNull_eq_false.mpr hl, Value.isNull_eq_false.mpr hr]

/-- On non-NULL keys the join's equality and the engine's agree exactly when both columns have
    one type or the keys are different integers. -/
theorem joins_agree_iff {t u : ColumnType} (htu : joinable t u = true) {leftKey rightKey : Nat}
    {l r : Row} (hl : (keyAt leftKey l).hasType t = true)
    (hr : (keyAt rightKey r).hasType u = true) (hln : keyAt leftKey l ≠ .null)
    (hrn : keyAt rightKey r ≠ .null) :
    EqualitiesAgree leftKey rightKey l r ↔
      t = u ∨ integerOf (keyAt leftKey l) ≠ integerOf (keyAt rightKey r) := by
  rw [EqualitiesAgree, Bool.eq_iff_iff, joins_eq_true_iff hln hrn,
    residualKeeps_eq_true_iff hln hrn, and_self]
  exact keys_agree_iff htu hl hr hln hrn

/-- An `INT` 1 and a `BIGINT` 2 differ either way. -/
theorem joins_agree_iff_one_two :
    EqualitiesAgree 0 0 [.int32 1] [.int64 2] ↔
      ColumnType.int = .bigInt ∨ integerOf (.int32 1) ≠ integerOf (.int64 2) :=
  joins_agree_iff rfl rfl rfl (fun h => by cases h) (fun h => by cases h)

/-- An `INT` 1 does not join a `BIGINT` 1, which a residual filter finds equal. -/
theorem not_equalitiesAgree_int_bigInt :
    ¬ EqualitiesAgree 0 0 [.int32 1] [.int64 1] ∧
      joins 0 0 [.int32 1] [.int64 1] = false ∧
      residualKeeps 0 0 [.int32 1] [.int64 1] = true := by
  have hequal : compareValues (.int32 1) (.int64 1) = .ok .eq :=
    (compareValues_mixed Value.noConfusion Value.noConfusion (.inl ⟨rfl, rfl⟩)).2.mpr (by decide)
  have hkeep : residualKeeps 0 0 [.int32 1] [.int64 1] = true :=
    (residualKeeps_eq_true_iff (by decide) (by decide)).mpr hequal
  have hjoin : joins 0 0 [.int32 1] [.int64 1] = false := rfl
  refine ⟨fun hagree => ?_, hjoin, hkeep⟩
  have hsame := hagree.2
  rw [hjoin, hkeep] at hsame
  cases hsame
end LiteOLAP
