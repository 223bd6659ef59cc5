import LiteOLAP.Native.Expression
import LiteOLAP.ForStd.Float
import LiteOLAP.ForStd.List

/-!
# The typed fast path of `EvalPredicate`

`EvalPredicate` answers `column CMP literal` on a fixed-width column with a loop over the raw
slots and everything else row by row. This file compares the two.

Wherever the literal can be read at the column's element type the masks agree, for every
operator and every mix of numeric types: `CompareValues` promotes a mixed pair to `double`,
and a 64-bit integer against an `int32` literal keeps its order under that promotion. The
typed path reads the literal with `std::get` at the type of the column, so it throws on a
literal of a wider type, and on `NULL`, where the per-row path answers.

## Key results

- `fastPredicate_ok`: on a literal it can read, the typed path computes the per-row mask
- `evalPredicate_sameOutcome_iff`: exactly when the two paths have the same outcome
-/

namespace LiteOLAP

/-! ## Operators on an ordered pair -/

/-- The operators of an element type see the pair `a`, `b` as ordered by `c`. -/
structure OrdersAs {α : Type} (beq lt le : α → α → Bool) (a b : α) (c : Ordering) : Prop where
  beq_eq : beq a b = (c == .eq)
  lt_eq : lt a b = (c == .lt)
  gt_eq : lt b a = (c == .gt)
  le_eq : le a b = (c != .gt)
  ge_eq : le b a = (c != .lt)

namespace OrdersAs

variable {α : Type} {beq lt le : α → α → Bool} {a b : α} {c : Ordering}

/-- `CompareArith` finds the order. -/
theorem compareBy_eq (h : OrdersAs beq lt le a b c) : compareBy lt a b = c := by
  rw [compareBy, h.lt_eq, h.gt_eq]
  cases c <;> rfl

/-- `FastCompare` decides the comparison operator on it. -/
theorem fastOp_eq (h : OrdersAs beq lt le a b c) {op : BoundOp} (hop : op.isComparison = true) :
    op.holds c = some (fastOp beq lt le op a b) := by
  cases op with
  | eq => simp only [BoundOp.holds, fastOp, h.beq_eq]
  | ne => simp only [BoundOp.holds, fastOp, h.beq_eq, bne]
  | lt => simp only [BoundOp.holds, fastOp, h.lt_eq]
  | le => simp only [BoundOp.holds, fastOp, h.le_eq]
  | gt => simp only [BoundOp.holds, fastOp, h.gt_eq]
  | ge => simp only [BoundOp.holds, fastOp, h.ge_eq]
  | and | or | add | sub | mul | div => cases hop
end OrdersAs

/-- A type whose operators are those of its integer values orders a pair as these. -/
private theorem ordersAs_of_toInt {α : Type} [BEq α] [LT α] [LE α] [DecidableLT α] [DecidableLE α]
    (toInt : α → Int) (hbeq : ∀ a b : α, (a == b) = decide (toInt a = toInt b))
    (hlt : ∀ a b : α, a < b ↔ toInt a < toInt b) (hle : ∀ a b : α, a ≤ b ↔ toInt a ≤ toInt b)
    (a b : α) : OrdersAs (· == ·) (decide <| · < ·) (decide <| · ≤ ·) a b
      (compare (toInt a) (toInt b)) := by
  rcases lt_trichotomy (toInt a) (toInt b) with h | h | h
  · rw [compare_lt_iff_lt.mpr h]
    constructor <;> simp only [hbeq, hlt, hle] <;>
      first | exact decide_eq_true (by omega) | exact decide_eq_false (by omega)
  · rw [compare_eq_iff_eq.mpr h]
    constructor <;> simp only [hbeq, hlt, hle] <;>
      first | exact decide_eq_true (by omega) | exact decide_eq_false (by omega)
  · rw [compare_gt_iff_gt.mpr h]
    constructor <;> simp only [hbeq, hlt, hle] <;>
      first | exact decide_eq_true (by omega) | exact decide_eq_false (by omega)

theorem ordersAs_int32 (a b : Int32) : OrdersAs (· == ·) (decide <| · < ·) (decide <| · ≤ ·) a b
    (compare a.toInt b.toInt) :=
  ordersAs_of_toInt Int32.toInt (fun _ _ => by rw [Bool.eq_iff_iff]; simp [Int32.toInt_inj])
    (fun _ _ => Int32.lt_iff_toInt_lt) (fun _ _ => Int32.le_iff_toInt_le) a b

theorem ordersAs_int64 (a b : Int64) : OrdersAs (· == ·) (decide <| · < ·) (decide <| · ≤ ·) a b
    (compare a.toInt b.toInt) :=
  ordersAs_of_toInt Int64.toInt (fun _ _ => by rw [Bool.eq_iff_iff]; simp [Int64.toInt_inj])
    (fun _ _ => Int64.lt_iff_toInt_lt) (fun _ _ => Int64.le_iff_toInt_le) a b

namespace Double

/-- Two numbers that IEEE 754 orders as `c` are ordered so by `==`, `<` and `<=`. -/
theorem ordersAs {a b : Double} {c : Ordering} (h : a.toModel.compare b.toModel = some c) :
    OrdersAs beq lt le a b c := by
  have h' : b.toModel.compare a.toModel = some c.swap := by
    rw [Float.Model.compare_swap, h]
    rfl
  simp only [Float.Model.compare] at h h'
  constructor <;>
    simp only [beq, lt, le, Float.Model.beq, Float.Model.lt, Float.Model.le,
      Float.Model.UnpackedFloat.beq, Float.Model.UnpackedFloat.lt, Float.Model.UnpackedFloat.le,
      h, h'] <;>
    cases c <;> rfl

/-- Numbers that are not NaN are ordered. -/
theorem exists_ordersAs {a b : Double} (ha : a.isNaN = false) (hb : b.isNaN = false) :
    ∃ c, OrdersAs beq lt le a b c := by
  obtain ⟨c, hc⟩ := Float.Model.compare_isSome ha hb
  exact ⟨c, ordersAs hc⟩

@[simp] theorem toModel_ofInt (n : Int) : (ofInt n).toModel = Float.Model.ofInt n :=
  Float.Model.ofBits_toBits _

theorem isNaN_ofInt {n : Int} (h : n.natAbs < 2 ^ 64) : (ofInt n).isNaN = false := by
  rw [isNaN, toModel_ofInt, Float.Model.isNaN_ofInt h]

end Double

private theorem natAbs_int32 (v : Int32) : v.toInt.natAbs < 2 ^ 53 := by
  have h₁ := v.toInt_lt
  have h₂ := v.le_toInt
  omega

private theorem natAbs_int64 (v : Int64) : v.toInt.natAbs < 2 ^ 64 := by
  have h₁ := v.toInt_lt
  have h₂ := v.le_toInt
  omega

/-- Promoting a 64-bit integer and an `int32` to `double` keeps their order. -/
theorem compareMixed_int64_int32 (a : Int64) (b : Int32) :
    compareMixed (.ofInt a.toInt) (.ofInt b.toInt) = compare a.toInt b.toInt := by
  apply (Double.ordersAs _).compareBy_eq
  rw [Double.toModel_ofInt, Double.toModel_ofInt,
    Float.Model.compare_ofInt (natAbs_int64 a) (natAbs_int32 b)]

/-! ## The per-row path on `column CMP literal` -/

/-- What the per-row path answers for one value of the column. -/
def rowAnswer (op : BoundOp) (lit v : Value) : Except Exc Bool := do
  let r ← compareResult op v lit
  return valueTruthy r

/-- The per-row path runs down the values of the column. -/
theorem evalPredicateRows_column {chunk : DataChunk} {op : BoundOp} {idx : Nat} {t : ColumnType}
    {lit : Value} (hop : op.isComparison = true) (hidx : idx < chunk.columns.length) :
    evalPredicateRows (.binary op (.column idx t) (.literal lit)) chunk =
      chunk.columns[idx].values.mapM (rowAnswer op lit) := by
  have hlen : chunk.columns[idx].values.length = chunk.cardinality :=
    chunk.rect _ (List.getElem_mem hidx)
  have hvalues := List.eq_map_range chunk.columns[idx].values .null
  rw [hlen] at hvalues
  rw [hvalues, List.mapM_map, evalPredicateRows]
  apply List.mapM_congr_mem
  intro i hi
  have hcol : chunk.getValue idx i = .ok (chunk.columns[idx].values.getD i .null) := by
    rw [DataChunk.getValue_eq hidx (List.mem_range.mp hi), DataChunk.row,
      List.getD_eq_getElem _ _ (by simpa using hidx), List.getElem_map]
  cases op with
  | eq | ne | lt | le | gt | ge =>
    simp only [evalExprRow, hcol]
    rfl
  | and | or | add | sub | mul | div => cases hop
@[simp] theorem rowAnswer_null (op : BoundOp) (lit : Value) :
    rowAnswer op lit .null = .ok false := rfl

@[simp] theorem rowAnswer_null_literal (op : BoundOp) (v : Value) :
    rowAnswer op .null v = .ok false := by
  simp [rowAnswer, compareResult, Value.isNull]
  rfl

/-- A non-NULL pair is answered by the operator on its order. -/
theorem rowAnswer_of_compareValues {op : BoundOp} {lit v : Value} {c : Ordering} {b : Bool}
    (hv : v ≠ .null) (hl : lit ≠ .null) (hc : compareValues v lit = .ok c)
    (hb : op.holds c = some b) : rowAnswer op lit v = .ok b := by
  have hnull : (v.isNull || lit.isNull) = false := by simp [hv, hl]
  simp only [rowAnswer, compareResult, hnull, hc, Bool.false_eq_true, if_false, Except.ok_bind, hb]
  cases b <;> rfl

/-- A value of a fixed-width column is no string. -/
private theorem not_string_of_hasType {t : ColumnType} (ht : t ≠ .varchar) {v : Value}
    (hv : v.hasType t = true) (s : Bytes) : v ≠ .string s := by
  rintro rfl
  cases t with
  | varchar => exact ht rfl
  | int | bigInt | float => cases hv
/-- Two non-NULL numbers can be compared. -/
private theorem compareValues_numeric {v w : Value} (hv : v ≠ .null) (hw : w ≠ .null)
    (hvs : ∀ s, v ≠ .string s) (hws : ∀ s, w ≠ .string s) :
    ∃ c, compareValues v w = .ok c := by
  cases v with
  | null => exact absurd rfl hv
  | string s => exact absurd rfl (hvs s)
  | int32 x | int64 x | double x =>
    cases w with
    | null => exact absurd rfl hw
    | string s => exact absurd rfl (hws s)
    | int32 y | int64 y | double y => exact ⟨_, rfl⟩

private theorem holds_of_isComparison {op : BoundOp} (hop : op.isComparison = true)
    (c : Ordering) : ∃ b, op.holds c = some b := by
  cases op with
  | eq | ne | lt | le | gt | ge => exact ⟨_, rfl⟩
  | and | or | add | sub | mul | div => cases hop
/-- Against a literal that is no string the per-row path never throws. -/
theorem rowAnswer_numeric {op : BoundOp} (hop : op.isComparison = true) {t : ColumnType}
    (ht : t ≠ .varchar) {v lit : Value} (hv : v.hasType t = true)
    (hlit : ∀ s, lit ≠ .string s) : ∃ b, rowAnswer op lit v = .ok b := by
  by_cases hvn : v = .null
  · exact ⟨false, by rw [hvn, rowAnswer_null]⟩
  by_cases hln : lit = .null
  · exact ⟨false, by rw [hln, rowAnswer_null_literal]⟩
  obtain ⟨c, hc⟩ := compareValues_numeric hvn hln (not_string_of_hasType ht hv) hlit
  obtain ⟨b, hb⟩ := holds_of_isComparison hop c
  exact ⟨b, rowAnswer_of_compareValues hvn hln hc hb⟩

/-- A string literal against a non-NULL number throws. -/
theorem rowAnswer_string (op : BoundOp) {t : ColumnType} (ht : t ≠ .varchar) {v : Value}
    (s : Bytes) (hv : v.hasType t = true) (hvn : v ≠ .null) :
    ∃ e, rowAnswer op (.string s) v = .error e := by
  cases v with
  | null => exact absurd rfl hvn
  | string r => exact absurd rfl (not_string_of_hasType ht hv r)
  | int32 x | int64 x | double x => exact ⟨_, rfl⟩

/-! ## The two paths -/

/-- The per-row answers are the mask `FastCompare` computes, when every value is NULL in an
    invalid slot or ordered with the literal as its slot is. -/
private theorem mapM_rowAnswer {α : Type} {beq lt le : α → α → Bool} {op : BoundOp}
    (hop : op.isComparison = true) {slot : Value → Option α} {lit : Value} {l : α}
    (hlit : lit ≠ .null) {values : List Value}
    (h : ∀ v ∈ values, v = .null ∧ slot v = none ∨ ∃ x c, v ≠ .null ∧ slot v = some x ∧
      compareValues v lit = .ok c ∧ OrdersAs beq lt le x l c) :
    values.mapM (rowAnswer op lit) = .ok (fastCompare beq lt le op (values.map slot) l) := by
  rw [fastCompare, List.map_map]
  apply List.mapM_eq_ok
  intro v hv
  rcases h v hv with ⟨rfl, hslot⟩ | ⟨x, c, hvn, hslot, hc, hord⟩
  · simp only [Function.comp_apply, hslot, rowAnswer_null]
  · simp only [Function.comp_apply, hslot]
    exact rowAnswer_of_compareValues hvn hlit hc (hord.fastOp_eq hop)

/-- The typed path can read the literal at the element type of the column. -/
def fastReads : ColumnType → Value → Bool
  | .int, .int32 _ => true
  | .bigInt, .int32 _ | .bigInt, .int64 _ => true
  | .float, .int32 _ | .float, .int64 _ | .float, .double _ => true
  | _, _ => false

private theorem fastPredicate_int {op : BoundOp} (hop : op.isComparison = true) {col : Vector}
    (ht : col.type = .int) (l : Int32) :
    ∃ mask, fastPredicate op col (.int32 l) = .ok (some mask) ∧
      col.values.mapM (rowAnswer op (.int32 l)) = .ok mask := by
  refine ⟨_, by simp only [fastPredicate, ht]; rfl, mapM_rowAnswer hop (by simp) ?_⟩
  intro v hv
  have hvt := col.typed v hv
  rw [ht] at hvt
  cases v with
  | null => exact .inl ⟨rfl, rfl⟩
  | int32 x =>
    have hord := ordersAs_int32 x l
    exact .inr ⟨x, _, by simp, rfl, congrArg Except.ok hord.compareBy_eq, hord⟩
  | int64 x | double x | string x => cases hvt
private theorem fastPredicate_bigInt {op : BoundOp} (hop : op.isComparison = true) {col : Vector}
    (ht : col.type = .bigInt) {lit : Value} (hlit : fastReads .bigInt lit = true) :
    ∃ mask, fastPredicate op col lit = .ok (some mask) ∧
      col.values.mapM (rowAnswer op lit) = .ok mask := by
  obtain ⟨l, hl⟩ : ∃ l, asI64 lit = .ok l := by
    cases lit with
    | int32 y | int64 y => exact ⟨_, rfl⟩
    | null | double y | string y => cases hlit
  have hln : lit ≠ .null := by rintro rfl; cases hlit
  refine ⟨_, by simp only [fastPredicate, ht, hl]; rfl, mapM_rowAnswer hop hln ?_⟩
  intro v hv
  have hvt := col.typed v hv
  rw [ht] at hvt
  cases v with
  | null => exact .inl ⟨rfl, rfl⟩
  | int64 x =>
    have hord := ordersAs_int64 x l
    refine .inr ⟨x, _, by simp, rfl, ?_, hord⟩
    cases lit with
    | int64 y =>
      obtain rfl : y = l := Except.ok.inj hl
      exact congrArg Except.ok hord.compareBy_eq
    | int32 y =>
      -- a mixed pair goes through `double`, which keeps its order
      obtain rfl : y.toInt64 = l := Except.ok.inj hl
      rw [Int32.toInt_toInt64]
      exact congrArg Except.ok (compareMixed_int64_int32 x y)
    | null | double y | string y => cases hlit
  | int32 x | double x | string x => cases hvt
private theorem fastPredicate_float {op : BoundOp} (hop : op.isComparison = true) {col : Vector}
    (ht : col.type = .float) (hstored : ∀ d, .double d ∈ col.values → d.isNaN = false)
    {lit : Value} (hlit : fastReads .float lit = true)
    (hnan : ∀ d, lit = .double d → d.isNaN = false) :
    ∃ mask, fastPredicate op col lit = .ok (some mask) ∧
      col.values.mapM (rowAnswer op lit) = .ok mask := by
  obtain ⟨l, hl⟩ : ∃ l, asDouble lit = .ok l := by
    cases lit with
    | int32 y | int64 y | double y => exact ⟨_, rfl⟩
    | null | string y => cases hlit
  have hln : lit ≠ .null := by rintro rfl; cases hlit
  have hlnan : l.isNaN = false := by
    cases lit with
    | double y => exact Except.ok.inj hl ▸ hnan y rfl
    | int64 y => exact Except.ok.inj hl ▸ Double.isNaN_ofInt (natAbs_int64 y)
    | int32 y => exact Except.ok.inj hl ▸ Double.isNaN_ofInt ((natAbs_int32 y).trans (by decide))
    | null | string y => cases hlit
  refine ⟨_, by simp only [fastPredicate, ht, hl]; rfl, mapM_rowAnswer hop hln ?_⟩
  intro v hv
  have hvt := col.typed v hv
  rw [ht] at hvt
  cases v with
  | null => exact .inl ⟨rfl, rfl⟩
  | double x =>
    obtain ⟨c, hord⟩ := Double.exists_ordersAs (hstored x hv) hlnan
    refine .inr ⟨x, c, by simp, rfl, ?_, hord⟩
    have hcmp : compareBy Double.lt x l = c := hord.compareBy_eq
    cases lit with
    | double y | int64 y | int32 y =>
      obtain rfl := Except.ok.inj hl
      exact congrArg Except.ok hcmp
    | null | string y => cases hlit
  | int32 x | int64 x | string x => cases hvt
/-- On a literal it can read, the typed path computes the per-row mask. -/
theorem fastPredicate_ok {op : BoundOp} (hop : op.isComparison = true) {col : Vector}
    (hstored : ∀ d, .double d ∈ col.values → d.isNaN = false) {lit : Value}
    (hnan : ∀ d, lit = .double d → d.isNaN = false) (hlit : fastReads col.type lit = true) :
    ∃ mask, fastPredicate op col lit = .ok (some mask) ∧
      col.values.mapM (rowAnswer op lit) = .ok mask := by
  cases ht : col.type with
  | int =>
    rw [ht] at hlit
    cases lit with
    | int32 l => exact fastPredicate_int hop ht l
    | null | int64 l | double l | string l => cases hlit
  | bigInt => exact fastPredicate_bigInt hop ht (ht ▸ hlit)
  | float => exact fastPredicate_float hop ht hstored (ht ▸ hlit) hnan
  | varchar =>
    rw [ht] at hlit
    cases lit <;> cases hlit
/-- On any other literal it throws. -/
theorem fastPredicate_error (op : BoundOp) {col : Vector} (ht : col.type ≠ .varchar)
    {lit : Value} (hlit : fastReads col.type lit = false) :
    ∃ e, fastPredicate op col lit = .error e := by
  cases hct : col.type with
  | varchar => exact absurd hct ht
  | int =>
    rw [hct] at hlit
    cases lit with
    | int32 y => cases hlit
    | null | int64 y | double y | string y => exact ⟨_, by simp only [fastPredicate, hct]; rfl⟩
  | bigInt =>
    rw [hct] at hlit
    cases lit with
    | int32 y | int64 y => cases hlit
    | null | double y | string y => exact ⟨_, by simp only [fastPredicate, hct]; rfl⟩
  | float =>
    rw [hct] at hlit
    cases lit with
    | int32 y | int64 y | double y => cases hlit
    | null | string y => exact ⟨_, by simp only [fastPredicate, hct]; rfl⟩

/-- Two evaluations have the same outcome: the same result, or an error from both. -/
def SameOutcome {α : Type} (x y : Except Exc α) : Prop := ∀ a, x = .ok a ↔ y = .ok a

/-- On a fixed-width column, `EvalPredicate` hands `column CMP literal` to the typed path. -/
theorem evalPredicate_column {chunk : DataChunk} {op : BoundOp} {idx : Nat} {lit : Value}
    (hop : op.isComparison = true) (hidx : idx < chunk.columns.length)
    (hfixed : chunk.columns[idx].type ≠ .varchar) :
    evalPredicate (.binary op (.column idx chunk.columns[idx].type) (.literal lit)) chunk =
      (do
        match ← fastPredicate op chunk.columns[idx] lit with
        | some mask => return mask
        | none =>
          evalPredicateRows (.binary op (.column idx chunk.columns[idx].type) (.literal lit))
            chunk) := by
  have hsimple : isSimpleNumericCompare
      (.binary op (.column idx chunk.columns[idx].type) (.literal lit)) = true := by
    simp [isSimpleNumericCompare, hop, hfixed]
  have hcol : chunk.columns[idx]? = some chunk.columns[idx] := List.getElem?_eq_getElem hidx
  rw [evalPredicate, if_pos hsimple]
  exact hcol ▸ rfl

/-- The typed path and the per-row path have the same outcome exactly when the literal can be
    read at the column's type, or is a string and some row is not NULL. -/
theorem evalPredicate_sameOutcome_iff (chunk : DataChunk) (op : BoundOp) (idx : Nat)
    (lit : Value) (hop : op.isComparison = true) (hidx : idx < chunk.columns.length)
    (hfixed : chunk.columns[idx].type ≠ .varchar)
    (hstored : ∀ d, .double d ∈ chunk.columns[idx].values → d.isNaN = false)
    (hnan : ∀ d, lit = .double d → d.isNaN = false) :
    SameOutcome
        (evalPredicate (.binary op (.column idx chunk.columns[idx].type) (.literal lit)) chunk)
        (evalPredicateRows (.binary op (.column idx chunk.columns[idx].type) (.literal lit))
          chunk) ↔
      fastReads chunk.columns[idx].type lit = true ∨
        (∃ s, lit = .string s) ∧ ∃ v ∈ chunk.columns[idx].values, v ≠ .null := by
  rw [evalPredicate_column hop hidx hfixed, evalPredicateRows_column hop hidx]
  have htyped := chunk.columns[idx].typed
  cases hread : fastReads chunk.columns[idx].type lit with
  | true =>
    obtain ⟨mask, hfast, hrows⟩ := fastPredicate_ok hop hstored hnan hread
    rw [hfast, hrows]
    exact iff_of_true (fun a => Iff.rfl) (.inl rfl)
  | false =>
    obtain ⟨e, hfast⟩ := fastPredicate_error op hfixed hread
    rw [hfast]
    simp only [Bool.false_eq_true, false_or]
    constructor
    · intro hsame
      -- the typed path throws, so the per-row path must meet a string and a non-NULL number
      have hrows : ∀ mask, chunk.columns[idx].values.mapM (rowAnswer op lit) ≠ .ok mask :=
        fun mask h => by cases (hsame mask).mpr h
      by_contra hcon
      have hall : ∀ v ∈ chunk.columns[idx].values, ∃ b, rowAnswer op lit v = .ok b := by
        intro v hv
        by_cases hs : ∃ s, lit = .string s
        · have hvn : v = .null := by
            by_contra hvn
            exact hcon ⟨hs, v, hv, hvn⟩
          exact ⟨false, by rw [hvn, rowAnswer_null]⟩
        · exact rowAnswer_numeric hop hfixed (htyped v hv) fun s h => hs ⟨s, h⟩
      obtain ⟨mask, hmask⟩ := List.exists_mapM_eq_ok hall
      exact hrows mask hmask
    · rintro ⟨⟨s, rfl⟩, v, hv, hvn⟩ mask
      obtain ⟨e', he'⟩ := rowAnswer_string op hfixed s (htyped v hv) hvn
      obtain ⟨e'', he''⟩ := List.mapM_error_of_mem hv he'
      rw [he'']
      exact iff_of_false (fun h => by cases h) fun h => by cases h

/-- One `INT` column with the row `1`. -/
def oneIntChunk : DataChunk :=
  ⟨[⟨.int, [.int32 1], by decide⟩], 1, by decide⟩

/-- The paths agree on `column < 5`. -/
theorem evalPredicate_sameOutcome_int32_literal :
    SameOutcome (evalPredicate (.binary .lt (.column 0 .int) (.literal (.int32 5))) oneIntChunk)
      (evalPredicateRows (.binary .lt (.column 0 .int) (.literal (.int32 5))) oneIntChunk) :=
  (evalPredicate_sameOutcome_iff oneIntChunk .lt 0 (.int32 5) rfl (by decide) (by decide)
    (fun d h => by simp [oneIntChunk] at h) (by simp)).mpr (.inl rfl)

/-- On `column < 3000000000` the typed path throws where the per-row path selects the row. -/
theorem evalPredicate_int_column_int64_literal :
    ¬ SameOutcome
      (evalPredicate (.binary .lt (.column 0 .int) (.literal (.int64 3000000000))) oneIntChunk)
      (evalPredicateRows (.binary .lt (.column 0 .int) (.literal (.int64 3000000000)))
        oneIntChunk) := by
  intro h
  have hrows : evalPredicateRows (.binary .lt (.column 0 .int) (.literal (.int64 3000000000)))
      oneIntChunk = .ok [true] := by decide +kernel
  have hfast : evalPredicate (.binary .lt (.column 0 .int) (.literal (.int64 3000000000)))
      oneIntChunk = .error .badVariantAccess := rfl
  cases hfast.symm.trans ((h [true]).mpr hrows)

end LiteOLAP
