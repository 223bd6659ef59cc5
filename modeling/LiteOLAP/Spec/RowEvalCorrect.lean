import LiteOLAP.ForStd.List
import LiteOLAP.Spec.FastPathCorrect

/-!
# `EvalPredicate`, row by row

The mask of a batch says of each row what could be said of that row alone: which other rows are
in the batch makes no difference.

## Key results

- `evalExprRow_eq`: an expression only sees the values of its row
- `evalPredicate_eq_mapM`: the mask is the list of decisions for the rows
- `decideRow_eq_ok`: the typed path decides as the per-row path does, except on a NaN
-/

namespace LiteOLAP

/-- `EvalExprRow` on a row by itself. -/
def evalRow (e : BoundExpr) (r : Row) : Except Exc Value :=
  match e with
  | .column idx _ =>
    match r[idx]? with
    | some v => .ok v
    | none => .error .undefinedBehaviour
  | .literal v => .ok v
  | .not c => do
    let v ← evalRow c r
    return boolValue (!valueTruthy v)
  | .binary .and a b => do
    let v ← evalRow a r
    if !valueTruthy v then return boolValue false
    let w ← evalRow b r
    return boolValue (valueTruthy w)
  | .binary .or a b => do
    let v ← evalRow a r
    if valueTruthy v then return boolValue true
    let w ← evalRow b r
    return boolValue (valueTruthy w)
  | .binary op a b => do
    let v ← evalRow a r
    let w ← evalRow b r
    match op with
    | .add | .sub | .mul | .div => arithResult op v w
    | _ => compareResult op v w

/-- The per-row path on a row by itself. -/
def truthyRow (e : BoundExpr) (r : Row) : Except Exc Bool := do
  let v ← evalRow e r
  return valueTruthy v

/-- `column CMP literal` on one value of a column that is bound as fixed-width: the typed path,
    or the per-row path if the vector is `VARCHAR`. -/
def columnAnswer (op : BoundOp) (t : ColumnType) (lit v : Value) : Except Exc Bool :=
  match t with
  | .int =>
    match lit with
    | .int32 l => .ok (match v with
        | .int32 x => fastOp (· == ·) (decide <| · < ·) (decide <| · ≤ ·) op x l
        | _ => false)
    | _ => .error .badVariantAccess
  | .bigInt => do
    let l ← asI64 lit
    return match v with
      | .int64 x => fastOp (· == ·) (decide <| · < ·) (decide <| · ≤ ·) op x l
      | _ => false
  | .float => do
    let l ← asDouble lit
    return match v with
      | .double x => fastOp Double.beq Double.lt Double.le op x l
      | _ => false
  | .varchar => rowAnswer op lit v

/-- `EvalPredicate` on a row by itself, in a batch with columns of the given types. -/
def decideRow (predicate : BoundExpr) (types : List ColumnType) (r : Row) : Except Exc Bool :=
  match predicate with
  | .binary op (.column idx t) (.literal lit) =>
    if isSimpleNumericCompare (.binary op (.column idx t) (.literal lit)) then
      match types[idx]? with
      | none => .error .undefinedBehaviour
      | some ct => columnAnswer op ct lit (r.getD idx .null)
    else truthyRow predicate r
  | _ => truthyRow predicate r

/-! ## One row of a batch -/

section

variable {chunk : DataChunk} {i : Nat}

theorem DataChunk.getValue_eq_getElem? (hi : i < chunk.cardinality) (idx : Nat) :
    chunk.getValue idx i =
      match (chunk.row i)[idx]? with
      | some v => .ok v
      | none => .error .undefinedBehaviour := by
  by_cases hidx : idx < chunk.columns.length
  · have hrow : idx < (chunk.row i).length := by simpa [DataChunk.row] using hidx
    rw [DataChunk.getValue_eq hidx hi, List.getElem?_eq_getElem hrow,
      List.getD_eq_getElem _ _ hrow]
  · have hrow : (chunk.row i).length ≤ idx := by simpa [DataChunk.row] using hidx
    rw [DataChunk.getValue, List.getElem?_eq_none (Nat.not_lt.mp hidx),
      List.getElem?_eq_none hrow]

/-- An expression only sees the values of its row. -/
theorem evalExprRow_eq (hi : i < chunk.cardinality) (e : BoundExpr) :
    evalExprRow e chunk i = evalRow e (chunk.row i) := by
  induction e with
  | column idx t => exact DataChunk.getValue_eq_getElem? hi idx
  | literal v => rfl
  | not c ih => simp only [evalExprRow, evalRow, ih]
  | binary op a b iha ihb =>
    cases op with
    | and | or | eq | ne | lt | le | gt | ge | add | sub | mul | div =>
      simp only [evalExprRow, evalRow, iha, ihb]

/-- The per-row path is a decision for each row. -/
theorem evalPredicateRows_eq_mapM (predicate : BoundExpr) (chunk : DataChunk) :
    evalPredicateRows predicate chunk = chunk.rows.mapM (truthyRow predicate) := by
  rw [DataChunk.rows, List.mapM_map, evalPredicateRows]
  refine List.mapM_congr_mem fun i hi => ?_
  rw [evalExprRow_eq (List.mem_range.mp hi)]
  rfl

end

/-! ## The typed path -/

private theorem mapM_error {α β ε : Type} {f : α → Except ε β} {l : List α} (hne : l ≠ [])
    {e : ε} (h : ∀ x, f x = .error e) : l.mapM f = .error e := by
  cases l with
  | nil => exact absurd rfl hne
  | cons x xs => rw [List.mapM_cons, h x, Except.error_bind]

/-- The typed path, value by value. -/
theorem fastPredicate_eq_mapM (op : BoundOp) {col : Vector} (lit : Value)
    (hne : col.values ≠ []) (ht : col.type ≠ .varchar) :
    fastPredicate op col lit = (do
      let mask ← col.values.mapM (columnAnswer op col.type lit)
      return some mask) := by
  cases hct : col.type with
  | int =>
    cases lit with
    | int32 l =>
      have hmap := List.mapM_eq_ok (l := col.values) (f := columnAnswer op .int (.int32 l))
        fun v _ => rfl
      rw [hmap]
      simp only [fastPredicate, hct, fastCompare, int32Slots, List.map_map]
      refine congrArg (fun mask => Except.ok (some mask)) (List.map_congr_left fun v _ => ?_)
      cases v <;> rfl
    | null | int64 l | double l | string l =>
      rw [mapM_error (f := columnAnswer op .int _) hne fun v => rfl]
      simp only [fastPredicate, hct]
      rfl
  | bigInt =>
    cases hl : asI64 lit with
    | ok l =>
      have hmap := List.mapM_eq_ok (l := col.values) (f := columnAnswer op .bigInt lit)
        fun v _ => by simp only [columnAnswer, hl]; rfl
      rw [hmap]
      simp only [fastPredicate, hct, hl, fastCompare, int64Slots, List.map_map]
      refine congrArg (fun mask => Except.ok (some mask)) (List.map_congr_left fun v _ => ?_)
      cases v <;> rfl
    | error e =>
      rw [mapM_error (f := columnAnswer op .bigInt lit) hne fun v => by
        simp only [columnAnswer, hl]; rfl]
      simp only [fastPredicate, hct, hl]
      rfl
  | float =>
    cases hl : asDouble lit with
    | ok l =>
      have hmap := List.mapM_eq_ok (l := col.values) (f := columnAnswer op .float lit)
        fun v _ => by simp only [columnAnswer, hl]; rfl
      rw [hmap]
      simp only [fastPredicate, hct, hl, fastCompare, doubleSlots, List.map_map]
      refine congrArg (fun mask => Except.ok (some mask)) (List.map_congr_left fun v _ => ?_)
      cases v <;> rfl
    | error e =>
      rw [mapM_error (f := columnAnswer op .float lit) hne fun v => by
        simp only [columnAnswer, hl]; rfl]
      simp only [fastPredicate, hct, hl]
      rfl
  | varchar => exact absurd hct ht

/-- `column CMP literal` sees one value of a row. -/
theorem truthyRow_column {op : BoundOp} (hop : op.isComparison = true) {idx : Nat}
    (t : ColumnType) (lit : Value) {r : Row} (hidx : idx < r.length) :
    truthyRow (.binary op (.column idx t) (.literal lit)) r =
      rowAnswer op lit (r.getD idx .null) := by
  rw [List.getD_eq_getElem _ _ hidx]
  cases op with
  | eq | ne | lt | le | gt | ge =>
    simp only [truthyRow, evalRow, List.getElem?_eq_getElem hidx, Except.ok_bind]
    rfl
  | and | or | add | sub | mul | div => cases hop
/-- Going down a column is going down the rows. -/
private theorem mapM_column {β : Type} (f : Value → Except Exc β) {chunk : DataChunk}
    {idx : Nat} (hidx : idx < chunk.columns.length) :
    chunk.columns[idx].values.mapM f =
      chunk.rows.mapM fun r => f (r.getD idx .null) := by
  have hlen : chunk.columns[idx].values.length = chunk.cardinality :=
    chunk.rect _ (List.getElem_mem hidx)
  have hvalues := List.eq_map_range chunk.columns[idx].values .null
  rw [hlen] at hvalues
  rw [hvalues, List.mapM_map, DataChunk.rows, List.mapM_map]
  refine List.mapM_congr_mem fun i hi => ?_
  simp only [Function.comp_apply, DataChunk.row]
  rw [List.getD_eq_getElem (List.map _ _) _ (by simpa using hidx), List.getElem_map]

/-- `column CMP literal` on a column bound as fixed-width. -/
private theorem evalPredicate_simple {op : BoundOp} {idx : Nat} {t : ColumnType} {lit : Value}
    (hsimple : isSimpleNumericCompare (.binary op (.column idx t) (.literal lit)) = true)
    {chunk : DataChunk} (hne : 0 < chunk.cardinality) :
    evalPredicate (.binary op (.column idx t) (.literal lit)) chunk =
      chunk.rows.mapM (decideRow (.binary op (.column idx t) (.literal lit)) chunk.types) := by
  have hop : op.isComparison = true := (Bool.and_eq_true_iff.mp hsimple).1
  have hrows : chunk.rows ≠ [] := by
    rw [DataChunk.rows, ne_eq, List.map_eq_nil_iff, List.range_eq_nil]
    omega
  by_cases hidx : idx < chunk.columns.length
  · have htypes : chunk.types[idx]? = some chunk.columns[idx].type := by
      rw [DataChunk.types, List.getElem?_map, List.getElem?_eq_getElem hidx]
      rfl
    have hdecide : decideRow (.binary op (.column idx t) (.literal lit)) chunk.types =
        fun r => columnAnswer op chunk.columns[idx].type lit (r.getD idx .null) := by
      funext r
      simp only [decideRow, hsimple, if_true, htypes]
    rw [hdecide, ← mapM_column _ hidx]
    simp only [evalPredicate, hsimple, if_true, List.getElem?_eq_getElem hidx]
    by_cases hvarchar : chunk.columns[idx].type = .varchar
    · -- the typed path gives up on a `VARCHAR` vector
      simp only [fastPredicate, hvarchar, Except.ok_bind]
      exact evalPredicateRows_column hop hidx
    · have hvalues : chunk.columns[idx].values ≠ [] := by
        have hlen := chunk.rect _ (List.getElem_mem hidx)
        intro hnil
        rw [hnil, List.length_nil] at hlen
        omega
      rw [fastPredicate_eq_mapM op lit hvalues hvarchar]
      cases chunk.columns[idx].values.mapM (columnAnswer op chunk.columns[idx].type lit) with
      | error e => rfl
      | ok mask => rfl
  · have hcol : chunk.columns[idx]? = none := List.getElem?_eq_none (Nat.not_lt.mp hidx)
    have htypes : chunk.types[idx]? = none := by
      rw [DataChunk.types, List.getElem?_map, hcol]
      rfl
    rw [mapM_error (e := .undefinedBehaviour) hrows fun r => by
      simp only [decideRow, hsimple, if_true, htypes]]
    simp only [evalPredicate, hsimple, if_true, hcol]

/-- The mask of a batch that is not empty decides each row by itself. -/
theorem evalPredicate_eq_mapM (predicate : BoundExpr) {chunk : DataChunk}
    (hne : 0 < chunk.cardinality) :
    evalPredicate predicate chunk = chunk.rows.mapM (decideRow predicate chunk.types) := by
  cases predicate with
  | column idx t => exact evalPredicateRows_eq_mapM _ _
  | literal v => exact evalPredicateRows_eq_mapM _ _
  | not c => exact evalPredicateRows_eq_mapM _ _
  | binary op l r =>
    cases l with
    | literal v => exact evalPredicateRows_eq_mapM _ _
    | not c => exact evalPredicateRows_eq_mapM _ _
    | binary op' a b => exact evalPredicateRows_eq_mapM _ _
    | column idx t =>
      cases r with
      | column idx' t' => exact evalPredicateRows_eq_mapM _ _
      | not c => exact evalPredicateRows_eq_mapM _ _
      | binary op' a b => exact evalPredicateRows_eq_mapM _ _
      | literal lit =>
        cases hsimple : isSimpleNumericCompare (.binary op (.column idx t) (.literal lit)) with
        | true => exact evalPredicate_simple hsimple hne
        | false =>
          have hdecide : decideRow (.binary op (.column idx t) (.literal lit)) chunk.types =
              truthyRow (.binary op (.column idx t) (.literal lit)) := by
            funext r
            simp only [decideRow, hsimple, Bool.false_eq_true, if_false]
          rw [hdecide, ← evalPredicateRows_eq_mapM]
          simp only [evalPredicate, hsimple, Bool.false_eq_true, if_false]

/-! ## The typed path and NaN -/

/-- The operators that tell "unordered" from "equal". -/
def BoundOp.tellsUnordered : BoundOp → Bool
  | .eq | .ne | .le | .ge => true
  | _ => false

/-- IEEE 754 finds no order where one side is NaN, and `CompareArith` then calls the two equal:
    the typed path and the per-row path answer some operators differently. -/
def nanFlips (op : BoundOp) (lit v : Value) : Bool :=
  match v, asDouble lit with
  | .double x, .ok l => (x.isNaN || l.isNaN) && op.tellsUnordered
  | _, _ => false

/-- The typed path takes the predicate, and meets a NaN. -/
def predicateFlips (predicate : BoundExpr) (r : Row) : Bool :=
  match predicate with
  | .binary op (.column idx t) (.literal lit) => t != .varchar && nanFlips op lit (r.getD idx .null)
  | _ => false

/-- A NaN is unordered. -/
private theorem Double.unordered {a b : Double} (h : a.isNaN = true ∨ b.isNaN = true) :
    beq a b = false ∧ lt a b = false ∧ le a b = false := by
  have hcmp : a.toModel.compare b.toModel = none := Float.Model.compare_eq_none h
  simp only [Float.Model.compare] at hcmp
  simp only [beq, lt, le, Float.Model.beq, Float.Model.lt, Float.Model.le,
    Float.Model.UnpackedFloat.beq, Float.Model.UnpackedFloat.lt, Float.Model.UnpackedFloat.le,
    hcmp]
  exact ⟨rfl, rfl, rfl⟩

/-- The typed path on two doubles, against `CompareArith` on them. -/
private theorem fastOp_double {op : BoundOp} (hop : op.isComparison = true) (x l : Double) :
    op.holds (compareBy Double.lt x l) =
      some (fastOp Double.beq Double.lt Double.le op x l ^^
        ((x.isNaN || l.isNaN) && op.tellsUnordered)) := by
  cases hnan : x.isNaN || l.isNaN with
  | false =>
    obtain ⟨hx, hl⟩ := Bool.or_eq_false_iff.mp hnan
    obtain ⟨c, hord⟩ := Double.exists_ordersAs hx hl
    rw [hord.compareBy_eq, hord.fastOp_eq hop, Bool.false_and, Bool.xor_false]
  | true =>
    have hor : x.isNaN = true ∨ l.isNaN = true := Bool.or_eq_true_iff.mp hnan
    obtain ⟨hbeq, hlt, hle⟩ := Double.unordered hor
    obtain ⟨-, hgt, hge⟩ := Double.unordered hor.symm
    cases op with
    | eq | ne | lt | le | gt | ge =>
      simp [compareBy, fastOp, BoundOp.holds, BoundOp.tellsUnordered, hbeq, hlt, hle, hgt, hge]
    | and | or | add | sub | mul | div => cases hop
private theorem nanFlips_of_not_double {op : BoundOp} {lit v : Value}
    (hv : ∀ x, v ≠ .double x) : nanFlips op lit v = false := by
  cases v with
  | double x => exact absurd rfl (hv x)
  | null | int32 x | int64 x | string x => rfl

/-- `CompareValues` on a `BIGINT` and a literal that `AsI64` reads. -/
private theorem compareValues_int64 {x l : Int64} {lit : Value} (hl : asI64 lit = .ok l) :
    lit ≠ .null ∧ compareValues (.int64 x) lit = .ok (compare x.toInt l.toInt) := by
  cases lit with
  | int64 y =>
    obtain rfl : y = l := Except.ok.inj hl
    exact ⟨by simp, congrArg Except.ok (ordersAs_int64 x y).compareBy_eq⟩
  | int32 y =>
    -- a mixed pair goes through `double`, which keeps its order
    obtain rfl : y.toInt64 = l := Except.ok.inj hl
    rw [Int32.toInt_toInt64]
    exact ⟨by simp, congrArg Except.ok (compareMixed_int64_int32 x y)⟩
  | null | double y | string y => cases hl
/-- `CompareValues` on a `FLOAT` and a literal that `AsDouble` reads. -/
private theorem compareValues_double {x l : Double} {lit : Value} (hl : asDouble lit = .ok l) :
    lit ≠ .null ∧ compareValues (.double x) lit = .ok (compareBy Double.lt x l) := by
  cases lit with
  | double y | int64 y | int32 y =>
    obtain rfl := Except.ok.inj hl
    exact ⟨by simp, rfl⟩
  | null | string y => cases hl
/-- A typed answer is the per-row one, turned over where it meets a NaN. -/
theorem columnAnswer_eq_ok {op : BoundOp} (hop : op.isComparison = true) {t : ColumnType}
    {lit v : Value} (hv : v.hasType t = true) {a : Bool}
    (h : columnAnswer op t lit v = .ok a) :
    ∃ b, rowAnswer op lit v = .ok b ∧ a = (b ^^ nanFlips op lit v) := by
  cases t with
  | int =>
    cases lit with
    | int32 l =>
      obtain rfl := Except.ok.inj h
      cases v with
      | null => exact ⟨false, rfl, rfl⟩
      | int32 x =>
        have hord := ordersAs_int32 x l
        exact ⟨_, rowAnswer_of_compareValues (by simp) (by simp)
          (congrArg Except.ok hord.compareBy_eq) (hord.fastOp_eq hop), (Bool.xor_false _).symm⟩
      | int64 x | double x | string x => cases hv
    | null | int64 l | double l | string l => cases h
  | bigInt =>
    obtain ⟨l, hl, h⟩ := Except.bind_eq_ok.mp h
    obtain rfl := Except.ok.inj h
    cases v with
    | null => exact ⟨false, rfl, rfl⟩
    | int64 x =>
      obtain ⟨hln, hcmp⟩ := compareValues_int64 (x := x) hl
      exact ⟨_, rowAnswer_of_compareValues (by simp) hln hcmp
        ((ordersAs_int64 x l).fastOp_eq hop), (Bool.xor_false _).symm⟩
    | int32 x | double x | string x => cases hv
  | float =>
    obtain ⟨l, hl, h⟩ := Except.bind_eq_ok.mp h
    obtain rfl := Except.ok.inj h
    cases v with
    | null => exact ⟨false, rfl, rfl⟩
    | double x =>
      obtain ⟨hln, hcmp⟩ := compareValues_double (x := x) hl
      refine ⟨_, rowAnswer_of_compareValues (by simp) hln hcmp (fastOp_double hop x l), ?_⟩
      simp only [nanFlips, hl, Bool.xor_assoc, Bool.xor_self, Bool.xor_false]
    | int32 x | int64 x | string x => cases hv
  | varchar =>
    refine ⟨a, h, ?_⟩
    rw [nanFlips_of_not_double, Bool.xor_false]
    rintro x rfl
    cases hv
private theorem decideRow_simple {op : BoundOp} {idx : Nat} {t : ColumnType} {lit : Value}
    (hsimple : isSimpleNumericCompare (.binary op (.column idx t) (.literal lit)) = true)
    {types : List ColumnType} {r : Row} (htyped : rowTyped types r = true) {a : Bool}
    (h : decideRow (.binary op (.column idx t) (.literal lit)) types r = .ok a) :
    ∃ v, evalRow (.binary op (.column idx t) (.literal lit)) r = .ok v ∧
      a = (valueTruthy v ^^ predicateFlips (.binary op (.column idx t) (.literal lit)) r) := by
  obtain ⟨hop, ht⟩ := Bool.and_eq_true_iff.mp hsimple
  simp only [decideRow, hsimple, if_true] at h
  cases htypes : types[idx]? with
  | none =>
    rw [htypes] at h
    cases h
  | some ct =>
    rw [htypes] at h
    have hidx : idx < r.length := by
      rw [rowTyped_length htyped]
      exact (List.getElem?_eq_some_iff.mp htypes).1
    obtain ⟨b, hb, hab⟩ := columnAnswer_eq_ok hop (rowTyped_getD htyped htypes) h
    rw [← truthyRow_column hop t lit hidx] at hb
    obtain ⟨v, hv, hb⟩ := Except.bind_eq_ok.mp hb
    refine ⟨v, hv, ?_⟩
    rw [hab, predicateFlips, ht, Bool.true_and, Except.ok.inj hb]

/-- What `EvalPredicate` decides for a row, it has from evaluating the predicate on that row,
    except on a NaN. -/
theorem decideRow_eq_ok {predicate : BoundExpr} {types : List ColumnType} {r : Row}
    (htyped : rowTyped types r = true) {a : Bool} (h : decideRow predicate types r = .ok a) :
    ∃ v, evalRow predicate r = .ok v ∧ a = (valueTruthy v ^^ predicateFlips predicate r) := by
  have hrow : ∀ {p : BoundExpr}, predicateFlips p r = false → truthyRow p r = .ok a →
      ∃ v, evalRow p r = .ok v ∧ a = (valueTruthy v ^^ predicateFlips p r) := by
    intro p hflips hrun
    obtain ⟨v, hv, hrun⟩ := Except.bind_eq_ok.mp hrun
    obtain rfl := Except.ok.inj hrun
    exact ⟨v, hv, by rw [hflips, Bool.xor_false]⟩
  cases predicate with
  | column idx t => exact hrow rfl h
  | literal v => exact hrow rfl h
  | not c => exact hrow rfl h
  | binary op l r =>
    cases l with
    | literal v => exact hrow rfl h
    | not c => exact hrow rfl h
    | binary op' a b => exact hrow rfl h
    | column idx t =>
      cases r with
      | column idx' t' => exact hrow rfl h
      | not c => exact hrow rfl h
      | binary op' a b => exact hrow rfl h
      | literal lit =>
        cases hsimple : isSimpleNumericCompare (.binary op (.column idx t) (.literal lit)) with
        | true => exact decideRow_simple hsimple htyped h
        | false =>
          simp only [decideRow, hsimple, Bool.false_eq_true, if_false] at h
          refine hrow ?_ h
          rcases Bool.and_eq_false_iff.mp hsimple with hop | ht
          · have hsees : op.tellsUnordered = false := by
              cases op with
              | eq | ne | lt | le | gt | ge => cases hop
              | and | or | add | sub | mul | div => rfl
            simp only [predicateFlips, nanFlips, hsees, Bool.and_false]
            split <;> simp
          · simp only [predicateFlips, ht, Bool.false_and]

end LiteOLAP
