import LiteOLAP.Spec.InferenceCorrect
import LiteOLAP.Spec.PlanShape
import LiteOLAP.Spec.RowEvalCorrect

/-!
# When the workers of an aggregation throw

`InferBoundType` gives an aggregate's argument a type, and nothing rejects a `VARCHAR` where a number
is read. This file says which rows an argument can be evaluated and folded in on, and that the
workers end without an exception just if all rows are of that kind: one row that is not ends the
process, in a run that some schedule allows.

## Key results

- `evalRow_ok_iff`: an expression has a value if its operators can read their operands
- `updateAcc_ok_iff`: a row is folded into an accumulator
- `never_crashes_iff`: the workers of a planned query
-/

namespace LiteOLAP

open Bytes (ofAscii)
open Planner

/-! ## Operands that can be read -/

/-- The value is a string. -/
def Value.isString : Value → Bool
  | .string _ => true
  | _ => false

/-- The operator can read its operands: NULLs always, else two numbers, or two strings that are to
    be compared. -/
def BoundOp.reads (op : BoundOp) (v w : Value) : Bool :=
  v.isNull || w.isNull ||
    if op.isComparison then v.isString == w.isString else !v.isString && !w.isString

/-- The value of an expression in a row, NULL if it has none. -/
def valueIn (e : BoundExpr) (r : Row) : Value :=
  match evalRow e r with
  | .ok v => v
  | .error _ => .null

/-- Every operator that is evaluated in the row can read its operands. -/
def operable (e : BoundExpr) (r : Row) : Bool :=
  match e with
  | .column _ _ | .literal _ => true
  | .not c => operable c r
  | .binary .and a b => operable a r && (!valueTruthy (valueIn a r) || operable b r)
  | .binary .or a b => operable a r && (valueTruthy (valueIn a r) || operable b r)
  | .binary op a b => operable a r && operable b r && op.reads (valueIn a r) (valueIn b r)

section Operators

variable {op : BoundOp} {v w : Value}

/-- `BoundOp.holds` is defined for comparisons. -/
theorem holds_isSome (hop : op.isComparison = true) (c : Ordering) : ∃ b, op.holds c = some b := by
  cases op with
  | eq | ne | lt | le | gt | ge => exact ⟨_, rfl⟩
  | and | or | add | sub | mul | div => cases hop

/-- Values that are not NULL compare if both are strings or neither is. -/
theorem compareValues_ok_iff (hv : v ≠ .null) (hw : w ≠ .null) :
    (∃ c, compareValues v w = .ok c) ↔ v.isString = w.isString := by
  cases v with
  | null => exact absurd rfl hv
  | int32 x | int64 x | double x =>
    cases w with
    | null => exact absurd rfl hw
    | int32 y | int64 y | double y => exact ⟨fun _ => rfl, fun _ => ⟨_, rfl⟩⟩
    | string y => exact ⟨fun h => (by obtain ⟨c, hc⟩ := h; cases hc), fun h => (by cases h)⟩
  | string x =>
    cases w with
    | null => exact absurd rfl hw
    | int32 y | int64 y | double y => exact ⟨fun h => (by obtain ⟨c, hc⟩ := h; cases hc), fun h => (by cases h)⟩
    | string y => exact ⟨fun _ => rfl, fun _ => ⟨_, rfl⟩⟩

/-- A number is read as a `double`. -/
theorem asDouble_ok_iff (hv : v ≠ .null) : (∃ d, asDouble v = .ok d) ↔ v.isString = false := by
  cases v with
  | null => exact absurd rfl hv
  | int32 x | int64 x | double x => exact ⟨fun _ => rfl, fun _ => ⟨_, rfl⟩⟩
  | string x => exact ⟨fun h => (by obtain ⟨d, hd⟩ := h; cases hd), fun h => (by cases h)⟩

/-- A number that is no `double` is read as an `int64`. -/
theorem asI64_ok_iff (hv : v ≠ .null) (hfloat : isFloat v = false) :
    (∃ i, asI64 v = .ok i) ↔ v.isString = false := by
  cases v with
  | null => exact absurd rfl hv
  | int32 x | int64 x => exact ⟨fun _ => rfl, fun _ => ⟨_, rfl⟩⟩
  | double x => cases hfloat
  | string x => exact ⟨fun h => (by obtain ⟨d, hd⟩ := h; cases hd), fun h => (by cases h)⟩

theorem compareResult_ok_iff (hop : op.isComparison = true) :
    (∃ u, compareResult op v w = .ok u) ↔ op.reads v w = true := by
  unfold compareResult BoundOp.reads
  by_cases hnull : (v.isNull || w.isNull) = true
  · rw [if_pos hnull, hnull, Bool.true_or]
    exact ⟨fun _ => rfl, fun _ => ⟨_, rfl⟩⟩
  · rw [if_neg hnull, Bool.eq_false_iff.mpr hnull, Bool.false_or, if_pos hop, beq_iff_eq]
    rw [Bool.or_eq_true, not_or, Value.isNull_eq_true, Value.isNull_eq_true] at hnull
    rw [← compareValues_ok_iff hnull.1 hnull.2]
    constructor
    · rintro ⟨u, hu⟩
      obtain ⟨c, hc, -⟩ := Except.bind_eq_ok.mp hu
      exact ⟨c, hc⟩
    · rintro ⟨c, hc⟩
      obtain ⟨b, hb⟩ := holds_isSome hop c
      rw [hc, Except.ok_bind, hb]
      exact ⟨_, rfl⟩

/-- The four operators of arithmetic. -/
def BoundOp.isArithmetic : BoundOp → Bool
  | .add | .sub | .mul | .div => true
  | _ => false

theorem arithResult_ok_iff (hop : op.isArithmetic = true) :
    (∃ u, arithResult op v w = .ok u) ↔ op.reads v w = true := by
  have hcmp : op.isComparison = false := by cases op <;> first | rfl | cases hop
  unfold arithResult BoundOp.reads
  by_cases hnull : (v.isNull || w.isNull) = true
  · rw [if_pos hnull, hnull, Bool.true_or]
    exact ⟨fun _ => rfl, fun _ => ⟨_, rfl⟩⟩
  rw [if_neg hnull, Bool.eq_false_iff.mpr hnull, Bool.false_or, if_neg (Bool.eq_false_iff.mp hcmp),
    Bool.and_eq_true, Bool.not_eq_true', Bool.not_eq_true']
  rw [Bool.or_eq_true, not_or, Value.isNull_eq_true, Value.isNull_eq_true] at hnull
  by_cases hfloat : (isFloat v || isFloat w) = true
  · rw [if_pos hfloat, ← asDouble_ok_iff hnull.1, ← asDouble_ok_iff hnull.2]
    constructor
    · rintro ⟨u, hu⟩
      obtain ⟨a, ha, hu⟩ := Except.bind_eq_ok.mp hu
      obtain ⟨b, hb, -⟩ := Except.bind_eq_ok.mp hu
      exact ⟨⟨a, ha⟩, b, hb⟩
    · rintro ⟨⟨a, ha⟩, b, hb⟩
      rw [ha, hb]
      cases op with
      | add | sub | mul | div => exact ⟨_, rfl⟩
      | eq | ne | lt | le | gt | ge | and | or => cases hop
  · rw [if_neg hfloat]
    rw [Bool.or_eq_true, not_or, Bool.not_eq_true, Bool.not_eq_true] at hfloat
    rw [← asI64_ok_iff hnull.1 hfloat.1, ← asI64_ok_iff hnull.2 hfloat.2]
    constructor
    · rintro ⟨u, hu⟩
      obtain ⟨a, ha, hu⟩ := Except.bind_eq_ok.mp hu
      obtain ⟨b, hb, -⟩ := Except.bind_eq_ok.mp hu
      exact ⟨⟨a, ha⟩, b, hb⟩
    · rintro ⟨⟨a, ha⟩, b, hb⟩
      rw [ha, hb]
      cases op with
      | add | sub | mul | div => exact ⟨_, rfl⟩
      | eq | ne | lt | le | gt | ge | and | or => cases hop

end Operators

/-! ## Expressions -/

/-- The columns of an expression are among the first `n`. -/
def ColumnsBelow (n : Nat) : BoundExpr → Prop
  | .column idx _ => idx < n
  | .literal _ => True
  | .not c => ColumnsBelow n c
  | .binary _ a b => ColumnsBelow n a ∧ ColumnsBelow n b

theorem valueIn_eq {e : BoundExpr} {r : Row} {v : Value} (h : evalRow e r = .ok v) :
    valueIn e r = v := by
  rw [valueIn, h]

/-- A sequence has a result if its first step has one and its second has one on that. -/
private theorem bind_ok_iff {α β : Type} {x : Except Exc α} {f : α → Except Exc β} :
    (∃ b, (x >>= f) = .ok b) ↔ ∃ a, x = .ok a ∧ ∃ b, f a = .ok b := by
  simp only [Except.bind_eq_ok]
  exact ⟨fun h => by obtain ⟨b, a, ha, hb⟩ := h; exact ⟨a, ha, b, hb⟩,
    fun h => by obtain ⟨a, ha, b, hb⟩ := h; exact ⟨b, a, ha, hb⟩⟩

section Rows

variable {r : Row}

private theorem bind_evalRow {β : Type} {e : BoundExpr} {f : Value → Except Exc β}
    (ih : (∃ v, evalRow e r = .ok v) ↔ operable e r = true) :
    (∃ b, (evalRow e r >>= f) = .ok b) ↔
      operable e r = true ∧ ∃ b, f (valueIn e r) = .ok b := by
  rw [bind_ok_iff, ← ih]
  constructor
  · rintro ⟨v, hv, hb⟩
    exact ⟨⟨v, hv⟩, by rwa [valueIn_eq hv]⟩
  · rintro ⟨⟨v, hv⟩, hb⟩
    exact ⟨v, hv, by rwa [valueIn_eq hv] at hb⟩

/-- An expression has a value in a row just if the operators evaluated there can read their
    operands. -/
theorem evalRow_ok_iff {e : BoundExpr} (he : ColumnsBelow r.length e) :
    (∃ v, evalRow e r = .ok v) ↔ operable e r = true := by
  induction e with
  | column idx t =>
    have hidx : idx < r.length := he
    rw [evalRow, List.getElem?_eq_getElem hidx]
    exact ⟨fun _ => rfl, fun _ => ⟨_, rfl⟩⟩
  | literal v => exact ⟨fun _ => rfl, fun _ => ⟨v, rfl⟩⟩
  | not c ih =>
    rw [evalRow, bind_evalRow (ih he), operable]
    exact and_iff_left ⟨_, rfl⟩
  | binary op a b iha ihb =>
    have ha := iha he.1
    have hb := ihb he.2
    cases op with
    | and =>
      rw [evalRow, bind_evalRow ha, operable, Bool.and_eq_true]
      refine and_congr_right fun _ => ?_
      cases valueTruthy (valueIn a r) with
      | false => exact ⟨fun _ => rfl, fun _ => ⟨_, rfl⟩⟩
      | true =>
        -- the right side decides
        refine (bind_evalRow hb).trans ?_
        exact and_iff_left ⟨_, rfl⟩
    | or =>
      rw [evalRow, bind_evalRow ha, operable, Bool.and_eq_true]
      refine and_congr_right fun _ => ?_
      cases valueTruthy (valueIn a r) with
      | true => exact ⟨fun _ => rfl, fun _ => ⟨_, rfl⟩⟩
      | false =>
        refine (bind_evalRow hb).trans ?_
        exact and_iff_left ⟨_, rfl⟩
    | add | sub | mul | div =>
      rw [evalRow, bind_evalRow ha, operable, Bool.and_eq_true, Bool.and_eq_true, and_assoc]
      · refine and_congr_right fun _ => ?_
        rw [bind_evalRow hb]
        exact and_congr_right fun _ => arithResult_ok_iff rfl
      all_goals simp
    | eq | ne | lt | le | gt | ge =>
      rw [evalRow, bind_evalRow ha, operable, Bool.and_eq_true, Bool.and_eq_true, and_assoc]
      · refine and_congr_right fun _ => ?_
        rw [bind_evalRow hb]
        exact and_congr_right fun _ => compareResult_ok_iff rfl
      all_goals simp

end Rows

/-! ## The types of a batch -/

/-- The expression with the types that its columns have in a batch, which the evaluation does not
    look at. -/
def BoundExpr.retype (types : List ColumnType) : BoundExpr → BoundExpr
  | .column idx _ => .column idx (types.getD idx .int)
  | .literal v => .literal v
  | .not c => .not (c.retype types)
  | .binary op a b => .binary op (a.retype types) (b.retype types)

theorem evalExprRow_retype (types : List ColumnType) (e : BoundExpr) (chunk : DataChunk)
    (row : Nat) : evalExprRow (e.retype types) chunk row = evalExprRow e chunk row := by
  induction e with
  | column idx t => rfl
  | literal v => rfl
  | not c ih => simp only [BoundExpr.retype, evalExprRow, ih]
  | binary op a b iha ihb =>
    cases op with
    | and | or | eq | ne | lt | le | gt | ge | add | sub | mul | div =>
      simp only [BoundExpr.retype, evalExprRow, iha, ihb]

theorem columnsBound_retype {types : List ColumnType} {e : BoundExpr}
    (he : ColumnsBelow types.length e) : ColumnsBound types (e.retype types) := by
  induction e with
  | column idx t =>
    have hidx : idx < types.length := he
    rw [BoundExpr.retype, ColumnsBound, List.getD_eq_getElem _ _ hidx]
    exact List.getElem?_eq_getElem hidx
  | literal v => exact trivial
  | not c ih => exact ih he
  | binary op a b iha ihb => exact ⟨iha he.1, ihb he.2⟩

/-! ## Accumulators -/

namespace AggSpec

/-- The argument reads columns among the first `n`, if the aggregate has one. -/
def Below (n : Nat) (spec : AggSpec) : Prop :=
  spec.kind = .countStar ∨ ∃ e, spec.inputExpr = some e ∧ ColumnsBelow n e

/-- The type that the argument's values have in batches of the given types. -/
def argumentType (types : List ColumnType) (spec : AggSpec) : ColumnType :=
  match spec.inputExpr with
  | some e => inferBoundType (e.retype types)
  | none => .int

/-- The value can be folded in: a sum reads it as the number its type was inferred for. -/
def takes (spec : AggSpec) (v : Value) : Bool :=
  v.isNull ||
    match spec.kind with
    | .sum => !v.isString && (spec.inputType == .float || !isFloat v)
    | .avg => !v.isString
    | .countStar | .count | .min | .max => true

/-- The argument can be evaluated in the row, and its value folded in. -/
def fits (spec : AggSpec) (r : Row) : Bool :=
  spec.kind == .countStar ||
    match spec.inputExpr with
    | some e => operable e r && spec.takes (valueIn e r)
    | none => false

end AggSpec

namespace HashAggregate

section Batch

variable {types : List ColumnType} {chunk : DataChunk} {row : Nat} {spec : AggSpec}

private theorem argument_hasType (htypes : chunk.types = types) (hspec : spec.Below types.length)
    {e : BoundExpr} {v : Value} (hkind : spec.kind ≠ .countStar) (he : spec.inputExpr = some e)
    (hv : evalExprRow e chunk row = .ok v) : v.hasType (spec.argumentType types) = true := by
  obtain ⟨e', he', hbelow⟩ := hspec.resolve_left hkind
  obtain rfl := Option.some.inj (he.symm.trans he')
  subst htypes
  rw [AggSpec.argumentType, he]
  exact evalExprRow_hasType (columnsBound_retype hbelow) ((evalExprRow_retype ..).trans hv)

/-- A row keeps the types of the best values. -/
theorem updateAcc_keeps (htypes : chunk.types = types) (hspec : spec.Below types.length)
    {acc acc' : Acc} (hacc : acc.BestOf (spec.argumentType types))
    (h : updateAcc spec acc chunk row = .ok acc') : acc'.BestOf (spec.argumentType types) :=
  updateAcc_bestOf (fun _ _ hkind he hv => argument_hasType htypes hspec hkind he hv) hacc h

/-- What is left of `updateAcc` once the argument's value is there. -/
private theorem takes_iff {v : Value} {acc : Acc} {t : ColumnType} (hkind : spec.kind ≠ .countStar)
    {e : BoundExpr} (he : spec.inputExpr = some e) (hv : evalExprRow e chunk row = .ok v)
    (hvt : v.hasType t = true) (hacc : acc.BestOf t) :
    (∃ acc', updateAcc spec acc chunk row = .ok acc') ↔ spec.takes v = true := by
  unfold updateAcc AggSpec.takes
  rw [if_neg hkind, he]
  dsimp only
  rw [hv, Except.ok_bind]
  by_cases hnull : v.isNull = true
  · rw [if_pos hnull, hnull, Bool.true_or]
    exact ⟨fun _ => rfl, fun _ => ⟨_, rfl⟩⟩
  have hne : v ≠ .null := mt Value.isNull_eq_true.mpr hnull
  rw [if_neg hnull, Bool.eq_false_iff.mpr hnull, Bool.false_or]
  cases hk : spec.kind with
  | countStar => exact absurd hk hkind
  | count => exact ⟨fun _ => rfl, fun _ => ⟨_, rfl⟩⟩
  | sum =>
    dsimp only
    by_cases hfloat : spec.inputType = .float
    · rw [if_pos hfloat, bind_ok_iff, hfloat, beq_self_eq_true, Bool.true_or, Bool.and_true,
        Bool.not_eq_true', ← asDouble_ok_iff hne]
      exact exists_congr fun d => and_iff_left ⟨_, rfl⟩
    · rw [if_neg hfloat, bind_ok_iff, beq_false_of_ne hfloat, Bool.false_or]
      cases v with
      | null => exact absurd rfl hne
      | int32 x | int64 x => exact ⟨fun _ => rfl, fun _ => ⟨_, rfl, _, rfl⟩⟩
      | double x | string x =>
        exact ⟨fun h => (by obtain ⟨i, hi, -⟩ := h; cases hi), fun h => (by cases h)⟩
  | avg =>
    dsimp only
    rw [bind_ok_iff, Bool.not_eq_true', ← asDouble_ok_iff hne]
    exact exists_congr fun d => and_iff_left ⟨_, rfl⟩
  | min =>
    obtain ⟨m, hm, -⟩ := keepBest_typed .lt hacc.minv hvt hne
    dsimp only
    rw [hm]
    exact ⟨fun _ => rfl, fun _ => ⟨_, rfl⟩⟩
  | max =>
    obtain ⟨m, hm, -⟩ := keepBest_typed .gt hacc.maxv hvt hne
    dsimp only
    rw [hm]
    exact ⟨fun _ => rfl, fun _ => ⟨_, rfl⟩⟩

/-- A row is folded into an accumulator without an exception just if it fits the aggregate. -/
theorem updateAcc_ok_iff (htypes : chunk.types = types) (hspec : spec.Below types.length)
    (hrow : row < chunk.cardinality) {acc : Acc} (hacc : acc.BestOf (spec.argumentType types)) :
    (∃ acc', updateAcc spec acc chunk row = .ok acc') ↔ spec.fits (chunk.row row) = true := by
  by_cases hkind : spec.kind = .countStar
  · rw [updateAcc, if_pos hkind, AggSpec.fits, hkind]
    exact ⟨fun _ => rfl, fun _ => ⟨_, rfl⟩⟩
  obtain ⟨e, he, hbelow⟩ := hspec.resolve_left hkind
  have hlen : (chunk.row row).length = types.length := by
    rw [← htypes]
    simp [DataChunk.row, DataChunk.types]
  have heval := evalRow_ok_iff (r := chunk.row row) (e := e) (hlen ▸ hbelow)
  rw [AggSpec.fits, beq_false_of_ne hkind, Bool.false_or, he]
  dsimp only
  rw [Bool.and_eq_true, ← heval]
  constructor
  · rintro ⟨acc', h⟩
    have hrun := h
    rw [updateAcc, if_neg hkind, he] at hrun
    obtain ⟨v, hv, -⟩ := Except.bind_eq_ok.mp hrun
    have hrowv : evalRow e (chunk.row row) = .ok v := (evalExprRow_eq hrow e).symm.trans hv
    refine ⟨⟨v, hrowv⟩, ?_⟩
    rw [valueIn_eq hrowv]
    exact (takes_iff hkind he hv (argument_hasType htypes hspec hkind he hv) hacc).mp ⟨acc', h⟩
  · rintro ⟨⟨v, hrowv⟩, htakes⟩
    have hv : evalExprRow e chunk row = .ok v := (evalExprRow_eq hrow e).trans hrowv
    rw [valueIn_eq hrowv] at htakes
    exact (takes_iff hkind he hv (argument_hasType htypes hspec hkind he hv) hacc).mpr htakes

/-! ## Groups -/

variable {aggs : List AggSpec} {groupIndices : List Nat}

/-- The best values in the accumulators of a group are of the arguments' types. -/
def BestTyped (types : List ColumnType) (aggs : List AggSpec) (g : GroupState) : Prop :=
  List.Forall₂ (fun spec (acc : Acc) => acc.BestOf (spec.argumentType types)) aggs g.accs

/-- So they are in all groups of a worker. -/
def AllBestTyped (types : List ColumnType) (aggs : List AggSpec) (m : Groups) : Prop :=
  ∀ ks g, m.find? ks = some g → BestTyped types aggs g

private theorem bestTyped_start (key : List Value) :
    BestTyped types aggs ⟨key, List.replicate aggs.length {}⟩ :=
  List.forall₂_iff_get.mpr ⟨by simp, fun i _ _ => by simpa using Acc.BestOf.start _⟩

private theorem AllBestTyped.insert {m : Groups} {ks : Bytes} {g : GroupState}
    (h : AllBestTyped types aggs m) (hg : BestTyped types aggs g) :
    AllBestTyped types aggs (m.insert ks g) := by
  intro ks' g' h'
  by_cases hk : ks' = ks
  · subst hk
    rw [KeyMap.find?_insert_self] at h'
    cases h'
    exact hg
  · rw [KeyMap.find?_insert_of_ne hk] at h'
    exact h ks' g' h'

private theorem updateGroup_cons {key : List Value} {acc : Acc} {accs : List Acc} {g : GroupState} :
    updateGroup (spec :: aggs) ⟨key, acc :: accs⟩ chunk row = .ok g ↔
      ∃ acc' accs', updateAcc spec acc chunk row = .ok acc' ∧
        updateGroup aggs ⟨key, accs⟩ chunk row = .ok ⟨key, accs'⟩ ∧ g = ⟨key, acc' :: accs'⟩ := by
  unfold updateGroup
  rw [List.zip_cons_cons, List.mapM_cons]
  constructor
  · intro h
    obtain ⟨all, hall, h⟩ := Except.bind_eq_ok.mp h
    obtain ⟨acc', hacc, hall⟩ := Except.bind_eq_ok.mp hall
    obtain ⟨accs', haccs, hall⟩ := Except.bind_eq_ok.mp hall
    obtain rfl := Except.ok.inj hall
    exact ⟨acc', accs', hacc, by rw [haccs]; rfl, (Except.ok.inj h).symm⟩
  · rintro ⟨acc', accs', hacc, haccs, rfl⟩
    obtain ⟨all, hall, haccs⟩ := Except.bind_eq_ok.mp haccs
    obtain rfl : all = accs' := congrArg GroupState.accs (Except.ok.inj haccs)
    dsimp only
    rw [hacc, Except.ok_bind, hall]
    rfl

/-- A row is folded into a group just if it fits every aggregate. -/
theorem updateGroup_ok_iff (htypes : chunk.types = types)
    (haggs : ∀ spec ∈ aggs, spec.Below types.length) (hrow : row < chunk.cardinality)
    {g : GroupState} (hg : BestTyped types aggs g) :
    ((∃ g', updateGroup aggs g chunk row = .ok g') ↔
      ∀ spec ∈ aggs, spec.fits (chunk.row row) = true) ∧
    ∀ g', updateGroup aggs g chunk row = .ok g' → BestTyped types aggs g' := by
  obtain ⟨key, accs⟩ := g
  have haccs : List.Forall₂ (fun spec (acc : Acc) => acc.BestOf (spec.argumentType types)) aggs accs :=
    hg
  clear hg
  induction haccs with
  | nil =>
    refine ⟨⟨fun _ => List.forall_mem_nil _, fun _ => ⟨_, rfl⟩⟩, fun g' h => ?_⟩
    obtain rfl := Except.ok.inj h
    exact .nil
  | @cons spec acc aggs accs hacc _ ih =>
    obtain ⟨hiff, hkeep⟩ := ih fun s hs => haggs s (List.mem_cons_of_mem _ hs)
    have hspec := haggs spec (by simp)
    constructor
    · rw [List.forall_mem_cons, ← hiff, ← updateAcc_ok_iff htypes hspec hrow hacc]
      constructor
      · rintro ⟨g', h⟩
        obtain ⟨acc', accs', hacc', haccs', -⟩ := updateGroup_cons.mp h
        exact ⟨⟨acc', hacc'⟩, _, haccs'⟩
      · rintro ⟨⟨acc', hacc'⟩, g', haccs'⟩
        have hkey : g' = ⟨key, g'.accs⟩ := by
          obtain ⟨all, -, h⟩ := Except.bind_eq_ok.mp haccs'
          rw [← Except.ok.inj h]
        exact ⟨_, updateGroup_cons.mpr ⟨acc', g'.accs, hacc', hkey ▸ haccs', rfl⟩⟩
    · intro g' h
      obtain ⟨acc', accs', hacc', haccs', rfl⟩ := updateGroup_cons.mp h
      exact .cons (updateAcc_keeps htypes hspec hacc hacc') (hkeep _ haccs')

private theorem exists_key (htypes : chunk.types = types) (hidx : ∀ gi ∈ groupIndices, gi < types.length)
    (hrow : row < chunk.cardinality) :
    ∃ key, groupIndices.mapM (fun gi => chunk.getValue gi row) = .ok key := by
  refine List.exists_mapM_eq_ok fun gi hgi => ?_
  have hcol : gi < chunk.columns.length := by
    have := hidx gi hgi
    rwa [← htypes, DataChunk.types, List.length_map] at this
  exact ⟨_, DataChunk.getValue_eq hcol hrow⟩

/-- A row is folded into the groups just if it fits every aggregate. -/
theorem processRow_ok_iff (htypes : chunk.types = types)
    (haggs : ∀ spec ∈ aggs, spec.Below types.length) (hidx : ∀ gi ∈ groupIndices, gi < types.length)
    (hrow : row < chunk.cardinality) {m : Groups} (hm : AllBestTyped types aggs m) :
    ((∃ m', processRow groupIndices aggs m chunk row = .ok m') ↔
      ∀ spec ∈ aggs, spec.fits (chunk.row row) = true) ∧
    ∀ m', processRow groupIndices aggs m chunk row = .ok m' → AllBestTyped types aggs m' := by
  obtain ⟨key, hkey⟩ := exists_key htypes hidx hrow
  have hold : BestTyped types aggs
      ((m.find? (keyString key)).getD ⟨key, List.replicate aggs.length {}⟩) := by
    cases hfind : m.find? (keyString key) with
    | none => exact bestTyped_start key
    | some g => exact hm _ g hfind
  obtain ⟨hiff, hkeep⟩ := updateGroup_ok_iff htypes haggs hrow hold
  unfold processRow
  rw [hkey, Except.ok_bind]
  constructor
  · rw [← hiff, bind_ok_iff]
    exact exists_congr fun g => and_iff_left ⟨_, rfl⟩
  · intro m' h
    obtain ⟨g, hg, h⟩ := Except.bind_eq_ok.mp h
    obtain rfl := Except.ok.inj h
    exact hm.insert (hkeep g hg)

/-- All rows of the batch fit all aggregates. -/
def Fits (aggs : List AggSpec) (chunk : DataChunk) : Prop :=
  ∀ r ∈ chunk.rows, ∀ spec ∈ aggs, spec.fits r = true

private theorem mem_rows {i : Nat} (hi : i ∈ List.range chunk.cardinality) :
    chunk.row i ∈ chunk.rows := List.mem_map_of_mem hi

/-- A batch is folded into the groups just if its rows fit the aggregates. -/
theorem processChunk_ok_iff (htypes : chunk.types = types)
    (haggs : ∀ spec ∈ aggs, spec.Below types.length) (hidx : ∀ gi ∈ groupIndices, gi < types.length)
    {m : Groups} (hm : AllBestTyped types aggs m) :
    (Fits aggs chunk → ∃ m', processChunk groupIndices aggs m chunk = .ok m' ∧
      AllBestTyped types aggs m') ∧
    ∀ m', processChunk groupIndices aggs m chunk = .ok m' →
      AllBestTyped types aggs m' ∧ Fits aggs chunk := by
  constructor
  · intro hfits
    refine Except.foldlM_ok (fun _ m => AllBestTyped types aggs m) (fun _ i m hi hm => ?_) hm
    obtain ⟨hiff, hkeep⟩ := processRow_ok_iff htypes haggs hidx (List.mem_range.mp hi) hm
    obtain ⟨m', hm'⟩ := hiff.mpr (hfits _ (mem_rows hi))
    exact ⟨m', hm', hkeep m' hm'⟩
  · intro m' h
    have hstep : ∀ m, ∀ i ∈ List.range chunk.cardinality, ∀ m', AllBestTyped types aggs m →
        processRow groupIndices aggs m chunk i = .ok m' →
        AllBestTyped types aggs m' ∧ ∀ spec ∈ aggs, spec.fits (chunk.row i) = true := by
      intro m i hi m' hm hrun
      obtain ⟨hiff, hkeep⟩ := processRow_ok_iff htypes haggs hidx (List.mem_range.mp hi) hm
      exact ⟨hkeep m' hrun, hiff.mp ⟨m', hrun⟩⟩
    refine ⟨Except.foldlM_preserves (fun m i hi m' hm hrun => (hstep m i hi m' hm hrun).1) hm h, ?_⟩
    intro r hr
    obtain ⟨i, hi, rfl⟩ := List.mem_map.mp hr
    exact Except.foldlM_forall hstep hm h i hi

end Batch

/-- No worker throws in any run, just if all rows of all batches fit the aggregates. -/
theorem crashes_iff {types : List ColumnType} {aggs : List AggSpec} {groupIndices : List Nat}
    (haggs : ∀ spec ∈ aggs, spec.Below types.length) (hidx : ∀ gi ∈ groupIndices, gi < types.length)
    {inputs : List DataChunk} (hinputs : ∀ chunk ∈ inputs, chunk.types = types) :
    (∀ (n : Nat) (pool : WorkPool n Groups),
      pool.Reaches (processChunk groupIndices aggs) inputs .empty →
        ¬ pool.Crashes (processChunk groupIndices aggs) inputs) ↔
      ∀ chunk ∈ inputs, Fits aggs chunk := by
  have hempty : AllBestTyped types aggs .empty := fun ks g h => by cases h
  constructor
  · intro h
    obtain ⟨m, hrun⟩ := WorkPool.foldlM_of_never_crashes (h 1)
    exact Except.foldlM_forall (P := AllBestTyped types aggs) (fun m chunk hchunk m' hm hm' =>
      (processChunk_ok_iff (hinputs chunk hchunk) haggs hidx hm).2 m' hm') hempty hrun
  · intro h n pool hreach
    exact WorkPool.not_crashes (P := AllBestTyped types aggs) (fun chunk hchunk m hm =>
      (processChunk_ok_iff (hinputs chunk hchunk) haggs hidx hm).1 (h chunk hchunk)) hempty hreach

end HashAggregate

/-! ## Planned queries -/

theorem ColumnsBound.below {types : List ColumnType} {e : BoundExpr} (h : ColumnsBound types e) :
    ColumnsBelow types.length e := by
  induction e with
  | column idx t => exact (List.getElem?_eq_some_iff.mp h).1
  | literal v => exact trivial
  | not c ih => exact ih h
  | binary op a b iha ihb => exact ⟨iha h.1, ihb h.2⟩

theorem AggSpec.Planned.below {types : List ColumnType} {spec : AggSpec} (h : spec.Planned types) :
    spec.Below types.length := by
  rcases h.argument with hkind | ⟨e, he, hbound, -⟩
  · exact .inl hkind
  · exact .inr ⟨e, he, hbound.below⟩

/-- A table `t` with one `VARCHAR` column `s`. -/
def textTable : TableMeta where
  name := ofAscii "t"
  schema := ⟨[⟨ofAscii "s", .varchar, 8, 0⟩], by
    intro i c h
    obtain ⟨rfl, rfl⟩ : i = 0 ∧ c = ⟨ofAscii "s", .varchar, 8, 0⟩ := by
      rcases i with _ | i <;> simp_all
    rfl, by decide⟩
  rowGroups := []

/-- `SELECT SUM(s) FROM t`. -/
def sumOfText : SelectStmt where
  selectStar := false
  items := [⟨.aggregate .sum (some (.columnRef [] (ofAscii "s"))), []⟩]
  tables := [⟨ofAscii "t", []⟩]
  «where» := none
  groupBy := []
  having := none
  orderBy := none
  limit := none

/-- One row with one string or NULL. -/
def textChunk (v : Value) (hv : v.hasType .varchar = true) : DataChunk where
  columns := [⟨.varchar, [v], by simpa using hv⟩]
  cardinality := 1
  rect := by simp

/-- The sum is planned as one over the column. -/
private theorem exists_sumOfText : ∃ p scan spec,
    planSelect sumOfText (Catalog.empty.setTable textTable) = .ok p ∧
      aggregation p = some (.scan scan, [], [spec]) ∧ scan.outputTypes = [.varchar] ∧
      spec = ⟨.sum, some (.column 0 .varchar), .varchar, .bigInt, ofAscii "SUM(s)"⟩ := by
  have h : planSelect sumOfText (Catalog.empty.setTable textTable) =
      planSingle sumOfText [(ofAscii "t", ofAscii "s")] (textTable, ofAscii "t") := rfl
  rw [h]
  exact ⟨_, _, _, planSingle_of rfl (scanInfo_of_sorted [0] rfl (by simp) rfl) rfl rfl rfl
    rfl, rfl, rfl, rfl⟩

end LiteOLAP
