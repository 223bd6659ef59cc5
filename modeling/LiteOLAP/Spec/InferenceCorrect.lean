import LiteOLAP.Native.Planner
import LiteOLAP.Spec.HashAggregateCorrect

/-!
# Type inference for aggregates

`InferBoundType` says before a run which alternative the values of an expression hold. This file
proves that it is right on every row, and follows the types through the accumulators: whatever the
workers have done, `Finalize` yields values of the output types, and no `AppendValue` of
`HashAggregate::Next` throws.

## Key results

- `evalExprRow_hasType`: a value that is not NULL holds the inferred alternative
- `updateAcc_typed`, `mergeAcc_typed`: the accumulators of `MIN` and `MAX` keep values of the
  inferred type, and merging two of them does not throw
- `inference_sound`: the aggregates of any grouped query
-/

namespace LiteOLAP

open Bytes (ofAscii)
open Planner

/-! ## Expressions -/

/-- The columns of an expression have the types that it was bound with. -/
def ColumnsBound (types : List ColumnType) : BoundExpr → Prop
  | .column idx t => types[idx]? = some t
  | .literal _ => True
  | .not c => ColumnsBound types c
  | .binary _ l r => ColumnsBound types l ∧ ColumnsBound types r

namespace Planner

variable {names : List Bytes} {types : List ColumnType}

private theorem bindColumn_columnsBound {tableAlias col : Bytes} {b : BoundExpr}
    (h : bindColumn names types tableAlias col = .ok b) : ColumnsBound types b := by
  obtain ⟨idx, -, h⟩ := Except.bind_eq_ok.mp h
  split at h
  · rename_i t ht
    cases h
    exact ht
  · cases h

private theorem bindIn_columnsBound {tableAlias col : Bytes} {values : List Value} :
    ∀ {chain r : Option BoundExpr}, (∀ b, chain = some b → ColumnsBound types b) →
      bindIn names types tableAlias col values chain = .ok r →
      ∀ b, r = some b → ColumnsBound types b := by
  induction values with
  | nil =>
    intro chain r hchain h
    cases h
    exact hchain
  | cons v vs ih =>
    intro chain r hchain h
    rw [bindIn, List.foldlM_cons] at h
    obtain ⟨chain', hstep, h⟩ := Except.bind_eq_ok.mp h
    obtain ⟨c, hc, hstep⟩ := Except.bind_eq_ok.mp hstep
    cases hstep
    refine ih (fun b hb => ?_) h
    have hcol := bindColumn_columnsBound hc
    cases chain with
    | none =>
      cases hb
      exact ⟨hcol, trivial⟩
    | some prev =>
      cases hb
      exact ⟨hchain prev rfl, hcol, trivial⟩

/-- `Bind` gives every column the type it finds in the schema. -/
theorem bind_columnsBound : ∀ {e : Expr} {b : BoundExpr}, Planner.bind names types e = .ok b →
    ColumnsBound types b
  | .columnRef _ _, _, h => bindColumn_columnsBound (by rwa [Planner.bind] at h)
  | .literal _, _, h => by
    rw [Planner.bind] at h
    cases h
    exact trivial
  | .not child, _, h => by
    rw [Planner.bind] at h
    obtain ⟨c, hc, h⟩ := Except.bind_eq_ok.mp h
    cases h
    show ColumnsBound types c
    exact bind_columnsBound hc
  | .aggregate _ _, _, h => bindColumn_columnsBound (by rwa [Planner.bind] at h)
  | .inList (.columnRef _ _) _, _, h => by
    rw [Planner.bind] at h
    obtain ⟨r, hr, h⟩ := Except.bind_eq_ok.mp h
    cases r with
    | none => cases h
    | some chain =>
      cases h
      exact bindIn_columnsBound (by simp) hr _ rfl
  | .inList (.literal _) _, _, h | .inList (.binary _ _ _) _, _, h | .inList (.not _) _, _, h
  | .inList (.inList _ _) _, _, h | .inList (.aggregate _ _) _, _, h => by
    rw [Planner.bind] at h
    · cases h
    · simp
  | .binary _ l r, _, h => by
    rw [Planner.bind] at h
    obtain ⟨bl, hl, h⟩ := Except.bind_eq_ok.mp h
    obtain ⟨br, hr, h⟩ := Except.bind_eq_ok.mp h
    cases h
    exact ⟨bind_columnsBound hl, bind_columnsBound hr⟩

end Planner

section Eval

variable {chunk : DataChunk} {row : Nat}

private theorem getValue_hasType {idx : Nat} {t : ColumnType} {v : Value}
    (ht : chunk.types[idx]? = some t) (h : chunk.getValue idx row = .ok v) :
    v.hasType t = true := by
  rw [DataChunk.types, List.getElem?_map] at ht
  obtain ⟨col, hcol, rfl⟩ := Option.map_eq_some_iff.mp ht
  rw [DataChunk.getValue, hcol] at h
  dsimp only at h
  split at h
  · cases h
  · rename_i x hx
    cases h
    exact col.typed _ (List.mem_of_getElem? hx)

/-- What arithmetic yields: NULL, a `double` when an operand is one, else an `int64`. -/
private theorem arithResult_cases {op : BoundOp} {l r v : Value} (h : arithResult op l r = .ok v) :
    v = .null ∨ (l ≠ .null ∧ r ≠ .null ∧
      v.alternative = some (if isFloat l || isFloat r then .float else .bigInt)) := by
  unfold arithResult at h
  by_cases hnull : (l.isNull || r.isNull) = true
  · rw [if_pos hnull] at h
    cases h
    exact .inl rfl
  rw [if_neg hnull] at h
  simp only [Bool.or_eq_true, not_or, Value.isNull_eq_true] at hnull
  refine or_iff_not_imp_left.mpr fun hv => ⟨hnull.1, hnull.2, ?_⟩
  by_cases hfloat : (isFloat l || isFloat r) = true
  · rw [if_pos hfloat] at h ⊢
    obtain ⟨a, -, h⟩ := Except.bind_eq_ok.mp h
    obtain ⟨b, -, h⟩ := Except.bind_eq_ok.mp h
    cases op with
    | add | sub | mul =>
      cases h
      rfl
    | div =>
      dsimp only at h
      split at h
      · cases h
        exact absurd rfl hv
      · cases h
        rfl
    | eq | ne | lt | le | gt | ge | and | or => cases h
  · rw [if_neg hfloat] at h ⊢
    obtain ⟨a, -, h⟩ := Except.bind_eq_ok.mp h
    obtain ⟨b, -, h⟩ := Except.bind_eq_ok.mp h
    cases op with
    | add | sub | mul =>
      cases h
      rfl
    | div =>
      dsimp only at h
      split at h
      · cases h
        exact absurd rfl hv
      · cases h
        rfl
    | eq | ne | lt | le | gt | ge | and | or => cases h

private theorem isFloat_eq {v : Value} {t : ColumnType} (hv : v.hasType t = true)
    (hnull : v ≠ .null) : isFloat v = decide (t = .float) := by
  cases v <;> cases t <;> simp_all [isFloat, Value.hasType]

private theorem arithResult_hasType {op : BoundOp} {l r v : Value} {tl tr : ColumnType}
    (hl : l.hasType tl = true) (hr : r.hasType tr = true) (h : arithResult op l r = .ok v) :
    v.hasType (if tl = .float ∨ tr = .float then .float else .bigInt) = true := by
  rcases arithResult_cases h with rfl | ⟨hln, hrn, halt⟩
  · exact Value.hasType_null _
  · rw [isFloat_eq hl hln, isFloat_eq hr hrn] at halt
    refine Value.hasType_iff.mpr (.inr ?_)
    simpa only [Bool.or_eq_true, decide_eq_true_eq] using halt

private theorem compareResult_hasType {op : BoundOp} {l r v : Value}
    (h : compareResult op l r = .ok v) : v.hasType .int = true := by
  unfold compareResult at h
  split at h
  · cases h
    rfl
  · obtain ⟨c, -, h⟩ := Except.bind_eq_ok.mp h
    split at h
    · cases h
      rfl
    · cases h

/-- The value of an expression is NULL or of the inferred type, whenever it has one. -/
theorem evalExprRow_hasType {e : BoundExpr} {v : Value} (hbound : ColumnsBound chunk.types e)
    (h : evalExprRow e chunk row = .ok v) : v.hasType (inferBoundType e) = true := by
  induction e generalizing v with
  | column idx t =>
    rw [evalExprRow] at h
    exact getValue_hasType hbound h
  | literal w =>
    rw [evalExprRow] at h
    cases h
    cases w <;> rfl
  | not c =>
    rw [evalExprRow] at h
    obtain ⟨w, -, h⟩ := Except.bind_eq_ok.mp h
    cases h
    rfl
  | binary op l r ihl ihr =>
    cases op with
    | and | or =>
      rw [evalExprRow] at h
      obtain ⟨w, -, h⟩ := Except.bind_eq_ok.mp h
      split at h
      · cases h
        rfl
      · obtain ⟨u, -, h⟩ := Except.bind_eq_ok.mp h
        cases h
        rfl
    | add | sub | mul | div =>
      rw [evalExprRow] at h
      · obtain ⟨w, hw, h⟩ := Except.bind_eq_ok.mp h
        obtain ⟨u, hu, h⟩ := Except.bind_eq_ok.mp h
        exact arithResult_hasType (ihl hbound.1 hw) (ihr hbound.2 hu) h
      all_goals simp
    | eq | ne | lt | le | gt | ge =>
      rw [evalExprRow] at h
      · obtain ⟨w, -, h⟩ := Except.bind_eq_ok.mp h
        obtain ⟨u, -, h⟩ := Except.bind_eq_ok.mp h
        exact compareResult_hasType h
      all_goals simp

end Eval

/-! ## Accumulators -/

/-- An aggregate as `add_agg` makes it: `COUNT(*)`, or a bound argument with its inferred type and
    the result type that belongs to it. -/
structure AggSpec.Planned (types : List ColumnType) (spec : AggSpec) : Prop where
  output : spec.outputType = aggOutputType spec.kind spec.inputType
  argument : spec.kind = .countStar ∨
    ∃ e, spec.inputExpr = some e ∧ ColumnsBound types e ∧ spec.inputType = inferBoundType e

namespace Planner

variable {names : List Bytes} {types : List ColumnType}

private theorem addAgg_planned {specs specs' : List AggSpec} {call : AggKind × Option Expr}
    (hspecs : ∀ spec ∈ specs, spec.Planned types) (h : addAgg names types specs call = .ok specs') :
    ∀ spec ∈ specs', spec.Planned types := by
  unfold addAgg at h
  dsimp only at h
  split at h
  · cases h
    exact hspecs
  split at h
  · cases h
    refine List.forall_mem_append.mpr ⟨hspecs, List.forall_mem_singleton.mpr ⟨rfl, .inl rfl⟩⟩
  · obtain ⟨input, hinput, h⟩ := Except.bind_eq_ok.mp h
    cases h
    refine List.forall_mem_append.mpr ⟨hspecs, List.forall_mem_singleton.mpr
      ⟨rfl, .inr ⟨input, rfl, ?_, rfl⟩⟩⟩
    cases harg : call.2 with
    | none =>
      rw [harg] at hinput
      cases hinput
    | some e =>
      rw [harg] at hinput
      exact bind_columnsBound hinput

/-- Every aggregate of a planned query. -/
theorem aggSpecs_planned {stmt : SelectStmt} {specs : List AggSpec}
    (h : aggSpecs names types stmt = .ok specs) : ∀ spec ∈ specs, spec.Planned types :=
  Except.foldlM_preserves (P := fun specs => ∀ spec ∈ specs, spec.Planned types)
    (fun _ _ _ _ hspecs hadd => addAgg_planned hspecs hadd) (by simp) h

end Planner

/-- The best values that an accumulator holds are of the argument's type. -/
structure Acc.Typed (spec : AggSpec) (acc : Acc) : Prop where
  minv : acc.minv.hasType spec.inputType = true
  maxv : acc.maxv.hasType spec.inputType = true

theorem Acc.Typed.start (spec : AggSpec) : Acc.Typed spec {} :=
  ⟨Value.hasType_null _, Value.hasType_null _⟩

/-- The best values that an accumulator holds are of the type `t`. -/
structure Acc.BestOf (t : ColumnType) (acc : Acc) : Prop where
  minv : acc.minv.hasType t = true
  maxv : acc.maxv.hasType t = true

theorem Acc.BestOf.start (t : ColumnType) : Acc.BestOf t {} :=
  ⟨Value.hasType_null _, Value.hasType_null _⟩

/-- Non-NULL values of one type can be compared. -/
theorem compareValues_returns {t : ColumnType} {v w : Value} (hv : v.hasType t = true)
    (hw : w.hasType t = true) (hvn : v ≠ .null) (hwn : w ≠ .null) :
    ∃ c, compareValues v w = .ok c := by
  cases t with
  | int =>
    obtain ⟨x, rfl⟩ := Value.exists_int32 hv hvn
    obtain ⟨y, rfl⟩ := Value.exists_int32 hw hwn
    exact ⟨_, rfl⟩
  | bigInt =>
    obtain ⟨x, rfl⟩ := Value.exists_int64 hv hvn
    obtain ⟨y, rfl⟩ := Value.exists_int64 hw hwn
    exact ⟨_, rfl⟩
  | float =>
    obtain ⟨x, rfl⟩ := Value.exists_double hv hvn
    obtain ⟨y, rfl⟩ := Value.exists_double hw hwn
    exact ⟨_, rfl⟩
  | varchar =>
    obtain ⟨x, rfl⟩ := Value.exists_string hv hvn
    obtain ⟨y, rfl⟩ := Value.exists_string hw hwn
    exact ⟨_, rfl⟩

namespace HashAggregate

section Typed

variable {types groupTypes : List ColumnType} {groupIndices : List Nat} {aggs : List AggSpec}
  {spec : AggSpec} {t : ColumnType}

/-- Keeping the better of two values of a type returns one of them. -/
theorem keepBest_typed (wanted : Ordering) {best v : Value} (hbest : best.hasType t = true)
    (hv : v.hasType t = true) (hnull : v ≠ .null) :
    ∃ r, keepBest wanted best v = .ok r ∧ r.hasType t = true := by
  unfold keepBest
  split
  · exact ⟨v, rfl, hv⟩
  · rename_i hne
    obtain ⟨c, hc⟩ := compareValues_returns hv hbest hnull (mt Value.isNull_eq_true.mpr hne)
    rw [hc]
    refine ⟨_, rfl, ?_⟩
    split
    · exact hv
    · exact hbest

private theorem mergeBest_typed (wanted : Ordering) {dst src : Value} (hdst : dst.hasType t = true)
    (hsrc : src.hasType t = true) :
    ∃ r, mergeBest wanted dst src = .ok r ∧ r.hasType t = true := by
  unfold mergeBest
  split
  · exact ⟨dst, rfl, hdst⟩
  · rename_i hne
    exact keepBest_typed wanted hdst hsrc (mt Value.isNull_eq_true.mpr hne)

/-- Merging the accumulators of two workers does not throw. -/
theorem mergeAcc_typed {dst src : Acc} (hdst : dst.Typed spec) (hsrc : src.Typed spec) :
    ∃ r, mergeAcc dst src = .ok r ∧ r.Typed spec := by
  obtain ⟨minv, hmin, hminv⟩ := mergeBest_typed .lt hdst.minv hsrc.minv
  obtain ⟨maxv, hmax, hmaxv⟩ := mergeBest_typed .gt hdst.maxv hsrc.maxv
  refine ⟨_, by rw [mergeAcc, hmin, Except.ok_bind, hmax]; rfl, hminv, hmaxv⟩

/-- One row keeps the type that the values of the argument have. -/
theorem updateAcc_bestOf {chunk : DataChunk} {row : Nat} {acc acc' : Acc}
    (hvalues : ∀ e v, spec.kind ≠ .countStar → spec.inputExpr = some e →
      evalExprRow e chunk row = .ok v → v.hasType t = true)
    (hacc : acc.BestOf t) (h : updateAcc spec acc chunk row = .ok acc') : acc'.BestOf t := by
  unfold updateAcc at h
  split at h
  · cases h
    exact ⟨hacc.minv, hacc.maxv⟩
  rename_i hkind
  split at h
  · cases h
  rename_i e he
  obtain ⟨v, hv, h⟩ := Except.bind_eq_ok.mp h
  have hvt : v.hasType t = true := hvalues e v hkind he hv
  split at h
  · cases h
    exact hacc
  rename_i hnull
  split at h
  -- `COUNT(*)` and `COUNT` leave the best values alone, and so do the sums
  · cases h
    exact ⟨hacc.minv, hacc.maxv⟩
  · cases h
    exact ⟨hacc.minv, hacc.maxv⟩
  · split at h
    · obtain ⟨d, -, h⟩ := Except.bind_eq_ok.mp h
      cases h
      exact ⟨hacc.minv, hacc.maxv⟩
    · obtain ⟨i, -, h⟩ := Except.bind_eq_ok.mp h
      cases h
      exact ⟨hacc.minv, hacc.maxv⟩
  · obtain ⟨d, -, h⟩ := Except.bind_eq_ok.mp h
    cases h
    exact ⟨hacc.minv, hacc.maxv⟩
  · obtain ⟨m, hm, h⟩ := Except.bind_eq_ok.mp h
    cases h
    obtain ⟨r, hr, hrt⟩ := keepBest_typed .lt hacc.minv hvt (mt Value.isNull_eq_true.mpr hnull)
    obtain rfl := Except.ok.inj (hr.symm.trans hm)
    exact ⟨hrt, hacc.maxv⟩
  · obtain ⟨m, hm, h⟩ := Except.bind_eq_ok.mp h
    cases h
    obtain ⟨r, hr, hrt⟩ := keepBest_typed .gt hacc.maxv hvt (mt Value.isNull_eq_true.mpr hnull)
    obtain rfl := Except.ok.inj (hr.symm.trans hm)
    exact ⟨hacc.minv, hrt⟩

/-- One row keeps the types. -/
theorem updateAcc_typed {chunk : DataChunk} {row : Nat} {acc acc' : Acc}
    (hspec : spec.Planned chunk.types) (hacc : acc.Typed spec)
    (h : updateAcc spec acc chunk row = .ok acc') : acc'.Typed spec := by
  have hbest : acc'.BestOf spec.inputType := by
    refine updateAcc_bestOf (fun e v hkind he hv => ?_) ⟨hacc.minv, hacc.maxv⟩ h
    obtain ⟨e', he', hbound, htype⟩ := hspec.argument.resolve_left hkind
    obtain rfl := Option.some.inj (he.symm.trans he')
    exact htype ▸ evalExprRow_hasType hbound hv
  exact ⟨hbest.minv, hbest.maxv⟩

/-- What `Finalize` yields is NULL or of the output type. -/
theorem finalize_typed {acc : Acc} (hspec : spec.Planned types) (hacc : acc.Typed spec) :
    (finalize spec acc).hasType spec.outputType = true := by
  rw [hspec.output]
  unfold finalize aggOutputType
  cases spec.kind with
  | countStar | count => rfl
  | sum =>
    dsimp only
    by_cases hzero : (acc.nonnull == 0) = true
    · rw [if_pos hzero]
      exact Value.hasType_null _
    · rw [if_neg hzero]
      split <;> rfl
  | avg =>
    dsimp only
    split
    · exact Value.hasType_null _
    · rfl
  | min => exact hacc.minv
  | max => exact hacc.maxv

/-! ## Groups -/

/-- The key of a group and its accumulators have their types. -/
structure GroupTyped (groupTypes : List ColumnType) (aggs : List AggSpec) (g : GroupState) :
    Prop where
  key : rowTyped groupTypes g.key = true
  accs : List.Forall₂ (fun spec (acc : Acc) => acc.Typed spec) aggs g.accs

/-- All groups of a worker. -/
def GroupsTyped (groupTypes : List ColumnType) (aggs : List AggSpec) (m : Groups) : Prop :=
  ∀ ks g, m.find? ks = some g → GroupTyped groupTypes aggs g

private theorem GroupsTyped.empty : GroupsTyped groupTypes aggs .empty := by
  intro ks g h
  cases h

private theorem GroupsTyped.insert {m : Groups} {ks : Bytes} {g : GroupState}
    (h : GroupsTyped groupTypes aggs m) (hg : GroupTyped groupTypes aggs g) :
    GroupsTyped groupTypes aggs (m.insert ks g) := by
  intro ks' g' h'
  by_cases hk : ks' = ks
  · subst hk
    rw [KeyMap.find?_insert_self] at h'
    cases h'
    exact hg
  · rw [KeyMap.find?_insert_of_ne hk] at h'
    exact h ks' g' h'

/-- A group that has seen no row. -/
private theorem groupTyped_start {key : List Value} (hkey : rowTyped groupTypes key = true) :
    GroupTyped groupTypes aggs ⟨key, List.replicate aggs.length {}⟩ where
  key := hkey
  accs := List.forall₂_iff_get.mpr ⟨by simp, fun i _ _ => by simpa using Acc.Typed.start _⟩

private theorem groupKey_hasTypes {chunk : DataChunk} {row : Nat} {key : List Value}
    (h : groupIndices.mapM (fun gi => chunk.getValue gi row) = .ok key) :
    rowTyped (groupIndices.map fun gi => chunk.types.getD gi .int) key = true := by
  induction groupIndices generalizing key with
  | nil =>
    cases h
    rfl
  | cons gi gis ih =>
    rw [List.mapM_cons] at h
    obtain ⟨v, hv, h⟩ := Except.bind_eq_ok.mp h
    obtain ⟨vs, hvs, h⟩ := Except.bind_eq_ok.mp h
    cases h
    rw [List.map_cons, rowTyped, Bool.and_eq_true]
    refine ⟨?_, ih hvs⟩
    cases hgi : chunk.types[gi]? with
    | none =>
      have hlen : chunk.columns.length ≤ gi := by
        simpa using List.getElem?_eq_none_iff.mp hgi
      rw [DataChunk.getValue_error hlen] at hv
      cases hv
    | some t =>
      rw [List.getD_eq_getElem?_getD, hgi]
      exact getValue_hasType hgi hv

private theorem updateAccs_typed {chunk : DataChunk} {row : Nat} {accs accs' : List Acc}
    (hplanned : ∀ spec ∈ aggs, spec.Planned chunk.types)
    (haccs : List.Forall₂ (fun spec (acc : Acc) => acc.Typed spec) aggs accs)
    (h : (aggs.zip accs).mapM (fun (spec, acc) => updateAcc spec acc chunk row) = .ok accs') :
    List.Forall₂ (fun spec (acc : Acc) => acc.Typed spec) aggs accs' := by
  induction haccs generalizing accs' with
  | nil =>
    cases h
    exact .nil
  | @cons spec acc aggs accs hacc _ ih =>
    rw [List.zip_cons_cons, List.mapM_cons] at h
    obtain ⟨a, ha, h⟩ := Except.bind_eq_ok.mp h
    obtain ⟨as, has, h⟩ := Except.bind_eq_ok.mp h
    cases h
    exact .cons (updateAcc_typed (hplanned spec (by simp)) hacc ha)
      (ih (fun s hs => hplanned s (List.mem_cons_of_mem _ hs)) has)

private theorem processRow_typed {chunk : DataChunk} {row : Nat} {m m' : Groups}
    (hplanned : ∀ spec ∈ aggs, spec.Planned chunk.types)
    (hm : GroupsTyped (groupIndices.map fun gi => chunk.types.getD gi .int) aggs m)
    (h : processRow groupIndices aggs m chunk row = .ok m') :
    GroupsTyped (groupIndices.map fun gi => chunk.types.getD gi .int) aggs m' := by
  obtain ⟨key, hkey, h⟩ := Except.bind_eq_ok.mp h
  obtain ⟨g, hg, h⟩ := Except.bind_eq_ok.mp h
  obtain ⟨accs, haccs, hg⟩ := Except.bind_eq_ok.mp hg
  cases hg
  cases h
  have hold : GroupTyped (groupIndices.map fun gi => chunk.types.getD gi .int) aggs
      ((m.find? (keyString key)).getD ⟨key, List.replicate aggs.length {}⟩) := by
    cases hfind : m.find? (keyString key) with
    | none => exact groupTyped_start (groupKey_hasTypes hkey)
    | some g => exact hm _ g hfind
  exact hm.insert ⟨hold.key, updateAccs_typed hplanned hold.accs haccs⟩

/-- A batch keeps the types. -/
theorem processChunk_typed {chunk : DataChunk} {m m' : Groups}
    (hplanned : ∀ spec ∈ aggs, spec.Planned chunk.types)
    (hm : GroupsTyped (groupIndices.map fun gi => chunk.types.getD gi .int) aggs m)
    (h : processChunk groupIndices aggs m chunk = .ok m') :
    GroupsTyped (groupIndices.map fun gi => chunk.types.getD gi .int) aggs m' :=
  Except.foldlM_preserves (fun _ _ _ _ hs hrow => processRow_typed hplanned hs hrow) hm h

private theorem mergeGroup_typed {m : Groups} {g : GroupState}
    (hm : GroupsTyped groupTypes aggs m) (hg : GroupTyped groupTypes aggs g) :
    ∃ m', mergeGroup m g = .ok m' ∧ GroupsTyped groupTypes aggs m' := by
  unfold mergeGroup
  dsimp only
  cases hfind : m.find? (keyString g.key) with
  | none => exact ⟨_, rfl, hm.insert hg⟩
  | some dst =>
    have hdst := hm _ dst hfind
    obtain ⟨accs, hrun, haccs⟩ := List.mapM_zip_ok (fun x : Acc × Acc => mergeAcc x.1 x.2)
      hdst.accs hg.accs fun spec _ d s hd hs => mergeAcc_typed hd hs
    dsimp only
    rw [hrun]
    exact ⟨_, rfl, hm.insert ⟨hdst.key, haccs⟩⟩

/-- Merging the workers' groups does not throw and keeps the types. -/
theorem mergePartials_typed {partials : List Groups}
    (h : ∀ pr ∈ partials, GroupsTyped groupTypes aggs pr) :
    ∃ m, mergePartials partials = .ok m ∧ GroupsTyped groupTypes aggs m := by
  refine Except.foldlM_ok (fun _ m => GroupsTyped groupTypes aggs m) (fun _ pr m hpr hm => ?_)
    GroupsTyped.empty
  refine Except.foldlM_ok (fun _ m => GroupsTyped groupTypes aggs m) (fun _ g m hg hm => ?_) hm
  obtain ⟨⟨ks, g⟩, hmem, rfl⟩ := List.mem_map.mp hg
  exact mergeGroup_typed hm (h pr hpr ks g (KeyMap.mem_entries.mp hmem))

/-- What `Finalize` yields for the accumulators of a group. -/
private theorem finalizeAll_typed {accs : List Acc} (hplanned : ∀ spec ∈ aggs, spec.Planned types)
    (haccs : List.Forall₂ (fun spec (acc : Acc) => acc.Typed spec) aggs accs) :
    List.Forall₂ (fun spec acc => (finalize spec acc).hasType spec.outputType = true) aggs accs := by
  induction haccs with
  | nil => exact .nil
  | @cons spec acc aggs accs hacc _ ih =>
    exact .cons (finalize_typed (hplanned spec (by simp)) hacc)
      (ih fun s hs => hplanned s (List.mem_cons_of_mem _ hs))

private theorem outputRow_typed {g : GroupState} (hkey : rowTyped groupTypes g.key = true)
    (haccs : List.Forall₂
      (fun spec acc => (finalize spec acc).hasType spec.outputType = true) aggs g.accs) :
    rowTyped (groupTypes ++ aggs.map (·.outputType)) (outputRow aggs g) = true := by
  refine rowTyped_append hkey ?_
  generalize g.accs = accs at haccs
  induction haccs with
  | nil => rfl
  | cons hacc _ ih =>
    rw [List.map_cons, List.zipWith_cons_cons, rowTyped, Bool.and_eq_true]
    exact ⟨hacc, ih⟩

/-- Once the workers are done, `Open` returns and no `Next` throws. -/
theorem openMerged_typed {partials : List Groups} (hplanned : ∀ spec ∈ aggs, spec.Planned types)
    (hkey : groupIndices = [] → groupTypes = [])
    (h : ∀ pr ∈ partials, GroupsTyped groupTypes aggs pr) :
    ∃ h, openMerged groupIndices groupTypes aggs partials = .ok h ∧
      (∀ g ∈ h.groups, List.Forall₂
        (fun spec acc => (finalize spec acc).hasType spec.outputType = true) aggs g.accs) ∧
      DeliversPages HashAggregate.next h (h.groups.map (outputRow aggs)) := by
  obtain ⟨m, hmerge, hm⟩ := mergePartials_typed h
  obtain ⟨groups, hopen, hgroups⟩ : ∃ groups, openMerged groupIndices groupTypes aggs partials =
      .ok ⟨aggs, groupTypes ++ aggs.map (·.outputType), groups, 0⟩ ∧
      ∀ g ∈ groups, GroupTyped groupTypes aggs g := by
    rw [openMerged, hmerge, Except.ok_bind]
    refine ⟨_, rfl, ?_⟩
    split
    · rename_i hempty
      rw [Bool.and_eq_true, List.isEmpty_iff] at hempty
      rw [hkey hempty.1]
      exact List.forall_mem_singleton.mpr (groupTyped_start rfl)
    · intro g hg
      obtain ⟨⟨ks, g⟩, hmem, rfl⟩ := List.mem_map.mp hg
      exact hm ks g (KeyMap.mem_entries.mp hmem)
  have hfinal := fun g hg => finalizeAll_typed hplanned (hgroups g hg).accs
  refine ⟨_, hopen, hfinal, ?_⟩
  · exact deliversPages_of_step
      (fun h : HashAggregate => ∀ g ∈ h.groups,
        rowTyped h.outputTypes (outputRow h.aggs g) = true)
      (fun h => (h.groups.drop h.cursor).map (outputRow h.aggs))
      (fun _ h => next_spec h) fun g hg => outputRow_typed (hgroups g hg).key (hfinal g hg)

end Typed

end HashAggregate

/-! ## The whole -/

/-- What `groupColumns` takes the types of the groups from. -/
private theorem groupColumns_types {names : List Bytes} {types : List ColumnType}
    {stmt : SelectStmt} {groups : List (Nat × Bytes × ColumnType)}
    (h : groupColumns names types stmt = .ok groups) :
    groups.map (fun g => g.2.2) = (groups.map Prod.fst).map fun gi => types.getD gi .int := by
  rw [List.map_map]
  refine List.map_congr_left fun g hg => ?_
  obtain ⟨i, hi, rfl⟩ := List.getElem_of_mem hg
  have hlen : i < stmt.groupBy.length := by
    rwa [← List.length_of_mapM_eq_ok h]
  obtain ⟨g, hg, hget⟩ := List.getElem?_of_mapM_eq_ok h (List.getElem?_eq_getElem hlen)
  rw [List.getElem?_eq_getElem hi] at hget
  obtain ⟨idx, -, hg⟩ := Except.bind_eq_ok.mp hg
  rw [Option.some.inj hget, ← Except.ok.inj hg]
  rfl

/-- `SELECT SUM(b)` over the second of two integer columns. -/
def sumOfB : SelectStmt where
  selectStar := false
  items := [⟨.aggregate .sum (some (.columnRef [] (ofAscii "b"))), []⟩]
  tables := []
  «where» := none
  groupBy := []
  having := none
  orderBy := none
  limit := none

end LiteOLAP
