import LiteOLAP.ForStd.Kleene
import LiteOLAP.Spec.ConjunctsCorrect

/-!
# Predicates and three-valued logic

In SQL a comparison with NULL is UNKNOWN, and the connectives are Kleene's. The engine makes
such a comparison `0` before a connective sees it. Under an even number of `NOT`s that is
harmless, since UNKNOWN and FALSE both drop the row; a `NOT` turns it into TRUE.

## Key results

- `evalExprRow_takenAs`: what the per-row evaluation makes of TRUE, FALSE and UNKNOWN
- `evalPredicate_getElem?`: the mask of `EvalPredicate` is the per-row evaluation
- `keeps_iff_truth_iff`: exactly when `Filter` keeps a row for which the predicate is TRUE
-/

namespace LiteOLAP

open Planner (bindColumn bindIn bindConjuncts flatten toBoundOp)

/-! ## What a predicate means -/

/-- Columns, literals, aggregates, and arithmetic over them. -/
def isScalar : Expr → Bool
  | .columnRef _ _ | .literal _ | .aggregate _ _ => true
  | .binary op l r =>
    match op with
    | .add | .sub | .mul | .div => isScalar l && isScalar r
    | _ => false
  | _ => false

/-- Predicates built from comparisons, `AND`, `OR`, `NOT` and `IN`. -/
def isPredicate : Expr → Bool
  | .not c => isPredicate c
  | .inList _ _ => true
  | .binary op l r =>
    match op with
    | .and | .or => isPredicate l && isPredicate r
    | .eq | .ne | .lt | .le | .gt | .ge => isScalar l && isScalar r
    | .add | .sub | .mul | .div => false
  | _ => false

section

variable (names : List Bytes) (types : List ColumnType) (chunk : DataChunk) (i : Nat)

/-- The value of a scalar expression on row `i`. -/
def scalarValue (e : Expr) : Except Exc Value := do
  let b ← Planner.bind names types e
  evalExprRow b chunk i

/-- A comparison with a NULL operand is UNKNOWN. One that throws has no truth value; that is
    UNKNOWN, too, and shows only where the engine skips it. -/
def comparisonTruth (op : BoundOp) (l r : Except Exc Value) : Truth :=
  match l, r with
  | .ok v, .ok w =>
    if v.isNull || w.isNull then none
    else
      match compareValues v w with
      | .ok c => op.holds c
      | .error _ => none
  | _, _ => none

/-- The truth value of a predicate on row `i`. `IN` is a disjunction of equalities. -/
def truth : Expr → Truth
  | .not c => (truth c).not
  | .binary .and l r => (truth l).and (truth r)
  | .binary .or l r => (truth l).or (truth r)
  | .binary op l r =>
    comparisonTruth (toBoundOp op) (scalarValue names types chunk i l)
      (scalarValue names types chunk i r)
  | .inList col values =>
    values.foldl (fun t v =>
      t.or (comparisonTruth .eq (scalarValue names types chunk i col) (.ok v))) (some false)
  | _ => none

/-- UNKNOWN, but taken for `b`: an UNKNOWN comparison is taken for FALSE, a `NOT` turns that
    over, and the connectives pass it on where their other side does not decide them. -/
def TakenAs : Bool → Expr → Prop
  | b, .not c => TakenAs (!b) c
  | true, .binary .and l r =>
    TakenAs true l ∧ (truth names types chunk i r = some true ∨ TakenAs true r) ∨
      truth names types chunk i l = some true ∧ TakenAs true r
  | false, .binary .and l r =>
    TakenAs false l ∧ truth names types chunk i r ≠ some false ∨
      TakenAs false r ∧ truth names types chunk i l ≠ some false
  | true, .binary .or l r =>
    TakenAs true l ∧ truth names types chunk i r ≠ some true ∨
      TakenAs true r ∧ truth names types chunk i l ≠ some true
  | false, .binary .or l r =>
    TakenAs false l ∧ (truth names types chunk i r = some false ∨ TakenAs false r) ∨
      truth names types chunk i l = some false ∧ TakenAs false r
  | true, _ => False
  | false, e => truth names types chunk i e = none

end

/-! ## Per-row evaluation -/

section

variable {names : List Bytes} {types : List ColumnType} {chunk : DataChunk} {i : Nat}

/-- A comparison is taken for TRUE exactly when it is TRUE. -/
theorem compareResult_truthy {op : BoundOp} {v w r : Value}
    (h : compareResult op v w = .ok r) :
    valueTruthy r = true ↔ comparisonTruth op (.ok v) (.ok w) = some true := by
  unfold compareResult at h
  cases hnull : v.isNull || w.isNull with
  | true =>
    simp only [hnull, if_true, Except.pure_eq_ok, Except.ok.injEq] at h
    simp [← h, comparisonTruth, hnull, boolValue, valueTruthy]
  | false =>
    simp only [hnull, Bool.false_eq_true, if_false, Except.pure_eq_ok] at h
    obtain ⟨c, hc, hr⟩ := Except.bind_eq_ok.mp h
    simp only [comparisonTruth, hnull, Bool.false_eq_true, if_false, hc]
    cases hop : op.holds c with
    | none =>
      rw [hop] at hr
      cases hr
    | some b =>
      rw [hop] at hr
      obtain rfl := Except.ok.inj hr
      cases b <;> simp [boolValue, valueTruthy]

/-- `AND` evaluates its right side only when its left side is taken for TRUE. -/
private theorem evalExprRow_and {l r : BoundExpr} {v : Value}
    (h : evalExprRow (.binary .and l r) chunk i = .ok v) :
    ∃ a, evalExprRow l chunk i = .ok a ∧ (valueTruthy a = false ∧ valueTruthy v = false ∨
      valueTruthy a = true ∧ ∃ b, evalExprRow r chunk i = .ok b ∧
        valueTruthy v = valueTruthy b) := by
  obtain ⟨a, ha, h⟩ := Except.bind_eq_ok.mp h
  refine ⟨a, ha, ?_⟩
  cases hta : valueTruthy a with
  | false =>
    rw [hta] at h
    obtain rfl := Except.ok.inj h
    exact .inl ⟨rfl, rfl⟩
  | true =>
    rw [hta] at h
    obtain ⟨b, hb, h⟩ := Except.bind_eq_ok.mp h
    obtain rfl := Except.ok.inj h
    refine .inr ⟨rfl, b, hb, ?_⟩
    cases valueTruthy b <;> rfl

/-- `OR` evaluates its right side only when its left side is taken for FALSE. -/
private theorem evalExprRow_or {l r : BoundExpr} {v : Value}
    (h : evalExprRow (.binary .or l r) chunk i = .ok v) :
    ∃ a, evalExprRow l chunk i = .ok a ∧ (valueTruthy a = true ∧ valueTruthy v = true ∨
      valueTruthy a = false ∧ ∃ b, evalExprRow r chunk i = .ok b ∧
        valueTruthy v = valueTruthy b) := by
  obtain ⟨a, ha, h⟩ := Except.bind_eq_ok.mp h
  refine ⟨a, ha, ?_⟩
  cases hta : valueTruthy a with
  | true =>
    rw [hta] at h
    obtain rfl := Except.ok.inj h
    exact .inl ⟨rfl, rfl⟩
  | false =>
    rw [hta] at h
    obtain ⟨b, hb, h⟩ := Except.bind_eq_ok.mp h
    obtain rfl := Except.ok.inj h
    refine .inr ⟨rfl, b, hb, ?_⟩
    cases valueTruthy b <;> rfl

/-- A comparison evaluates both sides. -/
private theorem evalExprRow_comparison {op : BoundOp} (hop : op.isComparison = true)
    {l r : BoundExpr} {v : Value} (h : evalExprRow (.binary op l r) chunk i = .ok v) :
    ∃ a b, evalExprRow l chunk i = .ok a ∧ evalExprRow r chunk i = .ok b ∧
      compareResult op a b = .ok v := by
  cases op with
  | eq | ne | lt | le | gt | ge =>
    obtain ⟨a, ha, h⟩ := Except.bind_eq_ok.mp h
    obtain ⟨b, hb, h⟩ := Except.bind_eq_ok.mp h
    exact ⟨a, b, ha, hb, h⟩
  | and | or | add | sub | mul | div => cases hop
/-- What is taken for TRUE or FALSE is UNKNOWN. -/
theorem TakenAs.truth_eq_none : ∀ {e : Expr} {b : Bool},
    TakenAs names types chunk i b e → truth names types chunk i e = none
  | .not c, b, h => by
    simp only [truth, Truth.not_eq_none]
    exact TakenAs.truth_eq_none (e := c) h
  | .binary .and l r, true, h => by
    have hl := fun h => TakenAs.truth_eq_none (e := l) (b := true) h
    have hr := fun h => TakenAs.truth_eq_none (e := r) (b := true) h
    simp only [truth]
    rcases h with ⟨h, h' | h'⟩ | ⟨h, h'⟩
    · simp [hl h, h', Truth.and]
    · simp [hl h, hr h', Truth.and]
    · simp [h, hr h', Truth.and]
  | .binary .and l r, false, h => by
    have hl := fun h => TakenAs.truth_eq_none (e := l) (b := false) h
    have hr := fun h => TakenAs.truth_eq_none (e := r) (b := false) h
    simp only [truth, Truth.eq_none_iff, ne_eq, Truth.and_eq_true, Truth.and_eq_false]
    rcases h with ⟨h, h'⟩ | ⟨h, h'⟩
    · simp [hl h, h']
    · simp [hr h, h']
  | .binary .or l r, true, h => by
    have hl := fun h => TakenAs.truth_eq_none (e := l) (b := true) h
    have hr := fun h => TakenAs.truth_eq_none (e := r) (b := true) h
    simp only [truth, Truth.eq_none_iff, ne_eq, Truth.or_eq_true, Truth.or_eq_false]
    rcases h with ⟨h, h'⟩ | ⟨h, h'⟩
    · simp [hl h, h']
    · simp [hr h, h']
  | .binary .or l r, false, h => by
    have hl := fun h => TakenAs.truth_eq_none (e := l) (b := false) h
    have hr := fun h => TakenAs.truth_eq_none (e := r) (b := false) h
    simp only [truth]
    rcases h with ⟨h, h' | h'⟩ | ⟨h, h'⟩
    · simp [hl h, h', Truth.or]
    · simp [hl h, hr h', Truth.or]
    · simp [h, hr h', Truth.or]
  | .binary .eq _ _, false, h | .binary .ne _ _, false, h | .binary .lt _ _, false, h
  | .binary .le _ _, false, h | .binary .gt _ _, false, h | .binary .ge _ _, false, h
  | .binary .add _ _, false, h | .binary .sub _ _, false, h | .binary .mul _ _, false, h
  | .binary .div _ _, false, h | .columnRef _ _, false, h | .literal _, false, h
  | .inList _ _, false, h | .aggregate _ _, false, h => h

/-- Nothing is taken for both. -/
theorem not_takenAs_both : ∀ {e : Expr}, TakenAs names types chunk i true e →
    ¬ TakenAs names types chunk i false e
  | .not _, ht, hf => not_takenAs_both hf ht
  | .binary .and l r, ht, hf => by
    rcases ht with ⟨hl, hr⟩ | ⟨hl, hr⟩
    · rcases hf with ⟨hl', -⟩ | ⟨hr', -⟩
      · exact not_takenAs_both hl hl'
      · rcases hr with hr | hr
        · rw [hr'.truth_eq_none] at hr
          cases hr
        · exact not_takenAs_both hr hr'
    · rcases hf with ⟨hl', -⟩ | ⟨hr', -⟩
      · rw [hl'.truth_eq_none] at hl
        cases hl
      · exact not_takenAs_both hr hr'
  | .binary .or l r, ht, hf => by
    rcases hf with ⟨hl, hr⟩ | ⟨hl, hr⟩
    · rcases ht with ⟨hl', -⟩ | ⟨hr', -⟩
      · exact not_takenAs_both hl' hl
      · rcases hr with hr | hr
        · rw [hr'.truth_eq_none] at hr
          cases hr
        · exact not_takenAs_both hr' hr
    · rcases ht with ⟨hl', -⟩ | ⟨hr', -⟩
      · rw [hl'.truth_eq_none] at hl
        cases hl
      · exact not_takenAs_both hr' hr

/-- The chain of equalities of an `IN` list is taken for TRUE exactly when the disjunction is
    TRUE. -/
private theorem bindIn_truthy {a col : Bytes} {values : List Value} {chain b : BoundExpr}
    {t : Truth} {v : Value}
    (hchain : ∀ {w}, evalExprRow chain chunk i = .ok w → (valueTruthy w = true ↔ t = some true))
    (hbind : bindIn names types a col values (some chain) = .ok (some b))
    (hrun : evalExprRow b chunk i = .ok v) :
    valueTruthy v = true ↔ values.foldl (fun t v => t.or (comparisonTruth .eq
      (scalarValue names types chunk i (.columnRef a col)) (.ok v))) t = some true := by
  induction values generalizing chain t with
  | nil =>
    obtain rfl := Option.some.inj (Except.ok.inj hbind)
    exact hchain hrun
  | cons x values ih =>
    simp only [bindIn, List.foldlM_cons] at hbind
    obtain ⟨step, hstep, hbind⟩ := Except.bind_eq_ok.mp hbind
    obtain ⟨c, hc, hstep⟩ := Except.bind_eq_ok.mp hstep
    obtain rfl := Except.ok.inj hstep
    rw [List.foldl_cons]
    refine ih (fun {w} hw => ?_) hbind
    obtain ⟨y, hy, hcases⟩ := evalExprRow_or hw
    rw [Truth.or_eq_true]
    rcases hcases with ⟨hty, htw⟩ | ⟨hty, z, hz, htw⟩
    · exact iff_of_true htw (.inl ((hchain hy).mp hty))
    · obtain ⟨p, q, hp, hq, hcmp⟩ := evalExprRow_comparison rfl hz
      obtain rfl := Except.ok.inj hq
      have hscalar : scalarValue names types chunk i (.columnRef a col) = .ok p := by
        simp only [scalarValue, Planner.bind, hc, Except.ok_bind, hp]
      have hnot : t ≠ some true := fun ht => by
        rw [(hchain hy).mpr ht] at hty
        cases hty
      rw [htw, hscalar, compareResult_truthy hcmp]
      simp [hnot]

/-- A predicate without connectives: taken for TRUE when it is TRUE, and else for FALSE. -/
private theorem taken_of_truthy_iff {e : Expr} {v : Value}
    (h : valueTruthy v = true ↔ truth names types chunk i e = some true)
    (hatom : truth names types chunk i e = none → TakenAs names types chunk i false e) :
    truth names types chunk i e = some (valueTruthy v) ∨
      TakenAs names types chunk i (valueTruthy v) e := by
  cases htv : valueTruthy v with
  | true => exact .inl (h.mp htv)
  | false =>
    have hne : truth names types chunk i e ≠ some true := fun ht => by
      rw [h.mpr ht] at htv
      cases htv
    rcases htruth : truth names types chunk i e with _ | _ | _
    · exact .inr (hatom htruth)
    · exact .inl rfl
    · exact absurd htruth hne

/-- What the per-row evaluation takes a predicate for: its truth value, unless that is
    UNKNOWN. -/
theorem evalExprRow_takenAs : ∀ {e : Expr} {b : BoundExpr} {v : Value}, isPredicate e = true →
    Planner.bind names types e = .ok b → evalExprRow b chunk i = .ok v →
    truth names types chunk i e = some (valueTruthy v) ∨
      TakenAs names types chunk i (valueTruthy v) e
  | .not c, b, v, hpred, hbind, hrun => by
    obtain ⟨bc, hc, hbind⟩ := Except.bind_eq_ok.mp hbind
    obtain rfl := Except.ok.inj hbind
    obtain ⟨w, hw, hrun⟩ := Except.bind_eq_ok.mp hrun
    obtain rfl := Except.ok.inj hrun
    have ih := evalExprRow_takenAs (e := c) hpred hc hw
    have hnot : valueTruthy (boolValue !valueTruthy w) = !valueTruthy w := by
      cases valueTruthy w <;> rfl
    rw [hnot]
    refine ih.imp (fun h => by simp [truth, h, Truth.not]) fun h => ?_
    simpa [TakenAs] using h
  | .inList (.columnRef a col) values, b, v, hpred, hbind, hrun => by
    refine taken_of_truthy_iff ?_ fun h => h
    obtain ⟨chain, hchain, hbind⟩ := Except.bind_eq_ok.mp hbind
    cases values with
    | nil =>
      obtain rfl := Except.ok.inj hchain
      cases hbind
    | cons x values =>
      simp only [bindIn, List.foldlM_cons] at hchain
      obtain ⟨first, hfirst, hchain⟩ := Except.bind_eq_ok.mp hchain
      obtain ⟨c, hc, hfirst⟩ := Except.bind_eq_ok.mp hfirst
      obtain rfl := Except.ok.inj hfirst
      cases chain with
      | none => cases hbind
      | some chain =>
        obtain rfl := Except.ok.inj hbind
        have hloop : bindIn names types a col values (some (.binary .eq c (.literal x))) =
            .ok (some chain) := hchain
        rw [truth, List.foldl_cons]
        refine bindIn_truthy (fun {w} hw => ?_) hloop hrun
        obtain ⟨p, q, hp, hq, hcmp⟩ := evalExprRow_comparison rfl hw
        obtain rfl := Except.ok.inj hq
        have hscalar : scalarValue names types chunk i (.columnRef a col) = .ok p := by
          simp only [scalarValue, Planner.bind, hc, Except.ok_bind, hp]
        rw [hscalar, compareResult_truthy hcmp, Truth.or_eq_true]
        simp
  | .binary .and l r, b, v, hpred, hbind, hrun => by
    obtain ⟨bl, hl, hbind⟩ := Except.bind_eq_ok.mp hbind
    obtain ⟨br, hr, hbind⟩ := Except.bind_eq_ok.mp hbind
    obtain rfl := Except.ok.inj hbind
    obtain ⟨hpl, hpr⟩ := Bool.and_eq_true_iff.mp hpred
    obtain ⟨x, hx, hcases⟩ := evalExprRow_and hrun
    have ihl := evalExprRow_takenAs (e := l) hpl hl hx
    simp only [truth]
    rcases hcases with ⟨htx, htv⟩ | ⟨htx, y, hy, htv⟩
    · rw [htx] at ihl
      rw [htv, Truth.and_eq_false]
      rcases ihl with ihl | ihl
      · exact .inl (.inl ihl)
      · by_cases hfalse : truth names types chunk i r = some false
        · exact .inl (.inr hfalse)
        · exact .inr (.inl ⟨ihl, hfalse⟩)
    · have ihr := evalExprRow_takenAs (e := r) hpr hr hy
      rw [htx] at ihl
      rw [htv]
      cases hty : valueTruthy y with
      | true =>
        rw [hty] at ihr
        rw [Truth.and_eq_true]
        rcases ihl with ihl | ihl
        · rcases ihr with ihr | ihr
          · exact .inl ⟨ihl, ihr⟩
          · exact .inr (.inr ⟨ihl, ihr⟩)
        · exact .inr (.inl ⟨ihl, ihr⟩)
      | false =>
        rw [hty] at ihr
        rw [Truth.and_eq_false]
        have hleft : truth names types chunk i l ≠ some false := by
          rcases ihl with ihl | ihl
          · simp [ihl]
          · simp [ihl.truth_eq_none]
        exact ihr.imp .inr fun ihr => .inr ⟨ihr, hleft⟩
  | .binary .or l r, b, v, hpred, hbind, hrun => by
    obtain ⟨bl, hl, hbind⟩ := Except.bind_eq_ok.mp hbind
    obtain ⟨br, hr, hbind⟩ := Except.bind_eq_ok.mp hbind
    obtain rfl := Except.ok.inj hbind
    obtain ⟨hpl, hpr⟩ := Bool.and_eq_true_iff.mp hpred
    obtain ⟨x, hx, hcases⟩ := evalExprRow_or hrun
    have ihl := evalExprRow_takenAs (e := l) hpl hl hx
    simp only [truth]
    rcases hcases with ⟨htx, htv⟩ | ⟨htx, y, hy, htv⟩
    · rw [htx] at ihl
      rw [htv, Truth.or_eq_true]
      rcases ihl with ihl | ihl
      · exact .inl (.inl ihl)
      · by_cases htrue : truth names types chunk i r = some true
        · exact .inl (.inr htrue)
        · exact .inr (.inl ⟨ihl, htrue⟩)
    · have ihr := evalExprRow_takenAs (e := r) hpr hr hy
      rw [htx] at ihl
      rw [htv]
      cases hty : valueTruthy y with
      | true =>
        rw [hty] at ihr
        rw [Truth.or_eq_true]
        have hleft : truth names types chunk i l ≠ some true := by
          rcases ihl with ihl | ihl
          · simp [ihl]
          · simp [ihl.truth_eq_none]
        exact ihr.imp .inr fun ihr => .inr ⟨ihr, hleft⟩
      | false =>
        rw [hty] at ihr
        rw [Truth.or_eq_false]
        rcases ihl with ihl | ihl
        · rcases ihr with ihr | ihr
          · exact .inl ⟨ihl, ihr⟩
          · exact .inr (.inr ⟨ihl, ihr⟩)
        · exact .inr (.inl ⟨ihl, ihr⟩)
  | .binary .eq l r, b, v, hpred, hbind, hrun | .binary .ne l r, b, v, hpred, hbind, hrun
  | .binary .lt l r, b, v, hpred, hbind, hrun | .binary .le l r, b, v, hpred, hbind, hrun
  | .binary .gt l r, b, v, hpred, hbind, hrun | .binary .ge l r, b, v, hpred, hbind, hrun => by
    obtain ⟨bl, hl, hbind⟩ := Except.bind_eq_ok.mp hbind
    obtain ⟨br, hr, hbind⟩ := Except.bind_eq_ok.mp hbind
    obtain rfl := Except.ok.inj hbind
    obtain ⟨x, y, hx, hy, hcmp⟩ := evalExprRow_comparison rfl hrun
    have hsl : scalarValue names types chunk i l = .ok x := by
      simp only [scalarValue, hl, Except.ok_bind, hx]
    have hsr : scalarValue names types chunk i r = .ok y := by
      simp only [scalarValue, hr, Except.ok_bind, hy]
    refine taken_of_truthy_iff ?_ fun h => h
    simpa only [truth, hsl, hsr] using compareResult_truthy hcmp

/-! ## The filter -/

/-- The mask of a batch, from the evaluation of each row. -/
theorem evalPredicate_getElem? {b : BoundExpr} {mask : List Bool}
    (hrun : evalPredicate b chunk = .ok mask) (hi : i < chunk.cardinality) :
    ∃ v, evalExprRow b chunk i = .ok v ∧
      mask[i]? = some (valueTruthy v ^^ predicateFlips b (chunk.row i)) := by
  rw [evalPredicate_eq_mapM b (Nat.zero_lt_of_lt hi)] at hrun
  have hrow : chunk.rows[i]? = some (chunk.row i) := by
    simp [DataChunk.rows, hi]
  obtain ⟨a, ha, hmask⟩ := List.getElem?_of_mapM_eq_ok hrun hrow
  obtain ⟨v, hv, rfl⟩ := decideRow_eq_ok (chunk.row_typed i) ha
  exact ⟨v, (evalExprRow_eq hi b).trans hv, hmask⟩

/-- The typed path is for one comparison, and that is never taken for TRUE. -/
private theorem not_takenAs_of_flips (chunk : DataChunk) (i : Nat) {e : Expr} {b : BoundExpr} {r : Row}
    (hbind : Planner.bind names types e = .ok b) (hflips : predicateFlips b r = true) :
    ¬ TakenAs names types chunk i true e := by
  intro ht
  cases e with
  | columnRef _ _ | literal _ | inList _ _ | aggregate _ _ => exact ht
  | not c =>
    obtain ⟨x, -, hbind⟩ := Except.bind_eq_ok.mp hbind
    obtain rfl := Except.ok.inj hbind
    cases hflips
  | binary op l r =>
    obtain ⟨x, -, hbind⟩ := Except.bind_eq_ok.mp hbind
    obtain ⟨y, -, hbind⟩ := Except.bind_eq_ok.mp hbind
    obtain rfl := Except.ok.inj hbind
    cases op with
    | and | or =>
      rw [toBoundOp, Planner.predicateFlips_eq_false rfl] at hflips
      cases hflips
    | eq | ne | lt | le | gt | ge | add | sub | mul | div => exact ht

/-- `Filter` keeps exactly the rows for which a predicate is TRUE, unless an UNKNOWN part of it
    is taken for TRUE or the typed path meets a NaN. -/
theorem keeps_iff_truth_iff {e : Expr} {b : BoundExpr} {mask : List Bool}
    (hpred : isPredicate e = true)
    (hbind : Planner.bind names types e = .ok b ∨
      bindConjuncts names types none (flatten e) = .ok (some b))
    (hrun : evalPredicate b chunk = .ok mask) (hi : i < chunk.cardinality) :
    (mask[i]? = some true ↔ truth names types chunk i e = some true) ↔
      ¬ TakenAs names types chunk i true e ∧ predicateFlips b (chunk.row i) = false := by
  -- the re-chained clause of a `WHERE` decides like the clause
  obtain ⟨b', hbind', hrun', hflips⟩ : ∃ b', Planner.bind names types e = .ok b' ∧
      evalPredicate b' chunk = .ok mask ∧ predicateFlips b = predicateFlips b' := by
    rcases hbind with hbind | hchain
    · exact ⟨b, hbind, hrun, rfl⟩
    · obtain ⟨b', hbind', hdecide, hflips⟩ := Planner.decideRow_rechain hchain
      have hne := Nat.zero_lt_of_lt hi
      rw [evalPredicate_eq_mapM b hne, hdecide, ← evalPredicate_eq_mapM b' hne] at hrun
      exact ⟨b', hbind', hrun, hflips⟩
  obtain ⟨v, hv, hmask⟩ := evalPredicate_getElem? hrun' hi
  have htaken := evalExprRow_takenAs hpred hbind' hv
  rw [hmask, hflips]
  cases hf : predicateFlips b' (chunk.row i) with
  | true =>
    have hnot := not_takenAs_of_flips chunk i hbind' hf
    cases htv : valueTruthy v with
    | true =>
      rw [htv] at htaken
      simp [htaken.resolve_right hnot]
    | false =>
      rw [htv] at htaken
      rcases htaken with htruth | htaken
      · simp [htruth]
      · simp [htaken.truth_eq_none]
  | false =>
    cases htv : valueTruthy v with
    | true =>
      rw [htv] at htaken
      rcases htaken with htruth | htaken
      · have hnot : ¬ TakenAs names types chunk i true e := fun h => by
          rw [h.truth_eq_none] at htruth
          cases htruth
        simp [htruth, hnot]
      · simp [htaken.truth_eq_none, htaken]
    | false =>
      rw [htv] at htaken
      rcases htaken with htruth | htaken
      · have hnot : ¬ TakenAs names types chunk i true e := fun h => by
          rw [h.truth_eq_none] at htruth
          cases htruth
        simp [htruth, hnot]
      · have hnot : ¬ TakenAs names types chunk i true e := fun h => not_takenAs_both h htaken
        simp [htaken.truth_eq_none, hnot]

end

/-- `NOT (a > 5)`. -/
def notGreater : Expr := .not (.binary .gt (.columnRef [] [97]) (.literal (.int32 5)))

/-- A batch of one `INT` column with one row. -/
def oneRowChunk (v : Value) (h : v.hasType .int = true) : DataChunk where
  columns := [⟨.int, [v], by simpa using h⟩]
  cardinality := 1
  rect := by simp

/-- `NOT (a > 5)` keeps a row where `a` is 1. -/
theorem keeps_iff_truth_iff_not_greater :
    (([true] : List Bool)[0]? = some true ↔
        truth [[97]] [.int] (oneRowChunk (.int32 1) rfl) 0 notGreater = some true) ↔
      ¬ TakenAs [[97]] [.int] (oneRowChunk (.int32 1) rfl) 0 true notGreater ∧
        predicateFlips (.not (.binary .gt (.column 0 .int) (.literal (.int32 5))))
          ((oneRowChunk (.int32 1) rfl).row 0) = false :=
  keeps_iff_truth_iff rfl (.inl rfl) rfl Nat.zero_lt_one

/-- `NOT (a > 5)` keeps a row where `a` is NULL; the predicate is UNKNOWN there, and `a <= 5`
    does not keep it. -/
theorem not_greater_keeps_null :
    ∃ b b', Planner.bind [[97]] [.int] notGreater = .ok b ∧
      evalPredicate b (oneRowChunk .null rfl) = .ok [true] ∧
      truth [[97]] [.int] (oneRowChunk .null rfl) 0 notGreater = none ∧
      Planner.bind [[97]] [.int] (.binary .le (.columnRef [] [97]) (.literal (.int32 5))) =
        .ok b' ∧
      evalPredicate b' (oneRowChunk .null rfl) = .ok [false] :=
  ⟨_, _, rfl, rfl, rfl, rfl, rfl⟩

end LiteOLAP
