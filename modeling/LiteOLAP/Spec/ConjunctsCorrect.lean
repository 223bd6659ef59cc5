import LiteOLAP.Native.Binder
import LiteOLAP.Spec.RowEvalCorrect

/-!
# Splitting a predicate into conjuncts

The planner takes a `WHERE` clause apart at its top-level `AND`s, binds the conjuncts one by
one, and chains them with `AND` again. The chain leans to the left whatever the shape of the
clause was; it decides every row as the clause itself would.

## Key results

- `truthyRow_flatten`: a clause is its conjuncts, tried in order
- `decideRow_rechain`: the chain of conjuncts decides as the clause does
-/

namespace LiteOLAP.Planner

/-- Try predicates in order, up to the first that is not truthy. -/
def allTruthy (bs : List BoundExpr) (r : Row) : Except Exc Bool :=
  match bs with
  | [] => .ok true
  | b :: bs => do
    let t ← truthyRow b r
    if t then allTruthy bs r else return false

theorem allTruthy_append (bs cs : List BoundExpr) (r : Row) :
    allTruthy (bs ++ cs) r = (do
      let t ← allTruthy bs r
      if t then allTruthy cs r else return false) := by
  induction bs with
  | nil => rfl
  | cons b bs ih =>
    simp only [List.cons_append, allTruthy]
    cases truthyRow b r with
    | error e => rfl
    | ok t =>
      cases t with
      | true => exact ih
      | false => rfl

@[simp] theorem allTruthy_singleton (b : BoundExpr) (r : Row) :
    allTruthy [b] r = truthyRow b r := by
  simp only [allTruthy]
  cases truthyRow b r with
  | error e => rfl
  | ok t => cases t <;> rfl

/-- `AND` tries its sides in order. -/
theorem truthyRow_and (x y : BoundExpr) (r : Row) :
    truthyRow (.binary .and x y) r = (do
      let t ← truthyRow x r
      if t then truthyRow y r else return false) := by
  simp only [truthyRow, evalRow]
  cases evalRow x r with
  | error e => rfl
  | ok v =>
    simp only [Except.ok_bind, Except.pure_eq_ok]
    cases valueTruthy v with
    | false => rfl
    | true =>
      simp only [Bool.not_true, Bool.false_eq_true, if_false, if_true]
      cases evalRow y r with
      | error e => rfl
      | ok w =>
        simp only [Except.ok_bind]
        cases valueTruthy w <;> rfl

/-- The typed path is not for `AND`. -/
theorem decideRow_and (x y : BoundExpr) (types : List ColumnType) :
    decideRow (.binary .and x y) types = truthyRow (.binary .and x y) := by
  funext r
  cases x with
  | literal v | not c | binary op a b => rfl
  | column idx t =>
    cases y with
    | column idx' t' | not c | binary op a b => rfl
    | literal lit => rfl

theorem predicateFlips_eq_false {op : BoundOp} (hop : op.tellsUnordered = false)
    (x y : BoundExpr) (r : Row) : predicateFlips (.binary op x y) r = false := by
  cases x with
  | literal v | not c | binary op' a b => rfl
  | column idx t =>
    cases y with
    | column idx' t' | not c | binary op' a b => rfl
    | literal lit =>
      simp only [predicateFlips, nanFlips, hop, Bool.and_false]
      split <;> simp

section

variable {names : List Bytes} {types : List ColumnType}

/-- A clause is its conjuncts, tried in order. -/
theorem truthyRow_flatten {e : Expr} {b : BoundExpr} (hbind : bind names types e = .ok b) :
    ∃ bs, (flatten e).mapM (bind names types) = .ok bs ∧ ∀ r, truthyRow b r = allTruthy bs r := by
  induction e using flatten.induct generalizing b with
  | case1 l r ihl ihr =>
    obtain ⟨x, hx, hbind⟩ := Except.bind_eq_ok.mp hbind
    obtain ⟨y, hy, hbind⟩ := Except.bind_eq_ok.mp hbind
    obtain rfl := Except.ok.inj hbind
    obtain ⟨bs, hbs, htruthy⟩ := ihl hx
    obtain ⟨cs, hcs, htruthy'⟩ := ihr hy
    refine ⟨bs ++ cs, by simp [flatten, List.mapM_append, hbs, hcs], fun row => ?_⟩
    rw [toBoundOp, truthyRow_and, allTruthy_append, htruthy]
    simp only [htruthy']
  | case2 e hne =>
    have hflat : flatten e = [e] := by
      rw [flatten]
      exact hne
    exact ⟨[b], by simp [hflat, hbind], fun r => (allTruthy_singleton b r).symm⟩

/-- The conjuncts that are still to be bound come after those in the chain. -/
private theorem truthyRow_bindConjuncts {cs : List Expr} {pred b : BoundExpr}
    (hbind : bindConjuncts names types (some pred) cs = .ok (some b)) :
    ∃ bs, cs.mapM (bind names types) = .ok bs ∧
      ∀ r, truthyRow b r = allTruthy (pred :: bs) r := by
  induction cs generalizing pred with
  | nil =>
    obtain rfl := Option.some.inj (Except.ok.inj hbind)
    exact ⟨[], rfl, fun r => (allTruthy_singleton pred r).symm⟩
  | cons c cs ih =>
    simp only [bindConjuncts, List.foldlM_cons] at hbind
    obtain ⟨step, hstep, hbind⟩ := Except.bind_eq_ok.mp hbind
    obtain ⟨x, hx, hstep⟩ := Except.bind_eq_ok.mp hstep
    obtain rfl := Except.ok.inj hstep
    obtain ⟨bs, hbs, htruthy⟩ := ih hbind
    refine ⟨x :: bs, by simp [hx, hbs], fun r => ?_⟩
    simp only [htruthy, allTruthy, truthyRow_and]
    cases truthyRow pred r with
    | error e => rfl
    | ok t => cases t <;> rfl

/-- What has been bound conjunct by conjunct can be bound as a whole. -/
private theorem exists_bind {e : Expr} {bs : List BoundExpr}
    (hbs : (flatten e).mapM (bind names types) = .ok bs) : ∃ b, bind names types e = .ok b := by
  induction e using flatten.induct generalizing bs with
  | case1 l r ihl ihr =>
    simp only [flatten, List.mapM_append] at hbs
    obtain ⟨xs, hxs, hbs⟩ := Except.bind_eq_ok.mp hbs
    obtain ⟨ys, hys, -⟩ := Except.bind_eq_ok.mp hbs
    obtain ⟨x, hx⟩ := ihl hxs
    obtain ⟨y, hy⟩ := ihr hys
    exact ⟨_, by simp only [bind, hx, hy, Except.ok_bind]; rfl⟩
  | case2 e hne =>
    have hflat : flatten e = [e] := by
      rw [flatten]
      exact hne
    rw [hflat, List.mapM_cons] at hbs
    obtain ⟨x, hx, -⟩ := Except.bind_eq_ok.mp hbs
    exact ⟨x, hx⟩

theorem flatten_ne_nil (e : Expr) : flatten e ≠ [] := by
  induction e using flatten.induct with
  | case1 l r ihl ihr => simp [flatten, ihl]
  | case2 e hne =>
    rw [flatten]
    · exact List.cons_ne_nil _ _
    · exact hne

private theorem flatten_cases (e : Expr) : (∃ l r, e = .binary .and l r) ∨ flatten e = [e] := by
  induction e using flatten.induct with
  | case1 l r ihl ihr => exact .inl ⟨l, r, rfl⟩
  | case2 e hne =>
    refine .inr ?_
    rw [flatten]
    exact hne

/-- A chain of more than one conjunct is an `AND`. -/
private theorem bindConjuncts_and {cs : List Expr} {x y b : BoundExpr}
    (hbind : bindConjuncts names types (some (.binary .and x y)) cs = .ok (some b)) :
    ∃ x y, b = .binary .and x y := by
  induction cs generalizing x y with
  | nil =>
    obtain rfl := Option.some.inj (Except.ok.inj hbind)
    exact ⟨x, y, rfl⟩
  | cons c cs ih =>
    simp only [bindConjuncts, List.foldlM_cons] at hbind
    obtain ⟨step, hstep, hbind⟩ := Except.bind_eq_ok.mp hbind
    obtain ⟨z, hz, hstep⟩ := Except.bind_eq_ok.mp hstep
    obtain rfl := Except.ok.inj hstep
    exact ih hbind

/-- The chain of conjuncts decides as the clause does. -/
theorem decideRow_rechain {e : Expr} {b : BoundExpr}
    (hchain : bindConjuncts names types none (flatten e) = .ok (some b)) :
    ∃ b', bind names types e = .ok b' ∧ decideRow b = decideRow b' ∧
      predicateFlips b = predicateFlips b' := by
  cases hflat : flatten e with
  | nil => exact absurd hflat (flatten_ne_nil e)
  | cons c cs =>
    rw [hflat] at hchain
    simp only [bindConjuncts, List.foldlM_cons] at hchain
    obtain ⟨step, hstep, hrest⟩ := Except.bind_eq_ok.mp hchain
    obtain ⟨x, hx, hstep⟩ := Except.bind_eq_ok.mp hstep
    obtain rfl := Except.ok.inj hstep
    obtain ⟨bs, hbs, htruthy⟩ := truthyRow_bindConjuncts hrest
    have hall : (flatten e).mapM (bind names types) = .ok (x :: bs) := by simp [hflat, hx, hbs]
    obtain ⟨b', hb'⟩ := exists_bind hall
    refine ⟨b', hb', ?_⟩
    obtain ⟨bs', hbs', htruthy'⟩ := truthyRow_flatten hb'
    rw [hall] at hbs'
    obtain rfl := Except.ok.inj hbs'
    have hsame : truthyRow b = truthyRow b' := funext fun r => by rw [htruthy, htruthy']
    rcases flatten_cases e with ⟨l, r, rfl⟩ | hleaf
    · obtain ⟨y, z, rfl⟩ : ∃ y z, b' = .binary .and y z := by
        obtain ⟨y, -, hb'⟩ := Except.bind_eq_ok.mp hb'
        obtain ⟨z, -, hb'⟩ := Except.bind_eq_ok.mp hb'
        exact ⟨y, z, (Except.ok.inj hb').symm⟩
      obtain ⟨y', z', rfl⟩ : ∃ y z, b = .binary .and y z := by
        cases cs with
        | nil =>
          have hlen := congrArg List.length hflat
          have hl := List.length_pos_iff.mpr (flatten_ne_nil l)
          have hr := List.length_pos_iff.mpr (flatten_ne_nil r)
          simp only [flatten, List.length_append, List.length_singleton] at hlen
          omega
        | cons d cs =>
          simp only [List.foldlM_cons] at hrest
          obtain ⟨step, hstep, hrest⟩ := Except.bind_eq_ok.mp hrest
          obtain ⟨y, hy, hstep⟩ := Except.bind_eq_ok.mp hstep
          obtain rfl := Except.ok.inj hstep
          exact bindConjuncts_and hrest
      refine ⟨funext fun ts => by rw [decideRow_and, decideRow_and, hsame], funext fun row => ?_⟩
      rw [predicateFlips_eq_false rfl, predicateFlips_eq_false rfl]
    · rw [hflat] at hleaf
      obtain ⟨rfl, rfl⟩ := List.cons.inj hleaf
      obtain rfl := Option.some.inj (Except.ok.inj hrest)
      rw [hb'] at hx
      rw [Except.ok.inj hx]
      exact ⟨rfl, rfl⟩

end

end LiteOLAP.Planner
