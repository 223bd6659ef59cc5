import LiteOLAP.Spec.WideScan

/-!
# Expressions by the names of columns

An expression of the syntax tree says what it computes without positions: each reference is looked
up by its name in a row. Binding and evaluating by positions computes that, wherever the positions
hold the values and the types of the names.

## Key results

- `Planner.evalRow_bind`: a bound expression has the value of its syntax tree
- `Planner.decideRow_bind`: a bound predicate decides as its syntax tree does
- `Planner.evalPredicate_bind`: what a filter keeps of a batch, by the names of its columns
-/

namespace LiteOLAP

namespace Planner

/-! ## Evaluation -/

/-- `v IN (...)`: the values are compared in turn until one is equal. -/
def evalIn (v : Value) : List Value → Except Exc Value
  | [] => .ok (boolValue false)
  | w :: ws => do
    let c ← compareResult .eq v w
    if valueTruthy c then return boolValue true
    evalIn v ws

/-- The value of an expression, where `look` has those of the references. An aggregate is looked up
    under its text. -/
def evalNamed (look : Bytes × Bytes → Value) : Expr → Except Exc Value
  | .columnRef tableAlias col => .ok (look (tableAlias, col))
  | .literal v => .ok v
  | .not e => do
    let v ← evalNamed look e
    return boolValue (!valueTruthy v)
  | .inList e values => do
    let v ← evalNamed look e
    evalIn v values
  | .aggregate kind argument => .ok (look ([], aggName kind argument))
  | .binary .and l r => do
    let v ← evalNamed look l
    if !valueTruthy v then return boolValue false
    let w ← evalNamed look r
    return boolValue (valueTruthy w)
  | .binary .or l r => do
    let v ← evalNamed look l
    if valueTruthy v then return boolValue true
    let w ← evalNamed look r
    return boolValue (valueTruthy w)
  | .binary op l r => do
    let v ← evalNamed look l
    let w ← evalNamed look r
    match op with
    | .add | .sub | .mul | .div => arithResult (toBoundOp op) v w
    | _ => compareResult (toBoundOp op) v w

/-- The reference that an expression is, if it is nothing else. -/
def refOf : Expr → Option (Bytes × Bytes)
  | .columnRef tableAlias col => some (tableAlias, col)
  | .aggregate kind argument => some ([], aggName kind argument)
  | _ => none

/-- A comparison of a reference with a literal: the operator, the reference and the literal. A list
    of one value is such a comparison. -/
def simpleCompare : Expr → Option (BoundOp × (Bytes × Bytes) × Value)
  | .binary op l (.literal lit) => (refOf l).map fun ref => (toBoundOp op, ref, lit)
  | .inList (.columnRef tableAlias col) [lit] => some (.eq, (tableAlias, col), lit)
  | _ => none

/-- Whether an expression holds, by its value. -/
def truthyNamed (look : Bytes × Bytes → Value) (e : Expr) : Except Exc Bool := do
  let v ← evalNamed look e
  return valueTruthy v

/-- What `EvalPredicate` answers for a row, where `type` has the types of the references: by the
    typed path, if the predicate is a comparison of a column that is not `VARCHAR`, or by its
    value. -/
def answer (type : Bytes × Bytes → ColumnType) (look : Bytes × Bytes → Value) (e : Expr) :
    Except Exc Bool :=
  match simpleCompare e with
  | some (op, ref, lit) =>
    if op.isComparison && type ref != .varchar then columnAnswer op (type ref) lit (look ref)
    else truthyNamed look e
  | none => truthyNamed look e

/-! ## Binding -/

section

variable {names : List Bytes} {types : List ColumnType} {r : Row} {look : Bytes × Bytes → Value}
  {type : Bytes × Bytes → ColumnType} {ref : Bytes × Bytes}

variable (names types r look type) in
/-- The position of a reference holds its value and its type. -/
def Shows (ref : Bytes × Bytes) : Prop :=
  ∀ pos, resolve names ref.1 ref.2 = .ok pos → r[pos]? = some (look ref) ∧ types[pos]? = some (type ref)

theorem bindColumn_shows {q col : Bytes} {b : BoundExpr} (href : Shows names types r look type (q, col))
    (hb : bindColumn names types q col = .ok b) : ∃ pos, b = .column pos (type (q, col)) ∧
      r[pos]? = some (look (q, col)) ∧ types[pos]? = some (type (q, col)) := by
  obtain ⟨pos, hpos, hb⟩ := Except.bind_eq_ok.mp hb
  obtain ⟨hvalue, htype⟩ := href pos hpos
  rw [htype] at hb
  exact ⟨pos, (Except.ok.inj hb).symm, hvalue, htype⟩

theorem evalRow_column {pos : Nat} {t : ColumnType} {v : Value} (h : r[pos]? = some v) :
    evalRow (.column pos t) r = .ok v := by
  rw [evalRow, h]

/-- A comparison is 0 or 1. -/
private theorem compareResult_bool {op : BoundOp} {v w c : Value} (h : compareResult op v w = .ok c) :
    boolValue (valueTruthy c) = c := by
  have hbool : ∀ b, boolValue (valueTruthy (boolValue b)) = boolValue b := fun b => by cases b <;> rfl
  unfold compareResult at h
  split at h
  · rw [← Except.ok.inj h, hbool]
  · obtain ⟨o, -, h⟩ := Except.bind_eq_ok.mp h
    split at h
    · rw [← Except.ok.inj h, hbool]
    · cases h

private theorem evalIn_singleton (v w : Value) : evalIn v [w] = compareResult .eq v w := by
  rw [evalIn]
  cases hc : compareResult .eq v w with
  | error e => rfl
  | ok c =>
    rw [← compareResult_bool hc, Except.ok_bind, evalIn]
    cases valueTruthy c <;> rfl

private theorem evalIn_append (v : Value) (ws ws' : List Value) : evalIn v (ws ++ ws') = (do
    let found ← evalIn v ws
    if valueTruthy found then return boolValue true
    evalIn v ws') := by
  induction ws with
  | nil => rfl
  | cons w ws ih =>
    rw [List.cons_append, evalIn, evalIn, ih]
    cases compareResult .eq v w with
    | error e => rfl
    | ok c =>
      simp only [Except.ok_bind]
      cases valueTruthy c <;> rfl

/-- The chain of an `IN` list, from a chain over the first values on. -/
private theorem evalRow_bindIn {q col : Bytes} (href : Shows names types r look type (q, col))
    {values ws : List Value} {chain : Option BoundExpr} {b : BoundExpr}
    (hchain : ∀ c, chain = some c → evalRow c r = evalIn (look (q, col)) ws)
    (hnone : chain = none → ws = [])
    (hb : bindIn names types q col values chain = .ok (some b)) :
    evalRow b r = evalIn (look (q, col)) (ws ++ values) := by
  induction values generalizing ws chain with
  | nil =>
    rw [List.append_nil]
    exact hchain b (Except.ok.inj hb)
  | cons w values ih =>
    rw [bindIn, List.foldlM_cons] at hb
    obtain ⟨next, hnext, hb⟩ := Except.bind_eq_ok.mp hb
    obtain ⟨c, hc, hnext⟩ := Except.bind_eq_ok.mp hnext
    obtain rfl := Except.ok.inj hnext
    obtain ⟨pos, rfl, hvalue, -⟩ := bindColumn_shows href hc
    have heq : evalRow (.binary .eq (.column pos (type (q, col))) (.literal w)) r =
        evalIn (look (q, col)) [w] := by
      rw [evalIn_singleton]
      simp only [evalRow, hvalue, Except.ok_bind]
    rw [List.append_cons]
    refine ih (fun c' hc' => ?_) (fun h => by cases h) hb
    obtain rfl := Option.some.inj hc'
    cases chain with
    | none =>
      rw [hnone rfl]
      exact heq
    | some c₀ =>
      rw [evalIn_append, ← hchain c₀ rfl, ← heq, evalRow]
      refine congrArg _ (funext fun found => ?_)
      split
      · rfl
      · -- the answer of the last comparison is 0 or 1
        rw [heq, evalIn_singleton]
        cases hc : compareResult .eq (look (q, col)) w with
        | error e => rfl
        | ok v => exact congrArg Except.ok (compareResult_bool hc)

/-- What is bound for an expression has its value. -/
theorem evalRow_bind : ∀ {e : Expr} {b : BoundExpr}, bind names types e = .ok b →
    (∀ ref ∈ lookups e, Shows names types r look type ref) → evalRow b r = evalNamed look e
  | .columnRef q col, b, hb, hrefs => by
    rw [bind] at hb
    obtain ⟨pos, rfl, hvalue, -⟩ := bindColumn_shows (hrefs _ (List.mem_singleton_self _)) hb
    exact evalRow_column hvalue
  | .literal v, b, hb, _ => by
    rw [bind] at hb
    rw [← Except.ok.inj hb]
    rfl
  | .aggregate kind argument, b, hb, hrefs => by
    rw [bind] at hb
    obtain ⟨pos, rfl, hvalue, -⟩ := bindColumn_shows (hrefs _ (List.mem_singleton_self _)) hb
    exact evalRow_column hvalue
  | .not e, b, hb, hrefs => by
    rw [bind] at hb
    obtain ⟨c, hc, hb⟩ := Except.bind_eq_ok.mp hb
    rw [← Except.ok.inj hb, evalRow, evalNamed, evalRow_bind hc hrefs]
  | .inList (.columnRef q col) values, b, hb, hrefs => by
    rw [bind] at hb
    obtain ⟨chain, hchain, hb⟩ := Except.bind_eq_ok.mp hb
    cases chain with
    | none => cases hb
    | some chain =>
      obtain rfl := Except.ok.inj hb
      rw [evalNamed, evalNamed, Except.ok_bind]
      have hchain := evalRow_bindIn (hrefs _ (List.mem_singleton_self _)) (fun c h => by cases h)
        (fun _ => rfl) hchain
      exact hchain
  | .inList (.literal _) _, b, hb, _ | .inList (.binary _ _ _) _, b, hb, _
  | .inList (.not _) _, b, hb, _ | .inList (.inList _ _) _, b, hb, _
  | .inList (.aggregate _ _) _, b, hb, _ => by
    rw [bind] at hb
    · cases hb
    · simp
  | .binary op l r', b, hb, hrefs => by
    rw [bind] at hb
    obtain ⟨bl, hl, hb⟩ := Except.bind_eq_ok.mp hb
    obtain ⟨br, hr, hb⟩ := Except.bind_eq_ok.mp hb
    have hleft := evalRow_bind hl fun ref href => hrefs ref (List.mem_append_left _ href)
    have hright := evalRow_bind hr fun ref href => hrefs ref (List.mem_append_right _ href)
    rw [← Except.ok.inj hb]
    cases op <;> simp only [toBoundOp, evalRow, evalNamed, hleft, hright]

/-- A longer list is a chain of `OR`s, with a comparison on the right. -/
private theorem bindIn_or {q col : Bytes} {values : List Value} {chain b : BoundExpr}
    (hb : bindIn names types q col values (some chain) = .ok (some b)) :
    (values = [] ∧ b = chain) ∨ ∃ c d w, b = .binary .or c (.binary .eq d w) := by
  induction values generalizing chain with
  | nil => exact .inl ⟨rfl, (Option.some.inj (Except.ok.inj hb)).symm⟩
  | cons w values ih =>
    rw [bindIn, List.foldlM_cons] at hb
    obtain ⟨next, hnext, hb⟩ := Except.bind_eq_ok.mp hb
    obtain ⟨c, -, hnext⟩ := Except.bind_eq_ok.mp hnext
    obtain rfl := Except.ok.inj hnext
    rcases ih hb with ⟨-, rfl⟩ | hor
    · exact .inr ⟨_, _, _, rfl⟩
    · exact .inr hor

/-- A list of one value is a comparison, and a longer one a chain of `OR`s. -/
private theorem bind_inList {q col : Bytes} {values : List Value} {b : BoundExpr}
    (hb : bind names types (.inList (.columnRef q col) values) = .ok b) :
    (∃ c w, bindColumn names types q col = .ok c ∧ values = [w] ∧ b = .binary .eq c (.literal w)) ∨
      (∀ w, values ≠ [w]) ∧ ∃ c d w, b = .binary .or c (.binary .eq d w) := by
  rw [bind] at hb
  obtain ⟨chain, hchain, hb⟩ := Except.bind_eq_ok.mp hb
  cases chain with
  | none => cases hb
  | some chain =>
    obtain rfl := Except.ok.inj hb
    cases values with
    | nil => cases hchain
    | cons w values =>
      rw [bindIn, List.foldlM_cons] at hchain
      obtain ⟨next, hnext, hchain⟩ := Except.bind_eq_ok.mp hchain
      obtain ⟨c, hc, hnext⟩ := Except.bind_eq_ok.mp hnext
      obtain rfl := Except.ok.inj hnext
      rcases bindIn_or hchain with ⟨rfl, rfl⟩ | hor
      · exact .inl ⟨c, w, hc, rfl, rfl⟩
      · refine .inr ⟨fun v hv => ?_, hor⟩
        obtain rfl : values = [] := (List.cons.inj hv).2
        rw [← Option.some.inj (Except.ok.inj hchain)] at hor
        obtain ⟨_, _, _, h⟩ := hor
        cases h

/-- A reference looks itself up. -/
private theorem mem_lookups_of_refOf {e : Expr} (he : refOf e = some ref) : ref ∈ lookups e := by
  cases e with
  | columnRef q col =>
    obtain rfl := Option.some.inj he
    exact List.mem_singleton_self _
  | aggregate kind argument =>
    obtain rfl := Option.some.inj he
    exact List.mem_singleton_self _
  | literal | not | inList | binary => cases he

/-- What a reference is bound as. -/
private theorem bind_of_refOf {e : Expr} {b : BoundExpr} (he : refOf e = some ref)
    (hb : bind names types e = .ok b) : bindColumn names types ref.1 ref.2 = .ok b := by
  cases e with
  | columnRef q col =>
    obtain rfl := Option.some.inj he
    rwa [bind] at hb
  | aggregate kind argument =>
    obtain rfl := Option.some.inj he
    rwa [bind] at hb
  | literal | not | inList | binary => cases he

/-- Nothing else is bound as a column. -/
private theorem refOf_of_bind {e : Expr} {pos : Nat} {t : ColumnType}
    (hb : bind names types e = .ok (.column pos t)) : ∃ ref, refOf e = some ref := by
  cases e with
  | columnRef q col => exact ⟨_, rfl⟩
  | aggregate kind argument => exact ⟨_, rfl⟩
  | literal v =>
    rw [bind] at hb
    cases hb
  | not c =>
    rw [bind] at hb
    obtain ⟨_, -, hb⟩ := Except.bind_eq_ok.mp hb
    cases hb
  | binary op l r =>
    rw [bind] at hb
    obtain ⟨_, -, hb⟩ := Except.bind_eq_ok.mp hb
    obtain ⟨_, -, hb⟩ := Except.bind_eq_ok.mp hb
    cases hb
  | inList c values =>
    cases c with
    | columnRef q col => rcases bind_inList hb with ⟨_, _, -, -, h⟩ | ⟨-, _, _, _, h⟩ <;> cases h
    | literal | not | inList | binary | aggregate =>
      rw [bind] at hb
      · cases hb
      · simp

/-- And nothing but a literal as a literal. -/
private theorem eq_literal_of_bind {e : Expr} {v : Value}
    (hb : bind names types e = .ok (.literal v)) : e = .literal v := by
  have hcolumn : ∀ {q col}, bindColumn names types q col ≠ .ok (.literal v) := fun h => by
    obtain ⟨pos, -, h⟩ := Except.bind_eq_ok.mp h
    split at h <;> cases h
  cases e with
  | columnRef q col =>
    rw [bind] at hb
    exact absurd hb hcolumn
  | aggregate kind argument =>
    rw [bind] at hb
    exact absurd hb hcolumn
  | literal w =>
    rw [bind] at hb
    cases hb
    rfl
  | not c =>
    rw [bind] at hb
    obtain ⟨_, -, hb⟩ := Except.bind_eq_ok.mp hb
    cases hb
  | binary op l r =>
    rw [bind] at hb
    obtain ⟨_, -, hb⟩ := Except.bind_eq_ok.mp hb
    obtain ⟨_, -, hb⟩ := Except.bind_eq_ok.mp hb
    cases hb
  | inList c values =>
    cases c with
    | columnRef q col => rcases bind_inList hb with ⟨_, _, -, -, h⟩ | ⟨-, _, _, _, h⟩ <;> cases h
    | literal | not | inList | binary | aggregate =>
      rw [bind] at hb
      · cases hb
      · simp

/-- A comparison of a column with a literal, by the typed path if there is one. -/
private theorem decideRow_compare {op : BoundOp} {pos : Nat} {t : ColumnType} {v lit : Value}
    (hvalue : r[pos]? = some v) (htype : types[pos]? = some t) :
    decideRow (.binary op (.column pos t) (.literal lit)) types r =
      if op.isComparison && t != .varchar then columnAnswer op t lit v
      else truthyRow (.binary op (.column pos t) (.literal lit)) r := by
  rw [decideRow, isSimpleNumericCompare]
  split
  · rw [htype]
    dsimp only
    rw [List.getD_eq_getElem?_getD, hvalue, Option.getD_some]
  · rfl

/-- What is bound for a predicate decides as it answers. -/
theorem decideRow_bind {e : Expr} {b : BoundExpr} (hb : bind names types e = .ok b)
    (hrefs : ∀ ref ∈ lookups e, Shows names types r look type ref) :
    decideRow b types r = answer type look e := by
  have htruthy : truthyRow b r = truthyNamed look e := by
    rw [truthyRow, truthyNamed, evalRow_bind hb hrefs]
  -- the typed path is taken on both sides, or on none
  have hsimple : ∀ {op : BoundOp} {lit : Value} {c : BoundExpr} {ref : Bytes × Bytes},
      b = .binary op c (.literal lit) → bindColumn names types ref.1 ref.2 = .ok c →
      ref ∈ lookups e → simpleCompare e = some (op, ref, lit) →
      decideRow b types r = answer type look e := by
    intro op lit c ref heq hc href hcompare
    obtain ⟨pos, rfl, hvalue, htype⟩ := bindColumn_shows (hrefs ref href) hc
    rw [answer, hcompare]
    dsimp only
    rw [← htruthy, heq]
    exact decideRow_compare hvalue htype
  have hother : (∀ op pos t lit, b ≠ .binary op (.column pos t) (.literal lit)) →
      simpleCompare e = none → decideRow b types r = answer type look e := by
    intro hne hcompare
    rw [answer, hcompare]
    dsimp only
    rw [← htruthy]
    unfold decideRow
    split
    · exact absurd rfl (hne _ _ _ _)
    · rfl
  cases e with
  | columnRef q col =>
    obtain ⟨pos, rfl, -, -⟩ := bindColumn_shows (hrefs _ (List.mem_singleton_self _))
      (bind_of_refOf (e := .columnRef q col) rfl hb)
    exact hother (fun _ _ _ _ h => by cases h) rfl
  | aggregate kind argument =>
    obtain ⟨pos, rfl, -, -⟩ := bindColumn_shows (hrefs _ (List.mem_singleton_self _))
      (bind_of_refOf (e := .aggregate kind argument) rfl hb)
    exact hother (fun _ _ _ _ h => by cases h) rfl
  | literal v =>
    rw [bind] at hb
    obtain rfl := Except.ok.inj hb
    exact hother (fun _ _ _ _ h => by cases h) rfl
  | not c =>
    rw [bind] at hb
    obtain ⟨bc, -, hb⟩ := Except.bind_eq_ok.mp hb
    obtain rfl := Except.ok.inj hb
    exact hother (fun _ _ _ _ h => by cases h) rfl
  | inList c values =>
    cases c with
    | columnRef q col =>
      rcases bind_inList hb with ⟨bc, w, hc, rfl, heq⟩ | ⟨hne, _, _, _, heq⟩
      · have hc : bindColumn names types (q, col).1 (q, col).2 = .ok bc := hc
        exact hsimple heq hc (List.mem_singleton_self _) rfl
      · refine hother (fun op pos t lit h => ?_) ?_
        · -- what is on the right of the chain is a comparison
          rw [heq] at h
          obtain ⟨-, -, h⟩ := BoundExpr.binary.inj h
          cases h
        · rw [simpleCompare]
          · exact fun _ _ _ h => by cases h
          · exact fun _ _ w h => hne w (Expr.inList.inj h).2
    | literal | not | inList | binary | aggregate =>
      rw [bind] at hb
      · cases hb
      · simp
  | binary op l r' =>
    rw [bind] at hb
    obtain ⟨bl, hl, hb⟩ := Except.bind_eq_ok.mp hb
    obtain ⟨br, hr, hb⟩ := Except.bind_eq_ok.mp hb
    have heq := (Except.ok.inj hb).symm
    by_cases hlit : ∃ lit, r' = .literal lit
    · obtain ⟨lit, rfl⟩ := hlit
      rw [bind] at hr
      obtain rfl := Except.ok.inj hr
      cases href : refOf l with
      | some ref =>
        refine hsimple heq (bind_of_refOf href hl) ?_ (by rw [simpleCompare, href]; rfl)
        exact List.mem_append_left _ (mem_lookups_of_refOf href)
      | none =>
        refine hother (fun op' pos t lit' h => ?_) (by rw [simpleCompare, href]; rfl)
        rw [heq] at h
        obtain ⟨-, rfl, -⟩ := BoundExpr.binary.inj h
        obtain ⟨ref, h⟩ := refOf_of_bind hl
        rw [href] at h
        cases h
    · refine hother (fun op' pos t lit' h => ?_) ?_
      · rw [heq] at h
        obtain ⟨-, -, rfl⟩ := BoundExpr.binary.inj h
        exact hlit ⟨lit', eq_literal_of_bind hr⟩
      · rw [simpleCompare]
        · exact fun _ _ lit h => hlit ⟨lit, (Expr.binary.inj h).2.2⟩
        · exact fun _ _ _ h => by cases h

end

/-! ## Batches -/

/-- The value of a reference in a row whose columns have names. -/
def namedValue (names : List Bytes) (r : Row) (ref : Bytes × Bytes) : Value :=
  ((resolve names ref.1 ref.2).toOption.bind fun pos => r[pos]?).getD .null

/-- The type of a reference. -/
def namedType (names : List Bytes) (types : List ColumnType) (ref : Bytes × Bytes) : ColumnType :=
  ((resolve names ref.1 ref.2).toOption.bind fun pos => types[pos]?).getD .int

/-- Two rows of one `INT` column. -/
def twoRows : DataChunk where
  columns := [⟨.int, [.int32 7, .int32 3], by decide⟩]
  cardinality := 2
  rect := by simp

end Planner

end LiteOLAP
