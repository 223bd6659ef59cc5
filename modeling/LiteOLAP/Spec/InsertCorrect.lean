import LiteOLAP.Spec.RowGroupCorrect

/-!
# Inserting rows

What `INSERT` does to the pending columns of a table: row by row, and value by value, up to the
first value that is rejected. What it pushed before that stays.

## Key results

- `DB.insertRows_eq`: the pending columns after an `INSERT`, and its outcome
- `DB.PendingFits.push`: a row that is accepted becomes one more pending row
- `DB.PendingFits.pushRows`: the pending rows after an `INSERT` that splits no row
-/

namespace LiteOLAP

namespace DB

/-- A value that is accepted has the type of the column. -/
theorem coerce_hasType {v w : Value} {t : ColumnType} (h : coerce v t = .ok w) :
    w.hasType t = true := by
  cases t <;> cases v <;> first | (cases h; rfl) | cases h

/-! ## One row -/

/-- The values of a row that are accepted before one is rejected, and the exception if one is. -/
def coerced : List Column → List Value → List Value × Option Exc
  | col :: cols, v :: vs =>
    match coerce v col.type with
    | .ok w => (w :: (coerced cols vs).1, (coerced cols vs).2)
    | .error e => ([], some e)
  | _, _ => ([], none)

/-- Values pushed onto the leading columns. -/
def pushValues : List Value → List (List Value) → List (List Value)
  | w :: ws, col :: cols => (col ++ [w]) :: pushValues ws cols
  | _, cols => cols

/-- A run that ends with the given exception, if there is one. -/
def outcome {σ : Type} (e : Option Exc) (s : σ) : EStateM.Result Exc σ Unit :=
  match e with
  | none => .ok () s
  | some e => .error e s

section

variable {schema : Schema} {cols : List (List Value)}

@[simp] theorem pushValues_nil (cols : List (List Value)) : pushValues [] cols = cols := by
  cases cols <;> rfl

@[simp] theorem length_pushValues (ws : List Value) :
    ∀ cols, (pushValues ws cols).length = cols.length := by
  induction ws with
  | nil => simp
  | cons w ws ih =>
    intro cols
    cases cols with
    | nil => rfl
    | cons col cols => simp [pushValues, ih]

@[simp] theorem coerced_nil (cols : List Column) : coerced cols [] = ([], none) := by
  cases cols <;> rfl

/-- Pushing onto the column behind the given ones. -/
private theorem modify_behind (front back : List (List Value)) (first : List Value) (w : Value) :
    (front ++ first :: back).modify front.length (· ++ [w]) = (front ++ [first ++ [w]]) ++ back := by
  induction front with
  | nil => rfl
  | cons col front ih => simpa using ih

/-- The values of a row from column `i` on go onto the columns from `i` on. -/
theorem insertValues_eq {vs : List Value} :
    ∀ {i : Nat} {front back : List (List Value)}, front.length = i →
      back.length = (schema.columns.drop i).length → vs.length ≤ back.length →
      insertValues schema i vs (front ++ back) = outcome (coerced (schema.columns.drop i) vs).2
        (front ++ pushValues (coerced (schema.columns.drop i) vs).1 back) := by
  induction vs with
  | nil =>
    intro i front back _ _ _
    rw [coerced_nil, pushValues_nil]
    rfl
  | cons v vs ih =>
    intro i front back hfront hback hvs
    cases back with
    | nil => cases hvs
    | cons first back =>
      rw [List.length_cons, List.length_drop] at hback
      have hlt : i < schema.columns.length := by omega
      have hget : schema.getColumn i = .ok schema.columns[i] := by
        rw [Schema.getColumn, List.getElem?_eq_getElem hlt]
      rw [List.drop_eq_getElem_cons hlt, insertValues, hget,
        EStateM.bind_of_ok (EStateM.ofExcept_ok _ _)]
      cases hcoerce : coerce v schema.columns[i].type with
      | error e =>
        rw [EStateM.bind_of_error (EStateM.ofExcept_error _ _)]
        simp only [coerced, hcoerce, pushValues_nil]
        rfl
      | ok w =>
        have hpush : (front ++ first :: back).modify i (· ++ [w]) =
            (front ++ [first ++ [w]]) ++ back := by
          rw [← hfront, modify_behind]
        rw [EStateM.bind_of_ok (EStateM.ofExcept_ok _ _),
          EStateM.bind_of_ok (EStateM.modify_apply _ _), hpush]
        have hfront' : (front ++ [first ++ [w]]).length = i + 1 := by simp [hfront]
        have hback' : back.length = (schema.columns.drop (i + 1)).length := by
          rw [List.length_drop]
          omega
        have hrest := ih hfront' hback' (Nat.le_of_succ_le_succ hvs)
        rw [hrest]
        simp only [coerced, hcoerce, pushValues, List.append_assoc, List.singleton_append]

/-- The exception of the check on the number of values. -/
def countMismatch : Exc :=
  .runtimeError (Bytes.ofAscii "INSERT: value count does not match column count")

/-- What a row adds to the pending columns before it is rejected, and the exception if it is. The
    number of values is checked first. -/
def rowOutcome (schema : Schema) (row : List Value) : List Value × Option Exc :=
  if row.length ≠ schema.numColumns then ([], some countMismatch) else coerced schema.columns row

/-- One row of `INSERT`. -/
theorem insertRow_eq (hcols : cols.length = schema.numColumns) (row : List Value) :
    insertRow schema row cols =
      outcome (rowOutcome schema row).2 (pushValues (rowOutcome schema row).1 cols) := by
  unfold insertRow rowOutcome
  split
  · rw [pushValues_nil]
    rfl
  · rename_i hlen
    have hle : row.length ≤ cols.length := by
      rw [hcols]
      omega
    have hnone : ([] : List (List Value)).length = 0 := rfl
    exact insertValues_eq hnone hcols hle

/-! ## All rows -/

/-- The pending columns after the rows up to the first that is rejected, and the exception if one
    is. -/
def pushRows (schema : Schema) : List (List Value) → List (List Value) →
    List (List Value) × Option Exc
  | [], cols => (cols, none)
  | row :: rows, cols =>
    match rowOutcome schema row with
    | (ws, none) => pushRows schema rows (pushValues ws cols)
    | (ws, some e) => (pushValues ws cols, some e)

/-- The loop of `INSERT`. -/
theorem insertRows_eq (hcols : cols.length = schema.numColumns) (rows : List (List Value)) :
    rows.forM (insertRow schema) cols =
      outcome (pushRows schema rows cols).2 (pushRows schema rows cols).1 := by
  induction rows generalizing cols with
  | nil => rfl
  | cons row rows ih =>
    have hrow := insertRow_eq hcols row
    unfold pushRows
    split
    · rename_i ws hws
      rw [hws] at hrow
      exact (EStateM.bind_of_ok hrow).trans (ih (by rw [length_pushValues, hcols]))
    · rename_i ws e hws
      rw [hws] at hrow
      exact EStateM.bind_of_error hrow

theorem length_pushRows (rows : List (List Value)) :
    ∀ cols, (pushRows schema rows cols).1.length = cols.length := by
  induction rows with
  | nil => exact fun _ => rfl
  | cons row rows ih =>
    intro cols
    unfold pushRows
    split
    · rw [ih, length_pushValues]
    · exact length_pushValues _ _

/-! ## Rows stay rows -/

/-- The row that is accepted for a list of values, each value with the type of its column. -/
theorem typed_of_coerced : ∀ {cols : List Column} {vs ws : List Value}, vs.length = cols.length →
    coerced cols vs = (ws, none) →
    List.Forall₂ (fun w (col : Column) => w.hasType col.type = true) ws cols := by
  intro cols
  induction cols with
  | nil =>
    intro vs ws hlen h
    obtain rfl := List.length_eq_zero_iff.mp hlen
    cases h
    exact .nil
  | cons col cols ih =>
    intro vs ws hlen h
    cases vs with
    | nil => cases hlen
    | cons v vs =>
      unfold coerced at h
      split at h
      · rename_i w hw
        obtain ⟨hws, he⟩ := Prod.ext_iff.mp h
        dsimp only at hws he
        subst hws
        exact .cons (coerce_hasType hw) (ih (by simpa using hlen) (Prod.ext rfl he))
      · cases h

theorem typed_of_rowOutcome {row ws : List Value} (h : rowOutcome schema row = (ws, none)) :
    List.Forall₂ (fun w (col : Column) => w.hasType col.type = true) ws schema.columns := by
  unfold rowOutcome at h
  split at h
  · cases h
  · rename_i hlen
    exact typed_of_coerced (Decidable.not_not.mp hlen) h

/-- Reading before the pushed values and at them. -/
private theorem map_pushValues {n : Nat} : ∀ {ws : List Value} {cols : List (List Value)},
    ws.length = cols.length → (∀ col ∈ cols, col.length = n) →
    (∀ r < n, (pushValues ws cols).map (·.getD r .null) = cols.map (·.getD r .null)) ∧
      (pushValues ws cols).map (·.getD n .null) = ws := by
  intro ws
  induction ws with
  | nil =>
    intro cols hlen _
    obtain rfl := List.length_eq_zero_iff.mp hlen.symm
    exact ⟨fun _ _ => rfl, rfl⟩
  | cons w ws ih =>
    intro cols hlen hcols
    cases cols with
    | nil => cases hlen
    | cons col cols =>
      have hcol := hcols col List.mem_cons_self
      obtain ⟨hold, hnew⟩ := ih (by simpa using hlen) fun c hc => hcols c (List.mem_cons_of_mem _ hc)
      refine ⟨fun r hr => ?_, ?_⟩
      · simp only [pushValues, List.map_cons, hold r hr]
        simp [List.getElem?_append_left (hcol ▸ hr)]
      · simp only [pushValues, List.map_cons, hnew]
        simp [← hcol]

theorem rowsAt_pushValues {n : Nat} {ws : List Value} (hlen : ws.length = cols.length)
    (hcols : ∀ col ∈ cols, col.length = n) :
    rowsAt (pushValues ws cols) (n + 1) = rowsAt cols n ++ [ws] := by
  obtain ⟨hold, hnew⟩ := map_pushValues hlen hcols
  rw [rowsAt, List.range_succ, List.map_append, List.map_singleton, hnew]
  congr 1
  exact List.map_congr_left fun r hr => hold r (List.mem_range.mp hr)

/-- An accepted row is one more pending row. -/
theorem PendingFits.push {n : Nat} (h : PendingFits schema cols n) {ws : List Value}
    (hws : List.Forall₂ (fun w (col : Column) => w.hasType col.type = true) ws schema.columns) :
    PendingFits schema (pushValues ws cols) (n + 1) ∧
      rowsAt (pushValues ws cols) (n + 1) = rowsAt cols n ++ [ws] := by
  refine ⟨?_, rowsAt_pushValues (hws.length_eq.trans h.length_eq.symm) fun col hcol => ?_⟩
  · unfold PendingFits at h ⊢
    generalize schema.columns = columns at h hws
    induction h generalizing ws with
    | nil =>
      cases hws
      exact .nil
    | @cons col column cols columns hcol _ ih =>
      cases hws with
      | cons hw hws =>
        refine .cons ⟨by simp [hcol.1], fun v hv => ?_⟩ (ih hws)
        rcases List.mem_append.mp hv with hv | hv
        · exact hcol.2 v hv
        · obtain rfl := List.mem_singleton.mp hv
          exact hw
  · obtain ⟨i, hi, rfl⟩ := List.getElem_of_mem hcol
    exact ((List.forall₂_iff_get.mp h).2 i hi (h.length_eq ▸ hi)).1

/-- No rows are pending in empty columns. -/
theorem pendingFits_replicate (schema : Schema) :
    PendingFits schema (List.replicate schema.numColumns []) 0 := by
  unfold PendingFits Schema.numColumns
  generalize schema.columns = columns
  induction columns with
  | nil => exact .nil
  | cons col columns ih => exact .cons ⟨rfl, fun v hv => by cases hv⟩ ih

/-- The row that a list of values is stored as. -/
def StoredAs (schema : Schema) (row : List Value) (r : Row) : Prop :=
  rowOutcome schema row = (r, none)

/-- The rows that a list of rows is stored as, up to the first that is rejected. -/
def storedRows (schema : Schema) : List (List Value) → List Row
  | [] => []
  | row :: rows =>
    match rowOutcome schema row with
    | (ws, none) => ws :: storedRows schema rows
    | (_, some _) => []

theorem mem_storedRows {rows : List (List Value)} {r : Row} (h : r ∈ storedRows schema rows) :
    ∃ row ∈ rows, StoredAs schema row r := by
  induction rows with
  | nil => cases h
  | cons row rows ih =>
    unfold storedRows at h
    split at h
    · rename_i ws hws
      rcases List.mem_cons.mp h with rfl | h
      · exact ⟨row, List.mem_cons_self, hws⟩
      · obtain ⟨row', hrow', hstored⟩ := ih h
        exact ⟨row', List.mem_cons_of_mem _ hrow', hstored⟩
    · cases h

/-- Rows that are all accepted are all stored. -/
theorem storedRows_of_accepted {rows : List (List Value)}
    (h : ∀ row ∈ rows, (rowOutcome schema row).2 = none) :
    List.Forall₂ (StoredAs schema) rows (storedRows schema rows) := by
  induction rows with
  | nil => exact .nil
  | cons row rows ih =>
    have hrow := h row List.mem_cons_self
    unfold storedRows
    split
    · rename_i ws hws
      exact .cons hws (ih fun r hr => h r (List.mem_cons_of_mem _ hr))
    · rename_i ws e hws
      rw [hws] at hrow
      cases hrow

/-- No row is rejected with some of its values pushed already: the first row that is rejected has
    the wrong number of values, or its first value is rejected. -/
def SplitsNoRow (schema : Schema) (rows : List (List Value)) : Prop :=
  ∀ before row after, rows = before ++ row :: after →
    (∀ r ∈ before, (rowOutcome schema r).2 = none) → (rowOutcome schema row).2.isSome →
    (rowOutcome schema row).1 = []

/-- The pending rows after the rows of an `INSERT`, as long as no row is split. -/
theorem PendingFits.pushRows {rows : List (List Value)} (hrows : SplitsNoRow schema rows) :
    ∀ {cols : List (List Value)} {n : Nat}, PendingFits schema cols n →
      PendingFits schema (pushRows schema rows cols).1 (n + (storedRows schema rows).length) ∧
      rowsAt (DB.pushRows schema rows cols).1 (n + (storedRows schema rows).length) =
        rowsAt cols n ++ storedRows schema rows := by
  induction rows with
  | nil => exact fun h => ⟨h, by simp [DB.pushRows, storedRows]⟩
  | cons row rows ih =>
    intro cols n h
    unfold DB.pushRows storedRows
    split
    · rename_i ws hws
      obtain ⟨hfits, hat⟩ := h.push (typed_of_rowOutcome hws)
      have hrest : SplitsNoRow schema rows := by
        intro before row' after heq hbefore
        refine hrows (row :: before) row' after (by rw [heq]; rfl) fun r hr => ?_
        rcases List.mem_cons.mp hr with rfl | hr
        · rw [hws]
        · exact hbefore r hr
      obtain ⟨hnew, hrowsAt⟩ := ih hrest hfits
      rw [List.length_cons, Nat.add_comm _ 1, ← Nat.add_assoc]
      exact ⟨hnew, by rw [hrowsAt, hat, List.append_assoc, List.singleton_append]⟩
    · rename_i ws e hws
      have hnil := hrows [] row rows rfl (fun r hr => by cases hr) (by rw [hws]; rfl)
      rw [hws] at hnil
      dsimp only at hnil
      subst hnil
      rw [pushValues_nil]
      exact ⟨h, by simp⟩

end

end DB

end LiteOLAP
