import LiteOLAP.Native.Value

/-!
# Vectors and data chunks

`Vector` (`vector/vector.{h,cpp}`) and `DataChunk` (`vector/data_chunk.{h,cpp}`), the batches
that flow between operators.

A `Vector` is kept as the list of the optional values appended to it, each of the vector's
own type; the packed slots, validity bytes and string offsets of the C++ class are one
layout of that list. A `DataChunk` is a list of such columns that all hold `cardinality`
rows. Both carry these facts as fields, so a ragged or ill-typed batch cannot be built.
-/

namespace LiteOLAP

/-- Number of rows processed per vectorized batch. -/
def kVectorSize : Nat := 2048

/-- A row as the operators materialize it: one value per column. -/
abbrev Row := List Value

/-- A typed column of optional values. -/
structure Vector where
  type : ColumnType
  values : List Value
  typed : ∀ v ∈ values, v.hasType type = true

namespace Vector

/-- `Vector::Vector(type)`, and `Clear` on a vector of that type. -/
def empty (type : ColumnType) : Vector := ⟨type, [], by simp⟩

/-- `AppendInt32`, `AppendInt64`, `AppendDouble`, `AppendString` and `AppendNull`: the raw
    append of a value. Appending raw bytes of another type has no meaning. -/
def append (vec : Vector) (v : Value) : Except Exc Vector :=
  if h : v.hasType vec.type = true then
    .ok ⟨vec.type, vec.values ++ [v], by
      intro x hx
      rcases List.mem_append.mp hx with hx | hx
      · exact vec.typed x hx
      · rw [List.mem_singleton.mp hx]; exact h⟩
  else .error .undefinedBehaviour

/-- `AppendValue`, which reads the value with `std::get` at the vector's type. -/
def appendValue (vec : Vector) (v : Value) : Except Exc Vector :=
  if v.hasType vec.type then vec.append v else .error .badVariantAccess

/-- The values at the given positions, in that order (`AppendFrom` in a loop). -/
def gather (vec : Vector) (idx : List Nat) : Vector where
  type := vec.type
  values := idx.map fun i => vec.values.getD i .null
  typed := by
    intro x hx
    obtain ⟨i, _, rfl⟩ := List.mem_map.mp hx
    by_cases hi : i < vec.values.length
    · rw [List.getD_eq_getElem _ _ hi]
      exact vec.typed _ (List.getElem_mem hi)
    · rw [List.getD_eq_default _ _ (by omega)]
      exact Value.hasType_null _

/-- Append a value known to have the vector's type; any other leaves the vector alone. -/
def push (vec : Vector) (v : Value) : Vector where
  type := vec.type
  values := vec.values ++ (if v.hasType vec.type then [v] else [])
  typed := by
    intro x hx
    rcases List.mem_append.mp hx with hx | hx
    · exact vec.typed x hx
    · split at hx
      · rename_i h
        rw [List.mem_singleton.mp hx]; exact h
      · simp at hx

@[simp] theorem empty_type (t : ColumnType) : (empty t).type = t := rfl
@[simp] theorem empty_values (t : ColumnType) : (empty t).values = [] := rfl
@[simp] theorem gather_type (vec : Vector) (idx : List Nat) :
    (vec.gather idx).type = vec.type := rfl
@[simp] theorem gather_values (vec : Vector) (idx : List Nat) :
    (vec.gather idx).values = idx.map fun i => vec.values.getD i .null := rfl
@[simp] theorem push_type (vec : Vector) (v : Value) : (vec.push v).type = vec.type := rfl

theorem push_values {vec : Vector} {v : Value} (h : v.hasType vec.type = true) :
    (vec.push v).values = vec.values ++ [v] := by
  simp [push, h]

end Vector

/-- Every value of the row has the type of its column. -/
def rowTyped : List ColumnType → Row → Bool
  | [], [] => true
  | t :: ts, v :: vs => v.hasType t && rowTyped ts vs
  | _, _ => false

theorem rowTyped_length {ts : List ColumnType} {r : Row} (h : rowTyped ts r = true) :
    r.length = ts.length := by
  induction ts generalizing r with
  | nil => cases r <;> simp_all [rowTyped]
  | cons t ts ih =>
    cases r with
    | nil => simp [rowTyped] at h
    | cons v vs =>
      simp only [rowTyped, Bool.and_eq_true] at h
      simp [ih h.2]

theorem rowTyped_append {ts us : List ColumnType} {r s : Row}
    (hr : rowTyped ts r = true) (hs : rowTyped us s = true) :
    rowTyped (ts ++ us) (r ++ s) = true := by
  induction ts generalizing r with
  | nil =>
    cases r with
    | nil => simpa using hs
    | cons v vs => simp [rowTyped] at hr
  | cons t ts ih =>
    cases r with
    | nil => simp [rowTyped] at hr
    | cons v vs =>
      simp only [rowTyped, Bool.and_eq_true] at hr
      simp [rowTyped, hr.1, ih hr.2]

/-- A row computed entry by entry. -/
theorem rowTyped_of_forall₂ {α β : Type} {f : β → ColumnType} {g : α → Value} {as : List α}
    {bs : List β} (h : List.Forall₂ (fun a b => (g a).hasType (f b) = true) as bs) :
    rowTyped (bs.map f) (as.map g) = true := by
  induction h with
  | nil => rfl
  | cons hab _ ih => simp [rowTyped, hab, ih]

/-- The value in a column has the column's type. -/
theorem rowTyped_getD {ts : List ColumnType} {r : Row} {i : Nat} {t : ColumnType}
    (h : rowTyped ts r = true) (hi : ts[i]? = some t) : (r.getD i .null).hasType t = true := by
  induction ts generalizing r i with
  | nil => simp at hi
  | cons u ts ih =>
    cases r with
    | nil => simp [rowTyped] at h
    | cons v vs =>
      simp only [rowTyped, Bool.and_eq_true] at h
      cases i with
      | zero =>
        obtain rfl : u = t := by simpa using hi
        exact h.1
      | succ i => exact ih (i := i) h.2 (by simpa using hi)

/-- A horizontal slice of a result: columns that all carry `cardinality` rows. -/
structure DataChunk where
  columns : List Vector
  cardinality : Nat
  rect : ∀ v ∈ columns, v.values.length = cardinality

namespace DataChunk

/-- `Initialize(types)`, and `Reset` of a chunk with these types. -/
def init (types : List ColumnType) : DataChunk where
  columns := types.map Vector.empty
  cardinality := 0
  rect := by
    intro v hv
    obtain ⟨t, _, rfl⟩ := List.mem_map.mp hv
    rfl

/-- The column types. -/
def types (c : DataChunk) : List ColumnType := c.columns.map (·.type)

/-- `GetVector(col).GetValue(row)`. -/
def getValue (c : DataChunk) (col row : Nat) : Except Exc Value :=
  match c.columns[col]? with
  | none => .error .undefinedBehaviour
  | some v =>
    match v.values[row]? with
    | none => .error .undefinedBehaviour
    | some x => .ok x

/-- Row `i`: the values of all columns at that position. -/
def row (c : DataChunk) (i : Nat) : Row := c.columns.map fun v => v.values.getD i .null

/-- The rows of the chunk, in order. -/
def rows (c : DataChunk) : List Row := (List.range c.cardinality).map c.row

/-- Gather the rows at the given positions, column by column. -/
def gather (c : DataChunk) (idx : List Nat) : DataChunk where
  columns := c.columns.map (·.gather idx)
  cardinality := idx.length
  rect := by
    intro v hv
    obtain ⟨w, _, rfl⟩ := List.mem_map.mp hv
    simp

/-- The columns at the given positions, in that order. A position out of range is an access
    without meaning. -/
def select (c : DataChunk) (sources : List Nat) : Except Exc DataChunk :=
  if h : ∀ s ∈ sources, s < c.columns.length then
    .ok {
      columns := sources.pmap (fun s hs => c.columns[s]) h
      cardinality := c.cardinality
      rect := by
        intro v hv
        obtain ⟨s, hs, rfl⟩ := List.mem_pmap.mp hv
        exact c.rect _ (List.getElem_mem _) }
  else .error .undefinedBehaviour

private theorem zipWith_push_length {cols : List Vector} {r : Row} {n : Nat}
    (hrect : ∀ v ∈ cols, v.values.length = n)
    (htyped : rowTyped (cols.map (·.type)) r = true) :
    ∀ v ∈ List.zipWith Vector.push cols r, v.values.length = n + 1 := by
  induction cols generalizing r with
  | nil => simp
  | cons c cs ih =>
    cases r with
    | nil => simp
    | cons x xs =>
      simp only [List.map_cons, rowTyped, Bool.and_eq_true] at htyped
      intro v hv
      rw [List.zipWith_cons_cons, List.mem_cons] at hv
      rcases hv with rfl | hv
      · simp [Vector.push_values htyped.1, hrect c (by simp)]
      · exact ih (fun w hw => hrect w (List.mem_cons_of_mem _ hw)) htyped.2 v hv

/-- Append one row: `AppendValue` of each value to its column, then
    `set_cardinality(cardinality() + 1)`. -/
def appendRow (c : DataChunk) (r : Row) : Except Exc DataChunk :=
  if r.length ≠ c.columns.length then .error .undefinedBehaviour
  else if h : rowTyped c.types r = true then
    .ok ⟨List.zipWith Vector.push c.columns r, c.cardinality + 1,
      zipWith_push_length c.rect h⟩
  else .error .badVariantAccess

/-- Append rows one after the other. -/
def appendRows (c : DataChunk) (rs : List Row) : Except Exc DataChunk :=
  rs.foldlM appendRow c

/-! ## What the operations do to the rows -/

@[simp] theorem init_types (ts : List ColumnType) : (init ts).types = ts := by
  simp [init, types, Function.comp_def]

@[simp] theorem init_rows (ts : List ColumnType) : (init ts).rows = [] := rfl

@[simp] theorem init_cardinality (ts : List ColumnType) : (init ts).cardinality = 0 := rfl

@[simp] theorem length_rows (c : DataChunk) : c.rows.length = c.cardinality := by
  simp [rows]

@[simp] theorem length_row (c : DataChunk) (i : Nat) : (c.row i).length = c.columns.length := by
  simp [row]

@[simp] theorem length_types (c : DataChunk) : c.types.length = c.columns.length := by
  simp [types]

theorem getElem_rows (c : DataChunk) (i : Nat) (h : i < c.rows.length) :
    c.rows[i] = c.row i := by
  simp [rows]

/-- Reading a value of a row that exists is reading the row. -/
theorem getValue_eq {c : DataChunk} {col i : Nat} (hc : col < c.columns.length)
    (hi : i < c.cardinality) : c.getValue col i = .ok ((c.row i).getD col .null) := by
  have hlen : i < c.columns[col].values.length := by
    rw [c.rect _ (List.getElem_mem hc)]; exact hi
  simp only [getValue, List.getElem?_eq_getElem hc, List.getElem?_eq_getElem hlen, row]
  rw [List.getD_eq_getElem _ _ (by simpa using hc), List.getElem_map,
    List.getD_eq_getElem _ _ hlen]

/-- A column that does not exist cannot be read. -/
theorem getValue_error {c : DataChunk} {col i : Nat} (hc : c.columns.length ≤ col) :
    c.getValue col i = .error .undefinedBehaviour := by
  simp [getValue, List.getElem?_eq_none hc]

private theorem map_getD_typed {cols : List Vector} (i : Nat) :
    rowTyped (cols.map (·.type)) (cols.map fun v => v.values.getD i .null) = true := by
  induction cols with
  | nil => rfl
  | cons c cs ih =>
    simp only [List.map_cons, rowTyped, ih, Bool.and_true]
    by_cases hi : i < c.values.length
    · rw [List.getD_eq_getElem _ _ hi]
      exact c.typed _ (List.getElem_mem hi)
    · rw [List.getD_eq_default _ _ (by omega)]
      exact Value.hasType_null _

/-- Every row of a chunk has the chunk's types. -/
theorem row_typed (c : DataChunk) (i : Nat) : rowTyped c.types (c.row i) = true :=
  map_getD_typed i

theorem rows_typed {c : DataChunk} {r : Row} (h : r ∈ c.rows) : rowTyped c.types r = true := by
  obtain ⟨i, _, rfl⟩ := List.mem_map.mp h
  exact c.row_typed i

@[simp] theorem gather_types (c : DataChunk) (idx : List Nat) :
    (c.gather idx).types = c.types := by
  simp [gather, types, Function.comp_def]

@[simp] theorem gather_cardinality (c : DataChunk) (idx : List Nat) :
    (c.gather idx).cardinality = idx.length := rfl

/-- Gathering positions gathers the rows at these positions. -/
theorem rows_gather (c : DataChunk) (idx : List Nat) : (c.gather idx).rows = idx.map c.row := by
  apply List.ext_getElem
  · simp
  · intro i h1 h2
    have hi : i < idx.length := by simpa using h2
    rw [getElem_rows, List.getElem_map]
    simp only [row, gather, List.map_map]
    apply List.map_congr_left
    intro v _
    simp [hi]

private theorem map_zipWith_push_type (cols : List Vector) (r : Row) (h : cols.length = r.length) :
    (List.zipWith Vector.push cols r).map (·.type) = cols.map (·.type) := by
  induction cols generalizing r with
  | nil => simp
  | cons c cs ih =>
    cases r with
    | nil => simp at h
    | cons x xs => simp [ih xs (by simpa using h)]

private theorem map_zipWith_push_getD {cols : List Vector} {r : Row} {n i : Nat}
    (hrect : ∀ v ∈ cols, v.values.length = n)
    (htyped : rowTyped (cols.map (·.type)) r = true) :
    (List.zipWith Vector.push cols r).map (fun v => v.values.getD i .null) =
      if i < n then cols.map (fun v => v.values.getD i .null)
      else if i = n then r else (List.zipWith Vector.push cols r).map (fun _ => .null) := by
  induction cols generalizing r with
  | nil => cases r <;> simp_all [rowTyped]
  | cons c cs ih =>
    cases r with
    | nil => simp [rowTyped] at htyped
    | cons x xs =>
      simp only [List.map_cons, rowTyped, Bool.and_eq_true] at htyped
      have hc : c.values.length = n := hrect c (by simp)
      rw [List.zipWith_cons_cons, List.map_cons, List.map_cons, List.map_cons,
        ih (fun w hw => hrect w (List.mem_cons_of_mem _ hw)) htyped.2,
        Vector.push_values htyped.1]
      by_cases h1 : i < n
      · rw [List.getD_append _ _ _ _ (by omega), if_pos h1, if_pos h1]
      · by_cases h2 : i = n
        · subst h2
          rw [List.getD_append_right _ _ _ _ (by omega), hc]
          simp
        · simp only [h1, h2, if_false]
          rw [List.getD_eq_default _ _ (by simp; omega)]

/-- Appending a row of the right types succeeds and adds that row at the end. -/
theorem appendRow_ok {c : DataChunk} {r : Row} (h : rowTyped c.types r = true) :
    ∃ c', c.appendRow r = .ok c' ∧ c'.rows = c.rows ++ [r] ∧ c'.types = c.types ∧
      c'.cardinality = c.cardinality + 1 := by
  have hlen : r.length = c.columns.length := by simpa using rowTyped_length h
  refine ⟨_, by rw [appendRow, if_neg (by simpa using hlen), dif_pos h], ?_, ?_, rfl⟩
  · simp only [rows, List.range_succ, List.map_append, List.map_cons, List.map_nil]
    congr 1
    · apply List.map_congr_left
      intro i hi
      have hi' : i < c.cardinality := List.mem_range.mp hi
      simp only [row]
      rw [map_zipWith_push_getD c.rect h, if_pos hi']
    · simp only [row]
      rw [map_zipWith_push_getD c.rect h, if_neg (lt_irrefl _), if_pos rfl]
  · exact map_zipWith_push_type _ _ hlen.symm

/-- Appending rows of the right types adds them all, in order. -/
theorem appendRows_ok {c : DataChunk} {rs : List Row}
    (h : ∀ r ∈ rs, rowTyped c.types r = true) :
    ∃ c', c.appendRows rs = .ok c' ∧ c'.rows = c.rows ++ rs ∧ c'.types = c.types ∧
      c'.cardinality = c.cardinality + rs.length := by
  induction rs generalizing c with
  | nil => exact ⟨c, rfl, by simp, rfl, by simp⟩
  | cons r rs ih =>
    obtain ⟨c₁, hc₁, hrows₁, htypes₁, hcard₁⟩ := appendRow_ok (h r (by simp))
    obtain ⟨c₂, hc₂, hrows₂, htypes₂, hcard₂⟩ :=
      ih (c := c₁) (fun s hs => htypes₁ ▸ h s (List.mem_cons_of_mem _ hs))
    refine ⟨c₂, ?_, by simp [hrows₂, hrows₁], by rw [htypes₂, htypes₁], by
      rw [hcard₂, hcard₁, List.length_cons]; omega⟩
    rw [appendRows, List.foldlM_cons, hc₁]
    exact hc₂

end DataChunk

end LiteOLAP
