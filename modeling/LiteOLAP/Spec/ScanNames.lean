import LiteOLAP.Spec.PlanShape
import LiteOLAP.Spec.PlanScans
import Mathlib.Data.List.Forall2

/-!
# Names and the columns of a scan

A scan reads the columns that its query needs, in the order of the table, and the planner looks
names up among those of the scan. As long as neither the alias nor a column has a dot in its name,
which no identifier has, a name that is found there stands for the first column of the table that
has it.

## Key results

- `Planner.scanInfo_resolved`: the columns of a scan, and their names
- `Planner.ScanInfo.column_of_resolve`: the column that a name stands for
-/

namespace LiteOLAP

namespace Planner

open Bytes (ofAscii)

/-! ## Names with one dot -/

/-- A name without a dot. -/
def Dotless (name : Bytes) : Prop := (46 : UInt8) ∉ name

instance (name : Bytes) : Decidable (Dotless name) := inferInstanceAs (Decidable (¬ _))

theorem outputName_eq {a : Bytes} (ha : a ≠ []) (name : Bytes) :
    ColumnScan.outputName a name = a ++ 46 :: name := by
  rw [ColumnScan.outputName, if_neg ha, List.append_assoc]
  rfl

/-- A name is found under the alias and the column that it is made of only. -/
theorem outputName_eq_iff {a name q col : Bytes} (ha : a ≠ []) (hdot : Dotless a)
    (hname : Dotless name) : ColumnScan.outputName a name = q ++ ofAscii "." ++ col ↔
      q = a ∧ col = name := by
  rw [outputName_eq ha, List.append_assoc]
  refine (List.append_cons_inj_of_notMem hdot hname).trans ?_
  exact ⟨fun h => ⟨h.1.symm, h.2.2.symm⟩, fun h => ⟨h.1.symm, rfl, h.2.symm⟩⟩

theorem endsWith_iff {s suf : Bytes} : endsWith s suf = true ↔ suf <:+ s := by
  rw [endsWith, Bool.and_eq_true, decide_eq_true_eq, beq_iff_eq]
  constructor
  · rintro ⟨-, h⟩
    exact h ▸ List.drop_suffix _ _
  · intro h
    exact ⟨h.length_le, (List.suffix_iff_eq_drop.mp h).symm⟩

/-- A bare name stands for the columns of that name. -/
theorem matchesBare_outputName {a name col : Bytes} (ha : a ≠ []) (hdot : Dotless a)
    (hname : Dotless name) (hcol : Dotless col) :
    matchesBare col (ColumnScan.outputName a name) = true ↔ name = col := by
  rw [matchesBare, Bool.or_eq_true, beq_iff_eq, endsWith_iff]
  constructor
  · rintro (h | ⟨t, h⟩)
    · -- the name of the column has a dot
      rw [outputName_eq ha] at h
      exact absurd (h ▸ List.mem_append_right a List.mem_cons_self) hcol
    · rw [← List.append_assoc] at h
      exact ((outputName_eq_iff ha hdot hname).mp h.symm).2.symm
  · rintro rfl
    exact .inr ⟨a, by rw [outputName_eq ha]; rfl⟩

/-! ## The columns of a scan -/

/-- The columns that are scanned are the first ones of their names, in the order of the table. -/
structure ScanInfo.Resolved (s : ScanInfo) : Prop where
  columns : List.Forall₂ (fun i name => s.table.schema.findColumn name = some i) s.colIndices s.colNames
  sorted : s.colIndices.Pairwise (· < ·)

/-- The column that is found has the name, and is the first that has. -/
theorem findColumn_eq_some {schema : Schema} {name : Bytes} {i : Nat}
    (h : schema.findColumn name = some i) : ∃ col, schema.columns[i]? = some col ∧ col.name = name := by
  obtain ⟨hi, hname, -⟩ := List.findIdx?_eq_some_iff_getElem.mp h
  exact ⟨_, List.getElem?_eq_getElem hi, by simpa using hname⟩

/-- Different names are found in different places. -/
theorem findColumn_inj {schema : Schema} {name name' : Bytes} {i : Nat}
    (h : schema.findColumn name = some i) (h' : schema.findColumn name' = some i) : name = name' := by
  obtain ⟨col, hcol, rfl⟩ := findColumn_eq_some h
  obtain ⟨col', hcol', rfl⟩ := findColumn_eq_some h'
  rw [hcol] at hcol'
  rw [Option.some.inj hcol']

theorem needIndex_eq_ok {m : TableMeta} {name : Bytes} {i : Nat} :
    needIndex m name = .ok i ↔ m.schema.findColumn name = some i := by
  unfold needIndex
  cases m.schema.findColumn name with
  | none => exact ⟨fun h => (by cases h), fun h => (by cases h)⟩
  | some j => exact ⟨fun h => congrArg some (Except.ok.inj h), fun h => congrArg _ (Option.some.inj h)⟩

theorem getColumn_eq_ok {schema : Schema} {i : Nat} {col : Column} :
    schema.getColumn i = .ok col ↔ schema.columns[i]? = some col := by
  unfold Schema.getColumn
  cases schema.columns[i]? with
  | none => exact ⟨fun h => (by cases h), fun h => (by cases h)⟩
  | some c => exact ⟨fun h => congrArg some (Except.ok.inj h), fun h => congrArg _ (Option.some.inj h)⟩

theorem mem_neededOf {needed : List (Bytes × Bytes)} {a name : Bytes} :
    name ∈ neededOf needed a ↔ (a, name) ∈ needed := by
  rw [neededOf, List.mem_dedup, List.mem_map]
  constructor
  · rintro ⟨⟨b, n⟩, hmem, rfl⟩
    obtain ⟨hin, hb⟩ := List.mem_filter.mp hmem
    obtain rfl : b = a := by simpa using hb
    exact hin
  · exact fun h => ⟨_, List.mem_filter.mpr ⟨h, by simp⟩, rfl⟩

/-- The scan of a table reads the columns that are needed of it. -/
theorem scanInfo_resolved {needed : List (Bytes × Bytes)} {t : TableMeta × Bytes} {s : ScanInfo}
    (hinfo : scanInfo needed t = .ok s) : s.table = t.1 ∧ s.alias = t.2 ∧ s.Resolved ∧
      ∀ name, name ∈ s.colNames ↔ (t.2, name) ∈ needed := by
  obtain ⟨idxs, hidxs, hrest⟩ := Except.bind_eq_ok.mp hinfo
  obtain ⟨cols, hcols, hrest⟩ := Except.bind_eq_ok.mp hrest
  obtain rfl := Except.ok.inj hrest
  have hfound : List.Forall₂ (fun name i => t.1.schema.findColumn name = some i)
      (neededOf needed t.2) idxs :=
    (List.forall₂_of_mapM_eq_ok hidxs).imp fun _ _ h => needIndex_eq_ok.mp h
  have hperm : (idxs.mergeSort fun a b => decide (a ≤ b)).Perm idxs := List.mergeSort_perm _ _
  have hnamed : ∀ i ∈ idxs.mergeSort fun a b => decide (a ≤ b), ∃ name ∈ neededOf needed t.2,
      t.1.schema.findColumn name = some i := fun i hi =>
    List.exists_of_forall₂_mem hfound (hperm.mem_iff.mp hi)
  -- what is found in a place has the name that was looked for
  have hcolumns : List.Forall₂ (fun i (c : Column) => (∃ name ∈ neededOf needed t.2,
      t.1.schema.findColumn name = some i) ∧ t.1.schema.getColumn i = .ok c)
      (idxs.mergeSort fun a b => decide (a ≤ b)) cols :=
    (List.forall₂_and_left _ _).mpr ⟨hnamed, List.forall₂_of_mapM_eq_ok hcols⟩
  have hself : List.Forall₂ (fun i (c : Column) => c.name ∈ neededOf needed t.2 ∧
      t.1.schema.findColumn c.name = some i) (idxs.mergeSort fun a b => decide (a ≤ b)) cols :=
    hcolumns.imp fun i c hc => by
      obtain ⟨⟨name, hmem, hname⟩, hget⟩ := hc
      obtain ⟨c', hc', rfl⟩ := findColumn_eq_some hname
      rw [getColumn_eq_ok, hc'] at hget
      obtain rfl := Option.some.inj hget
      exact ⟨hmem, hname⟩
  refine ⟨rfl, rfl, ⟨?_, ?_⟩, fun name => ?_⟩
  · exact List.forall₂_map_right_iff.mpr (hself.imp fun _ _ hc => hc.2)
  · have hnodup : idxs.Nodup := List.nodup_of_forall₂ hfound (fun _ _ _ h h' => findColumn_inj h h')
      (List.nodup_dedup _)
    have hsorted : (idxs.mergeSort fun a b => decide (a ≤ b)).Pairwise
        fun a b => decide (a ≤ b) = true := List.pairwise_mergeSort
      (fun a b c => by simpa using Nat.le_trans) (fun a b => by simpa using Nat.le_total a b) idxs
    refine (hsorted.and (hperm.nodup_iff.mpr hnodup)).imp fun h => ?_
    have hle := of_decide_eq_true h.1
    exact Nat.lt_of_le_of_ne hle h.2
  · rw [← mem_neededOf]
    constructor
    · intro h
      obtain ⟨c, hc, rfl⟩ := List.mem_map.mp h
      obtain ⟨i, -, hmem, -⟩ := List.exists_of_forall₂_mem hself hc
      exact hmem
    · intro h
      obtain ⟨i, hi, hname⟩ := List.exists_of_forall₂_mem (List.Forall₂.flip hfound) h
      obtain ⟨c, hc, -, hc'⟩ := List.exists_of_forall₂_mem (List.Forall₂.flip hself)
        (hperm.mem_iff.mpr hi)
      rw [findColumn_inj hname hc']
      exact List.mem_map_of_mem hc

namespace ScanInfo

variable {s : ScanInfo} {name : Bytes} {pos : Nat}

theorem Resolved.length_eq (h : s.Resolved) : s.colIndices.length = s.colNames.length :=
  h.columns.length_eq

/-- The column at a position of the scan. -/
theorem Resolved.at_ (h : s.Resolved) (hpos : pos < s.colNames.length) :
    s.table.schema.findColumn (s.colNames.getD pos []) = some (s.colIndices.getD pos 0) := by
  have hpos' : pos < s.colIndices.length := h.length_eq ▸ hpos
  rw [List.getD_eq_getElem _ _ hpos, List.getD_eq_getElem _ _ hpos']
  exact (List.forall₂_iff_get.mp h.columns).2 pos hpos' hpos

/-- No two columns of the scan have one name. -/
theorem Resolved.pos_unique (h : s.Resolved) {i j : Nat} (hi : i < s.colNames.length)
    (hj : j < s.colNames.length) (hname : s.colNames.getD i [] = s.colNames.getD j []) : i = j := by
  have hi' : i < s.colIndices.length := h.length_eq ▸ hi
  have hj' : j < s.colIndices.length := h.length_eq ▸ hj
  have hsame := h.at_ hi
  rw [hname, h.at_ hj, Option.some.injEq, List.getD_eq_getElem _ _ hi',
    List.getD_eq_getElem _ _ hj'] at hsame
  have hnodup : s.colIndices.Nodup := h.sorted.imp fun hlt => Nat.ne_of_lt hlt
  exact hnodup.getElem_inj_iff.mp hsame.symm

/-- The position of a name. -/
theorem Resolved.scanPos_eq (h : s.Resolved) (hpos : pos < s.colNames.length) :
    s.scanPos (s.colNames.getD pos []) = some pos := by
  unfold ScanInfo.scanPos
  have hmem : pos ∈ (List.range s.colNames.length).reverse :=
    List.mem_reverse.mpr (List.mem_range.mpr hpos)
  cases hfind : (List.range s.colNames.length).reverse.find? fun i =>
      s.colNames.getD i [] == s.colNames.getD pos [] with
  | none => exact absurd (List.find?_eq_none.mp hfind pos hmem) (by simp)
  | some j =>
    have hj : j < s.colNames.length :=
      List.mem_range.mp (List.mem_reverse.mp (List.mem_of_find?_eq_some hfind))
    rw [h.pos_unique hj hpos (by simpa using List.find?_some hfind)]

theorem scanPos_some (h : s.scanPos name = some pos) :
    pos < s.colNames.length ∧ s.colNames.getD pos [] = name :=
  ⟨List.mem_range.mp (List.mem_reverse.mp (List.mem_of_find?_eq_some h)),
    by simpa using List.find?_some h⟩

/-- The names that the planner looks columns up under. -/
def fullNames (s : ScanInfo) : List Bytes := s.colNames.map (ColumnScan.outputName s.alias)

/-- A name that the planner looks up among the columns of the scan: bare or with the alias, and it
    stands for the column of that name. -/
theorem column_of_resolve (ha : s.alias ≠ []) (hdot : Dotless s.alias)
    (hnames : ∀ n ∈ s.colNames, Dotless n) {q col : Bytes} (hcol : q = [] → Dotless col)
    (hres : resolve s.fullNames q col = .ok pos) :
    (q = [] ∨ q = s.alias) ∧ pos < s.colNames.length ∧ s.colNames.getD pos [] = col := by
  have hlt : pos < s.colNames.length := by simpa [fullNames] using resolve_lt hres
  have hget : s.fullNames.getD pos [] = ColumnScan.outputName s.alias (s.colNames.getD pos []) := by
    rw [List.getD_eq_getElem _ _ (by simpa [fullNames] using hlt), List.getD_eq_getElem _ _ hlt]
    simp [fullNames]
  have hname : Dotless (s.colNames.getD pos []) := by
    rw [List.getD_eq_getElem _ _ hlt]
    exact hnames _ (List.getElem_mem hlt)
  unfold resolve at hres
  split at hres
  · rename_i hq
    dsimp only at hres
    split at hres
    · rename_i i hi
      obtain rfl := Except.ok.inj hres
      obtain ⟨hi', heq, -⟩ := List.findIdx?_eq_some_iff_getElem.mp hi
      rw [beq_iff_eq, ← List.getD_eq_getElem _ [] hi', hget] at heq
      obtain ⟨rfl, rfl⟩ := (outputName_eq_iff ha hdot hname).mp heq
      exact ⟨.inr rfl, hlt, rfl⟩
    · cases hres
  · rename_i hq
    have hq : q = [] := by simpa using hq
    split at hres
    · cases hres
    · rename_i i hi
      obtain rfl := Except.ok.inj hres
      have hmem : i ∈ (List.range s.fullNames.length).filter fun i =>
          matchesBare col (s.fullNames.getD i []) := hi ▸ List.mem_singleton_self i
      have hmatch := (List.mem_filter.mp hmem).2
      rw [hget] at hmatch
      exact ⟨.inl hq, hlt, (matchesBare_outputName ha hdot hname (hcol hq)).mp hmatch⟩
    · cases hres

/-- The columns that are found have the names that were looked for. -/
private theorem names_of_columns {schema : Schema} {idxs : List Nat} {names : List Bytes}
    {cols : List Column} (hfound : List.Forall₂ (fun i n => schema.findColumn n = some i) idxs names)
    (hget : List.Forall₂ (fun i c => schema.columns[i]? = some c) idxs cols) :
    names = cols.map (·.name) := by
  induction hfound generalizing cols with
  | nil =>
    cases hget
    rfl
  | cons hi _ ih =>
    cases hget with
    | cons hc hget =>
      obtain ⟨col, hcol, rfl⟩ := findColumn_eq_some hi
      rw [hc] at hcol
      rw [List.map_cons, ← ih hget, Option.some.inj hcol]

/-- What the scan is made of. -/
theorem Resolved.scanOp_eq (h : s.Resolved) {scan : ColumnScan} (hscan : scanOp s = .ok scan) :
    scan.table = s.table ∧ scan.colIdx = s.colIndices ∧ scan.zone = none ∧
      scan.outputNames = s.fullNames ∧
      List.Forall₂ (fun i t => ∃ col, s.table.schema.columns[i]? = some col ∧ col.type = t)
        s.colIndices scan.outputTypes := by
  obtain ⟨cols, hcols, hscan⟩ := Except.bind_eq_ok.mp hscan
  obtain rfl := Except.ok.inj hscan
  have hget := (List.forall₂_of_mapM_eq_ok hcols).imp fun _ _ hc => getColumn_eq_ok.mp hc
  refine ⟨rfl, rfl, rfl, ?_, List.forall₂_map_right_iff.mpr (hget.imp fun i c hc => ⟨c, hc, rfl⟩)⟩
  rw [fullNames, names_of_columns h.columns hget, List.map_map]
  rfl

/-- The type of a column of the scan. -/
theorem Resolved.type_at (h : s.Resolved) {types : List ColumnType}
    (htypes : List.Forall₂ (fun i t => ∃ col, s.table.schema.columns[i]? = some col ∧ col.type = t)
      s.colIndices types) (hpos : pos < s.colNames.length) :
    ∃ col, s.table.schema.columns[s.colIndices.getD pos 0]? = some col ∧
      types[pos]? = some col.type := by
  have hpos' : pos < s.colIndices.length := h.length_eq ▸ hpos
  have hpos'' : pos < types.length := htypes.length_eq ▸ hpos'
  obtain ⟨col, hcol, htype⟩ := (List.forall₂_iff_get.mp htypes).2 pos hpos' hpos''
  rw [List.getD_eq_getElem _ _ hpos']
  exact ⟨col, hcol, by rw [List.getElem?_eq_getElem hpos'', htype]; rfl⟩

end ScanInfo

end Planner

end LiteOLAP
