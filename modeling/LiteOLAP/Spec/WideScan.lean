import LiteOLAP.Spec.Renaming

/-!
# Scans of all columns

Names that are looked up among some columns of the tables stand for the same columns when they are
looked up among all columns, unless a bare name then fits several of them. The columns that are
scanned are taken from a scan of all columns.

## Key results

- `Planner.resolve_qualified`, `Planner.resolve_bare`: what a name stands for
- `Planner.Narrow.of_columns`: a list of columns within a longer one
- `Planner.scanInfo_total`: a scan of columns that the table has
-/

namespace LiteOLAP

namespace Planner

open Bytes (ofAscii)

/-! ## Columns by alias and name -/

/-- The name of a column in the output of its scan. -/
def fullName (p : Bytes × Bytes) : Bytes := ColumnScan.outputName p.1 p.2

/-- The alias and the name are such that the full name has one dot. -/
def OneDot (p : Bytes × Bytes) : Prop := p.1 ≠ [] ∧ Dotless p.1 ∧ Dotless p.2

/-- A bare name that stands for the column: its own name, or the full one. -/
def FitsBare (p : Bytes × Bytes) (col : Bytes) : Prop := col = p.2 ∨ col = fullName p

theorem fullName_eq_iff {p : Bytes × Bytes} (hp : OneDot p) {q col : Bytes} :
    fullName p = q ++ ofAscii "." ++ col ↔ p = (q, col) := by
  rw [fullName, outputName_eq_iff hp.1 hp.2.1 hp.2.2, Prod.ext_iff]
  exact and_congr eq_comm eq_comm

theorem fullName_inj {p p' : Bytes × Bytes} (hp : OneDot p) (hp' : OneDot p')
    (h : fullName p = fullName p') : p = p' := by
  rw [fullName, fullName, outputName_eq hp'.1, List.append_cons] at h
  exact (fullName_eq_iff hp).mp h

/-- The full name is no name of a column. -/
theorem fullName_not_dotless {p : Bytes × Bytes} (hp : OneDot p) : ¬ Dotless (fullName p) := by
  rw [fullName, outputName_eq hp.1]
  exact fun h => h (List.mem_append_right _ List.mem_cons_self)

theorem matchesBare_fullName {p : Bytes × Bytes} (hp : OneDot p) {col : Bytes} :
    matchesBare col (fullName p) = true ↔ FitsBare p col := by
  rw [matchesBare, Bool.or_eq_true, beq_iff_eq, endsWith_iff]
  constructor
  · rintro (h | ⟨t, h⟩)
    · exact .inr h.symm
    · rw [← List.append_assoc] at h
      exact .inl (congrArg Prod.snd ((fullName_eq_iff hp).mp h.symm)).symm
  · rintro (rfl | rfl)
    · exact .inr ⟨p.1, by rw [fullName, outputName_eq hp.1]; rfl⟩
    · exact .inl rfl

section

variable {ps ps' : List (Bytes × Bytes)} {q col : Bytes} {pos : Nat}

private theorem getD_map_fullName {i : Nat} (hi : i < ps.length) :
    (ps.map fullName).getD i [] = fullName ps[i] := by
  rw [List.getD_eq_getElem _ _ (by simpa using hi), List.getElem_map]

/-- A qualified name stands for the column with that alias and name. -/
theorem resolve_qualified (hnodup : ps.Nodup) (hdots : ∀ p ∈ ps, OneDot p) (hq : q ≠ []) :
    resolve (ps.map fullName) q col = .ok pos ↔ ps[pos]? = some (q, col) := by
  have hfind : (ps.map fullName).findIdx? (· == q ++ ofAscii "." ++ col) =
      ps.findIdx? (· == (q, col)) := by
    rw [List.findIdx?_map]
    clear hnodup
    induction ps with
    | nil => rfl
    | cons p ps ih =>
      have hhead : (fullName p == q ++ ofAscii "." ++ col) = (p == (q, col)) := by
        rw [Bool.eq_iff_iff, beq_iff_eq, beq_iff_eq, fullName_eq_iff (hdots p List.mem_cons_self)]
      rw [List.findIdx?_cons, List.findIdx?_cons, ih fun p hp => hdots p (List.mem_cons_of_mem _ hp),
        Function.comp_apply, hhead]
  unfold resolve
  rw [if_pos hq]
  dsimp only
  rw [hfind]
  constructor
  · intro h
    cases hi : ps.findIdx? (· == (q, col)) with
    | none =>
      rw [hi] at h
      cases h
    | some i =>
      rw [hi] at h
      obtain rfl := Except.ok.inj h
      obtain ⟨hlt, heq, -⟩ := List.findIdx?_eq_some_iff_getElem.mp hi
      rw [List.getElem?_eq_getElem hlt, beq_iff_eq.mp heq]
  · intro h
    obtain ⟨hlt, heq⟩ := List.getElem?_eq_some_iff.mp h
    -- it is the first one, since it is the only one
    have hi : ps.findIdx? (· == (q, col)) = some pos := by
      refine List.findIdx?_eq_some_iff_getElem.mpr ⟨hlt, by simpa using heq, fun j hj => ?_⟩
      have hne : ps[j] ≠ ps[pos] := fun hsame => by
        have hidx := hnodup.getElem_inj_iff.mp hsame
        omega
      rw [heq] at hne
      simpa using hne
    rw [hi]

/-- A bare name stands for the one column that it fits. -/
theorem resolve_bare (hdots : ∀ p ∈ ps, OneDot p) :
    resolve (ps.map fullName) [] col = .ok pos ↔
      ∃ h : pos < ps.length, FitsBare ps[pos] col ∧
        ∀ i, (h : i < ps.length) → FitsBare ps[i] col → i = pos := by
  have hfits : ∀ i (hi : i < ps.length),
      matchesBare col ((ps.map fullName).getD i []) = true ↔ FitsBare ps[i] col := fun i hi => by
    rw [getD_map_fullName hi, matchesBare_fullName (hdots _ (List.getElem_mem hi))]
  have hmem : ∀ i, i ∈ ((List.range (ps.map fullName).length).filter fun i =>
      matchesBare col ((ps.map fullName).getD i [])) ↔ ∃ h : i < ps.length, FitsBare ps[i] col := by
    intro i
    rw [List.mem_filter, List.mem_range, List.length_map]
    exact ⟨fun h => ⟨h.1, (hfits i h.1).mp h.2⟩, fun ⟨hi, h⟩ => ⟨hi, (hfits i hi).mpr h⟩⟩
  have hnodup : ((List.range (ps.map fullName).length).filter fun i =>
      matchesBare col ((ps.map fullName).getD i [])).Nodup := List.nodup_range.filter _
  unfold resolve
  rw [if_neg (by simp)]
  generalize (List.range (ps.map fullName).length).filter _ = found at hmem hnodup
  constructor
  · intro h
    match found with
    | [] => cases h
    | [i] =>
      obtain rfl := Except.ok.inj h
      obtain ⟨hi, hfit⟩ := (hmem i).mp (List.mem_singleton_self i)
      exact ⟨hi, hfit, fun j hj hfit' => List.mem_singleton.mp ((hmem j).mpr ⟨hj, hfit'⟩)⟩
    | _ :: _ :: _ => cases h
  · rintro ⟨hpos, hfit, honly⟩
    have hall : ∀ i ∈ found, i = pos := fun i hi => by
      obtain ⟨hlt, hfit'⟩ := (hmem i).mp hi
      exact honly i hlt hfit'
    match found with
    | [] => exact absurd ((hmem pos).mpr ⟨hpos, hfit⟩) List.not_mem_nil
    | [i] => rw [hall i (List.mem_singleton_self i)]
    | i :: j :: _ =>
      have hij : i = j := (hall i (by simp)).trans (hall j (by simp)).symm
      rw [hij] at hnodup
      simp at hnodup

/-- At most one of the columns is meant, if the reference has no alias. -/
def Unambiguous (ps : List (Bytes × Bytes)) (ref : Bytes × Bytes) : Prop :=
  ref.1 = [] → ∀ p ∈ ps, ∀ p' ∈ ps, FitsBare p ref.2 → FitsBare p' ref.2 → p = p'

/-- Where every column of the list is in a longer one. -/
def placesIn (ps' ps : List (Bytes × Bytes)) : List Nat := ps.map fun p => ps'.idxOf p

theorem placeIn_placesIn {i : Nat} (hi : i < ps.length) :
    placeIn (placesIn ps' ps) i = ps'.idxOf ps[i] := by
  rw [placeIn, placesIn, List.getD_eq_getElem _ _ (by simpa using hi), List.getElem_map]

private theorem getElem?_idxOf {p : Bytes × Bytes} (h : p ∈ ps') : ps'[ps'.idxOf p]? = some p := by
  rw [List.getElem?_eq_getElem (List.idxOf_lt_length_of_mem h), List.getElem_idxOf]

/-- A list of columns within a longer one. -/
theorem Narrow.of_columns (typeOf : Bytes × Bytes → ColumnType) (hnodup : ps.Nodup)
    (hnodup' : ps'.Nodup) (hdots : ∀ p ∈ ps', OneDot p) (hsub : ps ⊆ ps') :
    Narrow (ps.map fullName) (ps.map typeOf) (ps'.map fullName) (ps'.map typeOf)
      (placesIn ps' ps) (Unambiguous ps') := by
  have hdots₀ : ∀ p ∈ ps, OneDot p := fun p hp => hdots p (hsub hp)
  refine ⟨by simp [placesIn], by simp, fun i hi => ?_, fun ref href pos hres => ?_⟩
  · have hi : i < ps.length := by simpa [placesIn] using hi
    rw [placeIn_placesIn hi, List.getElem?_map, getElem?_idxOf (hsub (List.getElem_mem hi)),
      List.getElem?_map, List.getElem?_eq_getElem hi]
  · by_cases hq : ref.1 = []
    · rw [hq] at hres ⊢
      obtain ⟨hpos, hfit, -⟩ := (resolve_bare hdots₀).mp hres
      have hmem : ps[pos] ∈ ps' := hsub (List.getElem_mem hpos)
      have hlt := List.idxOf_lt_length_of_mem hmem
      rw [placeIn_placesIn hpos]
      refine (resolve_bare hdots).mpr ⟨hlt, by rwa [List.getElem_idxOf], fun i hi hfit' => ?_⟩
      -- what else it fits is the same column
      have hsame := href hq _ (List.getElem_mem hi) _ hmem hfit' hfit
      rw [← hsame, List.Nodup.idxOf_getElem hnodup']
    · have hpos := (resolve_qualified hnodup hdots₀ hq).mp hres
      obtain ⟨hlt, heq⟩ := List.getElem?_eq_some_iff.mp hpos
      rw [placeIn_placesIn hlt]
      refine (resolve_qualified hnodup' hdots hq).mpr ?_
      rw [getElem?_idxOf (hsub (List.getElem_mem hlt)), heq]

/-- Values of columns, taken from the values of more columns. -/
theorem project_placesIn (hsub : ps ⊆ ps') (value : Bytes × Bytes → Value) :
    project (placesIn ps' ps) (ps'.map value) = ps.map value := by
  rw [project, placesIn, List.map_map]
  refine List.map_congr_left fun p hp => ?_
  have hlt := List.idxOf_lt_length_of_mem (hsub hp)
  rw [Function.comp_apply, List.getD_eq_getElem _ _ (by simpa using hlt), List.getElem_map,
    List.getElem_idxOf]

end

/-! ## Columns of a table -/

/-- The place of a column in its table. -/
def placeOf (schema : Schema) (name : Bytes) : Nat := (schema.findColumn name).getD 0

/-- The type of a column. -/
def typeOf (schema : Schema) (name : Bytes) : ColumnType :=
  ((schema.columns[placeOf schema name]?).map (·.type)).getD .int

/-- The value of a column in a row of the table. -/
def valueOf (schema : Schema) (r : Row) (name : Bytes) : Value :=
  r.getD (placeOf schema name) .null

/-- The columns of a scan. -/
def ScanInfo.columns (s : ScanInfo) : List (Bytes × Bytes) := s.colNames.map fun n => (s.alias, n)

namespace ScanInfo

variable {s w : ScanInfo}

theorem fullNames_eq (s : ScanInfo) : s.fullNames = s.columns.map fullName := by
  rw [fullNames, columns, List.map_map]
  rfl

/-- No column is scanned twice. -/
theorem Resolved.nodup (h : s.Resolved) : s.columns.Nodup := by
  have hnodup : s.colIndices.Nodup := h.sorted.imp fun hlt => Nat.ne_of_lt hlt
  refine List.Nodup.map (fun n n' hn => congrArg Prod.snd hn) ?_
  refine List.nodup_of_forall₂ h.columns (fun i i' name hi hi' => ?_) hnodup
  rw [hi] at hi'
  exact Option.some.inj hi'

theorem Resolved.colIndices_eq (h : s.Resolved) :
    s.colIndices = s.colNames.map (placeOf s.table.schema) := by
  have hplaces : List.Forall₂ (fun i name => i = placeOf s.table.schema name) s.colIndices s.colNames :=
    h.columns.imp fun i name hi => by rw [placeOf, hi, Option.getD_some]
  generalize s.colIndices = is, s.colNames = ns at hplaces
  induction hplaces with
  | nil => rfl
  | cons hi _ ih => rw [List.map_cons, ← ih, hi]

/-- The names and the types of what a scan reads. -/
theorem Resolved.output_eq (h : s.Resolved) {scan : ColumnScan} (hscan : scanOp s = .ok scan) :
    scan.outputNames = s.columns.map fullName ∧
      scan.outputTypes = s.columns.map fun p => typeOf s.table.schema p.2 := by
  obtain ⟨-, -, -, hnames, htypes⟩ := h.scanOp_eq hscan
  refine ⟨hnames.trans s.fullNames_eq, ?_⟩
  have htypes : List.Forall₂ (fun i t => t = ((s.table.schema.columns[i]?).map (·.type)).getD .int)
      s.colIndices scan.outputTypes := htypes.imp fun i t ⟨col, hcol, ht⟩ => by
    rw [hcol, Option.map_some, Option.getD_some, ht]
  rw [h.colIndices_eq] at htypes
  rw [ScanInfo.columns, List.map_map]
  generalize s.colNames = ns, scan.outputTypes = ts at htypes
  induction ns generalizing ts with
  | nil =>
    cases htypes
    rfl
  | cons n ns ih =>
    cases htypes with
    | cons ht htypes => rw [List.map_cons, ← ih _ htypes, ht]; rfl

theorem Resolved.project_eq (h : s.Resolved) (r : Row) :
    project s.colIndices r = s.columns.map fun p => valueOf s.table.schema r p.2 := by
  rw [project, h.colIndices_eq, ScanInfo.columns, List.map_map, List.map_map]
  rfl

/-- Two scans of a table that have the same names. -/
theorem Resolved.eq_of_names (hs : s.Resolved) (hw : w.Resolved) (htable : s.table = w.table)
    (hnames : ∀ n, n ∈ s.colNames ↔ n ∈ w.colNames) : s.colNames = w.colNames := by
  have hidx : s.colIndices = w.colIndices := by
    refine List.Pairwise.eq_of_mem_iff hs.sorted hw.sorted fun i => ?_
    rw [hs.colIndices_eq, hw.colIndices_eq, List.mem_map, List.mem_map, htable]
    exact exists_congr fun n => and_congr_left fun _ => hnames n
  have hcolumns := hs.columns
  rw [htable, hidx] at hcolumns
  have hall := hw.columns
  generalize w.colIndices = is, s.colNames = ns, w.colNames = ns' at hcolumns hall
  clear hnames hidx
  induction hall generalizing ns with
  | nil =>
    cases hcolumns
    rfl
  | cons hi _ ih =>
    cases hcolumns with
    | cons hi' hcolumns => rw [findColumn_inj hi hi', ih _ hcolumns]

end ScanInfo

theorem findColumn_isSome {schema : Schema} {name : Bytes} :
    (∃ i, schema.findColumn name = some i) ↔ ∃ col ∈ schema.columns, col.name = name := by
  rw [← Option.isSome_iff_exists, Schema.findColumn, List.findIdx?_isSome, List.any_eq_true]
  simp

/-- A scan of columns that the table has. -/
theorem scanInfo_total {needed : List (Bytes × Bytes)} {t : TableMeta × Bytes}
    (h : ∀ name, (t.2, name) ∈ needed → ∃ col ∈ t.1.schema.columns, col.name = name) :
    ∃ s scan, scanInfo needed t = .ok s ∧ scanOp s = .ok scan := by
  have hcolumn : ∀ {name i}, t.1.schema.findColumn name = some i →
      ∃ col, t.1.schema.getColumn i = .ok col := fun hi => by
    obtain ⟨col, hcol, -⟩ := findColumn_eq_some hi
    exact ⟨col, getColumn_eq_ok.mpr hcol⟩
  obtain ⟨idxs, hidxs⟩ : ∃ idxs, (neededOf needed t.2).mapM (needIndex t.1) = .ok idxs := by
    refine List.exists_mapM_eq_ok fun name hname => ?_
    obtain ⟨i, hi⟩ := findColumn_isSome.mpr (h name (mem_neededOf.mp hname))
    exact ⟨i, needIndex_eq_ok.mpr hi⟩
  have hfound : ∀ i ∈ idxs.mergeSort fun a b => decide (a ≤ b), ∃ col, t.1.schema.getColumn i = .ok col := by
    intro i hi
    obtain ⟨name, -, hname⟩ := List.exists_of_forall₂_mem (List.forall₂_of_mapM_eq_ok hidxs)
      ((List.mergeSort_perm _ _).mem_iff.mp hi)
    exact hcolumn (needIndex_eq_ok.mp hname)
  obtain ⟨cols, hcols⟩ := List.exists_mapM_eq_ok hfound
  have hinfo : scanInfo needed t =
      .ok ⟨t.1, t.2, idxs.mergeSort fun a b => decide (a ≤ b), cols.map (·.name)⟩ := by
    rw [scanInfo, hidxs, Except.ok_bind]
    dsimp only
    rw [hcols]
    rfl
  obtain ⟨scan, hscan⟩ : ∃ scan, scanOp ⟨t.1, t.2, idxs.mergeSort fun a b => decide (a ≤ b),
      cols.map (·.name)⟩ = .ok scan := by
    rw [scanOp, ColumnScan.create, hcols]
    exact ⟨_, rfl⟩
  exact ⟨_, scan, hinfo, hscan⟩

end Planner

end LiteOLAP
