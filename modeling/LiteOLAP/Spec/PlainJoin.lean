import LiteOLAP.Spec.JoinKeyCorrect
import LiteOLAP.Spec.PlainPlan

/-!
# Joins without pushdowns

The plain plan of a query on two tables looks at all pairs of their rows, with all columns. It
filters them by the join predicate, like by any other comparison, and then by the rest of the
`WHERE` clause. The hash join of the columns that are needed stands for the same rows, if the inputs
are in order and the keys are of one type.

## Key results

- `truthyRow_key`: the join predicate on a pair of rows
- `nestedLoop_eq_filter`: a join is a filtered product
- `Planner.planJoin_plain`: queries on two tables, grouped or not
-/

namespace LiteOLAP

/-! ## Pairs of rows -/

/-- All pairs of rows. -/
def crossRows (ls rs : List Row) : List Row := ls.flatMap fun l => rs.map (l ++ ·)

theorem mem_crossRows {ls rs : List Row} {r : Row} :
    r ∈ crossRows ls rs ↔ ∃ l ∈ ls, ∃ r' ∈ rs, l ++ r' = r := by
  simp only [crossRows, List.mem_flatMap, List.mem_map]

theorem crossRows_map {ls rs : List Row} {f f' g g' h : Row → Row}
    (hpair : ∀ l r, f l ++ g r = h (f' l ++ g' r)) :
    crossRows (ls.map f) (rs.map g) = (crossRows (ls.map f') (rs.map g')).map h := by
  simp only [crossRows, List.flatMap_map, List.map_flatMap, List.map_map, Function.comp_def, hpair]

/-- The predicate of a join on the columns of both sides. -/
def keyPredicate (leftKey rightKey width : Nat) (t : ColumnType) : BoundExpr :=
  .binary .eq (.column leftKey t) (.column (width + rightKey) t)

section

variable {leftKey rightKey : Nat} {t : ColumnType} {l r : Row}

/-- On keys of one type the join predicate says which pairs the join returns. -/
theorem truthyRow_key (ht : t ≠ .float) (hl : l[leftKey]? = some (keyAt leftKey l))
    (hr : r[rightKey]? = some (keyAt rightKey r)) (hlt : (keyAt leftKey l).hasType t = true)
    (hrt : (keyAt rightKey r).hasType t = true) :
    truthyRow (keyPredicate leftKey rightKey l.length t) (l ++ r) = .ok (joins leftKey rightKey l r) := by
  have hleft : (l ++ r)[leftKey]? = some (keyAt leftKey l) := by
    rw [List.getElem?_append_left (List.getElem?_eq_some_iff.mp hl).1, hl]
  have hright : (l ++ r)[l.length + rightKey]? = some (keyAt rightKey r) := by
    rw [List.getElem?_append_right (Nat.le_add_right _ _), Nat.add_sub_cancel_left, hr]
  simp only [truthyRow, keyPredicate, evalRow, hleft, hright, Except.ok_bind]
  show rowAnswer .eq (keyAt rightKey r) (keyAt leftKey l) = _
  by_cases hln : keyAt leftKey l = .null
  · simp [hln, joins, Value.isNull]
  by_cases hrn : keyAt rightKey r = .null
  · simp [hrn, joins, Value.isNull]
  -- neither is NULL
  have hv : Comparable t (keyAt leftKey l) := ⟨ht, hlt, hln⟩
  have hw : Comparable t (keyAt rightKey r) := ⟨ht, hrt, hrn⟩
  obtain ⟨c, hc, -, -⟩ := hv.compare_spec hw
  have hholds : BoundOp.eq.holds c = some (c == .eq) := by cases c <;> rfl
  rw [rowAnswer_of_compareValues hln hrn hc hholds]
  refine congrArg Except.ok ?_
  rw [Bool.eq_iff_iff, joins_eq_true_iff hln hrn, keyOf_eq_iff hln hrn, beq_iff_eq,
    ← compareValues_eq_iff_of_comparable hv hw, hc, Except.ok.injEq]

/-- A join is the product, filtered by the join predicate. -/
theorem nestedLoop_eq_filter (ht : t ≠ .float) {width : Nat} (types : List ColumnType)
    {ls rs : List Row} (hls : ∀ l ∈ ls, l.length = width ∧ l[leftKey]? = some (keyAt leftKey l) ∧
      (keyAt leftKey l).hasType t = true)
    (hrs : ∀ r ∈ rs, r[rightKey]? = some (keyAt rightKey r) ∧ (keyAt rightKey r).hasType t = true) :
    (∀ r ∈ crossRows ls rs, ∃ b, decideRow (keyPredicate leftKey rightKey width t) types r = .ok b) ∧
      nestedLoop leftKey rightKey ls rs =
        (crossRows ls rs).filter (keeps (keyPredicate leftKey rightKey width t) types) := by
  have hdecide : ∀ l ∈ ls, ∀ r ∈ rs, decideRow (keyPredicate leftKey rightKey width t) types (l ++ r) =
      .ok (joins leftKey rightKey l r) := fun l hl r hr => by
    obtain ⟨hwidth, hl, hlt⟩ := hls l hl
    obtain ⟨hr, hrt⟩ := hrs r hr
    rw [← truthyRow_key ht hl hr hlt hrt, hwidth]
    rfl
  constructor
  · intro r hr
    obtain ⟨l, hl, r', hr', rfl⟩ := mem_crossRows.mp hr
    exact ⟨_, hdecide l hl r' hr'⟩
  · rw [nestedLoop, crossRows, List.filter_flatMap, List.flatMap_def, List.flatMap_def]
    refine congrArg List.flatten (List.map_congr_left fun l hl => ?_)
    rw [List.filter_map]
    refine congrArg _ (List.filter_congr fun r hr => ?_)
    rw [Function.comp_apply, keeps, hdecide l hl r hr]

end

namespace Planner

/-! ## Two tables as one -/

/-- A scan of a table that is not there, with the given columns. -/
def viewScan (names : List Bytes) (types : List ColumnType) : ColumnScan where
  table := ⟨[], ⟨[], fun _ _ h => (by cases h), fun _ h => (by cases h)⟩, []⟩
  colIdx := List.range names.length
  outputNames := names
  outputTypes := types
  zone := none

/-- The comparison that a join predicate is. -/
def equalityOf (sides : (Bytes × Bytes) × (Bytes × Bytes)) : Expr :=
  .binary .eq (.columnRef sides.1.1 sides.1.2) (.columnRef sides.2.1 sides.2.2)

/-- The plan of a query on two tables that filters all pairs of rows, with all columns: by the join
    predicate, and then by the rest of the `WHERE` clause. -/
def plainJoin (stmt : SelectStmt) (t₀ t₁ : TableMeta × Bytes) : Except Exc Plan := do
  match findJoinPred (conjunctsOf stmt) with
  | none => throw (plannerError (Bytes.ofAscii "two-table query requires an equi-join predicate"))
  | some (at_, sides) => do
    let wide₀ ← wideScan t₀
    let wide₁ ← wideScan t₁
    let names := wide₀.outputNames ++ wide₁.outputNames
    let types := wide₀.outputTypes ++ wide₁.outputTypes
    let key ← bind names types (equalityOf sides)
    let root ← residual (.filter (.scan (viewScan names types)) key) names types
      ((conjunctsOf stmt).eraseIdx at_)
    upperPlan stmt root false names types

theorem project_range {r : Row} {n : Nat} (h : r.length = n) : project (List.range n) r = r := by
  rw [project, ← h]
  exact (List.eq_map_range r .null).symm

theorem meaning_viewScan {names : List Bytes} {types : List ColumnType} {tables : Bytes → List Row}
    (h : ∀ r ∈ tables [], r.length = names.length) :
    (Plan.scan (viewScan names types)).meaning tables = pure (tables []) := by
  rw [Plan.meaning]
  refine congrArg pure ?_
  show (tables []).map (project (List.range names.length)) = _
  rw [List.map_congr_left fun r hr => project_range (h r hr), List.map_id']

/-- The value of a column has its type. -/
theorem Scanned.value_typed {t : TableMeta × Bytes} {s : ScanInfo} {op : ColumnScan} (h : Scanned t s op) {n : Bytes} (hn : n ∈ s.colNames) {r : Row}
    (hr : rowTyped t.1.schema.types r = true) :
    (valueOf t.1.schema r n).hasType (typeOf t.1.schema n) = true := by
  obtain ⟨i, -, hi⟩ := List.exists_of_forall₂_mem h.resolved.columns hn
  rw [h.table] at hi
  obtain ⟨col, hcol, -⟩ := findColumn_eq_some hi
  rw [valueOf, typeOf, placeOf, hi, Option.getD_some, hcol]
  exact rowTyped_getD hr (by rw [Schema.types, List.getElem?_map, hcol]; rfl)

/-- What is said of the columns of two tables by their names. -/
def sideBySide {α : Type} (a : Bytes) (f g : Bytes → α) (p : Bytes × Bytes) : α :=
  if p.1 = a then f p.2 else g p.2

/-- The rows of two scans, in pairs. -/
def pairRows (tables : Bytes → List Row) (op₀ op₁ : ColumnScan) : List Row :=
  crossRows ((tables op₀.table.name).map (project op₀.colIdx))
    ((tables op₁.table.name).map (project op₁.colIdx))

section

variable {t₀ t₁ : TableMeta × Bytes} {s₀ s₁ w₀ w₁ : ScanInfo} {op₀ op₁ wide₀ wide₁ : ColumnScan}

private theorem map_sideBySide {α : Type} (h₀ : Scanned t₀ s₀ op₀) (h₁ : Scanned t₁ s₁ op₁)
    (halias : t₀.2 ≠ t₁.2) (f g : Bytes → α) :
    (s₀.columns ++ s₁.columns).map (sideBySide t₀.2 f g) =
      (s₀.columns.map fun p => f p.2) ++ s₁.columns.map fun p => g p.2 := by
  rw [List.map_append]
  refine congrArg₂ _ (List.map_congr_left fun p hp => ?_) (List.map_congr_left fun p hp => ?_)
  · rw [sideBySide, if_pos (h₀.alias_eq hp)]
  · rw [sideBySide, if_neg (by rw [h₁.alias_eq hp]; exact halias.symm)]

private theorem pair_eq (h₀ : Scanned t₀ s₀ op₀) (h₁ : Scanned t₁ s₁ op₁) (halias : t₀.2 ≠ t₁.2)
    (l r : Row) : project op₀.colIdx l ++ project op₁.colIdx r = (s₀.columns ++ s₁.columns).map
      (sideBySide t₀.2 (valueOf t₀.1.schema l) (valueOf t₁.1.schema r)) := by
  rw [map_sideBySide h₀ h₁ halias, h₀.project_eq, h₁.project_eq]

theorem length_pairRows (h₀ : Scanned t₀ s₀ op₀) (h₁ : Scanned t₁ s₁ op₁) {tables : Bytes → List Row} :
    ∀ r ∈ pairRows tables op₀ op₁, r.length = (s₀.columns ++ s₁.columns).length := by
  intro r hr
  obtain ⟨l, hl, r', hr', rfl⟩ := mem_crossRows.mp hr
  obtain ⟨l, -, rfl⟩ := List.mem_map.mp hl
  obtain ⟨r', -, rfl⟩ := List.mem_map.mp hr'
  rw [h₀.project_eq, h₁.project_eq, List.length_append, List.length_map, List.length_map,
    List.length_append]

/-- The pairs of two scans of some columns, and of all columns. -/
private theorem view_narrows (h₀ : Scanned t₀ s₀ op₀) (h₁ : Scanned t₁ s₁ op₁)
    (hw₀ : Scanned t₀ w₀ wide₀) (hw₁ : Scanned t₁ w₁ wide₁) (halias : t₀.2 ≠ t₁.2)
    (hsub : s₀.columns ++ s₁.columns ⊆ w₀.columns ++ w₁.columns) :
    Plan.Narrows (fun mid tables' => ∃ tables, mid [] = pairRows tables op₀ op₁ ∧
        tables' [] = pairRows tables wide₀ wide₁)
      (placesIn (w₀.columns ++ w₁.columns) (s₀.columns ++ s₁.columns))
      (.scan (viewScan (op₀.outputNames ++ op₁.outputNames) (op₀.outputTypes ++ op₁.outputTypes)))
      (.scan (viewScan (wide₀.outputNames ++ wide₁.outputNames)
        (wide₀.outputTypes ++ wide₁.outputTypes))) := by
  have htypes : ∀ {s₀ s₁ : ScanInfo} {op₀ op₁ : ColumnScan}, Scanned t₀ s₀ op₀ → Scanned t₁ s₁ op₁ →
      op₀.outputTypes ++ op₁.outputTypes = (s₀.columns ++ s₁.columns).map
        (sideBySide t₀.2 (typeOf t₀.1.schema) (typeOf t₁.1.schema)) := fun h₀ h₁ => by
    rw [map_sideBySide h₀ h₁ halias, h₀.types, h₁.types]
  have hrows : ∀ {s₀ s₁ : ScanInfo} {op₀ op₁ : ColumnScan}, Scanned t₀ s₀ op₀ → Scanned t₁ s₁ op₁ →
      ∀ {tables mid : Bytes → List Row}, mid [] = pairRows tables op₀ op₁ →
      (Plan.scan (viewScan (op₀.outputNames ++ op₁.outputNames)
        (op₀.outputTypes ++ op₁.outputTypes))).meaning mid = pure (pairRows tables op₀ op₁) := by
    intro s₀ s₁ op₀ op₁ h₀ h₁ tables mid hmid
    rw [← hmid]
    refine meaning_viewScan fun r hr => ?_
    rw [length_pairRows h₀ h₁ r (hmid ▸ hr), h₀.names, h₁.names]
    simp
  refine ⟨fun i hi => ?_, ?_, ?_⟩
  · have hi : i < (s₀.columns ++ s₁.columns).length := by simpa [placesIn] using hi
    have hlt := List.idxOf_lt_length_of_mem (hsub (List.getElem_mem hi))
    show (wide₀.outputTypes ++ wide₁.outputTypes)[_]? = (op₀.outputTypes ++ op₁.outputTypes)[i]?
    rw [htypes h₀ h₁, htypes hw₀ hw₁, placeIn_placesIn hi, List.getElem?_map, List.getElem?_map,
      List.getElem?_eq_getElem hlt, List.getElem?_eq_getElem hi, List.getElem_idxOf]
  · rintro mid tables' ⟨tables, hmid, htables'⟩
    refine .of_eq ?_
    rw [hrows h₀ h₁ hmid, hrows hw₀ hw₁ htables', pure_bind, pairRows, pairRows, h₀.table_eq, h₁.table_eq,
      hw₀.table_eq, hw₁.table_eq]
    refine congrArg pure (crossRows_map fun l r => ?_)
    rw [pair_eq h₀ h₁ halias, pair_eq hw₀ hw₁ halias, project_placesIn hsub]
  · rintro mid tables' ⟨tables, hmid, htables'⟩ rows hmem r hr j hj
    rw [hrows hw₀ hw₁ htables'] at hmem
    obtain rfl : rows = pairRows tables wide₀ wide₁ := hmem
    obtain ⟨p, hp, rfl⟩ := List.mem_map.mp hj
    rw [length_pairRows hw₀ hw₁ r hr]
    exact List.idxOf_lt_length_of_mem (hsub hp)

/-- The tables that are joined have rows of their types, and the right one is not too long. -/
structure JoinTables (t₀ t₁ : TableMeta × Bytes) (tables : Bytes → List Row) : Prop where
  left : ∀ r ∈ tables t₀.1.name, rowTyped t₀.1.schema.types r = true
  right : ∀ r ∈ tables t₁.1.name, rowTyped t₁.1.schema.types r = true
  short : (tables t₁.1.name).length ≤ 2 ^ 32

variable {x y : Bytes} {k₀ k₁ : Nat}

private theorem keyAt_project {t : TableMeta × Bytes} {s : ScanInfo} {op : ColumnScan}
    (h : Scanned t s op) {k : Nat} {n : Bytes} (hk : s.colNames[k]? = some n) (r : Row) :
    (project op.colIdx r)[k]? = some (valueOf t.1.schema r n) := by
  rw [h.project_eq, ScanInfo.columns, List.map_map, List.getElem?_map, hk]
  rfl

/-- A hash join is the product of its inputs, filtered by the join predicate. -/
private theorem hashJoin_same (h₀ : Scanned t₀ s₀ op₀) (h₁ : Scanned t₁ s₁ op₁)
    (hk₀ : s₀.colNames[k₀]? = some x) (hk₁ : s₁.colNames[k₁]? = some y)
    (htype : typeOf t₁.1.schema y = typeOf t₀.1.schema x) (hfloat : typeOf t₀.1.schema x ≠ .float) :
    Plan.Same (fun tables mid => JoinTables t₀ t₁ tables ∧ mid [] = pairRows tables op₀ op₁)
      (.hashJoin (.scan op₀) (.scan op₁) k₀ k₁)
      (.filter (.scan (viewScan (op₀.outputNames ++ op₁.outputNames)
        (op₀.outputTypes ++ op₁.outputTypes)))
        (keyPredicate k₀ k₁ s₀.columns.length (typeOf t₀.1.schema x))) := by
  refine ⟨rfl, rfl, ?_⟩
  rintro tables mid ⟨htables, hmid⟩
  have hkey : ∀ {t : TableMeta × Bytes} {s : ScanInfo} {op : ColumnScan} {k : Nat} {n : Bytes},
      Scanned t s op → s.colNames[k]? = some n →
      (∀ r ∈ tables t.1.name, rowTyped t.1.schema.types r = true) →
      ∀ r ∈ (tables op.table.name).map (project op.colIdx), r.length = s.columns.length ∧
        r[k]? = some (keyAt k r) ∧ (keyAt k r).hasType (typeOf t.1.schema n) = true := by
    intro t s op k n h hk htyped r hr
    obtain ⟨row, hrow, rfl⟩ := List.mem_map.mp hr
    rw [h.table_eq] at hrow
    have hget := keyAt_project h hk row
    have hvalue : keyAt k (project op.colIdx row) = valueOf t.1.schema row n := by
      rw [keyAt, List.getD_eq_getElem?_getD, hget, Option.getD_some]
    refine ⟨by rw [h.project_eq, List.length_map], by rw [hvalue, hget], ?_⟩
    rw [hvalue]
    exact h.value_typed (List.mem_of_getElem? hk) (htyped row hrow)
  have hview : (Plan.scan (viewScan (op₀.outputNames ++ op₁.outputNames)
      (op₀.outputTypes ++ op₁.outputTypes))).meaning mid = pure (pairRows tables op₀ op₁) := by
    rw [← hmid]
    refine meaning_viewScan fun r hr => ?_
    rw [length_pairRows h₀ h₁ r (hmid ▸ hr), h₀.names, h₁.names]
    simp
  obtain ⟨hdecide, hloop⟩ := nestedLoop_eq_filter hfloat (op₀.outputTypes ++ op₁.outputTypes)
    (hkey h₀ hk₀ htables.left)
    fun r hr => (hkey h₁ hk₁ htables.right r hr).2.imp_right (htype ▸ ·)
  have hshort : ((tables op₁.table.name).map (project op₁.colIdx)).length ≤ 2 ^ 32 := by
    rw [List.length_map, h₁.table_eq]
    exact htables.short
  have hjoin : (Plan.hashJoin (.scan op₀) (.scan op₁) k₀ k₁).meaning tables =
      pure (nestedLoop k₀ k₁ ((tables op₀.table.name).map (project op₀.colIdx))
        ((tables op₁.table.name).map (project op₁.colIdx))) := by
    rw [Plan.meaning, Plan.meaning, Plan.meaning, pure_bind, Outcomes.require_bind hshort, pure_bind]
  refine .of_eq ?_
  rw [hjoin, hloop, Plan.meaning, hview, pure_bind]
  exact (Outcomes.require_bind hdecide _).symm

/-! ### The join predicate -/

private theorem pairs_nodup (h₀ : Scanned t₀ s₀ op₀) (h₁ : Scanned t₁ s₁ op₁) (halias : t₀.2 ≠ t₁.2) :
    (s₀.columns ++ s₁.columns).Nodup := by
  refine List.nodup_append.mpr ⟨h₀.resolved.nodup, h₁.resolved.nodup, fun p hp p' hp' heq => ?_⟩
  rw [heq] at hp
  exact halias ((h₀.alias_eq hp).symm.trans (h₁.alias_eq hp'))

/-- The join predicate, bound on the columns of both scans. -/
private theorem bind_key (h₀ : Scanned t₀ s₀ op₀) (h₁ : Scanned t₁ s₁ op₁) (halias : t₀.2 ≠ t₁.2)
    (hdots : ∀ p ∈ s₀.columns ++ s₁.columns, OneDot p) (hk₀ : s₀.colNames[k₀]? = some x)
    (hk₁ : s₁.colNames[k₁]? = some y) (htype : typeOf t₁.1.schema y = typeOf t₀.1.schema x) :
    bind (op₀.outputNames ++ op₁.outputNames) (op₀.outputTypes ++ op₁.outputTypes)
        (equalityOf ((t₀.2, x), (t₁.2, y))) =
      .ok (keyPredicate k₀ k₁ s₀.columns.length (typeOf t₀.1.schema x)) := by
  have hnames : op₀.outputNames ++ op₁.outputNames = (s₀.columns ++ s₁.columns).map fullName := by
    rw [h₀.names, h₁.names, List.map_append]
  have hpos₀ : (s₀.columns ++ s₁.columns)[k₀]? = some (t₀.2, x) := by
    have hcol : s₀.columns[k₀]? = some (t₀.2, x) := by
      rw [ScanInfo.columns, List.getElem?_map, hk₀, h₀.named]
      rfl
    rw [List.getElem?_append_left (List.getElem?_eq_some_iff.mp hcol).1, hcol]
  have hpos₁ : (s₀.columns ++ s₁.columns)[s₀.columns.length + k₁]? = some (t₁.2, y) := by
    rw [List.getElem?_append_right (Nat.le_add_right _ _), Nat.add_sub_cancel_left, ScanInfo.columns,
      List.getElem?_map, hk₁, h₁.named]
    rfl
  have hcolumn : ∀ {q n : Bytes} {i : Nat} {t : ColumnType}, q ≠ [] →
      (s₀.columns ++ s₁.columns)[i]? = some (q, n) →
      sideBySide t₀.2 (typeOf t₀.1.schema) (typeOf t₁.1.schema) (q, n) = t →
      bindColumn (op₀.outputNames ++ op₁.outputNames) (op₀.outputTypes ++ op₁.outputTypes) q n =
        .ok (.column i t) := by
    intro q n i t hq hi ht
    have hres := (resolve_qualified (pairs_nodup h₀ h₁ halias) hdots hq).mpr hi
    have htypes := map_sideBySide h₀ h₁ halias (typeOf t₀.1.schema) (typeOf t₁.1.schema)
    rw [← h₀.types, ← h₁.types] at htypes
    rw [bindColumn, hnames, hres, Except.ok_bind, ← htypes, List.getElem?_map, hi, Option.map_some, ht]
    rfl
  have hne₀ := (hdots _ (List.mem_of_getElem? hpos₀)).1
  have hne₁ := (hdots _ (List.mem_of_getElem? hpos₁)).1
  have hleft := hcolumn hne₀ hpos₀ (if_pos rfl)
  have hright := hcolumn hne₁ hpos₁ ((if_neg halias.symm).trans htype)
  rw [equalityOf, bind, bind, hleft, Except.ok_bind, bind, hright]
  rfl

end

/-! ## The rest of the clause -/

section

variable {T : (Bytes → List Row) → (Bytes → List Row) → Prop} {fs : List Nat} {root root' p : Plan}
  {names names' : List Bytes} {types types' : List ColumnType} {refs : Bytes × Bytes → Prop}
  {cs : List Expr}

theorem residual_same (h : Plan.Same T root root') (hp : residual root names types cs = .ok p) :
    ∃ p', residual root' names types cs = .ok p' ∧ Plan.Same T p p' := by
  rcases residual_cases hp with ⟨hpred, rfl⟩ | ⟨pred, hpred, rfl⟩
  · exact ⟨root', by rw [residual, hpred]; rfl, h⟩
  · exact ⟨_, by rw [residual, hpred]; rfl, h.filter pred⟩

/-- Conjuncts that are bound among the columns that are needed are bound among all columns. -/
private theorem bindConjuncts_narrow (h : Narrow names types names' types' fs refs)
    (hrefs : ∀ c ∈ cs, ∀ ref ∈ lookups c, refs ref) {chain pred : Option BoundExpr}
    (hchain : ∀ b, chain = some b → ColumnsBelow fs.length b)
    (hp : bindConjuncts names types chain cs = .ok pred) :
    bindConjuncts names' types' (chain.map (BoundExpr.rename (placeIn fs))) cs =
        .ok (pred.map (BoundExpr.rename (placeIn fs))) ∧
      ∀ b, pred = some b → ColumnsBelow fs.length b := by
  induction cs generalizing chain with
  | nil =>
    obtain rfl := Except.ok.inj hp
    exact ⟨rfl, hchain⟩
  | cons c cs ih =>
    simp only [bindConjuncts, List.foldlM_cons] at hp
    obtain ⟨step, hstep, hp⟩ := Except.bind_eq_ok.mp hp
    obtain ⟨b, hb, hstep⟩ := Except.bind_eq_ok.mp hstep
    obtain rfl := Except.ok.inj hstep
    have hb' := h.bind (hrefs c List.mem_cons_self) hb
    have hrest : ∀ c ∈ cs, ∀ ref ∈ lookups c, refs ref := fun c hc =>
      hrefs c (List.mem_cons_of_mem _ hc)
    simp only [bindConjuncts, List.foldlM_cons, hb', Except.ok_bind]
    cases chain with
    | none =>
      exact ih hrest (fun d hd => Option.some.inj hd ▸ h.below hb) hp
    | some chain =>
      refine ih hrest (fun d hd => ?_) hp
      obtain rfl := Option.some.inj hd
      exact ⟨hchain chain rfl, h.below hb⟩

/-- A residual filter on the columns that are needed, and on all columns. -/
theorem residual_columns (h : Narrow names types names' types' fs refs)
    (hrefs : ∀ c ∈ cs, ∀ ref ∈ lookups c, refs ref) (hroot : Plan.Narrows T fs root root')
    (hp : residual root names types cs = .ok p) :
    ∃ p', residual root' names' types' cs = .ok p' ∧ Plan.Narrows T fs p p' := by
  rcases residual_cases hp with ⟨hpred, rfl⟩ | ⟨pred, hpred, rfl⟩
  · obtain ⟨hpred', -⟩ := bindConjuncts_narrow h hrefs (fun b hb => by cases hb) hpred
    rw [Option.map_none] at hpred'
    exact ⟨root', by rw [residual, hpred']; rfl, hroot⟩
  · obtain ⟨hpred', hbelow⟩ := bindConjuncts_narrow h hrefs (fun b hb => by cases hb) hpred
    rw [Option.map_none, Option.map_some] at hpred'
    exact ⟨_, by rw [residual, hpred']; rfl, hroot.filter (hbelow pred rfl)⟩

end

/-! ## What has been checked of references -/

/-- A name that no parenthesis is in. No text of an aggregate call is like that. -/
def Parenless (name : Bytes) : Prop := (40 : UInt8) ∉ name

instance (name : Bytes) : Decidable (Parenless name) := inferInstanceAs (Decidable (¬ _))

theorem not_parenless_aggName (kind : AggKind) (argument : Option Expr) :
    ¬ Parenless (aggName kind argument) := by
  intro h
  refine h ?_
  unfold aggName
  cases kind with
  | countStar => exact (by decide : (40 : UInt8) ∈ Bytes.ofAscii "COUNT(*)")
  | count | sum | avg | min | max =>
    exact List.mem_append_left _ (List.mem_append_left _ (by decide))

/-- `bind` looks up what `WalkRefs` finds, and the texts of aggregate calls. -/
theorem mem_lookups : ∀ {e : Expr} {ref : Bytes × Bytes}, ref ∈ lookups e →
    ref ∈ walkRefs e ∨ ∃ kind argument, ref = ([], aggName kind argument)
  | .columnRef _ _, _, h => .inl h
  | .literal _, _, h => by cases h
  | .not child, _, h => mem_lookups (e := child) h
  | .aggregate kind argument, _, h => .inr ⟨kind, argument, List.mem_singleton.mp h⟩
  | .inList (.columnRef _ _) _, _, h => .inl h
  | .inList (.literal _) _, _, h | .inList (.binary _ _ _) _, _, h | .inList (.not _) _, _, h
  | .inList (.inList _ _) _, _, h | .inList (.aggregate _ _) _, _, h => by cases h
  | .binary _ l r, _, h => by
    rcases List.mem_append.mp h with h | h
    · exact (mem_lookups h).imp_left (List.mem_append_left _)
    · exact (mem_lookups h).imp_left (List.mem_append_right _)

/-- The references in an argument are references of the query. -/
theorem walkRefs_collect : ∀ {e : Expr} {kind : AggKind} {a : Expr}, (kind, some a) ∈ collect e →
    walkRefs a ⊆ walkRefs e
  | .columnRef _ _, _, _, h => by cases h
  | .literal _, _, _, h => by cases h
  | .not child, _, _, h => walkRefs_collect (e := child) h
  | .aggregate _ _, _, _, h => by
    obtain ⟨-, rfl⟩ := Prod.mk.inj (List.mem_singleton.mp h)
    exact fun ref href => href
  | .inList _ _, _, _, h => by cases h
  | .binary _ l r, _, _, h => by
    rcases List.mem_append.mp h with h | h
    · exact fun ref href => List.mem_append_left _ (walkRefs_collect h href)
    · exact fun ref href => List.mem_append_right _ (walkRefs_collect h href)

theorem lookups_flatten {e c : Expr} (hc : c ∈ flatten e) : lookups c ⊆ lookups e := by
  induction e using flatten.induct with
  | case1 l r ihl ihr =>
    rw [flatten] at hc
    rcases List.mem_append.mp hc with hc | hc
    · exact fun ref href => List.mem_append_left _ (ihl hc href)
    · exact fun ref href => List.mem_append_right _ (ihr hc href)
  | case2 e hne =>
    rw [flatten] at hc
    · rw [List.mem_singleton.mp hc]
      exact fun ref href => href
    · exact hne

/-- A bare reference belongs to one of the tables. -/
def Owned (scans : List (TableMeta × Bytes)) (ref : Bytes × Bytes) : Prop :=
  ref.1 = [] → ∃ a, owningAlias scans ref.2 = .ok a

theorem addRefs_owned {scans : List (TableMeta × Bytes)} {refs needed needed' : List (Bytes × Bytes)}
    (h : addRefs scans refs needed = .ok needed') : ∀ ref ∈ refs, Owned scans ref := by
  unfold addRefs at h
  induction refs generalizing needed with
  | nil => exact fun ref href => by cases href
  | cons ref refs ih =>
    rw [List.foldlM_cons] at h
    obtain ⟨needed₁, h₁, h⟩ := Except.bind_eq_ok.mp h
    obtain ⟨a, ha, -⟩ := addRef_cases h₁
    intro ref' href'
    rcases List.mem_cons.mp href' with rfl | href'
    · exact fun hbare => ⟨a, by rwa [if_pos hbare] at ha⟩
    · exact ih h ref' href'

/-- The references of a query belong to its tables; those of `*` need not be looked up. -/
theorem neededColumns_owned {scans : List (TableMeta × Bytes)} {stmt : SelectStmt}
    {needed : List (Bytes × Bytes)} (h : neededColumns scans stmt = .ok needed) :
    (stmt.selectStar = false → ∀ ref ∈ stmt.items.flatMap fun item => walkRefs item.expr,
      Owned scans ref) ∧
      (∀ ref ∈ clauseRefs stmt.where, Owned scans ref) ∧
      (∀ ref ∈ clauseRefs stmt.having, Owned scans ref) ∧ ∀ ref ∈ stmt.groupBy, Owned scans ref := by
  unfold neededColumns at h
  split at h
  · rename_i hstar
    obtain ⟨needed₁, -, h⟩ := Except.bind_eq_ok.mp h
    obtain ⟨needed₂, h₂, h⟩ := Except.bind_eq_ok.mp h
    obtain ⟨needed₃, h₃, h⟩ := Except.bind_eq_ok.mp h
    exact ⟨fun hall => (by rw [hstar] at hall; cases hall), addRefs_owned h₂, addRefs_owned h₃,
      addRefs_owned h⟩
  · rename_i hstar
    obtain ⟨needed₁, h₁, h⟩ := Except.bind_eq_ok.mp h
    obtain ⟨needed₂, h₂, h⟩ := Except.bind_eq_ok.mp h
    obtain ⟨needed₃, h₃, h⟩ := Except.bind_eq_ok.mp h
    rw [selectRefs, if_neg hstar] at h₁
    exact ⟨fun _ => addRefs_owned h₁, addRefs_owned h₂, addRefs_owned h₃, addRefs_owned h⟩

/-! ### Two tables -/

/-- Both tables have a column of the name. -/
def InBoth (t₀ t₁ : TableMeta × Bytes) (col : Bytes) : Prop :=
  (∃ c ∈ t₀.1.schema.columns, c.name = col) ∧ ∃ c ∈ t₁.1.schema.columns, c.name = col

/-- A column that belongs to one table. -/
theorem owningAlias_unique {t₀ t₁ : TableMeta × Bytes} (h₀ : t₀.2 ≠ []) {col a : Bytes}
    (h : owningAlias [t₀, t₁] col = .ok a) : ¬ InBoth t₀ t₁ col := by
  rintro ⟨hc₀, hc₁⟩
  obtain ⟨i, hi⟩ := findColumn_isSome.mpr hc₀
  obtain ⟨j, hj⟩ := findColumn_isSome.mpr hc₁
  unfold owningAlias at h
  simp [List.foldlM_cons, hi, hj, h₀] at h

section

variable {t₀ t₁ : TableMeta × Bytes} {ps : List (Bytes × Bytes)}

/-- A name that not both tables have is not ambiguous. -/
theorem unambiguous_of_not_inBoth (hps : ∀ p ∈ ps, p ∈ allColumns t₀ ∨ p ∈ allColumns t₁)
    (hdots : ∀ p ∈ ps, OneDot p) {q col : Bytes} (h : ¬ InBoth t₀ t₁ col) : Unambiguous ps (q, col) := by
  have hname : ∀ {t : TableMeta × Bytes} {p : Bytes × Bytes}, p ∈ allColumns t → p.1 = t.2 ∧
      ∃ c ∈ t.1.schema.columns, c.name = p.2 := fun hp => by
    obtain ⟨c, hc, rfl⟩ := List.mem_map.mp hp
    exact ⟨rfl, c, hc, rfl⟩
  have hdotless : ∀ p ∈ ps, ∀ p' ∈ ps, p.2 ≠ fullName p' := fun p hp p' hp' heq =>
    fullName_not_dotless (hdots p' hp') (heq ▸ (hdots p hp).2.2)
  rintro - p hp p' hp' (hfit | hfit) (hfit' | hfit')
  · -- the columns are of one table
    have hsame : p.2 = p'.2 := hfit.symm.trans hfit'
    refine Prod.ext ?_ hsame
    have hfit : p.2 = col := hfit.symm
    rcases hps p hp with hmem | hmem <;> rcases hps p' hp' with hmem' | hmem'
    · exact (hname hmem).1.trans (hname hmem').1.symm
    · exact absurd ⟨hfit ▸ (hname hmem).2, hfit ▸ hsame ▸ (hname hmem').2⟩ h
    · exact absurd ⟨hfit ▸ hsame ▸ (hname hmem').2, hfit ▸ (hname hmem).2⟩ h
    · exact (hname hmem).1.trans (hname hmem').1.symm
  · exact absurd (hfit.symm.trans hfit') (hdotless p hp p' hp')
  · exact absurd (hfit'.symm.trans hfit) (hdotless p' hp' p hp)
  · exact fullName_inj (hdots p hp) (hdots p' hp') (hfit.symm.trans hfit')

theorem unambiguous_of_owned (hps : ∀ p ∈ ps, p ∈ allColumns t₀ ∨ p ∈ allColumns t₁)
    (hdots : ∀ p ∈ ps, OneDot p) (h₀ : t₀.2 ≠ []) {ref : Bytes × Bytes} (h : Owned [t₀, t₁] ref) :
    Unambiguous ps ref := by
  intro hbare
  obtain ⟨a, ha⟩ := h hbare
  exact unambiguous_of_not_inBoth hps hdots (owningAlias_unique h₀ ha) hbare

/-- The text of an aggregate call is no name of a column. -/
theorem unambiguous_aggName (hdots : ∀ p ∈ ps, OneDot p)
    (hparens : ∀ p ∈ ps, Parenless p.1 ∧ Parenless p.2) (kind : AggKind) (argument : Option Expr) :
    Unambiguous ps ([], aggName kind argument) := by
  rintro - p hp - - hfit -
  refine absurd ?_ (not_parenless_aggName kind argument)
  rcases hfit with hfit | hfit
  · have hfit : aggName kind argument = p.2 := hfit
    exact hfit ▸ (hparens p hp).2
  · have hfit : aggName kind argument = fullName p := hfit
    rw [hfit, fullName, outputName_eq (hdots p hp).1]
    intro hmem
    rcases List.mem_append.mp hmem with hmem | hmem
    · exact (hparens p hp).1 hmem
    · rcases List.mem_cons.mp hmem with hmem | hmem
      · exact absurd hmem (by decide)
      · exact (hparens p hp).2 hmem

end

/-! ## The whole -/

/-- The query is a join in the order of its tables: the first equality of two columns in the `WHERE`
    clause is written as a column of the first table and one of the second, of one type that is not
    `FLOAT`. A sort key that is no output column is not in both tables. -/
structure JoinsInOrder (stmt : SelectStmt) (t₀ t₁ : TableMeta × Bytes) : Prop where
  apart : t₀.2 ≠ t₁.2
  keys : ∃ at_ x y, findJoinPred (conjunctsOf stmt) = some (at_, ((t₀.2, x), (t₁.2, y))) ∧
    typeOf t₁.1.schema y = typeOf t₀.1.schema x ∧ typeOf t₀.1.schema x ≠ .float
  order : ∀ ob, stmt.orderBy = some ob → aggregated stmt = false → stmt.selectStar = false →
    (∀ item ∈ stmt.items, outputNameOf item ≠ some ob.outputName) → ¬ InBoth t₀ t₁ ob.outputName

/-- The names of a table are names of identifiers, without parentheses. -/
def WordTable (t : TableMeta × Bytes) : Prop :=
  NamedTable t ∧ Parenless t.2 ∧ ∀ col ∈ t.1.schema.columns, Parenless col.name

/-- The table that is not there has the pairs of rows of the two tables. -/
structure ProductOf (t₀ t₁ : TableMeta × Bytes) (tables tables' : Bytes → List Row) : Prop where
  join : JoinTables t₀ t₁ tables
  view : ∀ wide₀ wide₁, wideScan t₀ = .ok wide₀ → wideScan t₁ = .ok wide₁ →
    tables' [] = pairRows tables wide₀ wide₁

/-- The references of a query are not ambiguous among all columns of its tables. -/
private theorem mentions_join {stmt : SelectStmt} {t₀ t₁ : TableMeta × Bytes}
    {ps needed : List (Bytes × Bytes)} (hjoin : JoinsInOrder stmt t₀ t₁)
    (hps : ∀ p ∈ ps, p ∈ allColumns t₀ ∨ p ∈ allColumns t₁) (hdots : ∀ p ∈ ps, OneDot p)
    (hparens : ∀ p ∈ ps, Parenless p.1 ∧ Parenless p.2) (h₀ : t₀.2 ≠ [])
    (hneeded : neededColumns [t₀, t₁] stmt = .ok needed) :
    Mentions stmt (fun ref => stmt.selectStar = true ∨ Unambiguous ps ref) ∧
      ∀ e, stmt.where = some e → ∀ ref ∈ lookups e, Unambiguous ps ref := by
  obtain ⟨hitems, hwhere, hhaving, hgroup⟩ := neededColumns_owned hneeded
  have howned : ∀ {ref}, Owned [t₀, t₁] ref → Unambiguous ps ref := fun h =>
    unambiguous_of_owned hps hdots h₀ h
  have hlookups : ∀ {e : Expr}, (∀ ref ∈ walkRefs e, Owned [t₀, t₁] ref) →
      ∀ ref ∈ lookups e, Unambiguous ps ref := by
    intro e he ref href
    rcases mem_lookups href with href | ⟨kind, argument, rfl⟩
    · exact howned (he ref href)
    · exact unambiguous_aggName hdots hparens kind argument
  have hitem : stmt.selectStar = false → ∀ item ∈ stmt.items, ∀ ref ∈ walkRefs item.expr,
      Owned [t₀, t₁] ref := fun hstar item hmem ref href =>
    hitems hstar ref (List.mem_flatMap_of_mem hmem href)
  have hclause : ∀ {clause : Option Expr}, (∀ ref ∈ clauseRefs clause, Owned [t₀, t₁] ref) →
      ∀ e, clause = some e → ∀ ref ∈ walkRefs e, Owned [t₀, t₁] ref := by
    rintro clause hall e rfl
    exact hall
  refine ⟨⟨fun item hmem ref href => ?_, fun ref href => .inr (howned (hgroup ref href)),
    fun call hcall e he ref href => ?_, fun ob hob hagg hstar hnone => .inr ?_⟩, fun e he =>
      hlookups (hclause hwhere e he)⟩
  · cases hstar : stmt.selectStar with
    | true => exact .inl rfl
    | false => exact .inr (hlookups (hitem hstar item hmem) ref href)
  · cases hstar : stmt.selectStar with
    | true => exact .inl rfl
    | false =>
      refine .inr (hlookups (fun ref href => ?_) ref href)
      obtain ⟨kind, argument⟩ := call
      obtain rfl : argument = some e := he
      -- the call is in the select list or in `HAVING`
      rcases List.mem_append.mp hcall with hcall | hcall
      · obtain ⟨item, hmem, hcall⟩ := List.mem_flatMap.mp hcall
        exact hitem hstar item hmem ref (walkRefs_collect hcall href)
      · cases hh : stmt.having with
        | none =>
          rw [hh] at hcall
          cases hcall
        | some having =>
          rw [hh] at hcall
          exact hclause hhaving having hh ref (walkRefs_collect hcall href)
  · exact unambiguous_of_not_inBoth hps hdots (hjoin.order ob hob hagg hstar hnone)

/-- The columns that are needed of two tables, among all their columns. -/
private theorem narrow_join (stmt : SelectStmt) {t₀ t₁ : TableMeta × Bytes} {s₀ s₁ w₀ w₁ : ScanInfo}
    {op₀ op₁ wide₀ wide₁ : ColumnScan} (h₀ : Scanned t₀ s₀ op₀) (h₁ : Scanned t₁ s₁ op₁)
    (hw₀ : Scanned t₀ w₀ wide₀) (hw₁ : Scanned t₁ w₁ wide₁) (halias : t₀.2 ≠ t₁.2)
    (hsub : s₀.columns ++ s₁.columns ⊆ w₀.columns ++ w₁.columns)
    (hdots : ∀ p ∈ w₀.columns ++ w₁.columns, OneDot p)
    (hstar : stmt.selectStar = true → s₀.columns ++ s₁.columns = w₀.columns ++ w₁.columns) :
    Narrow (op₀.outputNames ++ op₁.outputNames) (op₀.outputTypes ++ op₁.outputTypes)
      (wide₀.outputNames ++ wide₁.outputNames) (wide₀.outputTypes ++ wide₁.outputTypes)
      (placesIn (w₀.columns ++ w₁.columns) (s₀.columns ++ s₁.columns))
      fun ref => stmt.selectStar = true ∨ Unambiguous (w₀.columns ++ w₁.columns) ref := by
  have hnodup := pairs_nodup hw₀ hw₁ halias
  have hnarrow := Narrow.of_columns (sideBySide t₀.2 (typeOf t₀.1.schema) (typeOf t₁.1.schema))
    (pairs_nodup h₀ h₁ halias) hnodup hdots hsub
  rw [map_sideBySide h₀ h₁ halias, map_sideBySide hw₀ hw₁ halias, ← h₀.types, ← h₁.types, ← hw₀.types,
    ← hw₁.types, List.map_append, List.map_append, ← h₀.names, ← h₁.names, ← hw₀.names,
    ← hw₁.names] at hnarrow
  refine ⟨hnarrow.length, hnarrow.typesLength, hnarrow.types, fun ref href i hres => ?_⟩
  rcases href with hall | href
  · -- the two lists are one
    have hcolumns := hstar hall
    have hnames : op₀.outputNames ++ op₁.outputNames = wide₀.outputNames ++ wide₁.outputNames := by
      rw [h₀.names, h₁.names, hw₀.names, hw₁.names, ← List.map_append, ← List.map_append, hcolumns]
    have hlt : i < (w₀.columns ++ w₁.columns).length := by
      have hlt := resolve_lt hres
      rw [hnames, hw₀.names, hw₁.names, ← List.map_append, List.length_map] at hlt
      exact hlt
    rw [← hnames, hres, hcolumns, placesIn_self hnodup, placeIn,
      List.getD_eq_getElem _ _ (by simpa using hlt), List.getElem_range]
  · exact hnarrow.resolves ref href i hres

/-- The plan of a query on two tables means what its plain plan means: it has the same columns, and
    wherever all pairs of rows can be filtered it has the same rows. -/
theorem planJoin_plain {stmt : SelectStmt} {needed : List (Bytes × Bytes)} {t₀ t₁ : TableMeta × Bytes}
    {p : Plan} (hjoin : JoinsInOrder stmt t₀ t₁) (ht₀ : WordTable t₀) (ht₁ : WordTable t₁)
    (hneeded : neededColumns [t₀, t₁] stmt = .ok needed)
    (h : planJoin stmt [t₀, t₁] (addOrderColumn [t₀, t₁] stmt needed) t₀ t₁ = .ok p) :
    ∃ p', plainJoin stmt t₀ t₁ = .ok p' ∧ Plan.Same (ProductOf t₀ t₁) p p' := by
  obtain ⟨at_, x, y, hpred, htype, hfloat⟩ := hjoin.keys
  obtain ⟨at', sides, needed₀, needed₁, needed₂, s₀, s₁, op₀, op₁, join, root, hpred', hadd, hneed₀,
    hinfo₀, hneed₁, hinfo₁, hscan₀, hscan₁, hkeys, hroot, hupper⟩ := planJoin_cases h
  rw [hpred] at hpred'
  obtain ⟨rfl, rfl⟩ := Prod.mk.inj (Option.some.inj hpred')
  obtain ⟨htable₀, halias₀, hres₀, hnames₀⟩ := scanInfo_resolved hinfo₀
  obtain ⟨htable₁, halias₁, hres₁, hnames₁⟩ := scanInfo_resolved hinfo₁
  have h₀ : Scanned t₀ s₀ op₀ := ⟨htable₀, halias₀, hres₀, hscan₀⟩
  have h₁ : Scanned t₁ s₁ op₁ := ⟨htable₁, halias₁, hres₁, hscan₁⟩
  obtain ⟨w₀, wide₀, hrun₀, hw₀, hall₀⟩ := wideScan_total t₀
  obtain ⟨w₁, wide₁, hrun₁, hw₁, hall₁⟩ := wideScan_total t₁
  -- the columns
  have hps : ∀ p ∈ w₀.columns ++ w₁.columns, p ∈ allColumns t₀ ∨ p ∈ allColumns t₁ := fun p hp =>
    (List.mem_append.mp hp).imp hw₀.mem_all hw₁.mem_all
  have hdots : ∀ p ∈ w₀.columns ++ w₁.columns, OneDot p := fun p hp =>
    (hps p hp).elim (oneDot_of_named ht₀.1 p) (oneDot_of_named ht₁.1 p)
  have hwords : ∀ {t : TableMeta × Bytes}, WordTable t → ∀ p ∈ allColumns t,
      Parenless p.1 ∧ Parenless p.2 := fun ht p hp => by
    obtain ⟨c, hc, rfl⟩ := List.mem_map.mp hp
    exact ⟨ht.2.1, ht.2.2 c hc⟩
  have hparens : ∀ p ∈ w₀.columns ++ w₁.columns, Parenless p.1 ∧ Parenless p.2 := fun p hp =>
    (hps p hp).elim (hwords ht₀ p) (hwords ht₁ p)
  have hsub : s₀.columns ++ s₁.columns ⊆ w₀.columns ++ w₁.columns := fun p hp =>
    List.mem_append.mpr ((List.mem_append.mp hp).imp (fun h => h₀.subset hw₀ hall₀ h)
      fun h => h₁.subset hw₁ hall₁ h)
  have hstar : stmt.selectStar = true → s₀.columns ++ s₁.columns = w₀.columns ++ w₁.columns := by
    intro hstar
    have hmem : ∀ {t}, t ∈ [t₀, t₁] → allColumns t ⊆ needed₀ := fun ht =>
      List.Subset.trans (allColumns_subset_needed hstar hneeded ht) (addRefs_subset hadd)
    rw [h₀.columns_eq hw₀ hall₀ fun n hn =>
        (hnames₀ n).mpr (needFirst_subset hneed₀ (hmem (by simp) hn)),
      h₁.columns_eq hw₁ hall₁ fun n hn => (hnames₁ n).mpr
        (needFirst_subset hneed₁ (needFirst_subset hneed₀ (hmem (by simp) hn)))]
  have hnarrow := narrow_join stmt h₀ h₁ hw₀ hw₁ hjoin.apart hsub hdots hstar
  obtain ⟨hrefs, hwhere⟩ := mentions_join hjoin hps hdots hparens ht₀.1.1.1 hneeded
  -- the join
  obtain ⟨k₀, k₁, hcases⟩ := joinPlan_keys hkeys
  have hswap : joinSwaps ((t₀.2, x), (t₁.2, y)) s₀.alias s₁.alias = false := by
    have hne : (t₀.2 == t₁.2) = false := by simpa using hjoin.apart
    have hne' : (t₁.2 == t₀.2) = false := by simpa using hjoin.apart.symm
    rw [joinSwaps, halias₀, halias₁]
    dsimp only
    rw [hne, hne', Bool.or_self]
  have hsides : sidesOf ((t₀.2, x), (t₁.2, y)) s₀.alias = ((t₀.2, x), (t₁.2, y)) := by
    rw [sidesOf, halias₀, if_pos (by simp)]
  rcases hcases with ⟨-, hk₀, hk₁, rfl⟩ | ⟨hswap', -⟩
  swap
  · rw [hswap] at hswap'
    cases hswap'
  rw [hsides] at hk₀ hk₁
  have hget : ∀ {s : ScanInfo} {n : Bytes} {k : Nat}, s.scanPos n = some k → s.colNames[k]? = some n := by
    intro s n k hk
    obtain ⟨hlt, heq⟩ := ScanInfo.scanPos_some hk
    rw [List.getElem?_eq_getElem hlt, ← heq, List.getD_eq_getElem _ _ hlt]
  have hkey := bind_key h₀ h₁ hjoin.apart (fun p hp => hdots p (hsub hp)) (hget hk₀) (hget hk₁) htype
  obtain ⟨mid, hmid, hsame⟩ := residual_same
    (hashJoin_same h₀ h₁ (hget hk₀) (hget hk₁) htype hfloat) hroot
  -- all columns of the pairs
  have hqualified : ∀ ref ∈ lookups (equalityOf ((t₀.2, x), (t₁.2, y))),
      stmt.selectStar = true ∨ Unambiguous (w₀.columns ++ w₁.columns) ref := by
    intro ref href
    refine .inr fun hbare => ?_
    rcases List.mem_append.mp href with href | href
    · obtain rfl := List.mem_singleton.mp href
      exact absurd hbare ht₀.1.1.1
    · obtain rfl := List.mem_singleton.mp href
      exact absurd hbare ht₁.1.1.1
  have hkey' := hnarrow.bind hqualified hkey
  have hrest : ∀ c ∈ (conjunctsOf stmt).eraseIdx at_, ∀ ref ∈ lookups c,
      stmt.selectStar = true ∨ Unambiguous (w₀.columns ++ w₁.columns) ref := by
    intro c hc ref href
    have hc := List.mem_of_mem_eraseIdx hc
    cases he : stmt.where with
    | none =>
      rw [conjunctsOf, he] at hc
      cases hc
    | some e =>
      rw [conjunctsOf, he] at hc
      exact .inr (hwhere e he ref (lookups_flatten hc href))
  obtain ⟨root', hroot', hnarrows⟩ := residual_columns hnarrow hrest
    ((view_narrows h₀ h₁ hw₀ hw₁ hjoin.apart hsub).filter (hnarrow.below hkey)) hmid
  have hpairs : Plan.Narrows (ProductOf t₀ t₁)
      (placesIn (w₀.columns ++ w₁.columns) (s₀.columns ++ s₁.columns)) root root' :=
    hnarrows.of_same hsame fun tables tables' ht => ⟨fun _ => pairRows tables op₀ op₁, ⟨ht.join, rfl⟩,
      tables, rfl, ht.view wide₀ wide₁ hrun₀ hrun₁⟩
  obtain ⟨p', hp', hfinal⟩ := upperPlan_narrow hnarrow hrefs hpairs (fun hall => by
    rw [h₀.names, h₁.names, hw₀.names, hw₁.names, ← List.map_append, ← List.map_append, hstar hall,
      List.length_map]
    exact ⟨rfl, placesIn_self (pairs_nodup hw₀ hw₁ hjoin.apart)⟩) hupper
  refine ⟨p', ?_, hfinal⟩
  rw [plainJoin, hpred]
  dsimp only
  rw [hrun₀, Except.ok_bind, hrun₁, Except.ok_bind, hkey', Except.ok_bind, hroot', Except.ok_bind, hp']

end Planner

end LiteOLAP
