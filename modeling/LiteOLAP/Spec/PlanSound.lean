import LiteOLAP.Spec.ZonePushdown

/-!
# Planned queries are sound

The planner binds names to positions in the list of columns that it believes its operators have.
For a query on one table it is right. For a query on two tables it is right as long as the inputs
of the join are in the order of the `FROM` clause; where they have been swapped, a position still
is in range, but its type may be that of another column, which only an aggregation looks at.

## Key results

- `Planner.upperPlan_sound`: the operators above the scans
- `Planner.planSelect_sound`: every plan is sound, unless it groups the rows of a swapped join
-/

namespace LiteOLAP

namespace Planner

variable {stmt : SelectStmt} {root p : Plan} {names : List Bytes} {types : List ColumnType}
  {single : Bool}

/-! ## Above the scans -/

@[simp] theorem length_projection_outputTypes (types : List ColumnType) (sources : List Nat) :
    (Projection.outputTypes types sources).length = sources.length := by
  simp [Projection.outputTypes]

private theorem aggItem_lt {outNames : List Bytes} {item : SelectItem} {g : Nat × Bytes}
    (h : aggItem outNames item = .ok g) : g.1 < outNames.length := by
  unfold aggItem at h
  split at h
  · obtain ⟨idx, hidx, h⟩ := Except.bind_eq_ok.mp h
    rw [← Except.ok.inj h]
    exact resolve_lt hidx
  · obtain ⟨idx, hidx, h⟩ := Except.bind_eq_ok.mp h
    rw [← Except.ok.inj h]
    exact resolve_lt hidx
  · cases h

private theorem namedItem_lt {outNames : List Bytes} {item : SelectItem} {g : Nat × Bytes}
    (h : namedItem outNames item = .ok g) : g.1 < outNames.length := by
  obtain ⟨⟨idx, name⟩, hidx, h⟩ := Except.bind_eq_ok.mp h
  have hlt := aggItem_lt hidx
  rwa [← Except.ok.inj h]

/-- The items of a select list are among the columns. -/
theorem projectionItems_lt {items : List (Nat × Bytes)}
    (h : projectionItems stmt single names = .ok items) :
    ∀ i ∈ items.map Prod.fst, i < names.length := by
  intro i hi
  obtain ⟨g, hg, rfl⟩ := List.mem_map.mp hi
  unfold projectionItems at h
  split at h
  · rw [← Except.ok.inj h] at hg
    obtain ⟨j, hj, rfl⟩ := List.mem_map.mp hg
    exact List.mem_range.mp hj
  · obtain ⟨item, -, hitem⟩ := List.exists_of_forall₂_mem (List.forall₂_of_mapM_eq_ok h) hg
    split at hitem
    · obtain ⟨idx, hidx, hitem⟩ := Except.bind_eq_ok.mp hitem
      rw [← Except.ok.inj hitem]
      exact resolve_lt hidx
    · cases hitem

theorem lastIndexOf_lt {name : Bytes} {i : Nat} (h : lastIndexOf names name = some i) :
    i < names.length :=
  List.mem_range.mp (List.mem_reverse.mp (List.mem_of_find?_eq_some h))

/-- The group columns have the types that the planner gives them. -/
theorem groupColumns_types {groups : List (Nat × Bytes × ColumnType)}
    (hlen : names.length = types.length) (h : groupColumns names types stmt = .ok groups) :
    List.Forall₂ (fun gi t => types[gi]? = some t) (groups.map Prod.fst)
      (groups.map fun g => g.2.2) := by
  rw [List.forall₂_map_left_iff, List.forall₂_map_right_iff, List.forall₂_same]
  intro g hg
  obtain ⟨ref, -, href⟩ := List.exists_of_forall₂_mem (List.forall₂_of_mapM_eq_ok h) hg
  obtain ⟨idx, hidx, href⟩ := Except.bind_eq_ok.mp href
  have hlt : idx < types.length := hlen ▸ resolve_lt hidx
  rw [← Except.ok.inj href, List.getD_eq_getElem _ _ hlt]
  exact List.getElem?_eq_getElem hlt

/-- A grouped query, over columns that have been bound with their names and types. -/
theorem aggregatePlan_sound (hroot : root.Sound) (htypes : root.outputTypes = types)
    (hlen : names.length = types.length) (h : aggregatePlan stmt root names types = .ok p) :
    p.Sound := by
  obtain ⟨groups, specs, grouped, items, hgroups, -, hhaving, hitems, horder⟩ :=
    aggregatePlan_cases h
  have hagg : (aggregateOf root groups specs).Sound :=
    .hashAggregate hroot (htypes ▸ groupColumns_types hlen hgroups)
  have hgrouped : grouped.Sound ∧
      grouped.outputTypes.length = (aggregateNames groups specs).length := by
    have hcount : (aggregateOf root groups specs).outputTypes.length =
        (aggregateNames groups specs).length := by
      simp [aggregateOf, Plan.outputTypes, aggregateNames]
    rcases hhaving with ⟨-, rfl⟩ | ⟨e, pred, -, -, rfl⟩
    · exact ⟨hagg, hcount⟩
    · exact ⟨.filter hagg, hcount⟩
  have hprojection : (Plan.projection grouped (items.map Prod.fst) (items.map Prod.snd)).Sound := by
    refine .projection hgrouped.1 fun i hi => ?_
    obtain ⟨g, hg, rfl⟩ := List.mem_map.mp hi
    obtain ⟨item, -, hitem⟩ := List.exists_of_forall₂_mem (List.forall₂_of_mapM_eq_ok hitems) hg
    rw [hgrouped.2]
    exact namedItem_lt hitem
  rcases horder with ⟨-, rfl⟩ | ⟨ob, idx, -, hidx, rfl⟩
  · exact hprojection
  · refine .orderBy hprojection ?_
    have hlt := resolve_lt hidx
    simpa [Plan.outputTypes] using hlt

/-- A plain query, over as many columns as there are names. -/
theorem projectionPlan_sound (hroot : root.Sound) (hlen : root.outputTypes.length = names.length)
    (h : projectionPlan stmt root single names = .ok p) : p.Sound := by
  obtain ⟨items, hitems, hcases⟩ := projectionPlan_cases h
  have hlt : ∀ i ∈ items.map Prod.fst, i < root.outputTypes.length := hlen ▸ projectionItems_lt hitems
  rcases hcases with ⟨-, rfl⟩ | ⟨ob, idx, -, hidx, rfl⟩ | ⟨ob, idx, -, -, hidx, rfl⟩
  · exact .projection hroot hlt
  · have hbelow := lastIndexOf_lt hidx
    exact .orderBy (.projection hroot hlt) (by simpa [Plan.outputTypes] using hbelow)
  · have hbelow : idx < root.outputTypes.length := hlen ▸ resolve_lt hidx
    exact .projection (.orderBy hroot hbelow) hlt

/-- What is above the scans, over columns that have been bound with their names and types. The types
    matter to an aggregation only. -/
theorem upperPlan_sound (hroot : root.Sound) (hlen : root.outputTypes.length = names.length)
    (htypes : aggregated stmt = true → root.outputTypes = types)
    (h : upperPlan stmt root single names types = .ok p) : p.Sound := by
  obtain ⟨upper, hupper, hp⟩ := upperPlan_cases h
  have hsound : upper.Sound := by
    split at hupper
    · rename_i hagg
      have htypes := htypes hagg
      exact aggregatePlan_sound hroot htypes (by rw [← htypes, hlen]) hupper
    · exact projectionPlan_sound hroot hlen hupper
  rcases hp with ⟨-, rfl⟩ | ⟨n, -, rfl⟩
  · exact hsound
  · exact .limit hsound

/-! ## One table -/

/-- A name that an identifier can be: it is not empty, and has no dot. -/
def Nameable (name : Bytes) : Prop := name ≠ [] ∧ Dotless name

instance (name : Bytes) : Decidable (Nameable name) := inferInstanceAs (Decidable (_ ∧ _))

/-- The alias and the columns of a table have names that identifiers can be. -/
def NamedTable (t : TableMeta × Bytes) : Prop :=
  Nameable t.2 ∧ ∀ col ∈ t.1.schema.columns, Nameable col.name

/-- Every table has columns to scan. -/
theorem needFirst_ne_nil {needed needed' : List (Bytes × Bytes)} {t : TableMeta × Bytes}
    (h : needFirst t needed = .ok needed') : neededOf needed' t.2 ≠ [] := by
  unfold needFirst at h
  split at h
  · obtain ⟨col, -, h⟩ := Except.bind_eq_ok.mp h
    rw [← Except.ok.inj h]
    have hmem : col.name ∈ neededOf (needed ++ [(t.2, col.name)]) t.2 :=
      mem_neededOf.mpr (List.mem_append_right _ (List.mem_singleton_self _))
    exact List.ne_nil_of_mem hmem
  · rename_i hne
    rwa [← Except.ok.inj h]

/-- A column that is scanned is a column of the table. -/
theorem ScanInfo.Resolved.nameable {s : ScanInfo} (h : s.Resolved)
    (hcols : ∀ col ∈ s.table.schema.columns, Nameable col.name) :
    ∀ n ∈ s.colNames, Nameable n := by
  intro n hn
  obtain ⟨i, -, hi⟩ := List.exists_of_forall₂_mem h.columns hn
  obtain ⟨col, hcol, rfl⟩ := findColumn_eq_some hi
  exact hcols col (List.mem_of_getElem? hcol)

/-- The scan of a table that has something to scan. -/
theorem scanInfo_wellFormed {needed : List (Bytes × Bytes)} {t : TableMeta × Bytes} {s : ScanInfo}
    {scan : ColumnScan} (hne : neededOf needed t.2 ≠ []) (hinfo : scanInfo needed t = .ok s)
    (hscan : scanOp s = .ok scan) : scan.WellFormed ∧ scan.colIdx = s.colIndices ∧ scan.zone = none := by
  obtain ⟨-, -, hresolved, hneeded⟩ := scanInfo_resolved hinfo
  have hcols : s.colIndices ≠ [] := by
    intro hnil
    obtain ⟨name, hname⟩ := List.exists_mem_of_ne_nil _ hne
    have hmem : name ∈ s.colNames := (hneeded name).mpr (mem_neededOf.mp hname)
    have hlen := hresolved.length_eq
    rw [hnil] at hlen
    rw [List.length_eq_zero_iff.mp hlen.symm] at hmem
    cases hmem
  obtain ⟨hwell, -, hidx, hzone⟩ := ColumnScan.wellFormed_create hscan hcols
  exact ⟨hwell, hidx, hzone⟩

private theorem bindConjuncts_some (cs : List Expr) (x : BoundExpr) :
    bindConjuncts names types (some x) cs ≠ .ok none := by
  induction cs generalizing x with
  | nil => exact fun h => by cases h
  | cons d ds ih =>
    intro h
    simp only [bindConjuncts, List.foldlM_cons] at h
    obtain ⟨step, hstep, hrest⟩ := Except.bind_eq_ok.mp h
    obtain ⟨y, -, hstep⟩ := Except.bind_eq_ok.mp hstep
    obtain rfl := Except.ok.inj hstep
    exact ih _ hrest

/-- Where there is a conjunct there is a predicate. -/
theorem bindConjuncts_ne_none {c : Expr} {cs : List Expr} (hc : c ∈ cs) :
    bindConjuncts names types none cs ≠ .ok none := by
  cases cs with
  | nil => cases hc
  | cons d ds =>
    intro h
    simp only [bindConjuncts, List.foldlM_cons] at h
    obtain ⟨step, hstep, hrest⟩ := Except.bind_eq_ok.mp h
    obtain ⟨x, -, hstep⟩ := Except.bind_eq_ok.mp hstep
    obtain rfl := Except.ok.inj hstep
    exact bindConjuncts_some ds _ hrest

/-- A scan under the predicate of its query, with the zone filter that has been found. -/
theorem residual_sound {s : ScanInfo} {scan : ColumnScan} {zone : Option ZoneFilter}
    (hwell : scan.WellFormed) (hs : s.Resolved) (hnamed : NamedTable (s.table, s.alias))
    (hscan : scanOp s = .ok scan) (hzone : findZone s (conjunctsOf stmt) = .ok zone)
    (h : residual (.scan { scan with zone }) scan.outputNames scan.outputTypes (conjunctsOf stmt) =
      .ok root) : root.Sound := by
  obtain ⟨-, hidx, -, -, -⟩ := hs.scanOp_eq hscan
  have hwell' : ({ scan with zone } : ColumnScan).WellFormed := by
    refine ⟨hwell.nonempty, hwell.columns, fun z hz => ?_⟩
    dsimp only at hz
    subst hz
    obtain ⟨c, -, hc⟩ := findZone_cases hzone
    obtain ⟨_, _, _, _, _, _, _, -, hpos, -⟩ := zoneOf_cases hc
    rw [show ({ scan with zone := some z } : ColumnScan).colIdx = s.colIndices from hidx,
      hs.length_eq]
    exact (ScanInfo.scanPos_some hpos).1
  rcases residual_cases h with ⟨hpred, rfl⟩ | ⟨pred, hpred, rfl⟩
  · -- without conjuncts there is no zone filter
    refine .scan hwell' ?_
    cases zone with
    | none => rfl
    | some z =>
      obtain ⟨c, hc, -⟩ := findZone_cases hzone
      exact absurd hpred (bindConjuncts_ne_none hc)
  · refine .zoned hwell' fun z hz => ?_
    dsimp only at hz
    subst hz
    have hcovers : Plan.ZoneCovers z pred scan.outputTypes := findZone_covers hs hnamed.1.1 hnamed.1.2
      (fun n hn => (hs.nameable hnamed.2 n hn).2) hscan hzone hpred
    exact hcovers

/-- A query on one table. -/
theorem planSingle_sound {needed : List (Bytes × Bytes)} {t : TableMeta × Bytes} (ht : NamedTable t)
    (h : planSingle stmt needed t = .ok p) : p.Sound := by
  obtain ⟨needed', s, scan, zone, root, hneeded, hs, hscan, hzone, hroot, hupper⟩ :=
    planSingle_cases h
  obtain ⟨htable, halias, hresolved, -⟩ := scanInfo_resolved hs
  obtain ⟨hwell, -, -⟩ := scanInfo_wellFormed (needFirst_ne_nil hneeded) hs hscan
  have hnamed : NamedTable (s.table, s.alias) := by
    rw [htable, halias]
    exact ht
  have htypes : root.outputTypes = scan.outputTypes := residual_types hroot
  refine upperPlan_sound (residual_sound hwell hresolved hnamed hscan hzone hroot) ?_
    (fun _ => htypes) hupper
  rw [htypes, scanOp_length hscan]

/-! ## Two tables -/

/-- `swap`: whether the inputs of a join are against the order of the aliases. -/
def joinSwaps (sides : (Bytes × Bytes) × (Bytes × Bytes)) (a₀ a₁ : Bytes) : Bool :=
  sides.1.1 == a₁ || sides.2.1 == a₀

/-- The side of the predicate that is on the table `a`, and the other one. -/
def sidesOf (sides : (Bytes × Bytes) × (Bytes × Bytes)) (a : Bytes) :
    (Bytes × Bytes) × (Bytes × Bytes) :=
  if sides.1.1 == a then sides else (sides.2, sides.1)

theorem scanPosAt_eq_ok {s : ScanInfo} {name : Bytes} {pos : Nat} (h : s.scanPosAt name = .ok pos) :
    s.scanPos name = some pos := by
  unfold ScanInfo.scanPosAt at h
  split at h
  · rename_i i hi
    rw [hi, Except.ok.inj h]
  · cases h

/-- The inputs of a join, in order or swapped, and its keys. -/
theorem joinPlan_keys {s₀ s₁ : ScanInfo} {op₀ op₁ : ColumnScan}
    {sides : (Bytes × Bytes) × (Bytes × Bytes)} (h : joinPlan s₀ s₁ op₀ op₁ sides = .ok p) :
    ∃ k₀ k₁, (joinSwaps sides s₀.alias s₁.alias = false ∧
        s₀.scanPos (sidesOf sides s₀.alias).1.2 = some k₀ ∧
        s₁.scanPos (sidesOf sides s₀.alias).2.2 = some k₁ ∧
        p = .hashJoin (.scan op₀) (.scan op₁) k₀ k₁) ∨
      (joinSwaps sides s₀.alias s₁.alias = true ∧
        s₁.scanPos (sidesOf sides s₁.alias).1.2 = some k₁ ∧
        s₀.scanPos (sidesOf sides s₁.alias).2.2 = some k₀ ∧
        p = .hashJoin (.scan op₁) (.scan op₀) k₁ k₀) := by
  have hsides : ∀ a : Bytes, (if sides.1.1 == a then (sides.1, sides.2) else (sides.2, sides.1)) =
      sidesOf sides a := fun a => rfl
  unfold joinPlan at h
  dsimp only at h
  cases hswap : joinSwaps sides s₀.alias s₁.alias with
  | false =>
    rw [joinSwaps] at hswap
    simp only [hswap, Bool.false_eq_true, if_false, hsides] at h
    obtain ⟨k₀, h₀, h⟩ := Except.bind_eq_ok.mp h
    obtain ⟨k₁, h₁, h⟩ := Except.bind_eq_ok.mp h
    exact ⟨k₀, k₁, .inl ⟨rfl, scanPosAt_eq_ok h₀, scanPosAt_eq_ok h₁, (Except.ok.inj h).symm⟩⟩
  | true =>
    rw [joinSwaps] at hswap
    simp only [hswap, if_true, hsides] at h
    obtain ⟨k₁, h₁, h⟩ := Except.bind_eq_ok.mp h
    obtain ⟨k₀, h₀, h⟩ := Except.bind_eq_ok.mp h
    exact ⟨k₀, k₁, .inr ⟨rfl, scanPosAt_eq_ok h₁, scanPosAt_eq_ok h₀, (Except.ok.inj h).symm⟩⟩

/-- A column of a scan has a type. -/
theorem scanPos_lt_outputTypes {s : ScanInfo} {scan : ColumnScan} {name : Bytes} {pos : Nat}
    (hs : s.Resolved) (hscan : scanOp s = .ok scan) (h : s.scanPos name = some pos) :
    pos < scan.outputTypes.length := by
  obtain ⟨-, -, -, -, htypes⟩ := hs.scanOp_eq hscan
  rw [← htypes.length_eq, hs.length_eq]
  exact (ScanInfo.scanPos_some h).1

/-- A query on two tables. -/
theorem planJoin_sound {scans : List (TableMeta × Bytes)} {needed : List (Bytes × Bytes)}
    {t₀ t₁ : TableMeta × Bytes} (hswap : aggregated stmt = true → ∀ at_ sides,
      findJoinPred (conjunctsOf stmt) = some (at_, sides) → joinSwaps sides t₀.2 t₁.2 = false)
    (h : planJoin stmt scans needed t₀ t₁ = .ok p) : p.Sound := by
  obtain ⟨at_, sides, _, _, _, s₀, s₁, op₀, op₁, join, root, hpred, -, hneeded₀, hs₀, hneeded₁, hs₁,
    hop₀, hop₁, hjoin, hroot, hupper⟩ := planJoin_cases h
  obtain ⟨-, halias₀, hresolved₀, -⟩ := scanInfo_resolved hs₀
  obtain ⟨-, halias₁, hresolved₁, -⟩ := scanInfo_resolved hs₁
  obtain ⟨hwell₀, -, hzone₀⟩ := scanInfo_wellFormed (needFirst_ne_nil hneeded₀) hs₀ hop₀
  obtain ⟨hwell₁, -, hzone₁⟩ := scanInfo_wellFormed (needFirst_ne_nil hneeded₁) hs₁ hop₁
  obtain ⟨k₀, k₁, hcases⟩ := joinPlan_keys hjoin
  have hsound : join.Sound ∧
      join.outputTypes.length = (op₀.outputNames ++ op₁.outputNames).length ∧
      (joinSwaps sides s₀.alias s₁.alias = false →
        join.outputTypes = op₀.outputTypes ++ op₁.outputTypes) := by
    rw [List.length_append, scanOp_length hop₀, scanOp_length hop₁]
    rcases hcases with ⟨-, h₀, h₁, rfl⟩ | ⟨hswapped, h₁, h₀, rfl⟩
    · refine ⟨.hashJoin (.scan hwell₀ hzone₀) (.scan hwell₁ hzone₁) ?_ ?_, ?_, fun _ => rfl⟩
      · exact scanPos_lt_outputTypes hresolved₀ hop₀ h₀
      · exact scanPos_lt_outputTypes hresolved₁ hop₁ h₁
      · simp [Plan.outputTypes]
    · refine ⟨.hashJoin (.scan hwell₁ hzone₁) (.scan hwell₀ hzone₀) ?_ ?_, ?_, fun hkept => ?_⟩
      · exact scanPos_lt_outputTypes hresolved₁ hop₁ h₁
      · exact scanPos_lt_outputTypes hresolved₀ hop₀ h₀
      · simp [Plan.outputTypes, Nat.add_comm]
      · rw [hswapped] at hkept
        cases hkept
  have hrootsound : root.Sound := by
    rcases residual_cases hroot with ⟨-, rfl⟩ | ⟨pred, -, rfl⟩
    · exact hsound.1
    · exact .filter hsound.1
  refine upperPlan_sound hrootsound ?_ (fun hagg => ?_) hupper
  · rw [residual_types hroot, hsound.2.1]
  · rw [residual_types hroot]
    refine hsound.2.2 ?_
    rw [halias₀, halias₁]
    exact hswap hagg at_ sides hpred

/-! ## The whole -/

/-- The name that a table of the `FROM` clause goes by. -/
def aliasOf (tr : TableRef) : Bytes := if tr.alias = [] then tr.name else tr.alias

/-- The tables of a query, and their columns, have names that identifiers can be. -/
def Named (c : Catalog) (stmt : SelectStmt) : Prop :=
  ∀ tr ∈ stmt.tables, ∀ m, c.getTable tr.name = some m → NamedTable (m, aliasOf tr)

/-- The inputs of the join are against the order of the `FROM` clause. -/
def swapsJoin (stmt : SelectStmt) : Bool :=
  match stmt.tables, findJoinPred (conjunctsOf stmt) with
  | [tr₀, tr₁], some (_, sides) => joinSwaps sides (aliasOf tr₀) (aliasOf tr₁)
  | _, _ => false

/-- The tables of the `FROM` clause, each under its alias. -/
theorem fromTables_cases {c : Catalog} {tables : List TableRef} {scans : List (TableMeta × Bytes)}
    (h : fromTables c tables = .ok scans) : List.Forall₂ (fun tr t =>
      c.getTable tr.name = some t.1 ∧ t.2 = aliasOf tr) tables scans := by
  refine (List.forall₂_of_mapM_eq_ok h).imp fun tr t ht => ?_
  split at ht
  · cases ht
  · rename_i m hm
    rw [← Except.ok.inj ht]
    exact ⟨hm, rfl⟩

/-- Every plan is sound, unless it groups the rows of a swapped join. -/
theorem planSelect_sound {c : Catalog} (hnamed : Named c stmt)
    (hswap : aggregated stmt = true → swapsJoin stmt = false) (h : planSelect stmt c = .ok p) :
    p.Sound := by
  obtain ⟨scans, needed, hscans, -, ⟨t, rfl, hsingle⟩ | ⟨t₀, t₁, rfl, hjoin⟩⟩ := planSelect_cases h
  · obtain ⟨tr, htr, hm, halias⟩ := List.exists_of_forall₂_mem (fromTables_cases hscans)
      (List.mem_singleton_self t)
    have ht := hnamed tr htr t.1 hm
    rw [← halias] at ht
    exact planSingle_sound ht hsingle
  · obtain ⟨tr₀, rest, ⟨-, halias₀⟩, hrest, htables⟩ :=
      List.forall₂_cons_right_iff.mp (fromTables_cases hscans)
    obtain ⟨tr₁, rest', ⟨-, halias₁⟩, hnil, rfl⟩ := List.forall₂_cons_right_iff.mp hrest
    cases hnil
    refine planJoin_sound (fun hagg at_ sides hpred => ?_) hjoin
    have hkept := hswap hagg
    rw [swapsJoin, htables, hpred] at hkept
    rw [halias₀, halias₁]
    exact hkept

end Planner

end LiteOLAP
