import LiteOLAP.Spec.PlanShape
import LiteOLAP.Spec.ScanSafe

/-!
# The scans of a plan

A plan scans tables of the catalog that it was made for.

## Key results

- `Planner.planSelect_scans`: every scan is on a table of the catalog
-/

namespace LiteOLAP

namespace Planner

/-- Every scan of the plan is on a table of the catalog. -/
def FromCatalog (c : Catalog) (p : Plan) : Prop :=
  ∀ s ∈ p.scans, ∃ name, c.getTable name = some s.table

theorem create_table {m : TableMeta} {a : Bytes} {idxs : List Nat} {s : ColumnScan}
    (h : ColumnScan.create m a idxs = .ok s) : s.table = m := by
  obtain ⟨cols, -, h⟩ := Except.bind_eq_ok.mp h
  obtain rfl := Except.ok.inj h
  rfl

theorem scanInfo_table {needed : List (Bytes × Bytes)} {t : TableMeta × Bytes} {s : ScanInfo}
    (h : scanInfo needed t = .ok s) : s.table = t.1 := by
  obtain ⟨idxs, -, h⟩ := Except.bind_eq_ok.mp h
  obtain ⟨cols, -, h⟩ := Except.bind_eq_ok.mp h
  obtain rfl := Except.ok.inj h
  rfl

theorem residual_scans {root p : Plan} {names : List Bytes} {types : List ColumnType}
    {conjuncts : List Expr} (h : residual root names types conjuncts = .ok p) :
    p.scans = root.scans := by
  rcases residual_cases h with ⟨-, rfl⟩ | ⟨pred, -, rfl⟩ <;> rfl

theorem aggregatePlan_scans {stmt : SelectStmt} {root p : Plan} {names : List Bytes}
    {types : List ColumnType} (h : aggregatePlan stmt root names types = .ok p) :
    p.scans = root.scans := by
  obtain ⟨groups, specs, grouped, items, -, -, hhaving, -, horder⟩ := aggregatePlan_cases h
  have hgrouped : grouped.scans = root.scans := by
    rcases hhaving with ⟨-, rfl⟩ | ⟨e, pred, -, -, rfl⟩ <;> rfl
  rcases horder with ⟨-, rfl⟩ | ⟨ob, idx, -, -, rfl⟩
  · exact hgrouped
  · exact hgrouped

theorem projectionPlan_scans {stmt : SelectStmt} {root p : Plan} {single : Bool} {names : List Bytes}
    (h : projectionPlan stmt root single names = .ok p) : p.scans = root.scans := by
  obtain ⟨items, -, hcases⟩ := projectionPlan_cases h
  rcases hcases with ⟨-, rfl⟩ | ⟨ob, idx, -, -, rfl⟩ | ⟨ob, idx, -, -, -, rfl⟩ <;> rfl

theorem upperPlan_scans {stmt : SelectStmt} {root p : Plan} {single : Bool} {names : List Bytes}
    {types : List ColumnType} (h : upperPlan stmt root single names types = .ok p) :
    p.scans = root.scans := by
  obtain ⟨upper, hupper, hp⟩ := upperPlan_cases h
  have hscans : upper.scans = root.scans := by
    split at hupper
    · exact aggregatePlan_scans hupper
    · exact projectionPlan_scans hupper
  rcases hp with ⟨-, rfl⟩ | ⟨n, -, rfl⟩
  · exact hscans
  · exact hscans

theorem planSingle_scans {stmt : SelectStmt} {needed : List (Bytes × Bytes)} {t : TableMeta × Bytes}
    {p : Plan} (h : planSingle stmt needed t = .ok p) : ∀ s ∈ p.scans, s.table = t.1 := by
  obtain ⟨_, info, scan, zone, root, -, hinfo, hscan, -, hroot, h⟩ := planSingle_cases h
  rw [upperPlan_scans h, residual_scans hroot]
  intro s hs
  obtain rfl := List.mem_singleton.mp hs
  exact (create_table hscan).trans (scanInfo_table hinfo)

theorem joinPlan_scans {s₀ s₁ : ScanInfo} {op₀ op₁ : ColumnScan}
    {sides : (Bytes × Bytes) × (Bytes × Bytes)} {p : Plan}
    (h : joinPlan s₀ s₁ op₀ op₁ sides = .ok p) : ∀ s ∈ p.scans, s = op₀ ∨ s = op₁ := by
  obtain ⟨leftKey, rightKey, rfl | rfl⟩ := joinPlan_cases h
  · simp [Plan.scans]
  · simp [Plan.scans, or_comm]

theorem planJoin_scans {stmt : SelectStmt} {scans : List (TableMeta × Bytes)}
    {needed : List (Bytes × Bytes)} {t₀ t₁ : TableMeta × Bytes} {p : Plan}
    (h : planJoin stmt scans needed t₀ t₁ = .ok p) :
    ∀ s ∈ p.scans, s.table = t₀.1 ∨ s.table = t₁.1 := by
  obtain ⟨at_, sides, _, _, _, s₀, s₁, op₀, op₁, join, root, -, -, -, hs₀, -, hs₁, hop₀, hop₁, hjoin,
    hroot, h⟩ := planJoin_cases h
  rw [upperPlan_scans h, residual_scans hroot]
  intro s hs
  rcases joinPlan_scans hjoin s hs with rfl | rfl
  · exact .inl ((create_table hop₀).trans (scanInfo_table hs₀))
  · exact .inr ((create_table hop₁).trans (scanInfo_table hs₁))

theorem fromTables_catalog {c : Catalog} {tables : List TableRef} {scans : List (TableMeta × Bytes)}
    (h : fromTables c tables = .ok scans) : ∀ t ∈ scans, ∃ name, c.getTable name = some t.1 := by
  unfold fromTables at h
  induction tables generalizing scans with
  | nil =>
    obtain rfl := Except.ok.inj h
    exact fun t ht => by cases ht
  | cons tr tables ih =>
    rw [List.mapM_cons] at h
    obtain ⟨t, ht, h⟩ := Except.bind_eq_ok.mp h
    obtain ⟨rest, hrest, h⟩ := Except.bind_eq_ok.mp h
    rw [← Except.ok.inj h]
    intro t' ht'
    rcases List.mem_cons.mp ht' with rfl | ht'
    · split at ht
      · cases ht
      · rename_i m hm
        rw [← Except.ok.inj ht]
        exact ⟨tr.name, hm⟩
    · exact ih hrest t' ht'

/-- The tables that a plan scans are in the catalog. -/
theorem planSelect_scans {stmt : SelectStmt} {c : Catalog} {p : Plan}
    (h : planSelect stmt c = .ok p) : FromCatalog c p := by
  obtain ⟨scans, needed, hscans, -, hcases⟩ := planSelect_cases h
  have hfrom := fromTables_catalog hscans
  intro s hs
  rcases hcases with ⟨t, rfl, hsingle⟩ | ⟨t₀, t₁, rfl, hjoin⟩
  · rw [planSingle_scans hsingle s hs]
    exact hfrom _ (by simp)
  · rcases planJoin_scans hjoin s hs with heq | heq
    · rw [heq]
      exact hfrom _ (by simp)
    · rw [heq]
      exact hfrom _ (by simp)

end Planner

end LiteOLAP
