import LiteOLAP.Spec.PlainJoin
import LiteOLAP.Spec.QueryCorrect

/-!
# What a SELECT returns

A query stands for what its plain plan says of the rows that the statements so far have made: all
columns, all chunks, all pairs of rows. A database returns that, whatever its planner leaves out and
however its workers take turns.

## Key results

- `Planner.planSelect_plain`: a plan means what the plain plan means
- `DB.select_plain`: a query in any state of the life of a database
-/

namespace LiteOLAP

open BufferPool (Serving)

namespace Planner

/-- The plan of a query that leaves out no column, no chunk and no pair of rows. -/
def plainSelect (stmt : SelectStmt) (c : Catalog) : Except Exc Plan := do
  let scans ← fromTables c stmt.tables
  match scans with
  | [t] => plainSingle stmt t
  | [t₀, t₁] => plainJoin stmt t₀ t₁
  | _ => throw .undefinedBehaviour

/-- The pairs of rows of two tables, with all columns. -/
def allPairs (tables : Bytes → List Row) (t₀ t₁ : TableMeta × Bytes) : List Row :=
  match wideScan t₀, wideScan t₁ with
  | .ok wide₀, .ok wide₁ => pairRows tables wide₀ wide₁
  | _, _ => []

/-- The tables that the plain plan of a query looks at: those that there are or, for two tables, one
    that has the pairs of their rows. -/
def seenTables (stmt : SelectStmt) (c : Catalog) (tables : Bytes → List Row) : Bytes → List Row :=
  match fromTables c stmt.tables with
  | .ok [t₀, t₁] => fun _ => allPairs tables t₀ t₁
  | _ => tables

/-- The query is on one table, or a join in the order of its tables. -/
def InOrder (stmt : SelectStmt) (c : Catalog) : Prop :=
  ∀ t₀ t₁, fromTables c stmt.tables = .ok [t₀, t₁] → JoinsInOrder stmt t₀ t₁

/-- The tables of a query, and their columns, have names of identifiers. -/
def WordNamed (c : Catalog) (stmt : SelectStmt) : Prop :=
  ∀ tr ∈ stmt.tables, ∀ m, c.getTable tr.name = some m → WordTable (m, aliasOf tr)

/-- The rows of the tables of a query have the types of the columns. The index of a join has room for
    all rows of a table. -/
structure TablesTyped (stmt : SelectStmt) (c : Catalog) (tables : Bytes → List Row) : Prop where
  typed : ∀ tr ∈ stmt.tables, ∀ m, c.getTable tr.name = some m →
    ∀ r ∈ tables m.name, rowTyped m.schema.types r = true
  short : ∀ t₀ t₁, fromTables c stmt.tables = .ok [t₀, t₁] → (tables t₁.1.name).length ≤ 2 ^ 32

theorem WordNamed.named {c : Catalog} {stmt : SelectStmt} (h : WordNamed c stmt) : Named c stmt :=
  fun tr htr m hm => (h tr htr m hm).1

variable {stmt : SelectStmt} {c : Catalog} {p : Plan}

private theorem from_mem {scans : List (TableMeta × Bytes)} (h : fromTables c stmt.tables = .ok scans)
    {t : TableMeta × Bytes} (ht : t ∈ scans) :
    ∃ tr ∈ stmt.tables, c.getTable tr.name = some t.1 ∧ t.2 = aliasOf tr :=
  List.exists_of_forall₂_mem (fromTables_cases h) ht

/-- A join in the order of its tables is not swapped. -/
theorem InOrder.swapsJoin_eq {scans : List (TableMeta × Bytes)} (h : InOrder stmt c)
    (hscans : fromTables c stmt.tables = .ok scans) : swapsJoin stmt = false := by
  have hfrom := fromTables_cases hscans
  unfold swapsJoin
  split
  · rename_i tr₀ tr₁ at_ sides htables hpred
    rw [htables] at hfrom
    obtain ⟨t₀, rest, ⟨-, halias₀⟩, hrest, rfl⟩ := List.forall₂_cons_left_iff.mp hfrom
    obtain ⟨t₁, rest', ⟨-, halias₁⟩, hnil, rfl⟩ := List.forall₂_cons_left_iff.mp hrest
    cases hnil
    have hjoin := h t₀ t₁ hscans
    obtain ⟨at', x, y, hkeys, -, -⟩ := hjoin.keys
    rw [hpred] at hkeys
    obtain ⟨rfl, rfl⟩ := Prod.mk.inj (Option.some.inj hkeys)
    rw [joinSwaps, ← halias₀, ← halias₁]
    have hne : (t₀.2 == t₁.2) = false := by simpa using hjoin.apart
    have hne' : (t₁.2 == t₀.2) = false := by simpa using hjoin.apart.symm
    dsimp only
    rw [hne, hne', Bool.or_self]
  · rfl

/-- The plan of a query means what its plain plan means: the same columns, and the same rows wherever
    all rows, or all pairs of rows, can be filtered. -/
theorem planSelect_plain (hnamed : WordNamed c stmt) (horder : InOrder stmt c)
    (h : planSelect stmt c = .ok p) : ∃ p', plainSelect stmt c = .ok p' ∧
      Plan.Same (fun tables tables' => TablesTyped stmt c tables ∧ tables' = seenTables stmt c tables)
        p p' := by
  obtain ⟨scans, needed, hscans, hneeded, ⟨t, rfl, hsingle⟩ | ⟨t₀, t₁, rfl, hjoin⟩⟩ := planSelect_cases h
  · obtain ⟨tr, htr, hm, halias⟩ := from_mem hscans (List.mem_singleton_self t)
    have ht : NamedTable t := by
      have ht := (hnamed tr htr t.1 hm).1
      rwa [← halias] at ht
    obtain ⟨p', hp', hsame⟩ := planSingle_plain ht (fun hstar =>
      allColumns_subset_needed hstar hneeded (List.mem_singleton_self t)) hsingle
    refine ⟨p', by rw [plainSelect, hscans]; exact hp', hsame.names, hsame.types, ?_⟩
    rintro tables _ ⟨-, rfl⟩
    rw [seenTables, hscans]
    exact hsame.meaning tables tables rfl
  · have hword : ∀ {t}, t ∈ [t₀, t₁] → WordTable t := fun ht => by
      obtain ⟨tr, htr, hm, halias⟩ := from_mem hscans ht
      have hword := hnamed tr htr _ hm
      rwa [← halias] at hword
    obtain ⟨p', hp', hsame⟩ := planJoin_plain (horder t₀ t₁ hscans) (hword (by simp)) (hword (by simp))
      hneeded hjoin
    refine ⟨p', by rw [plainSelect, hscans]; exact hp', hsame.names, hsame.types, ?_⟩
    rintro tables _ ⟨htables, rfl⟩
    have htyped : ∀ {t}, t ∈ [t₀, t₁] → ∀ r ∈ tables t.1.name, rowTyped t.1.schema.types r = true :=
      fun ht => by
        obtain ⟨tr, htr, hm, -⟩ := from_mem hscans ht
        exact htables.typed tr htr _ hm
    refine hsame.meaning tables _ ⟨⟨htyped (by simp), htyped (by simp), htables.short t₀ t₁ hscans⟩, ?_⟩
    intro wide₀ wide₁ hwide₀ hwide₁
    rw [seenTables, hscans]
    dsimp only
    rw [allPairs, hwide₀, hwide₁]

end Planner

namespace DB

variable {mach : Machine} {db : DB} {pages : List Page} {chain : List PageId}
  {groups : Bytes → List StoredGroup} {stmt : SelectStmt} {p : Plan}

/-- The rows of a table have the types of its columns. -/
theorem Sound.view_typed (h : Sound db pages chain groups) {n : Bytes} {m : TableMeta}
    (hm : db.catalog.getTable n = some m) :
    ∀ r ∈ (view db groups).rows n, rowTyped m.schema.types r = true := by
  intro r hr
  rw [Tables.rows, view_some hm] at hr
  rcases List.mem_append.mp hr with hr | hr
  · obtain ⟨sg, hsg, hr⟩ := List.mem_flatMap.mp hr
    obtain ⟨g, -, hg⟩ := List.exists_of_forall₂_mem (h.holdings.stored n m hm) hsg
    exact hg.typed r hr
  · unfold pendingOf at hr
    cases hcols : db.pending.find? n with
    | none =>
      rw [hcols] at hr
      cases hr
    | some cols =>
      rw [hcols] at hr
      obtain ⟨count, hfits⟩ := h.pending n m cols hm hcols
      have hne : cols ≠ [] := by
        rintro rfl
        have hlen := hfits.length_eq
        exact h.columns n m hm (List.length_eq_zero_iff.mp hlen.symm)
      dsimp only at hr
      rw [hfits.pendingRows_eq hne] at hr
      exact hfits.rowTyped r hr

/-- In any state of the life of a database a query returns the columns and the rows that it stands
    for. -/
theorem select_plain {stmts : List Statement} (hrun : Lifetime mach Within true stmts db)
    (hplan : Planner.planSelect stmt db.catalog = .ok p) (hnamed : Planner.WordNamed db.catalog stmt)
    (horder : Planner.InOrder stmt db.catalog)
    (hfits : ScansFit (stmts.foldl Tables.step fun _ => none) p)
    (hshort : ∀ t₀ t₁, Planner.fromTables db.catalog stmt.tables = .ok [t₀, t₁] →
      ((stmts.foldl Tables.step fun _ => none).rows t₁.1.name).length ≤ 2 ^ 32) :
    ∃ p', Planner.plainSelect stmt db.catalog = .ok p' ∧
      ((p'.meaning (Planner.seenTables stmt db.catalog
          (stmts.foldl Tables.step fun _ => none).rows)).safe →
        EStateM.Returns Within (execute mach (.select stmt)) db fun r _ =>
          r.columnNames = p'.outputNames ∧ r.rows ∈ (p'.meaning (Planner.seenTables stmt db.catalog
            (stmts.foldl Tables.step fun _ => none).rows)).may) := by
  obtain ⟨pages, chain, groups, h, hview, -, -⟩ := lifetime_sound hrun
  rw [← hview] at hfits hshort ⊢
  obtain ⟨p', hp', hsame⟩ := Planner.planSelect_plain hnamed horder hplan
  refine ⟨p', hp', fun hsafe => ?_⟩
  have htyped : Planner.TablesTyped stmt db.catalog (view db groups).rows := by
    refine ⟨fun tr _ m hm => ?_, hshort⟩
    rw [db.catalog.named _ _ hm]
    exact h.view_typed hm
  obtain ⟨hpsafe, hmay⟩ := hsame.meaning _ _ ⟨htyped, rfl⟩ hsafe
  obtain ⟨scans, _, hscans, -, -⟩ := Planner.planSelect_cases hplan
  have hp := Planner.planSelect_sound hnamed.named (fun _ => horder.swapsJoin_eq hscans) hplan
  refine (select_returns mach h hplan hp hfits hpsafe).mono fun r _ hr => ?_
  rw [← hsame.names, ← hmay]
  exact ⟨hr.1, hr.2.1⟩

end DB

end LiteOLAP
