import LiteOLAP.Spec.PlanSchemas

/-!
# Queries against a database

A query flushes its tables, plans, opens the plan and collects the batches. In any state that a
database comes to it returns rows that its plan stands for, where the tables of the plan are the
rows that the statements so far have made: pages, row groups, pending columns and buffers do not
show.

## Key results

- `DB.select_returns`: a query between two statements
- `DB.select_lifetime`: a query in any state of the life of a database
-/

namespace LiteOLAP

open BufferPool (Pin Serving PinRoom Fetchable Roomy)

/-- The stream is collected as the rows that it delivers. -/
theorem BatchStream.Delivers.collect {s : BatchStream} {types : List ColumnType} {rows : List Row}
    (h : s.Delivers types rows) :
    s.forEach (fun (rows : List Row) b => .ok (rows ++ b.rows)) [] = .ok rows := by
  have hcollect : ∀ (bs : List DataChunk) (rows : List Row),
      bs.foldlM (fun (rows : List Row) b => (.ok (rows ++ b.rows) : Except Exc (List Row))) rows =
        .ok (rows ++ bs.flatMap DataChunk.rows) := by
    intro bs
    induction bs with
    | nil => intro rows; simp
    | cons b bs ih =>
      intro rows
      rw [List.foldlM_cons, Except.ok_bind, ih, List.append_assoc, List.flatMap_cons]
  rw [BatchStream.forEach_eq h.regular, hcollect, List.nil_append, ← h.rows]
  rfl

/-- The columns of every scan are there. -/
theorem Plan.Sound.wellFormed {p : Plan} (h : p.Sound) : ∀ s ∈ p.scans, s.WellFormed := by
  induction h with
  | scan hs _ => exact fun s hmem => List.mem_singleton.mp hmem ▸ hs
  | zoned hs _ => exact fun s hmem => List.mem_singleton.mp hmem ▸ hs
  | filter _ ih => exact ih
  | hashJoin _ _ _ _ ihl ihr =>
    intro s hmem
    rcases List.mem_append.mp hmem with hmem | hmem
    · exact ihl s hmem
    · exact ihr s hmem
  | hashAggregate _ _ ih => exact ih
  | projection _ _ ih => exact ih
  | orderBy _ _ ih => exact ih
  | limit _ ih => exact ih

/-- A plan on tables with the same columns. -/
theorem Plan.Sound.retable {p : Plan} (h : p.Sound) {f : TableMeta → TableMeta}
    (hschema : ∀ m, (f m).schema = m.schema) : (p.retable f).Sound := by
  have hwell : ∀ {s : ColumnScan}, s.WellFormed → (s.retable f).WellFormed := fun hs => by
    refine ⟨hs.nonempty, ?_, hs.zone⟩
    rw [ColumnScan.retable, hschema]
    exact hs.columns
  induction h with
  | scan hs hnone => exact .scan (hwell hs) hnone
  | zoned hs hcovers => exact .zoned (hwell hs) hcovers
  | filter _ ih => exact .filter ih
  | hashJoin _ _ hl hr ihl ihr =>
    rw [← Plan.outputTypes_retable] at hl hr
    exact .hashJoin ihl ihr hl hr
  | hashAggregate _ hgroup ih =>
    rw [← Plan.outputTypes_retable] at hgroup
    exact .hashAggregate ih hgroup
  | projection _ hsources ih =>
    rw [← Plan.outputTypes_retable] at hsources
    exact .projection ih hsources
  | orderBy _ hkey ih =>
    rw [← Plan.outputTypes_retable] at hkey
    exact .orderBy ih hkey
  | limit _ ih => exact .limit ih

theorem Plan.scans_retable (f : TableMeta → TableMeta) (p : Plan) :
    (p.retable f).scans = p.scans.map (ColumnScan.retable f) := by
  induction p with
  | scan s => rfl
  | hashJoin left right _ _ ihl ihr => simp only [Plan.retable, Plan.scans, ihl, ihr, List.map_append]
  | filter child _ ih => exact ih
  | hashAggregate child _ _ _ _ ih => exact ih
  | projection child _ _ ih => exact ih
  | orderBy child _ _ ih => exact ih
  | limit child _ ih => exact ih

namespace Planner

/-- A plan scans tables of the `FROM` clause. -/
theorem planSelect_scans_from {stmt : SelectStmt} {c : Catalog} {p : Plan}
    (h : planSelect stmt c = .ok p) :
    ∀ s ∈ p.scans, ∃ tr ∈ stmt.tables, c.getTable tr.name = some s.table := by
  obtain ⟨scans, needed, hscans, -, hcases⟩ := planSelect_cases h
  have hfrom : ∀ t ∈ scans, ∃ tr ∈ stmt.tables, c.getTable tr.name = some t.1 := fun t ht => by
    obtain ⟨tr, htr, hm, -⟩ := List.exists_of_forall₂_mem (fromTables_cases hscans) ht
    exact ⟨tr, htr, hm⟩
  intro s hs
  rcases hcases with ⟨t, rfl, hsingle⟩ | ⟨t₀, t₁, rfl, hjoin⟩
  · rw [planSingle_scans hsingle s hs]
    exact hfrom t (by simp)
  · rcases planJoin_scans hjoin s hs with heq | heq
    · rw [heq]
      exact hfrom t₀ (by simp)
    · rw [heq]
      exact hfrom t₁ (by simp)

/-- The table with the row groups that it has in another catalog. -/
def regrouped (c : Catalog) (m : TableMeta) : TableMeta :=
  { m with rowGroups := ((c.getTable m.name).map (·.rowGroups)).getD [] }

theorem getTable_regrouped {c c' : Catalog}
    (h : ∀ n, (c'.getTable n).map (·.schema) = (c.getTable n).map (·.schema)) (n : Bytes) :
    c'.getTable n = (c.getTable n).map (regrouped c') := by
  have hn := h n
  cases hm : c.getTable n with
  | none =>
    rw [hm, Option.map_none, Option.map_eq_none_iff] at hn
    rw [hn, Option.map_none]
  | some m =>
    rw [hm, Option.map_some] at hn
    obtain ⟨m', hm', hschema⟩ := Option.map_eq_some_iff.mp hn
    have hname : m.name = n := c.named n m hm
    have hname' : m'.name = n := c'.named n m' hm'
    rw [hm', Option.map_some, regrouped, hname, hm', Option.map_some, Option.getD_some, ← hschema,
      ← hname']

end Planner

/-- The rows of a table; no table has none. -/
def Tables.rows (t : Tables) (n : Bytes) : List Row := ((t n).map Prod.snd).getD []

namespace DB

variable {mach : Machine} {db : DB} {pages : List Page} {chain : List PageId}
  {groups : Bytes → List StoredGroup} {stmt : SelectStmt} {p : Plan}

/-- Chunks of the tables that a plan scans are not too long for their headers. -/
def ScansFit (t : Tables) (p : Plan) : Prop :=
  ∀ s ∈ p.scans, ColumnScan.SegmentsFit s.table.schema (t.rows s.table.name)

/-- Where nothing is pending for the tables of a plan, the plan reads the tables. -/
theorem Sound.reads (h : Sound db pages chain groups) (hp : p.Sound)
    (hscans : ∀ s ∈ p.scans, db.catalog.getTable s.table.name = some s.table)
    (hpending : ∀ s ∈ p.scans, pendingOf db s.table.name = [])
    (hfits : ScansFit (view db groups) p) : p.Reads chain pages (view db groups).rows := by
  intro s hs
  have hm := hscans s hs
  have hrows : (view db groups).rows s.table.name = rowsOf (groups s.table.name) := by
    rw [Tables.rows, view_some hm, hpending s hs, List.append_nil]
    rfl
  refine ⟨groups s.table.name, ⟨h.holdings.stored _ _ hm, fun sg hsg ids hids pid hpid =>
    ⟨fun hmem => ?_, by simp⟩, fun sg hsg => ?_⟩, hrows⟩
  · exact h.holdings.owned.catalogApart _ hmem
      (List.mem_flatten_of_mem (List.mem_flatMap.mpr ⟨sg, hsg, hids⟩) hpid)
  · exact ColumnScan.groupFits (hp.wellFormed s hs) (hrows ▸ hfits s hs) hsg

/-- What a query does behind the flush, on tables for which nothing is pending. -/
theorem open_returns (mach : Machine) (h : Sound db pages chain groups) (hp : p.Sound)
    (hreads : p.Reads chain pages (view db groups).rows)
    (hsafe : (p.meaning (view db groups).rows).safe) :
    EStateM.Returns Within (do
      let stream ← withPool (p.open mach)
      let rows ← EStateM.ofExcept (stream.forEach (fun rows b => .ok (rows ++ b.rows)) [])
      return ⟨p.outputNames, rows⟩ : EStateM Exc DB ResultSet) db fun r db' =>
        r.columnNames = p.outputNames ∧ r.rows ∈ (p.meaning (view db groups).rows).may ∧
          Leads (view db groups) db' := by
  have hroom : PinRoom frames [] 1 := pinRoom_frames.mono (by decide)
  refine (withPool_returns (Plan.open_delivers hroom mach hp h.serving hreads hsafe)).bind
    (fun stream => (EStateM.staysOver_ofExcept _).bind fun rows => EStateM.staysOver_pure _)
    fun stream db' hstream => ?_
  obtain ⟨pool, rfl, ⟨rows, hrows, hstream⟩, hserving⟩ := hstream
  rw [hstream.collect]
  refine EStateM.Returns.ofExcept_bind (EStateM.returns_pure ⟨rfl, hrows, pages, chain, groups, ?_, rfl⟩)
  exact ⟨hserving, h.holdings, h.pending, h.columns⟩

/-- A query returns rows that its plan may stand for, and leaves the tables as they are. -/
theorem select_returns (mach : Machine) (h : Sound db pages chain groups)
    (hplan : Planner.planSelect stmt db.catalog = .ok p) (hp : p.Sound)
    (hfits : ScansFit (view db groups) p) (hsafe : (p.meaning (view db groups).rows).safe) :
    EStateM.Returns Within (select mach stmt) db fun r db' => r.columnNames = p.outputNames ∧
      r.rows ∈ (p.meaning (view db groups).rows).may ∧ Leads (view db groups) db' := by
  have hover : ∀ _ : PUnit, EStateM.StaysOver Within (do
      let plan ← EStateM.ofExcept (Planner.planSelect stmt (← get).catalog)
      let stream ← withPool (plan.open mach)
      let rows ← EStateM.ofExcept (stream.forEach (fun rows b => .ok (rows ++ b.rows)) [])
      return ⟨plan.outputNames, rows⟩ : EStateM Exc DB ResultSet) := by
    refine fun _ => EStateM.staysOver_get.bind fun db => (EStateM.staysOver_ofExcept _).bind fun plan => ?_
    refine (staysOver_withPool ((Plan.keeps_open mach plan).staysOver (· < 2 ^ 32))).bind fun stream => ?_
    exact (EStateM.staysOver_ofExcept _).bind fun rows => EStateM.staysOver_pure _
  have hflush := flushTables_returns h (stmt.tables.map (·.name))
  rw [EStateM.forM_map] at hflush
  refine hflush.bind hover fun _ db₁ hflushed => ?_
  obtain ⟨pages₁, chain₁, groups₁, h₁, hpending⟩ := hflushed
  -- behind the flush the plan is the same, on other row groups
  have hcatalog := Planner.getTable_regrouped (c := db.catalog) h₁.schemas
  have hplan₁ : Planner.planSelect stmt db₁.catalog =
      .ok (p.retable (Planner.regrouped db₁.catalog)) := by
    rw [Planner.planSelect_retable (f := Planner.regrouped db₁.catalog) (fun _ => rfl) hcatalog, hplan]
    rfl
  refine EStateM.Returns.get ?_
  rw [hplan₁]
  refine EStateM.Returns.ofExcept_bind ?_
  have hscans : ∀ s ∈ (p.retable (Planner.regrouped db₁.catalog)).scans,
      db₁.catalog.getTable s.table.name = some s.table ∧ pendingOf db₁ s.table.name = [] := by
    intro s hs
    rw [Plan.scans_retable] at hs
    obtain ⟨s₀, hs₀, rfl⟩ := List.mem_map.mp hs
    obtain ⟨tr, htr, hm⟩ := Planner.planSelect_scans_from hplan s₀ hs₀
    have hname : s₀.table.name = tr.name := db.catalog.named _ _ hm
    have hname' : (s₀.retable (Planner.regrouped db₁.catalog)).table.name = tr.name := hname
    rw [hname']
    refine ⟨(hcatalog tr.name).trans (by rw [hm]; rfl), hpending _ (List.mem_map_of_mem htr) ?_⟩
    rw [schemaOf, hm]
    exact Option.some_ne_none _
  have hfits₁ : ScansFit (view db₁ groups₁) (p.retable (Planner.regrouped db₁.catalog)) := by
    intro s hs
    rw [Plan.scans_retable] at hs
    obtain ⟨s₀, hs₀, rfl⟩ := List.mem_map.mp hs
    rw [h₁.same]
    exact hfits s₀ hs₀
  have hp₁ := hp.retable (f := Planner.regrouped db₁.catalog) fun _ => rfl
  have hmeaning : (p.retable (Planner.regrouped db₁.catalog)).meaning (view db₁ groups₁).rows =
      p.meaning (view db groups).rows := by
    rw [Plan.meaning_retable (f := Planner.regrouped db₁.catalog) (fun _ => rfl), h₁.same]
  have hopen := open_returns mach h₁.sound hp₁ (h₁.sound.reads hp₁ (fun s hs => (hscans s hs).1)
    (fun s hs => (hscans s hs).2) hfits₁) (hmeaning ▸ hsafe)
  rw [hmeaning, h₁.same] at hopen
  exact hopen.mono fun r db' hr => ⟨hr.1.trans (Plan.outputNames_retable p), hr.2⟩

theorem fromTables_selectAll {schema : Schema} {rgs : List RowGroup} {cols : List (List Value)}
    (h : Alone schema rgs cols db) : Planner.fromTables db.catalog selectAll.tables =
      .ok [(⟨Bytes.ofAscii "t", schema, rgs⟩, Bytes.ofAscii "t")] := by
  show [(⟨Bytes.ofAscii "t", Bytes.ofAscii "t"⟩ : TableRef)].mapM _ = _
  rw [List.mapM_cons, List.mapM_nil]
  dsimp only
  rw [h.table]
  rfl

/-- `SELECT * FROM t` is planned as a scan of both columns. -/
theorem planSelect_selectAll {schema : Schema} {rgs : List RowGroup} {cols : List (List Value)}
    (hcolumns : schema.columns = columnsOf twoInts) (h : Alone schema rgs cols db) :
    ∃ scan, Planner.planSelect selectAll db.catalog = .ok (.projection (.scan scan) [0, 1]
      [Bytes.ofAscii "a", Bytes.ofAscii "b"]) ∧ scan.table.schema = schema := by
  have hfrom := fromTables_selectAll h
  obtain ⟨columns, hnumbered, hnamed⟩ := schema
  obtain rfl : columns = columnsOf twoInts := hcolumns
  have hsingle : Planner.planSelect selectAll db.catalog = Planner.planSingle selectAll
      [(Bytes.ofAscii "t", Bytes.ofAscii "a"), (Bytes.ofAscii "t", Bytes.ofAscii "b")]
      (⟨Bytes.ofAscii "t", ⟨columnsOf twoInts, hnumbered, hnamed⟩, rgs⟩, Bytes.ofAscii "t") := by
    unfold Planner.planSelect
    rw [hfrom]
    rfl
  rw [hsingle]
  exact ⟨_, Planner.planSingle_of rfl (Planner.scanInfo_of_sorted [0, 1] rfl (by simp) rfl) rfl rfl
    rfl rfl, rfl⟩

theorem named_selectAll {schema : Schema} {rgs : List RowGroup} {cols : List (List Value)}
    (hcolumns : schema.columns = columnsOf twoInts) (h : Alone schema rgs cols db) :
    Planner.Named db.catalog selectAll := by
  intro tr htr m hm
  obtain rfl := List.mem_singleton.mp htr
  obtain rfl := Option.some.inj (h.table.symm.trans hm)
  have ht : Planner.Nameable (Bytes.ofAscii "t") := by decide
  refine ⟨ht, ?_⟩
  show ∀ col ∈ schema.columns, Planner.Nameable col.name
  rw [hcolumns]
  decide

end DB

end LiteOLAP
