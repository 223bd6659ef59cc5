import LiteOLAP.ForStd.Outcomes
import LiteOLAP.Spec.StreamRows
import LiteOLAP.Spec.TableContents

/-!
# What a plan means

A plan stands for a list of rows, made of the rows of its tables one operator after the other:
no batches, no zone maps, no hash tables, no workers. Where it depends on the schedule of the
workers in which order the groups come out, any order will do. The operators deliver what the
plan stands for.

## Key results

- `Plan.meaning`: the rows that a plan stands for
- `ColumnScan.open_delivers`: the rows of a scan, without some that are not in the zone
- `Plan.open_delivers`: a plan delivers what it stands for
-/

namespace LiteOLAP

open BufferPool (Pin Serving PinRoom Fetchable Roomy)

namespace Plan

/-- The rows that a plan stands for, given those of every table. What comes out is only said
    where every row that meets a predicate can be decided, where the build side of a join is not
    too long for its index, and where all groups can be told apart and computed. -/
def meaning (tables : Bytes → List Row) : Plan → Outcomes (List Row)
  | scan s => pure ((tables s.table.name).map (project s.colIdx))
  | hashJoin left right leftKey rightKey => do
    let rs ← right.meaning tables
    Outcomes.require (rs.length ≤ 2 ^ 32)
    let ls ← left.meaning tables
    pure (nestedLoop leftKey rightKey ls rs)
  | filter child predicate => do
    let rows ← child.meaning tables
    Outcomes.require (∀ r ∈ rows, ∃ b, decideRow predicate child.outputTypes r = .ok b)
    pure (rows.filter (keeps predicate child.outputTypes))
  | hashAggregate child groupIndices _ _ aggs => do
    let rows ← child.meaning tables
    Outcomes.require (HashAggregate.Groupable groupIndices aggs rows)
    Outcomes.choose {out | out.Perm (HashAggregate.grouped groupIndices aggs rows)}
  | projection child sources _ => do
    let rows ← child.meaning tables
    pure (rows.map (project sources))
  | orderBy child key desc => do
    let rows ← child.meaning tables
    pure (OrderByOp.sortRows key desc rows)
  | limit child n => do
    let rows ← child.meaning tables
    pure (rows.take n)

/-- No row that the predicate keeps is outside the zone. -/
def ZoneCovers (z : ZoneFilter) (predicate : BoundExpr) (types : List ColumnType) : Prop :=
  ∀ r, rowTyped types r = true → keeps predicate types r = true →
    ColumnScan.InZone z (r.getD z.pos .null)

/-- The positions in the plan are there, with the types that the plan says. A scan has a zone filter
    only under a predicate that lets no other row pass. -/
inductive Sound : Plan → Prop
  | scan {s : ColumnScan} : s.WellFormed → s.zone = none → Sound (scan s)
  | zoned {s : ColumnScan} {predicate : BoundExpr} : s.WellFormed →
      (∀ z, s.zone = some z → ZoneCovers z predicate s.outputTypes) → Sound (filter (scan s) predicate)
  | filter {child : Plan} {predicate : BoundExpr} : Sound child → Sound (filter child predicate)
  | hashJoin {left right : Plan} {leftKey rightKey : Nat} : Sound left → Sound right →
      leftKey < left.outputTypes.length → rightKey < right.outputTypes.length →
      Sound (hashJoin left right leftKey rightKey)
  | hashAggregate {child : Plan} {groupIndices : List Nat} {names : List Bytes}
      {groupTypes : List ColumnType} {aggs : List AggSpec} : Sound child →
      List.Forall₂ (fun gi t => child.outputTypes[gi]? = some t) groupIndices groupTypes →
      Sound (hashAggregate child groupIndices names groupTypes aggs)
  | projection {child : Plan} {sources : List Nat} {names : List Bytes} : Sound child →
      (∀ s ∈ sources, s < child.outputTypes.length) → Sound (projection child sources names)
  | orderBy {child : Plan} {key : Nat} {desc : Bool} : Sound child →
      key < child.outputTypes.length → Sound (orderBy child key desc)
  | limit {child : Plan} {n : Nat} : Sound child → Sound (limit child n)

end Plan

/-! ## Scans -/

section

variable {usable : List Nat} {apart : List PageId} {pages : List Page} {bp : BufferPool}

namespace ColumnScan

variable {s : ColumnScan} {groups : List StoredGroup}

/-- `Open`: the batches of the slices that are kept. -/
theorem open_returns (h : Serving usable apart bp [] pages) (hroom : PinRoom usable [] 1)
    (hs : s.WellFormed) (hgroups : Readable apart [] pages s groups) :
    EStateM.Returns Roomy s.open bp fun stream bp' =>
      (stream.types = s.outputTypes ∧ stream.fail = none ∧
        List.Forall₂ (IsBatch s) ((slicesOf groups).filter s.keeps) stream.batches) ∧
      Serving usable apart bp' [] pages := by
  have hstored : List.Forall₂ (fun sg g => GroupStored pages s.table.schema g sg ∧ sg ∈ groups)
      groups s.table.rowGroups := by
    refine List.forall₂_iff_get.mpr ⟨hgroups.stored.length_eq.symm, fun i hi hi' => ?_⟩
    exact ⟨(List.forall₂_iff_get.mp hgroups.stored).2 i hi' hi, List.get_mem groups ⟨i, hi⟩⟩
  have hover : ∀ g, EStateM.StaysOver Roomy (inThread (s.decodeRg g)) := fun g =>
    staysOver_of_keeps (keeps_inThread (s.keeps_decodeRg g))
  refine (EStateM.Returns.mapM hover hstored h fun sg _ g bp' ⟨hg, hsg⟩ h' =>
    inThread_returns (decodeRg_returns h' hroom hs hg (hgroups.fetchable sg hsg)
      (hgroups.fits sg hsg))).bind (fun _ => EStateM.staysOver_pure _)
    fun perRg bp' ⟨hall, h'⟩ => EStateM.returns_pure ⟨⟨rfl, rfl, ?_⟩, h'⟩
  rw [slicesOf, List.filter_flatMap]
  exact List.forall₂_flatMap hall

theorem flatten_slicesOf (groups : List StoredGroup) : (slicesOf groups).flatten = rowsOf groups := by
  rw [slicesOf, rowsOf, List.flatMap_def, List.flatMap_def, List.flatten_flatten, List.map_map]
  exact congrArg List.flatten
    (List.map_congr_left fun sg _ => List.flatten_slices kChunkRows_pos sg.rows)

/-- A scan delivers the rows of the slices that are kept. -/
theorem open_delivers (h : Serving usable apart bp [] pages) (hroom : PinRoom usable [] 1)
    (hs : s.WellFormed) (hgroups : Readable apart [] pages s groups) :
    EStateM.Returns Roomy s.open bp fun stream bp' =>
      stream.Delivers s.outputTypes
        (((slicesOf groups).filter s.keeps).flatten.map (project s.colIdx)) ∧
      Serving usable apart bp' [] pages := by
  refine (open_returns h hroom hs hgroups).mono fun stream bp' ⟨⟨htypes, hfail, hbatches⟩, h'⟩ => ?_
  have hmem : ∀ b ∈ stream.batches, ∃ slice ∈ (slicesOf groups).filter s.keeps, IsBatch s slice b :=
    fun b hb => List.exists_of_forall₂_mem hbatches hb
  refine ⟨⟨⟨fun b hb => ?_, fun b hb => ?_, hfail⟩, htypes, ?_⟩, h'⟩
  · obtain ⟨slice, hslice, hbatch⟩ := hmem b hb
    obtain ⟨sg, -, hslice⟩ := List.mem_flatMap.mp (List.mem_of_mem_filter hslice)
    rw [hbatch.cardinality]
    exact List.length_pos_of_ne_nil (List.mem_slices kChunkRows_pos hslice).1
  · obtain ⟨slice, -, hbatch⟩ := hmem b hb
    exact (hbatch.types hs).trans htypes.symm
  · rw [BatchStream.rows]
    clear hmem
    generalize stream.batches = bs at hbatches
    generalize (slicesOf groups).filter s.keeps = slices at hbatches
    induction hbatches with
    | nil => rfl
    | cons hb _ ih => rw [List.flatMap_cons, ih, hb.rows hs, List.flatten_cons, List.map_append]

/-- The rows of a table have the types of the columns that are read. -/
theorem project_typed (hs : s.WellFormed) {r : Row}
    (hr : rowTyped s.table.schema.types r = true) : rowTyped s.outputTypes (project s.colIdx r) = true := by
  have htyped := rowTyped_of_forall₂ (f := id) (g := fun c => r.getD c .null)
    (hs.columns.imp fun c t hct => by
      obtain ⟨col, hcol, rfl⟩ := hct
      exact rowTyped_getD hr (by rw [Schema.types, List.getElem?_map, hcol]; rfl))
  rwa [List.map_id] at htyped

theorem typed_of_stored (hstored : TableStored pages s.table groups) {r : Row} (hr : r ∈ rowsOf groups) :
    rowTyped s.table.schema.types r = true := by
  obtain ⟨sg, hsg, hr⟩ := List.mem_flatMap.mp hr
  obtain ⟨g, -, hg⟩ := List.exists_of_forall₂_mem hstored hsg
  exact hg.typed r hr

/-- A typed slice has a batch. -/
theorem exists_isBatch (hs : s.WellFormed) {b : List Row}
    (htyped : ∀ r ∈ b, rowTyped s.table.schema.types r = true) : ∃ chunk, IsBatch s b chunk := by
  have hcols : ∀ c ∈ s.cols, ∀ v ∈ column c.1 b, v.hasType c.2 = true := fun c hc => by
    obtain ⟨col, hcol, htype⟩ := hs.exists_column hc
    exact htype ▸ typed_column htyped hcol
  obtain ⟨vs, hvs⟩ : ∃ vs : List Vector, List.Forall₂ (fun (c : Nat × ColumnType) (v : Vector) =>
      v.type = c.2 ∧ v.values = column c.1 b) s.cols vs := by
    generalize s.cols = cs at hcols
    induction cs with
    | nil => exact ⟨[], .nil⟩
    | cons c cs ih =>
      obtain ⟨vs, hvs⟩ := ih fun c' hc' => hcols c' (List.mem_cons_of_mem _ hc')
      exact ⟨⟨c.2, column c.1 b, hcols c List.mem_cons_self⟩ :: vs, .cons ⟨rfl, rfl⟩ hvs⟩
  have hrect : ∀ v ∈ vs, v.values.length = b.length := fun v hv => by
    obtain ⟨c, -, hcv⟩ := List.exists_of_forall₂_mem hvs hv
    rw [hcv.2, length_column]
  exact ⟨⟨vs, b.length, hrect⟩, rfl, hvs⟩

/-- Under a predicate that keeps only rows in the zone, it makes no difference that slices are
    skipped. -/
theorem filter_keeps (hs : s.WellFormed) (hstored : TableStored pages s.table groups)
    {predicate : BoundExpr} (hzone : ∀ z, s.zone = some z → Plan.ZoneCovers z predicate s.outputTypes) :
    (((slicesOf groups).filter s.keeps).flatten.map (project s.colIdx)).filter
        (LiteOLAP.keeps predicate s.outputTypes) =
      ((rowsOf groups).map (project s.colIdx)).filter (LiteOLAP.keeps predicate s.outputTypes) := by
  have hskip : ∀ b ∈ slicesOf groups, s.keeps b = false →
      (b.map (project s.colIdx)).filter (LiteOLAP.keeps predicate s.outputTypes) = [] := by
    intro b hb hskip
    have htyped : ∀ r ∈ b, rowTyped s.table.schema.types r = true := fun r hr =>
      typed_of_stored hstored (by
        rw [← flatten_slicesOf]
        exact List.mem_flatten_of_mem hb hr)
    cases hz : s.zone with
    | none =>
      rw [keeps, hz] at hskip
      cases hskip
    | some z =>
      obtain ⟨chunk, hchunk⟩ := exists_isBatch hs htyped
      refine List.filter_eq_nil_iff.mpr fun r hr hkeep => ?_
      have hout := not_inZone_of_skipped hs hz htyped hskip hchunk r (hchunk.rows hs ▸ hr)
      obtain ⟨row, hrow, rfl⟩ := List.mem_map.mp hr
      exact hout (hzone z hz _ (project_typed hs (htyped row hrow)) hkeep)
  rw [← flatten_slicesOf]
  generalize slicesOf groups = bs at hskip
  induction bs with
  | nil => rfl
  | cons b bs ih =>
    have hrest := ih fun c hc => hskip c (List.mem_cons_of_mem _ hc)
    rw [List.flatten_cons, List.map_append, List.filter_append, ← hrest]
    cases hkeep : s.keeps b with
    | true => rw [List.filter_cons_of_pos hkeep, List.flatten_cons, List.map_append, List.filter_append]
    | false =>
      rw [List.filter_cons_of_neg (by simp [hkeep]), hskip b List.mem_cons_self hkeep,
        List.nil_append]

end ColumnScan

/-! ## Plans -/

namespace Plan

variable {tables : Bytes → List Row} {p : Plan}

/-- The scans of a plan read row groups that are stored, can be fetched and fit. -/
def Reads (apart : List PageId) (pages : List Page) (tables : Bytes → List Row) (p : Plan) : Prop :=
  ∀ s ∈ p.scans, ∃ groups, ColumnScan.Readable apart [] pages s groups ∧
    tables s.table.name = rowsOf groups

private theorem staysOver_open (m : Machine) (p : Plan) : EStateM.StaysOver Roomy (p.open m) :=
  (p.keeps_open m).staysOver (· < 2 ^ 32)

/-- Whatever the machine, a plan delivers rows that it may stand for. -/
theorem open_delivers (hroom : PinRoom usable [] 1) (m : Machine) (hp : p.Sound) :
    ∀ {bp : BufferPool}, Serving usable apart bp [] pages → p.Reads apart pages tables →
      (p.meaning tables).safe →
      EStateM.Returns Roomy (p.open m) bp fun stream bp' =>
        (∃ rows ∈ (p.meaning tables).may, stream.Delivers p.outputTypes rows) ∧
        Serving usable apart bp' [] pages := by
  induction hp with
  | @scan s hs hzone =>
    intro bp h hreads _
    obtain ⟨groups, hgroups, hrows⟩ := hreads s (List.mem_singleton_self s)
    refine (ColumnScan.open_delivers h hroom hs hgroups).mono fun stream bp' hopened =>
      ⟨⟨_, rfl, ?_⟩, hopened.2⟩
    have hstream := hopened.1
    -- without a zone filter all slices are kept
    have hall : (ColumnScan.slicesOf groups).filter s.keeps = ColumnScan.slicesOf groups :=
      List.filter_eq_self.mpr fun b _ => by rw [ColumnScan.keeps, hzone]
    rwa [hall, ColumnScan.flatten_slicesOf, ← hrows] at hstream
  | @zoned s predicate hs hzone =>
    intro bp h hreads hsafe
    obtain ⟨groups, hgroups, hrows⟩ := hreads s (List.mem_singleton_self s)
    obtain ⟨-, hsafe⟩ := Outcomes.safe_bind.mp hsafe
    obtain ⟨hdecide, -⟩ := Outcomes.safe_bind.mp (hsafe _ rfl)
    refine (ColumnScan.open_delivers h hroom hs hgroups).bind (fun _ => EStateM.staysOver_pure _)
      fun stream bp' hopened =>
        EStateM.returns_pure ⟨⟨_, ⟨_, rfl, (), rfl, rfl⟩, ?_⟩, hopened.2⟩
    rw [hrows] at hdecide ⊢
    refine (ColumnScan.filter_keeps hs hgroups.stored hzone) ▸ ?_
    refine Filter.delivers hopened.1 fun r hr => hdecide r ?_
    -- a row that is kept is a row of the table
    rw [← ColumnScan.flatten_slicesOf]
    obtain ⟨row, hrow, rfl⟩ := List.mem_map.mp hr
    obtain ⟨b, hb, hrow⟩ := List.mem_flatten.mp hrow
    exact List.mem_map_of_mem (List.mem_flatten_of_mem (List.mem_of_mem_filter hb) hrow)
  | @filter child predicate _ ih =>
    intro bp h hreads hsafe
    obtain ⟨hchild, hsafe⟩ := Outcomes.safe_bind.mp hsafe
    refine (ih h hreads hchild).bind (fun _ => EStateM.staysOver_pure _)
      fun stream bp' hopened => ?_
    obtain ⟨⟨rows, hrows, hstream⟩, h'⟩ := hopened
    obtain ⟨hdecide, -⟩ := Outcomes.safe_bind.mp (hsafe rows hrows)
    exact EStateM.returns_pure
      ⟨⟨_, ⟨rows, hrows, (), rfl, rfl⟩, Filter.delivers hstream hdecide⟩, h'⟩
  | @hashJoin left right leftKey rightKey _ _ hl hr ihl ihr =>
    intro bp h hreads hsafe
    obtain ⟨hright, hsafe⟩ := Outcomes.safe_bind.mp hsafe
    refine (ihr h (fun s hs => hreads s (List.mem_append_right _ hs)) hright).bind (fun rs =>
      (EStateM.staysOver_ofExcept _).bind fun built => (staysOver_open m left).bind fun ls =>
        EStateM.staysOver_pure _) fun right' bp₁ hopened => ?_
    obtain ⟨⟨rs, hrs, hrights⟩, h₁⟩ := hopened
    obtain ⟨hcount, hsafe⟩ := Outcomes.safe_bind.mp (hsafe rs hrs)
    obtain ⟨hleft, -⟩ := Outcomes.safe_bind.mp (hsafe () rfl)
    obtain ⟨built, hbuilt, hdelivers⟩ := HashJoin.delivers hrights hl hr hcount
    rw [hbuilt]
    refine EStateM.Returns.ofExcept_bind ?_
    refine (ihl h₁ (fun s hs => hreads s (List.mem_append_left _ hs)) hleft).bind
      (fun _ => EStateM.staysOver_pure _) fun left' bp₂ hopened => ?_
    obtain ⟨⟨ls, hls, hlefts⟩, h₂⟩ := hopened
    exact EStateM.returns_pure
      ⟨⟨_, ⟨rs, hrs, (), rfl, ls, hls, rfl⟩, hdelivers left' ls hlefts⟩, h₂⟩
  | @hashAggregate child groupIndices names groupTypes aggs _ hgroup ih =>
    intro bp h hreads hsafe
    obtain ⟨hchild, hsafe⟩ := Outcomes.safe_bind.mp hsafe
    refine (ih h hreads hchild).bind (fun _ => (EStateM.staysOver_ofExcept _).bind fun _ =>
      EStateM.staysOver_pure _) fun stream bp' hopened => ?_
    obtain ⟨⟨rows, hrows, hstream⟩, h'⟩ := hopened
    obtain ⟨hgroupable, -⟩ := Outcomes.safe_bind.mp (hsafe rows hrows)
    obtain ⟨agg, out, hopen, hperm, hdelivers⟩ :=
      HashAggregate.delivers hstream hgroup hgroupable m.hw m.assign
    rw [hopen]
    exact EStateM.Returns.ofExcept_bind (EStateM.returns_pure
      ⟨⟨out, ⟨rows, hrows, (), rfl, hperm⟩, hdelivers⟩, h'⟩)
  | @projection child sources names _ hsources ih =>
    intro bp h hreads hsafe
    refine (ih h hreads (Outcomes.safe_bind.mp hsafe).1).bind (fun _ => EStateM.staysOver_pure _)
      fun stream bp' hopened => ?_
    obtain ⟨⟨rows, hrows, hstream⟩, h'⟩ := hopened
    exact EStateM.returns_pure
      ⟨⟨_, ⟨rows, hrows, rfl⟩, Projection.delivers hstream hsources⟩, h'⟩
  | @orderBy child key desc _ hkey ih =>
    intro bp h hreads hsafe
    refine (ih h hreads (Outcomes.safe_bind.mp hsafe).1).bind (fun _ =>
      (EStateM.staysOver_ofExcept _).bind fun _ => EStateM.staysOver_pure _)
      fun stream bp' hopened => ?_
    obtain ⟨⟨rows, hrows, hstream⟩, h'⟩ := hopened
    obtain ⟨o, hopen, hdelivers⟩ := OrderByOp.delivers hstream hkey desc
    rw [hopen]
    exact EStateM.Returns.ofExcept_bind (EStateM.returns_pure
      ⟨⟨_, ⟨rows, hrows, rfl⟩, hdelivers⟩, h'⟩)
  | @limit child n _ ih =>
    intro bp h hreads hsafe
    refine (ih h hreads (Outcomes.safe_bind.mp hsafe).1).bind (fun _ => EStateM.staysOver_pure _)
      fun stream bp' hopened => ?_
    obtain ⟨⟨rows, hrows, hstream⟩, h'⟩ := hopened
    exact EStateM.returns_pure ⟨⟨_, ⟨rows, hrows, rfl⟩, Limit.delivers hstream n⟩, h'⟩

end Plan

end

end LiteOLAP
