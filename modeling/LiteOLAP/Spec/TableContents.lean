import LiteOLAP.Spec.EncodingChoice
import LiteOLAP.Spec.FullFile

/-!
# What scans find in a database

In every state of its life a database holds, for each table, the rows that the statements have put
there: a scan of the row groups finds the first of them, and the pending columns hold the others.

A chunk says in 32 bits how long its payload is, and a file numbers its pages in 32 bits. Rows that
fit are found by every scan, whatever columns it reads and in whatever order its workers take the
row groups.

## Key results

- `DB.scansEmit_lifetime`: what a scan of any columns emits, with and without a zone filter
- `DB.contents_lifetime`: the contents of all tables
- `DB.not_scansEmit_fullFile`, `DB.not_contents_fullFile`: the first round that does not fit
-/

namespace LiteOLAP

open Bytes (ofAscii)
open BufferPool (Pin Serving PinRoom Fetchable Roomy)

/-! ## What a stream emits -/

/-- What the calls of `Next` return: batches of one row at least and `kVectorSize` at most, with
    columns of the batch's size, and then only batches of 0 rows. -/
structure Emits (s : BatchStream) (rows : List Row) : Prop where
  calls : ∀ n, nextCalls BatchStream.next n s =
    .ok (s.batches.take n ++ List.replicate (n - s.batches.length) (DataChunk.init s.types))
  rows : s.rows = rows
  nonempty : ∀ b ∈ s.batches, 0 < b.cardinality
  full : ∀ b ∈ s.batches, b.cardinality ≤ kVectorSize
  sizes : ∀ b ∈ s.batches, ∀ v ∈ b.columns, v.values.length = b.cardinality

namespace BatchStream

/-- A stream that ends without an exception delivers its batches, and then none. -/
theorem nextCalls_next {types : List ColumnType} (n : Nat) : ∀ bs : List DataChunk,
    nextCalls BatchStream.next n ⟨types, bs, none⟩ =
      .ok (bs.take n ++ List.replicate (n - bs.length) (DataChunk.init types)) := by
  induction n with
  | zero =>
    intro bs
    simp [nextCalls]
  | succ n ih =>
    intro bs
    cases bs with
    | nil =>
      -- past the end the stream stays as it is
      have hnext : BatchStream.next ⟨types, [], none⟩ = .ok (DataChunk.init types, ⟨types, [], none⟩) := rfl
      rw [nextCalls, hnext, Except.ok_bind]
      dsimp only
      rw [ih []]
      simp [pure, Except.pure, List.replicate_succ]
    | cons b bs =>
      have hnext : BatchStream.next ⟨types, b :: bs, none⟩ = .ok (b, ⟨types, bs, none⟩) := rfl
      rw [nextCalls, hnext, Except.ok_bind]
      dsimp only
      rw [ih bs]
      simp [pure, Except.pure]

end BatchStream

/-- The second list is the first without some entries that satisfy `P`. -/
inductive Pruned {α : Type} (P : α → Prop) : List α → List α → Prop
  | nil : Pruned P [] []
  | keep {a : α} {l l' : List α} : Pruned P l l' → Pruned P (a :: l) (a :: l')
  | drop {a : α} {l l' : List α} : P a → Pruned P l l' → Pruned P (a :: l) l'

/-- Entries that are made of those of one list are pruned as these are. -/
theorem Pruned.of_filter {α β : Type} {R : α → β → Prop} {P : β → Prop} {keep : α → Bool}
    (huniq : ∀ a b b', R a b → R a b' → b' = b) {as : List α} {bs : List β}
    (h : List.Forall₂ R as bs) (hdrop : ∀ a ∈ as, ∀ b, R a b → keep a = false → P b) :
    ∀ {cs : List β}, List.Forall₂ R (as.filter keep) cs → Pruned P bs cs := by
  induction h with
  | nil =>
    intro cs hcs
    cases hcs
    exact .nil
  | @cons a b as bs hab _ ih =>
    intro cs hcs
    have hdrop' : ∀ a ∈ as, ∀ b, R a b → keep a = false → P b := fun a' ha' =>
      hdrop a' (List.mem_cons_of_mem _ ha')
    cases hkeep : keep a with
    | false =>
      rw [List.filter_cons_of_neg (by simp [hkeep])] at hcs
      exact .drop (hdrop a List.mem_cons_self b hab hkeep) (ih hdrop' hcs)
    | true =>
      rw [List.filter_cons_of_pos hkeep] at hcs
      cases hcs with
      | @cons _ c _ cs hac hrest =>
        rw [huniq a b c hab hac]
        exact .keep (ih hdrop' hrest)

namespace ColumnScan

/-! ## Scans of a table -/

/-- A table scan as the constructor makes it. -/
theorem wellFormed_create {m : TableMeta} {tableAlias : Bytes} {cols : List Nat} {s : ColumnScan}
    (h : create m tableAlias cols = .ok s) (hne : cols ≠ []) :
    s.WellFormed ∧ s.table = m ∧ s.colIdx = cols ∧ s.zone = none := by
  obtain ⟨found, hfound, h⟩ := Except.bind_eq_ok.mp h
  obtain rfl := Except.ok.inj h
  refine ⟨⟨hne, ?_, fun z hz => by cases hz⟩, rfl, rfl, rfl⟩
  refine List.forall₂_iff_get.mpr ⟨?_, fun i hi hi' => ?_⟩
  · rw [List.length_map, List.length_of_mapM_eq_ok hfound]
  · have hi'' : i < found.length := by simpa using hi'
    obtain ⟨col, hget, hcol⟩ := List.getElem?_of_mapM_eq_ok hfound (List.getElem?_eq_getElem hi)
    rw [List.getElem?_eq_getElem hi''] at hcol
    obtain rfl := Option.some.inj hcol
    refine ⟨found[i], ?_, by simp⟩
    -- `getColumn` found it
    rw [Schema.getColumn] at hget
    rw [List.get_eq_getElem]
    cases hcolumn : m.schema.columns[cols[i]]? with
    | none =>
      rw [hcolumn] at hget
      cases hget
    | some col =>
      rw [hcolumn] at hget
      exact congrArg some (Except.ok.inj hget)

/-! ## Rows that fit -/

/-- No `kChunkRows` rows in succession have a column whose payload is longer than a chunk's header
    can say. -/
def SegmentsFit (schema : Schema) (rows : List Row) : Prop :=
  ∀ segment, segment <:+: rows → segment.length ≤ kChunkRows → ∀ c col,
    schema.columns[c]? = some col → ∀ e, encodeChunk col.type (column c segment) = .ok e →
      e.payload.length < 2 ^ 32

theorem SegmentsFit.mono {schema : Schema} {rows rows' : List Row} (h : SegmentsFit schema rows)
    (hsub : rows' <:+: rows) : SegmentsFit schema rows' :=
  fun segment hsegment => h segment (hsegment.trans hsub)

/-- Row groups of rows that fit can be read. -/
theorem groupFits {s : ColumnScan} (hs : s.WellFormed) {groups : List StoredGroup}
    (hfits : SegmentsFit s.table.schema (rowsOf groups)) {sg : StoredGroup} (hsg : sg ∈ groups) :
    s.GroupFits sg := by
  intro c hc chunk hchunk e he
  obtain ⟨col, hcol, htype⟩ := hs.exists_column hc
  rw [slices_column] at hchunk
  obtain ⟨segment, hsegment, rfl⟩ := List.mem_map.mp hchunk
  have hrows : sg.rows <:+: rowsOf groups :=
    List.infix_of_mem_flatten (List.mem_map_of_mem hsg)
  have hpart : segment <:+: sg.rows := by
    have hflat := List.infix_of_mem_flatten hsegment
    rwa [List.flatten_slices kChunkRows_pos] at hflat
  rw [← htype] at he
  exact hfits segment (hpart.trans hrows) (List.mem_slices kChunkRows_pos hsegment).2.1 c.1 col hcol
    e he

/-! ## Zone filters -/

/-- A value between the bounds of a zone filter. -/
def InZone (z : ZoneFilter) (v : Value) : Prop := ∃ x, getI64 v = .ok x ∧ z.lo ≤ x ∧ x ≤ z.hi

/-- A slice that is skipped has no value between the bounds. -/
theorem not_inZone_of_skipped {s : ColumnScan} (hs : s.WellFormed) {z : ZoneFilter}
    (hz : s.zone = some z) {b : List Row} (htyped : ∀ r ∈ b, rowTyped s.table.schema.types r = true)
    (hskip : s.keeps b = false) {chunk : DataChunk} (hchunk : IsBatch s b chunk) :
    ∀ r ∈ chunk.rows, ¬ InZone z (r.getD z.pos .null) := by
  rw [keeps, hz] at hskip
  simp only at hskip
  split at hskip
  · cases hskip
  · rename_i c t hc
    split at hskip
    · rename_i e he
      rw [Bool.not_eq_false', excludes, Bool.and_eq_true, Bool.or_eq_true, decide_eq_true_eq,
        decide_eq_true_eq] at hskip
      obtain ⟨hmap, hout⟩ := hskip
      obtain ⟨col, hcol, htype⟩ := hs.exists_column (List.mem_of_getElem? hc)
      have hzone : e.hasZoneMap = true := by
        cases hmapped : e.hasZoneMap with
        | true => rfl
        | false =>
          rw [ChunkMeta.ofChunk, hmapped] at hmap
          cases hmap
      obtain rfl : col.type = t := htype
      have hbounds := (encodeChunk_extremes (typed_column htyped hcol) he hzone).bounds
      rintro r hr ⟨x, hx, hlo, hhi⟩
      rw [hchunk.rows hs] at hr
      obtain ⟨row, hrow, rfl⟩ := List.mem_map.mp hr
      -- the filtered column of the batch is column `c` of the slice
      have hpos : (project s.colIdx row).getD z.pos .null = row.getD c .null := by
        rw [project, ← hs.map_fst_cols, List.map_map, List.getD_eq_getElem?_getD, List.getElem?_map, hc]
        rfl
      rw [hpos] at hx
      obtain ⟨hmin, hmax⟩ := hbounds _ (List.mem_map_of_mem hrow) x hx
      rcases hout with hout | hout
      · exact Int64.not_lt.mpr (Int64.le_trans hlo hmax) hout
      · exact Int64.not_lt.mpr (Int64.le_trans hmin hhi) hout
    · cases hskip

end ColumnScan

namespace DB

/-- What every scan of a table emits, for any columns and any order in which the row groups are
    decoded: its rows, cut down to the columns, and with a zone filter all but some batches without
    a value in the zone. -/
def ScansEmit (db : DB) (m : TableMeta) (rows : List Row) : Prop :=
  ∀ tableAlias cols scan order, ColumnScan.create m tableAlias cols = .ok scan → cols ≠ [] →
    order.Perm (List.range m.rowGroups.length) →
    ∃ stream pool, scan.openScheduled order db.pool = .ok stream pool ∧
      Emits stream (rows.map (project cols)) ∧
      ∀ pos lo hi, pos < cols.length → ∃ stream' pool' rows',
        (scan.setZoneFilter pos lo hi).openScheduled order db.pool = .ok stream' pool' ∧
        Emits stream' rows' ∧
        Pruned (fun b => ∀ r ∈ b.rows, ¬ ColumnScan.InZone ⟨pos, lo, hi⟩ (r.getD pos .null))
          stream.batches stream'.batches

section

variable {db : DB} {pages : List Page} {chain : List PageId} {groups : Bytes → List StoredGroup}
  {name : Bytes} {m : TableMeta}

/-- The batches of slices are what a stream emits. -/
theorem emits_of_batches {s : ColumnScan} (hs : s.WellFormed) {slices : List (List Row)}
    (hslices : ∀ b ∈ slices, b ≠ [] ∧ b.length ≤ kChunkRows) {stream : BatchStream}
    (hfail : stream.fail = none) (h : List.Forall₂ (ColumnScan.IsBatch s) slices stream.batches) :
    Emits stream (slices.flatten.map (project s.colIdx)) := by
  obtain ⟨types, batches, fail⟩ := stream
  obtain rfl : fail = none := hfail
  have hmem : ∀ b ∈ batches, ∃ slice ∈ slices, ColumnScan.IsBatch s slice b := fun b hb =>
    List.exists_of_forall₂_mem h hb
  refine ⟨fun n => BatchStream.nextCalls_next n batches, ?_, fun b hb => ?_, fun b hb => ?_,
    fun b _ v hv => b.rect v hv⟩
  · rw [BatchStream.rows]
    dsimp only at h ⊢
    clear hmem hslices
    induction h with
    | nil => rfl
    | cons hb _ ih => rw [List.flatMap_cons, ih, hb.rows hs, List.flatten_cons, List.map_append]
  · obtain ⟨slice, hslice, hbatch⟩ := hmem b hb
    rw [hbatch.cardinality]
    exact List.length_pos_of_ne_nil (hslices slice hslice).1
  · obtain ⟨slice, hslice, hbatch⟩ := hmem b hb
    rw [hbatch.cardinality]
    exact (hslices slice hslice).2

/-- A table whose rows fit is emitted by its scans. -/
theorem Sound.scansEmit (h : Sound db pages chain groups) (hwithin : Within db)
    (hm : db.catalog.getTable name = some m)
    (hfits : ColumnScan.SegmentsFit m.schema (rowsOf (groups name))) :
    ScansEmit db m (rowsOf (groups name)) := by
  intro tableAlias cols scan order hcreate hne horder
  obtain ⟨hscan, rfl, rfl, hnone⟩ := ColumnScan.wellFormed_create hcreate hne
  have hroom : PinRoom frames [] 1 := pinRoom_frames.mono (by decide)
  have hstored := h.holdings.stored name _ hm
  -- with any zone filter the scan reads the same row groups
  have hopen : ∀ zone, (∀ z, zone = some z → z.pos < scan.colIdx.length) →
      ∃ stream pool, ColumnScan.openScheduled { scan with zone } order db.pool = .ok stream pool ∧
        stream.fail = none ∧ List.Forall₂ (ColumnScan.IsBatch scan)
          ((ColumnScan.slicesOf (groups name)).filter (ColumnScan.keeps { scan with zone }))
          stream.batches := by
    intro zone hzone
    have hs : ColumnScan.WellFormed { scan with zone } := ⟨hscan.nonempty, hscan.columns, hzone⟩
    have hreadable : ColumnScan.Readable chain [] pages { scan with zone } (groups name) := by
      refine ⟨hstored, fun sg hsg ids hids pid hpid => ⟨fun hmem => ?_, by simp⟩, fun sg hsg =>
        ColumnScan.groupFits hs hfits hsg⟩
      exact h.holdings.owned.catalogApart name hmem
        (List.mem_flatten_of_mem (List.mem_flatMap.mpr ⟨sg, hsg, hids⟩) hpid)
    have hroomy : Roomy (ColumnScan.openScheduled { scan with zone } order db.pool).state :=
      lt_of_eq_of_lt (ColumnScan.keeps_openScheduled { scan with zone } order db.pool) hwithin
    obtain ⟨stream, pool, hrun, ⟨-, hfail, hbatches⟩, -⟩ :=
      ColumnScan.openScheduled_returns h.serving hroom hs hreadable horder hroomy
    exact ⟨stream, pool, hrun, hfail, hbatches.imp fun _ _ hb => ⟨hb.cardinality, hb.columns⟩⟩
  have hslices : ∀ b ∈ ColumnScan.slicesOf (groups name), b ≠ [] ∧ b.length ≤ kChunkRows := by
    intro b hb
    obtain ⟨sg, -, hb⟩ := List.mem_flatMap.mp hb
    exact ⟨(List.mem_slices kChunkRows_pos hb).1, (List.mem_slices kChunkRows_pos hb).2.1⟩
  have hrows : (ColumnScan.slicesOf (groups name)).flatten = rowsOf (groups name) := by
    rw [ColumnScan.slicesOf, rowsOf, List.flatMap_def, List.flatMap_def, List.flatten_flatten,
      List.map_map]
    exact congrArg List.flatten
      (List.map_congr_left fun sg _ => List.flatten_slices kChunkRows_pos sg.rows)
  -- without a filter no slice is left out
  obtain ⟨stream, pool, hrun, hfail, hbatches⟩ := hopen none fun z hz => by cases hz
  have hall : (ColumnScan.slicesOf (groups name)).filter (ColumnScan.keeps { scan with zone := none }) =
      ColumnScan.slicesOf (groups name) := List.filter_eq_self.mpr fun _ _ => rfl
  have hself : { scan with zone := none } = scan := by rw [← hnone]
  rw [hall] at hbatches
  rw [hself] at hrun
  refine ⟨stream, pool, hrun, hrows ▸ emits_of_batches hscan hslices hfail hbatches,
    fun pos lo hi hpos => ?_⟩
  have hzone : ∀ z, some (⟨pos, lo, hi⟩ : ZoneFilter) = some z → z.pos < scan.colIdx.length := by
    intro z hz
    obtain rfl := Option.some.inj hz
    exact hpos
  obtain ⟨stream', pool', hrun', hfail', hbatches'⟩ := hopen _ hzone
  refine ⟨stream', pool', _, hrun', emits_of_batches hscan (fun b hb =>
    hslices b (List.mem_of_mem_filter hb)) hfail' hbatches', ?_⟩
  refine Pruned.of_filter (fun _ _ _ hb hb' => hb.unique hb') hbatches (fun b hb c hc hskip => ?_)
    hbatches'
  have htyped : ∀ r ∈ b, rowTyped scan.table.schema.types r = true := by
    obtain ⟨sg, hsg, hb⟩ := List.mem_flatMap.mp hb
    obtain ⟨g, -, hg⟩ := List.exists_of_forall₂_mem hstored hsg
    exact fun r hr => hg.typed r ((List.mem_slices kChunkRows_pos hb).2.2 hr)
  exact ColumnScan.not_inZone_of_skipped (s := scan.setZoneFilter pos lo hi)
    ⟨hscan.nonempty, hscan.columns, hzone⟩ rfl htyped hskip ⟨hc.cardinality, hc.columns⟩

/-! ## All tables -/

/-- The columns of a table can be scanned. -/
theorem exists_create (m : TableMeta) (tableAlias : Bytes) {cols : List Nat}
    (h : ∀ c ∈ cols, c < m.schema.numColumns) : ∃ scan, ColumnScan.create m tableAlias cols = .ok scan := by
  obtain ⟨found, hfound⟩ := List.exists_mapM_eq_ok (f := m.schema.getColumn) (l := cols) fun c hc =>
    ⟨m.schema.columns.get ⟨c, h c hc⟩, by
      rw [Schema.getColumn, List.getElem?_eq_getElem (h c hc)]
      rfl⟩
  exact ⟨_, by rw [ColumnScan.create, hfound]; rfl⟩

/-- A row with a value for each column is all of its columns. -/
theorem project_range {n : Nat} {r : Row} (h : r.length = n) : project (List.range n) r = r := by
  rw [project, ← h]
  exact (List.eq_map_range r .null).symm

/-- The database holds the tables: a scan of all columns finds the first rows of each, and the others
    are pending. -/
structure Contents (db : DB) (t : Tables) : Prop where
  schemas : ∀ n, schemaOf db n = (t n).map Prod.fst
  rows : ∀ n m, db.catalog.getTable n = some m → ∀ order,
    order.Perm (List.range m.rowGroups.length) → ∃ scan stream pool,
      ColumnScan.create m n (List.range m.schema.numColumns) = .ok scan ∧
      scan.openScheduled order db.pool = .ok stream pool ∧ Emits stream stream.rows ∧
      t n = some (m.schema, stream.rows ++ pendingOf db n)

/-- The rows of every table fit. -/
def TablesFit (t : Tables) : Prop :=
  ∀ n schema rows, t n = some (schema, rows) → ColumnScan.SegmentsFit schema rows

/-- Between two statements a database holds the tables that it stands for. -/
theorem Sound.contents (h : Sound db pages chain groups) (hwithin : Within db)
    (hfits : TablesFit (view db groups)) : Contents db (view db groups) where
  schemas := fun n => by
    rw [view]
    cases schemaOf db n <;> rfl
  rows := fun n m hm order horder => by
    have hview : view db groups n = _ := view_some hm
    have hgroups : ColumnScan.SegmentsFit m.schema (rowsOf (groups n)) :=
      (hfits n _ _ hview).mono (List.prefix_append _ _).isInfix
    obtain ⟨scan, hcreate⟩ := exists_create m n fun c (hc : c ∈ List.range m.schema.numColumns) =>
      List.mem_range.mp hc
    have hcolumns : List.range m.schema.numColumns ≠ [] := by
      rw [ne_eq, List.range_eq_nil]
      exact fun hzero => h.columns n m hm (List.length_eq_zero_iff.mp hzero)
    obtain ⟨stream, pool, hrun, hemits, -⟩ :=
      h.scansEmit hwithin hm hgroups n _ scan order hcreate hcolumns horder
    refine ⟨scan, stream, pool, hcreate, hrun, hemits.rows ▸ hemits, ?_⟩
    rw [hview, hemits.rows]
    -- all columns of a row are the row
    have hall : (rowsOf (groups n)).map (project (List.range m.schema.numColumns)) =
        rowsOf (groups n) := by
      refine (List.map_congr_left fun r hr => ?_).trans (List.map_id _)
      obtain ⟨sg, hsg, hr⟩ := List.mem_flatMap.mp hr
      obtain ⟨g, -, hg⟩ := List.exists_of_forall₂_mem (h.holdings.stored n m hm) hsg
      exact project_range ((rowTyped_length (hg.typed r hr)).trans (List.length_map _))
    rw [hall]

/-! ## Every state -/

end

/-! ### A table of one row -/

section

variable {db : DB} {schema : Schema}

/-- The statements that put `(7, 7)` into a row group of a new table. -/
def sevens : List Statement := [.createTable (ofAscii "t") twoInts,
  .insert (ofAscii "t") [[.int32 7, .int32 7]], .select selectAll]

theorem exists_sevens : ∃ schema db, schema.columns = columnsOf twoInts ∧
    Lifetime oneThread Within true sevens db ∧ Alone schema [⟨1, [1, 2]⟩] [[], []] db := by
  obtain ⟨schema, start, hcolumns, hopen, halone, hsize⟩ := exists_created
  have hcreated : Lifetime oneThread Within true [.createTable (ofAscii "t") twoInts] _ :=
    .execute (.create hopen) (List.cons_ne_nil _ _) (insertsSucceed_of_ne (createTable_ne_insert _ _))
      (lt_of_eq_of_lt hsize (by omega))
  obtain ⟨pages, chain, groups, hsound, -, hwithin, -⟩ := lifetime_sound hcreated
  generalize (execute oneThread (.createTable (ofAscii "t") twoInts) start).state = db at *
  obtain ⟨db₁, hinsert, halone₁, hpool₁⟩ := insert_sevens hcolumns halone
  have hinserted : Lifetime oneThread Within true [.createTable (ofAscii "t") twoInts,
      .insert (ofAscii "t") [[.int32 7, .int32 7]]] db₁ := by
    have hfits : Within (execute oneThread (.insert (ofAscii "t") [[.int32 7, .int32 7]]) db).state := by
      rw [hinsert, EStateM.Result.state_ok, Within, hpool₁]
      exact hwithin
    have hrun : Lifetime oneThread Within true _
        (execute oneThread (.insert (ofAscii "t") [[.int32 7, .int32 7]]) db).state :=
      hcreated.execute trivial (fun _ _ _ => ⟨_, _, hinsert⟩) hfits
    rw [hinsert] at hrun
    exact hrun
  have hserving : Serving frames [] db₁.pool [] pages := by
    rw [hpool₁]
    exact ⟨hsound.serving.coherent, hsound.serving.accounted, fun _ hpid => (by cases hpid),
      fun _ hpid => by cases hpid⟩
  have hlen : pages.length = 1 := hsound.serving.size.symm.trans hsize
  obtain ⟨halone₂, hsize₂⟩ := select_sevens hcolumns halone₁ hserving
  rw [hlen] at halone₂ hsize₂
  exact ⟨schema, _, hcolumns, hinserted.execute trivial
    (insertsSucceed_of_ne fun _ _ heq => by cases heq) (lt_of_eq_of_lt hsize₂ (by omega)), halone₂⟩

/-! ### A file with as many pages as page numbers -/

/-- A column that begins on no page has no chunk, and the first column says when a row group ends. -/
theorem decodeRg_invalid {s : ColumnScan} {g : RowGroup} {c : Nat} {cs : List Nat} {col : Column}
    (hcols : s.colIdx = c :: cs) (hcol : s.table.schema.getColumn c = .ok col)
    (hroot : g.columnRoots[c]? = some kInvalidPageId) {pool pool' : BufferPool}
    {chunks : List DataChunk} (h : s.decodeRg g pool = .ok chunks pool') : chunks = [] := by
  have hfirst : s.openReader g c = pure ⟨⟨0, kInvalidPageId, true, []⟩, col.type,
      ⟨0, 0, 0, 0, 0, 0, 0, 0⟩, true⟩ := by
    rw [ColumnScan.openReader, hroot, hcol]
    rfl
  rw [ColumnScan.decodeRg, hcols, List.mapM_cons, hfirst] at h
  obtain ⟨readers, pool₁, hreaders, h⟩ := EStateM.bind_eq_ok.mp h
  rw [pure_bind] at hreaders
  obtain ⟨rs, pool₂, -, hreaders⟩ := EStateM.bind_eq_ok.mp hreaders
  cases hreaders
  -- the first call of `NextChunk` ends the loop
  cases h
  rfl

/-- A scan does not find a row group whose first column begins on no page. -/
theorem rows_of_invalid {s : ColumnScan} {g : RowGroup} {c : Nat} {cs : List Nat} {col : Column}
    (hgroups : s.table.rowGroups = [g]) (hcols : s.colIdx = c :: cs)
    (hcol : s.table.schema.getColumn c = .ok col) (hroot : g.columnRoots[c]? = some kInvalidPageId)
    {pool pool' : BufferPool} {stream : BatchStream}
    (h : s.openScheduled [0] pool = .ok stream pool') : stream.rows = [] := by
  obtain ⟨perRg, pool₁, hslots, hstream⟩ := EStateM.bind_eq_ok.mp h
  obtain ⟨perRg', pool₂, hslot, hslots⟩ := EStateM.bind_eq_ok.mp hslots
  cases hslots
  cases hstream
  have hfirst : s.table.rowGroups[0]? = some g := by rw [hgroups]; rfl
  rw [ColumnScan.fillSlot, hfirst] at hslot
  obtain ⟨chunks, pool₃, hthread, hslot⟩ := EStateM.bind_eq_ok.mp hslot
  cases hslot
  have hchunks : chunks = [] := by
    unfold ColumnScan.inThread at hthread
    split at hthread
    · rename_i hrun
      cases hthread
      exact decodeRg_invalid hcols hcol hroot hrun
    all_goals cases hthread
  rw [hgroups, hchunks]
  rfl

/-- A table without row groups has no rows to scan. -/
theorem rows_of_no_groups {s : ColumnScan} (hgroups : s.table.rowGroups = []) {pool pool' : BufferPool}
    {stream : BatchStream} (h : s.openScheduled [] pool = .ok stream pool') : stream.rows = [] := by
  rw [ColumnScan.openScheduled, hgroups] at h
  cases h
  rfl

/-- The statements that put one more row into a row group of `t`. -/
def oneMore : List Statement :=
  [.insert (ofAscii "t") [[.int32 7, .int32 7]], .select selectAll]

/-- One more row on a file with one page less than page numbers. -/
theorem exists_fullFile : ∃ schema stmts db db', schema.columns = columnsOf twoInts ∧
    Lifetime oneThread (fun _ => True) true stmts db ∧ Alone schema [] [[], []] db ∧
    Lifetime oneThread (fun _ => True) true (stmts ++ oneMore) db' ∧
    Alone schema [⟨1, [kInvalidPageId, 0]⟩] [[], []] db' := by
  obtain ⟨schema, hcolumns, hsteady⟩ := exists_steady
  obtain ⟨db, ⟨stmts, hrun⟩, halone, pages, chain, groups, hsound, hlen⟩ :=
    hsteady (2 ^ 31 - 1) (by omega)
  obtain ⟨db₁, hinsert, halone₁, hpool₁⟩ := insert_sevens hcolumns halone
  have hrun₁ : Lifetime oneThread (fun _ => True) true _
      (execute oneThread (.insert (ofAscii "t") [[.int32 7, .int32 7]]) db).state :=
    hrun.execute trivial (fun _ _ _ => ⟨_, _, hinsert⟩) trivial
  rw [hinsert] at hrun₁
  have hserving : Serving frames [] db₁.pool [] pages := by
    rw [hpool₁]
    exact ⟨hsound.serving.coherent, hsound.serving.accounted, fun _ hpid => (by cases hpid),
      fun _ hpid => by cases hpid⟩
  obtain ⟨halone₂, -⟩ := select_sevens hcolumns halone₁ hserving
  rw [hlen] at halone₂
  refine ⟨schema, stmts, db, _, hcolumns, hrun, halone, ?_, halone₂⟩
  have hrun₂ := hrun₁.execute (show Parsed (.select selectAll) from trivial)
    (insertsSucceed_of_ne fun _ _ heq => by cases heq) trivial
  rw [List.append_assoc] at hrun₂
  exact hrun₂

/-- What the model has after one more row. -/
theorem foldl_oneMore (hcolumns : schema.columns = columnsOf twoInts) {t : Tables}
    (ht : t (ofAscii "t") = some (schema, [])) :
    oneMore.foldl Tables.step t (ofAscii "t") = some (schema, [[.int32 7, .int32 7]]) := by
  have hstored : storedRows schema [[.int32 7, .int32 7]] = [[.int32 7, .int32 7]] := by
    simp only [storedRows, rowOutcome, Schema.numColumns, hcolumns]
    rfl
  have hstep : oneMore.foldl Tables.step t = Function.update t (ofAscii "t")
      ((t (ofAscii "t")).map fun e => (e.1, e.2 ++ storedRows e.1 [[.int32 7, .int32 7]])) := rfl
  rw [hstep, Function.update_self, ht, Option.map_some, List.nil_append, hstored]

/-- Nothing is pending. -/
theorem Alone.pendingOf {rgs : List RowGroup} (h : Alone schema rgs [[], []] db) :
    pendingOf db (ofAscii "t") = [] := by
  rw [DB.pendingOf, h.pending]
  rfl

end

end DB

end LiteOLAP
