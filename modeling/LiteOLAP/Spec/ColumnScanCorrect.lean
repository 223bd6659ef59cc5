import LiteOLAP.Native.ColumnScan
import LiteOLAP.Spec.ColumnStreamCorrect

/-!
# Scans

A table on disk is a list of row groups, each a list of rows whose columns are stored as streams
of their own. A scan puts the columns together again: its batches are slices of the row groups, in
order, cut down to the chosen columns, without the slices that the zone filter rules out.

## Key results

- `ColumnScan.open_returns`: the batches of a scan
- `ColumnScan.regular_of_batches`, `rows_of_batches`: they are nonempty, typed, and hold the rows
-/

namespace LiteOLAP

open BufferPool (Pin Serving PinRoom Fetchable Roomy)

/-! ## Tables on disk -/

/-- Column `c` of a list of rows. -/
def column (c : Nat) (rows : List Row) : List Value := rows.map fun r => r.getD c .null

/-- The chosen columns of a row. -/
def project (cols : List Nat) (r : Row) : Row := cols.map fun c => r.getD c .null

/-- What a row group stands for: its rows, and the pages that each of its columns is kept on. -/
structure StoredGroup where
  rows : List Row
  chains : List (List PageId)

/-- A row group that stands for `sg`: each column is a stream of its own. -/
structure GroupStored (pages : List Page) (schema : Schema) (g : RowGroup) (sg : StoredGroup) :
    Prop where
  numRows : g.numRows.toNat = sg.rows.length
  roots : g.columnRoots.length = schema.numColumns
  chains : sg.chains.length = schema.numColumns
  columns : ∀ c col, schema.columns[c]? = some col → ∃ root ids,
    g.columnRoots[c]? = some root ∧ sg.chains[c]? = some ids ∧
    Stored pages root ids (columnBytes col.type (column c sg.rows))
  typed : ∀ r ∈ sg.rows, rowTyped schema.types r = true

/-- A table whose row groups stand for the given ones. -/
def TableStored (pages : List Page) (m : TableMeta) (groups : List StoredGroup) : Prop :=
  List.Forall₂ (GroupStored pages m.schema) m.rowGroups groups

/-- No payload of a chunk of the column is longer than its header can say. -/
def PayloadFits (t : ColumnType) (vs : List Value) : Prop :=
  ∀ c ∈ vs.slices kChunkRows, ∀ e, encodeChunk t c = .ok e → e.payload.length < 2 ^ 32

@[simp] theorem length_column (c : Nat) (rows : List Row) : (column c rows).length = rows.length :=
  List.length_map _

theorem slices_column (c : Nat) (rows : List Row) (n : Nat) :
    (column c rows).slices n = (rows.slices n).map (column c) :=
  List.slices_map _ _

/-- Every column of typed rows is typed. -/
theorem typed_column {schema : Schema} {rows : List Row}
    (htyped : ∀ r ∈ rows, rowTyped schema.types r = true) {c : Nat} {col : Column}
    (hcol : schema.columns[c]? = some col) : ∀ v ∈ column c rows, v.hasType col.type = true := by
  intro v hv
  obtain ⟨r, hr, rfl⟩ := List.mem_map.mp hv
  exact rowTyped_getD (htyped r hr) (by rw [Schema.types, List.getElem?_map, hcol]; rfl)

theorem columnFits_of_payloadFits {t : ColumnType} {vs : List Value}
    (htyped : ∀ v ∈ vs, v.hasType t = true) (h : PayloadFits t vs) : ColumnFits t vs := fun c hc => by
  obtain ⟨-, hle, hsub⟩ := List.mem_slices kChunkRows_pos hc
  exact ⟨hle, fun v hv => htyped v (hsub hv), h c hc⟩

/-- A stream is no longer than the pages of the file. -/
theorem Stored.length_le {pages : List Page} {root : PageId} {ids : List PageId} {bytes : Bytes}
    (h : Stored pages root ids bytes) : bytes.length ≤ pages.length * payloadCapacity := by
  obtain ⟨parts, rfl, hparts, -⟩ := h.parts
  have hids := Catalog.PageChain.length_le h.links
  have hlen : parts.flatten.length ≤ ids.length * payloadCapacity := by
    clear hids h
    induction hparts with
    | nil => exact Nat.zero_le _
    | @cons pid part ids parts hpart _ ih =>
      obtain ⟨page, -, hused⟩ := hpart
      have hpart : part.length ≤ payloadCapacity := by
        rw [Page.used] at hused
        split at hused
        · cases hused
        · obtain rfl := Except.ok.inj hused
          rw [← page.payload_length]
          exact List.length_take_le' _ _
      rw [List.flatten_cons, List.length_append, List.length_cons, Nat.succ_mul]
      omega
  exact Nat.le_trans hlen (Nat.mul_le_mul_right _ hids)

/-! ## Scans -/

namespace ColumnScan

open ColumnReader (Before On)

/-- The scan reads columns that exist, at the types they are declared with, and filters on one of
    those it reads. -/
structure WellFormed (s : ColumnScan) : Prop where
  nonempty : s.colIdx ≠ []
  columns : List.Forall₂ (fun c t => ∃ col, s.table.schema.columns[c]? = some col ∧ col.type = t)
    s.colIdx s.outputTypes
  zone : ∀ z, s.zone = some z → z.pos < s.colIdx.length

/-- The columns of the scan, each with its type. -/
def cols (s : ColumnScan) : List (Nat × ColumnType) := s.colIdx.zip s.outputTypes

/-- A slice of the table is decoded, not skipped. -/
def keeps (s : ColumnScan) (b : List Row) : Bool :=
  match s.zone with
  | none => true
  | some z =>
    match s.cols[z.pos]? with
    | none => true
    | some (c, t) =>
      match encodeChunk t (column c b) with
      | .ok e => !excludes z (ChunkMeta.ofChunk e)
      | .error _ => true

/-- The batch that a slice of the table becomes. -/
structure IsBatch (s : ColumnScan) (b : List Row) (chunk : DataChunk) : Prop where
  cardinality : chunk.cardinality = b.length
  columns : List.Forall₂ (fun (c : Nat × ColumnType) (v : Vector) =>
    v.type = c.2 ∧ v.values = column c.1 b) s.cols chunk.columns

/-! ### Slices -/

theorem WellFormed.length_cols {s : ColumnScan} (hs : s.WellFormed) :
    s.cols.length = s.colIdx.length := by
  rw [cols, List.length_zip, hs.columns.length_eq, Nat.min_self]

theorem WellFormed.cols_ne_nil {s : ColumnScan} (hs : s.WellFormed) : s.cols ≠ [] := by
  intro hnil
  have hlen := hs.length_cols
  rw [hnil, List.length_nil] at hlen
  exact hs.nonempty (List.eq_nil_of_length_eq_zero hlen.symm)

theorem WellFormed.map_fst_cols {s : ColumnScan} (hs : s.WellFormed) :
    s.cols.map Prod.fst = s.colIdx :=
  List.map_fst_zip (Nat.le_of_eq hs.columns.length_eq)

theorem WellFormed.map_snd_cols {s : ColumnScan} (hs : s.WellFormed) :
    s.cols.map Prod.snd = s.outputTypes :=
  List.map_snd_zip (Nat.le_of_eq hs.columns.length_eq.symm)

/-- A batch has the types of the scan. -/
theorem IsBatch.types {s : ColumnScan} (hs : s.WellFormed) {b : List Row} {chunk : DataChunk}
    (h : IsBatch s b chunk) : chunk.types = s.outputTypes := by
  have hcols := h.columns
  rw [← hs.map_snd_cols, DataChunk.types]
  generalize s.cols = cs at hcols
  generalize chunk.columns = vs at hcols
  induction hcols with
  | nil => rfl
  | cons hcv _ ih => rw [List.map_cons, List.map_cons, ih, hcv.1]

/-- A batch has the rows of its slice, cut down to the columns of the scan. -/
theorem IsBatch.rows {s : ColumnScan} (hs : s.WellFormed) {b : List Row} {chunk : DataChunk}
    (h : IsBatch s b chunk) : chunk.rows = b.map (project s.colIdx) := by
  have hrow : ∀ i < b.length, chunk.row i = project s.colIdx (b.getD i []) := by
    intro i hi
    have hcols := h.columns
    rw [project, ← hs.map_fst_cols, DataChunk.row, List.map_map]
    generalize s.cols = cs at hcols
    generalize chunk.columns = vs at hcols
    induction hcols with
    | nil => rfl
    | @cons c v cs vs hcv _ ih =>
      rw [List.map_cons, List.map_cons, ih, hcv.2, column]
      simp [hi]
  rw [DataChunk.rows, h.cardinality]
  conv_rhs => rw [List.eq_map_range b []]
  rw [List.map_map]
  exact List.map_congr_left fun i hi => hrow i (List.mem_range.mp hi)

/-- A slice becomes one batch only. -/
theorem IsBatch.unique {s : ColumnScan} {b : List Row} {chunk chunk' : DataChunk}
    (h : IsBatch s b chunk) (h' : IsBatch s b chunk') : chunk' = chunk := by
  obtain ⟨columns, cardinality, hrect⟩ := chunk
  obtain ⟨columns', cardinality', hrect'⟩ := chunk'
  obtain ⟨hcard, hcols⟩ := h
  obtain ⟨hcard', hcols'⟩ := h'
  simp only at hcard hcard' hcols hcols'
  have hsame : columns' = columns := by
    clear hrect hrect' hcard hcard'
    generalize s.cols = cs at hcols hcols'
    induction hcols generalizing columns' with
    | nil =>
      cases hcols'
      rfl
    | @cons c v cs vs hcv _ ih =>
      cases hcols' with
      | @cons _ v' _ vs' hcv' hrest =>
        obtain ⟨type, values, htyped⟩ := v
        obtain ⟨type', values', htyped'⟩ := v'
        obtain ⟨rfl, rfl⟩ := hcv
        obtain ⟨rfl, rfl⟩ := hcv'
        rw [ih vs' hrest]
  subst hsame
  subst hcard
  subst hcard'
  rfl

/-! ### The loop over the slices of a row group -/

theorem keeps_openReader (s : ColumnScan) (g : RowGroup) (c : Nat) :
    EStateM.Keeps (·.disk.numPages) (s.openReader g c) := by
  unfold openReader
  split
  · exact EStateM.keeps_throw _
  · exact (EStateM.keeps_ofExcept _).bind fun col => ColumnReader.keeps_create _ _

theorem keeps_decodeColumns (types : List ColumnType) (readers : List ColumnReader) :
    EStateM.Keeps (·.disk.numPages) (decodeColumns types readers) :=
  EStateM.Keeps.mapM (fun a : ColumnType × ColumnReader =>
    ColumnReader.keeps_decode a.2 (Vector.empty a.1)) _

/-- The rest of a round of the loop, behind the first reader's `NextChunk`. -/
private theorem keeps_round {s : ColumnScan} {fuel : Nat}
    (hover : ∀ readers : List ColumnReader, EStateM.Keeps (·.disk.numPages) (s.decodeLoop fuel readers))
    (r : ColumnReader) (rs : List ColumnReader) :
    EStateM.Keeps (·.disk.numPages) (do
      let rs ← rs.mapM fun r => do
        let (_, r) ← r.nextChunk
        pure r
      if ← EStateM.ofExcept (s.canSkip (r :: rs)) then
        let readers ← (r :: rs).mapM ColumnReader.skipPayload
        s.decodeLoop fuel readers
      else do
        let decoded ← decodeColumns s.outputTypes (r :: rs)
        let chunk ← EStateM.ofExcept (chunkOf (decoded.map Prod.fst) r.chunkMeta.numRows)
        let rest ← s.decodeLoop fuel (decoded.map Prod.snd)
        pure (chunk :: rest)) := by
  refine EStateM.Keeps.bind (EStateM.Keeps.mapM (fun r =>
    (ColumnReader.keeps_nextChunk r).bind fun a => EStateM.keeps_pure _) _) fun rs => ?_
  refine (EStateM.keeps_ofExcept _).bind fun skip => ?_
  refine EStateM.Keeps.ite ?_ ?_
  · exact (EStateM.Keeps.mapM ColumnReader.keeps_skipPayload _).bind hover
  · refine (keeps_decodeColumns _ _).bind fun decoded => ?_
    refine (EStateM.keeps_ofExcept _).bind fun chunk => ?_
    exact (hover _).bind fun rest => EStateM.keeps_pure _

theorem keeps_decodeLoop (s : ColumnScan) (fuel : Nat) :
    ∀ readers : List ColumnReader, EStateM.Keeps (·.disk.numPages) (s.decodeLoop fuel readers) := by
  induction fuel with
  | zero => exact fun readers => EStateM.keeps_throw _
  | succ fuel ih =>
    intro readers
    cases readers with
    | nil => exact EStateM.keeps_throw _
    | cons r rs =>
      unfold decodeLoop
      refine (ColumnReader.keeps_nextChunk r).bind fun a => ?_
      exact EStateM.Keeps.ite (EStateM.keeps_pure _) (keeps_round ih a.2 rs)

theorem keeps_decodeRg (s : ColumnScan) (g : RowGroup) :
    EStateM.Keeps (·.disk.numPages) (s.decodeRg g) :=
  (EStateM.Keeps.mapM (s.keeps_openReader g) _).bind fun readers =>
    EStateM.keeps_get.bind fun _ => keeps_decodeLoop s _ readers

/-- The limit on the file follows. -/
theorem staysOver_of_keeps {α : Type} {x : EStateM Exc BufferPool α}
    (h : EStateM.Keeps (·.disk.numPages) x) : EStateM.StaysOver Roomy x := h.staysOver (· < 2 ^ 32)

section

variable {usable : List Nat} {apart : List PageId} {pages : List Page} {pins : List Pin} {bp : BufferPool}
  {s : ColumnScan} {b : List Row} {bs : List (List Row)}

/-- The slices of a list of rows fit, in every column of the scan. -/
def Fit (s : ColumnScan) (bs : List (List Row)) : Prop :=
  ∀ b ∈ bs, ∀ c ∈ s.cols, ChunkFits c.2 (column c.1 b)

/-- Before the next slice of a row group: each reader stands before it in its own column. -/
def AllBefore (apart : List PageId) (pins : List Pin) (pages : List Page) (s : ColumnScan) (bs : List (List Row))
    (readers : List ColumnReader) : Prop :=
  List.Forall₂ (fun c r => Before apart pins pages r c.2 (bs.map (column c.1))) s.cols readers

/-- Each reader stands behind the header of the slice `b`. -/
def AllOn (apart : List PageId) (pins : List Pin) (pages : List Page) (s : ColumnScan) (b : List Row)
    (bs : List (List Row)) (readers : List ColumnReader) : Prop :=
  List.Forall₂ (fun c r => On apart pins pages r c.2 (column c.1 b) (bs.map (column c.1))) s.cols readers

/-- The zone filter decides on the header of its column. -/
theorem canSkip_of_allOn {readers : List ColumnReader} (hs : s.WellFormed)
    (h : AllOn apart pins pages s b bs readers) : s.canSkip readers = .ok (!s.keeps b) := by
  unfold canSkip keeps
  cases hzone : s.zone with
  | none => rfl
  | some z =>
    have hlt : z.pos < s.cols.length := by
      rw [hs.length_cols]
      exact hs.zone z hzone
    have hlt' : z.pos < readers.length := by rwa [← h.length_eq]
    obtain ⟨-, -, c, hc, hmeta, -⟩ := (List.forall₂_iff_get.mp h).2 z.pos hlt hlt'
    simp only [List.get_eq_getElem] at hc hmeta
    simp only [List.getElem?_eq_getElem hlt, List.getElem?_eq_getElem hlt', hc, hmeta, Bool.not_not]

/-- Passing over the payloads of a slice that is skipped. -/
theorem skip_returns {readers : List ColumnReader} (h : Serving usable apart bp pins pages)
    (hroom : PinRoom usable pins 1) (hfits : s.Fit [b]) (hr : AllOn apart pins pages s b bs readers) :
    EStateM.Returns Roomy (readers.mapM ColumnReader.skipPayload) bp fun rs bp' =>
      AllBefore apart pins pages s bs rs ∧ Serving usable apart bp' pins pages := by
  refine EStateM.Returns.mapM ColumnReader.staysOver_skipPayload hr h fun c hc r bp' hon h' => ?_
  have hbefore := hon.before (hfits b List.mem_cons_self c hc)
  refine (ColumnReader.skipPayload_returns h' hroom hbefore).mono
    fun r' bp'' ⟨⟨htype, hconsumed, hinp⟩, hserving⟩ => ⟨⟨htype, [], hinp, ?_⟩, hserving⟩
  rw [if_pos hconsumed]

/-- Decoding a slice column by column. -/
theorem decodeColumns_returns {readers : List ColumnReader} (h : Serving usable apart bp pins pages)
    (hroom : PinRoom usable pins 1) (hs : s.WellFormed) (hfits : s.Fit [b])
    (hr : AllOn apart pins pages s b bs readers) :
    EStateM.Returns Roomy (decodeColumns s.outputTypes readers) bp fun decoded bp' =>
      List.Forall₂ (fun c (d : Vector × ColumnReader) => (d.1.type = c.2 ∧
        d.1.values = column c.1 b) ∧ Before apart pins pages d.2 c.2 (bs.map (column c.1))) s.cols decoded ∧
      Serving usable apart bp' pins pages := by
  have hzip : List.Forall₂ (fun (c : Nat × ColumnType) (d : ColumnType × ColumnReader) =>
      d.1 = c.2 ∧ On apart pins pages d.2 c.2 (column c.1 b) (bs.map (column c.1))) s.cols
      (s.outputTypes.zip readers) := by
    rw [← hs.map_snd_cols]
    unfold AllOn at hr
    generalize s.cols = cs at hr
    induction hr with
    | nil => exact .nil
    | cons hcr _ ih => exact .cons ⟨rfl, hcr⟩ ih
  refine EStateM.Returns.mapM (fun a : ColumnType × ColumnReader =>
    ColumnReader.staysOver_decode a.2 (Vector.empty a.1)) hzip h fun c hc d bp' ⟨ht, hon⟩ h' => ?_
  refine (ColumnReader.decode_returns h' hroom hon (hfits b List.mem_cons_self c hc)
    (Vector.empty d.1) ht).mono fun a bp'' ⟨⟨htype, hvalues, hbefore⟩, hserving⟩ => ?_
  exact ⟨⟨⟨htype, by simpa using hvalues⟩, hbefore⟩, hserving⟩

/-- Decoded vectors become the batch of their slice. -/
theorem chunkOf_decoded {decoded : List (Vector × ColumnReader)} {rows : Nat}
    (hrows : rows = b.length)
    (h : List.Forall₂ (fun c (d : Vector × ColumnReader) => (d.1.type = c.2 ∧
      d.1.values = column c.1 b) ∧ Before apart pins pages d.2 c.2 (bs.map (column c.1))) s.cols decoded) :
    ∃ chunk, chunkOf (decoded.map Prod.fst) rows = .ok chunk ∧ IsBatch s b chunk := by
  have hcols : List.Forall₂ (fun (c : Nat × ColumnType) (v : Vector) =>
      v.type = c.2 ∧ v.values = column c.1 b) s.cols (decoded.map Prod.fst) :=
    List.forall₂_map_right_iff.mpr (h.imp fun _ _ hd => hd.1)
  have hlen : ∀ v ∈ decoded.map Prod.fst, v.values.length = rows := by
    intro v hv
    obtain ⟨c, -, hcv⟩ := List.exists_of_forall₂_mem hcols hv
    rw [hcv.2, length_column, hrows]
  exact ⟨_, dif_pos hlen, hrows, hcols⟩

/-- The loop of `decode_rg` hands out the slices that are kept. -/
theorem decodeLoop_returns (hroom : PinRoom usable pins 1) (hs : s.WellFormed) :
    ∀ {bs : List (List Row)} {fuel : Nat} {readers : List ColumnReader} {bp : BufferPool},
      Serving usable apart bp pins pages → s.Fit bs → AllBefore apart pins pages s bs readers →
      bs.length < fuel →
      EStateM.Returns Roomy (s.decodeLoop fuel readers) bp fun chunks bp' =>
        List.Forall₂ (IsBatch s) (bs.filter s.keeps) chunks ∧ Serving usable apart bp' pins pages := by
  intro bs
  induction bs with
  | nil =>
    intro fuel readers bp h _ hr hfuel
    obtain ⟨fuel, rfl⟩ := Nat.exists_eq_succ_of_ne_zero (Nat.ne_zero_of_lt hfuel)
    obtain ⟨c, cs, hcols⟩ := List.exists_cons_of_ne_nil (hs.cols_ne_nil)
    rw [AllBefore, hcols] at hr
    cases hr with
    | @cons _ r _ rs hcr hrs =>
      unfold decodeLoop
      refine (ColumnReader.nextChunk_end h hroom hcr).bind (fun a =>
        EStateM.StaysOver.ite (EStateM.staysOver_pure _)
          (staysOver_of_keeps (keeps_round (s.keeps_decodeLoop fuel) a.2 rs)))
        fun a bp' ⟨⟨hmore, _⟩, hserving⟩ => ?_
      obtain ⟨more, r'⟩ := a
      obtain rfl : more = false := hmore
      exact EStateM.returns_pure ⟨.nil, hserving⟩
  | cons b bs ih =>
    intro fuel readers bp h hfits hr hfuel
    obtain ⟨fuel, rfl⟩ := Nat.exists_eq_succ_of_ne_zero (Nat.ne_zero_of_lt hfuel)
    obtain ⟨c, cs, hcols⟩ := List.exists_cons_of_ne_nil (hs.cols_ne_nil)
    have hfit : s.Fit [b] := fun b' hb' => hfits b' (by simp [List.mem_singleton.mp hb'])
    have hrest : s.Fit bs := fun b' hb' => hfits b' (List.mem_cons_of_mem _ hb')
    have hlen : bs.length < fuel := by simpa using hfuel
    have hr' := hr
    rw [AllBefore, hcols] at hr'
    cases hr' with
    | @cons _ r _ rs hcr hrs =>
      have hmem : ∀ c' ∈ c :: cs, ChunkFits c'.2 (column c'.1 b) := fun c' hc' =>
        hfits b List.mem_cons_self c' (hcols ▸ hc')
      unfold decodeLoop
      refine (ColumnReader.nextChunk_returns h hroom hcr (hmem c List.mem_cons_self)).bind
        (fun a => EStateM.StaysOver.ite (EStateM.staysOver_pure _)
          (staysOver_of_keeps (keeps_round (s.keeps_decodeLoop fuel) a.2 rs)))
        fun a bp₁ ⟨⟨hmore, hon⟩, h₁⟩ => ?_
      obtain ⟨more, r'⟩ := a
      obtain rfl : more = true := hmore
      -- the readers of the other columns follow
      have hothers : EStateM.Returns Roomy (rs.mapM fun r => do
          let (_, r) ← r.nextChunk
          pure r) bp₁ fun rs' bp' =>
            List.Forall₂ (fun c r => On apart pins pages r c.2 (column c.1 b) (bs.map (column c.1))) cs rs' ∧
            Serving usable apart bp' pins pages := by
        refine EStateM.Returns.mapM (fun r => (ColumnReader.staysOver_nextChunk r).bind fun a =>
          EStateM.staysOver_pure _) hrs h₁ fun c' hc' r bp hbefore h' => ?_
        refine (ColumnReader.nextChunk_returns h' hroom hbefore
          (hmem c' (List.mem_cons_of_mem _ hc'))).bind (fun a => EStateM.staysOver_pure _)
          fun a bp' ⟨⟨_, hon'⟩, hserving⟩ => EStateM.returns_pure ⟨hon', hserving⟩
      refine hothers.bind (fun rs' => ?_) fun rs' bp₂ ⟨hrs', h₂⟩ => ?_
      · refine (EStateM.staysOver_ofExcept _).bind fun skip => EStateM.StaysOver.ite ?_ ?_
        · exact (EStateM.StaysOver.mapM ColumnReader.staysOver_skipPayload _).bind
            (fun rs => staysOver_of_keeps (s.keeps_decodeLoop fuel rs))
        · refine (staysOver_of_keeps (keeps_decodeColumns _ _)).bind fun decoded => ?_
          refine (EStateM.staysOver_ofExcept _).bind fun chunk => ?_
          exact (staysOver_of_keeps (s.keeps_decodeLoop fuel _)).bind fun rest => EStateM.staysOver_pure _
      have hall : AllOn apart pins pages s b bs (r' :: rs') := by
        rw [AllOn, hcols]
        exact .cons hon hrs'
      rw [canSkip_of_allOn hs hall]
      refine EStateM.Returns.ofExcept_bind ?_
      cases hkeep : s.keeps b with
      | false =>
        -- the slice is skipped
        rw [List.filter_cons_of_neg (by simp [hkeep])]
        simp only [Bool.not_false, if_true]
        exact (skip_returns h₂ hroom hfit hall).bind (fun rs => staysOver_of_keeps (s.keeps_decodeLoop fuel rs))
          fun readers' bp₃ ⟨hbefore, h₃⟩ => ih h₃ hrest hbefore hlen
      | true =>
        rw [List.filter_cons_of_pos hkeep]
        simp only [Bool.not_true, Bool.false_eq_true, if_false]
        refine (decodeColumns_returns h₂ hroom hs hfit hall).bind (fun decoded => ?_)
          fun decoded bp₃ ⟨hdecoded, h₃⟩ => ?_
        · refine (EStateM.staysOver_ofExcept _).bind fun chunk => ?_
          exact (staysOver_of_keeps (s.keeps_decodeLoop fuel _)).bind fun rest => EStateM.staysOver_pure _
        have hrows := (hon.numRows (hmem c List.mem_cons_self)).trans (length_column c.1 b)
        obtain ⟨chunk, hchunk, hbatch⟩ := chunkOf_decoded hrows hdecoded
        rw [hchunk]
        refine EStateM.Returns.ofExcept_bind ?_
        have hbefore : AllBefore apart pins pages s bs (decoded.map Prod.snd) :=
          List.forall₂_map_right_iff.mpr (hdecoded.imp fun _ _ hd => hd.2)
        refine (ih h₃ hrest hbefore hlen).bind (fun rest => EStateM.staysOver_pure _)
          fun rest bp₄ ⟨hrests, h₄⟩ => EStateM.returns_pure ⟨.cons hbatch hrests, h₄⟩

/-- The readers of a row group stand before its first slice. -/
theorem openReaders_returns {g : RowGroup} {sg : StoredGroup} (h : Serving usable apart bp pins pages)
    (hroom : PinRoom usable pins 1) (hs : s.WellFormed)
    (hg : GroupStored pages s.table.schema g sg)
    (hfetch : ∀ ids ∈ sg.chains, ∀ pid ∈ ids, Fetchable apart pins pid) :
    EStateM.Returns Roomy (s.colIdx.mapM (s.openReader g)) bp fun readers bp' =>
      AllBefore apart pins pages s (sg.rows.slices kChunkRows) readers ∧
      Serving usable apart bp' pins pages := by
  have hcols : List.Forall₂ (fun (c : Nat × ColumnType) i => c.1 = i ∧
      ∃ col, s.table.schema.columns[i]? = some col ∧ col.type = c.2) s.cols s.colIdx := by
    have hcolumns := hs.columns
    unfold cols
    generalize s.outputTypes = types at hcolumns
    generalize s.colIdx = idx at hcolumns
    induction hcolumns with
    | nil => exact .nil
    | cons hct _ ih => exact .cons ⟨rfl, hct⟩ ih
  refine EStateM.Returns.mapM (fun c => staysOver_of_keeps (s.keeps_openReader g c)) hcols h fun c _ i bp' ⟨hi, hcol⟩ h' => ?_
  obtain ⟨col, hcol, htype⟩ := hcol
  subst hi
  obtain ⟨root, ids, hroot, hids, hstored⟩ := hg.columns c.1 col hcol
  unfold openReader
  simp only [hroot]
  have hget : s.table.schema.getColumn c.1 = .ok col := by
    rw [Schema.getColumn, hcol]
  rw [hget]
  refine EStateM.Returns.ofExcept_bind ?_
  rw [← slices_column, ← htype]
  exact ColumnReader.create_returns h' hroom hstored (hfetch ids (List.mem_of_getElem? hids))

/-- The columns of the scan fit, in a row group. -/
def GroupFits (s : ColumnScan) (sg : StoredGroup) : Prop :=
  ∀ c ∈ s.cols, PayloadFits c.2 (column c.1 sg.rows)

/-- The columns of the scan are columns of the table. -/
theorem WellFormed.exists_column (hs : s.WellFormed) {c : Nat × ColumnType} (hc : c ∈ s.cols) :
    ∃ col, s.table.schema.columns[c.1]? = some col ∧ col.type = c.2 := by
  have hcolumns := hs.columns
  unfold cols at hc
  generalize s.outputTypes = types at hcolumns hc
  generalize s.colIdx = idx at hcolumns hc
  induction hcolumns with
  | nil => cases hc
  | @cons i t idx types hit _ ih =>
    rcases List.mem_cons.mp hc with rfl | hc
    · exact hit
    · exact ih hc

theorem WellFormed.columnFits (hs : s.WellFormed) {g : RowGroup} {sg : StoredGroup}
    (hg : GroupStored pages s.table.schema g sg) (hfits : s.GroupFits sg) {c : Nat × ColumnType}
    (hc : c ∈ s.cols) : ColumnFits c.2 (column c.1 sg.rows) := by
  obtain ⟨col, hcol, htype⟩ := hs.exists_column hc
  exact columnFits_of_payloadFits (htype ▸ typed_column hg.typed hcol) (hfits c hc)

/-- `decode_rg` hands out the slices of a row group that are kept. -/
theorem decodeRg_returns {g : RowGroup} {sg : StoredGroup} (h : Serving usable apart bp pins pages)
    (hroom : PinRoom usable pins 1) (hs : s.WellFormed)
    (hg : GroupStored pages s.table.schema g sg)
    (hfetch : ∀ ids ∈ sg.chains, ∀ pid ∈ ids, Fetchable apart pins pid) (hfits : s.GroupFits sg) :
    EStateM.Returns Roomy (s.decodeRg g) bp fun chunks bp' =>
      List.Forall₂ (IsBatch s) ((sg.rows.slices kChunkRows).filter s.keeps) chunks ∧
      Serving usable apart bp' pins pages := by
  refine (openReaders_returns h hroom hs hg hfetch).bind (fun readers =>
    EStateM.staysOver_get.bind fun _ => staysOver_of_keeps (s.keeps_decodeLoop _ readers))
    fun readers bp' ⟨hbefore, h'⟩ => EStateM.Returns.get ?_
  refine decodeLoop_returns hroom hs h' (fun b hb c hc => ?_) hbefore ?_
  · refine hs.columnFits hg hfits hc _ ?_
    rw [slices_column]
    exact List.mem_map_of_mem hb
  · -- every slice takes up bytes of the first column
    obtain ⟨c, cs, hcols⟩ := List.exists_cons_of_ne_nil hs.cols_ne_nil
    have hc : c ∈ s.cols := hcols ▸ List.mem_cons_self
    obtain ⟨col, hcol, htype⟩ := hs.exists_column hc
    obtain ⟨root, ids, -, -, hstored⟩ := hg.columns c.1 col hcol
    rw [htype] at hstored
    have hlen := length_le_columnBytes (hs.columnFits hg hfits hc)
    rw [slices_column, List.length_map] at hlen
    rw [h'.size]
    exact Nat.lt_succ_of_le (Nat.le_trans hlen hstored.length_le)

/-! ### All row groups -/

theorem keeps_inThread {α : Type} {x : EStateM Exc BufferPool α}
    (h : EStateM.Keeps (·.disk.numPages) x) : EStateM.Keeps (·.disk.numPages) (inThread x) := by
  intro bp
  have hbp := h bp
  unfold inThread
  split <;> rename_i hx <;> rw [hx] at hbp <;> exact hbp

theorem inThread_returns {α : Type} {x : EStateM Exc BufferPool α} {post : α → BufferPool → Prop}
    (h : EStateM.Returns Roomy x bp post) : EStateM.Returns Roomy (inThread x) bp post := by
  intro hlim
  have hx : Roomy (x bp).state := by
    unfold inThread at hlim
    split at hlim <;> rename_i hx <;> rw [hx] <;> exact hlim
  obtain ⟨a, bp', hrun, hpost⟩ := h hx
  exact ⟨a, bp', by rw [inThread, hrun], hpost⟩

/-- The batches of a row group are in its slot. -/
def Filled (s : ColumnScan) (groups : List StoredGroup) (perRg : List (List DataChunk)) (rg : Nat) :
    Prop :=
  ∃ sg chunks, groups[rg]? = some sg ∧ perRg[rg]? = some chunks ∧
    List.Forall₂ (IsBatch s) ((sg.rows.slices kChunkRows).filter s.keeps) chunks

/-- Everything that the readers need of the row groups: they are stored, can be fetched, and
    fit. -/
structure Readable (apart : List PageId) (pins : List Pin) (pages : List Page) (s : ColumnScan)
    (groups : List StoredGroup) : Prop where
  stored : TableStored pages s.table groups
  fetchable : ∀ sg ∈ groups, ∀ ids ∈ sg.chains, ∀ pid ∈ ids, Fetchable apart pins pid
  fits : ∀ sg ∈ groups, s.GroupFits sg

theorem keeps_fillSlot (s : ColumnScan) (perRg : List (List DataChunk)) (rg : Nat) :
    EStateM.Keeps (·.disk.numPages) (s.fillSlot perRg rg) := by
  unfold fillSlot
  cases s.table.rowGroups[rg]? with
  | none => exact EStateM.keeps_throw _
  | some g => exact (keeps_inThread (s.keeps_decodeRg g)).bind fun _ => EStateM.keeps_pure _

theorem keeps_openScheduled (s : ColumnScan) (order : List Nat) :
    EStateM.Keeps (·.disk.numPages) (s.openScheduled order) :=
  (EStateM.Keeps.foldlM s.keeps_fillSlot order _).bind fun _ => EStateM.keeps_pure _

/-- A worker puts the batches of its row group into the slot, and leaves the others alone. -/
theorem fillSlot_returns {groups : List StoredGroup} {perRg : List (List DataChunk)} {rg : Nat}
    (h : Serving usable apart bp pins pages) (hroom : PinRoom usable pins 1) (hs : s.WellFormed)
    (hgroups : Readable apart pins pages s groups) (hrg : rg < groups.length)
    (hlen : perRg.length = groups.length) :
    EStateM.Returns Roomy (s.fillSlot perRg rg) bp fun perRg' bp' =>
      (perRg'.length = groups.length ∧ s.Filled groups perRg' rg ∧
        ∀ i, i ≠ rg → s.Filled groups perRg i → s.Filled groups perRg' i) ∧
      Serving usable apart bp' pins pages := by
  have hrg' : rg < s.table.rowGroups.length := by rwa [hgroups.stored.length_eq]
  have hg := (List.forall₂_iff_get.mp hgroups.stored).2 rg hrg' hrg
  have hmem := List.get_mem groups ⟨rg, hrg⟩
  unfold fillSlot
  rw [List.getElem?_eq_getElem hrg']
  refine (inThread_returns (decodeRg_returns h hroom hs hg (hgroups.fetchable _ hmem)
    (hgroups.fits _ hmem))).bind (fun _ => EStateM.staysOver_pure _)
    fun chunks bp' ⟨hchunks, h'⟩ => EStateM.returns_pure ⟨⟨?_, ?_, ?_⟩, h'⟩
  · rw [List.length_set, hlen]
  · exact ⟨_, chunks, List.getElem?_eq_getElem hrg, List.getElem?_set_self (hlen.symm ▸ hrg), hchunks⟩
  · rintro i hne ⟨sg, chunks', hsg, hslot, hchunks'⟩
    exact ⟨sg, chunks', hsg, by rw [List.getElem?_set_ne (Ne.symm hne), hslot], hchunks'⟩

/-- The workers fill the slots in any order. -/
theorem fillSlots_returns {groups : List StoredGroup} {order : List Nat}
    {perRg : List (List DataChunk)} (h : Serving usable apart bp pins pages)
    (hroom : PinRoom usable pins 1) (hs : s.WellFormed)
    (hgroups : Readable apart pins pages s groups) (horder : ∀ rg ∈ order, rg < groups.length)
    (hlen : perRg.length = groups.length) :
    EStateM.Returns Roomy (s.fillSlots order perRg) bp fun perRg' bp' =>
      perRg'.length = groups.length ∧ (∀ rg ∈ order, s.Filled groups perRg' rg) ∧
      Serving usable apart bp' pins pages := by
  -- every slot is filled but those of the row groups to come
  have hloop := EStateM.Returns.foldlM (L := Roomy) (f := s.fillSlot)
    (I := fun rest perRg bp => perRg.length = groups.length ∧
      (∀ rg ∈ rest, rg < groups.length) ∧ (∀ rg ∈ order, rg ∉ rest → s.Filled groups perRg rg) ∧
      Serving usable apart bp pins pages)
    (fun perRg rg => staysOver_of_keeps (s.keeps_fillSlot perRg rg)) (l := order) (b := perRg) (s := bp)
    ⟨hlen, horder, fun rg hrg hnot => absurd hrg hnot, h⟩
    fun rg rest perRg bp ⟨hlen, hlt, hfilled, h⟩ => by
      refine (fillSlot_returns h hroom hs hgroups (hlt rg List.mem_cons_self) hlen).mono
        fun perRg' bp' ⟨⟨hlen', hself, hothers⟩, h'⟩ => ⟨hlen', fun i hi =>
          hlt i (List.mem_cons_of_mem _ hi), fun i hi hnot => ?_, h'⟩
      by_cases hne : i = rg
      · exact hne ▸ hself
      · exact hothers i hne (hfilled i hi (by simp [hne, hnot]))
  exact hloop.mono fun perRg' bp' ⟨hlen', _, hfilled, h'⟩ =>
    ⟨hlen', fun rg hrg => hfilled rg hrg List.not_mem_nil, h'⟩

/-- The slices of all row groups, in order. -/
def slicesOf (groups : List StoredGroup) : List (List Row) :=
  groups.flatMap fun sg => sg.rows.slices kChunkRows

/-- `Open`, for every order in which the row groups are decoded: the batches of the slices that
    are kept. -/
theorem openScheduled_returns {groups : List StoredGroup} {order : List Nat}
    (h : Serving usable apart bp pins pages) (hroom : PinRoom usable pins 1) (hs : s.WellFormed)
    (hgroups : Readable apart pins pages s groups)
    (horder : order.Perm (List.range s.table.rowGroups.length)) :
    EStateM.Returns Roomy (s.openScheduled order) bp fun stream bp' =>
      (stream.types = s.outputTypes ∧ stream.fail = none ∧
        List.Forall₂ (IsBatch s) ((slicesOf groups).filter s.keeps) stream.batches) ∧
      Serving usable apart bp' pins pages := by
  have hcount := hgroups.stored.length_eq
  have hmem : ∀ rg, rg ∈ order ↔ rg < groups.length := fun rg => by
    rw [horder.mem_iff, List.mem_range, hcount]
  refine (fillSlots_returns h hroom hs hgroups (fun rg hrg => (hmem rg).mp hrg)
    (by rw [List.length_replicate, hcount])).bind (fun _ => EStateM.staysOver_pure _)
    fun perRg bp' ⟨hlen, hfilled, h'⟩ => EStateM.returns_pure ⟨⟨rfl, rfl, ?_⟩, h'⟩
  -- the slots in order are the row groups in order
  have hall : List.Forall₂ (fun (sg : StoredGroup) chunks => List.Forall₂ (IsBatch s)
      ((sg.rows.slices kChunkRows).filter s.keeps) chunks) groups perRg := by
    refine List.forall₂_iff_get.mpr ⟨hlen.symm, fun i hi hi' => ?_⟩
    obtain ⟨sg, chunks, hsg, hslot, hchunks⟩ := hfilled i ((hmem i).mpr hi)
    rw [List.getElem?_eq_getElem hi] at hsg
    rw [List.getElem?_eq_getElem hi'] at hslot
    obtain rfl := Option.some.inj hsg
    obtain rfl := Option.some.inj hslot
    exact hchunks
  rw [slicesOf, List.filter_flatMap]
  exact List.forall₂_flatMap hall

end

end ColumnScan

end LiteOLAP
