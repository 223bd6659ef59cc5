import LiteOLAP.Native.ColumnStream
import LiteOLAP.Spec.EncodingCorrect
import LiteOLAP.Spec.PagedStreamCorrect

/-!
# Columns on disk

The stream of a column is the images of its chunks, one behind the other: slices of `kChunkRows`
values, each encoded behind a header. What a `ColumnWriter` is given, a `ColumnReader` hands out
again, slice by slice, whether or not it is asked to decode a slice before it goes on.

## Key results

- `ColumnWriter.writeColumn_returns`: the writer stores the images of the slices
- `ColumnReader.nextChunk_returns`, `decode_returns`: the reader finds header and values of each
-/

namespace LiteOLAP

open BufferPool (Pin Serving PinRoom Fetchable Roomy)
open Bytes (leBytes ofLeBytes)
open Catalog (newPages pagesFor)
open PagedInputStream (Delivers)

theorem kChunkRows_pos : 0 < kChunkRows := Nat.succ_pos _

/-! ## Chunks -/

/-- A slice of a column that the header of a chunk has room for: the length of its payload is
    written in 32 bits. -/
structure ChunkFits (t : ColumnType) (vs : List Value) : Prop where
  rows : vs.length ≤ kChunkRows
  typed : ∀ v ∈ vs, v.hasType t = true
  payload : ∀ c, encodeChunk t vs = .ok c → c.payload.length < 2 ^ 32

/-- The header of a chunk and its payload, as they stand in the stream. -/
def EncodedChunk.image (c : EncodedChunk) : Bytes := (ChunkMeta.ofChunk c).fields.flatten ++ c.payload

/-- The image of a slice. -/
def chunkImage (t : ColumnType) (vs : List Value) : Bytes :=
  match encodeChunk t vs with
  | .ok c => c.image
  | .error _ => []

/-- The stream of a column. -/
def columnBytes (t : ColumnType) (vs : List Value) : Bytes :=
  (vs.slices kChunkRows).flatMap (chunkImage t)

/-- Every slice of a column fits. -/
def ColumnFits (t : ColumnType) (vs : List Value) : Prop := ∀ c ∈ vs.slices kChunkRows, ChunkFits t c

theorem ChunkFits.rows_lt {t : ColumnType} {vs : List Value} (h : ChunkFits t vs) :
    vs.length < 2 ^ 32 := by
  have hrows := h.rows
  unfold kChunkRows at hrows
  omega

/-- Every slice of a typed column is encoded, however long its payload gets. -/
theorem exists_encodeChunk {t : ColumnType} {vs : List Value} (hrows : vs.length ≤ kChunkRows)
    (htyped : ∀ v ∈ vs, v.hasType t = true) :
    ∃ c, encodeChunk t vs = .ok c ∧ chunkImage t vs = c.image := by
  unfold kChunkRows at hrows
  obtain ⟨c, e, best, hc, -⟩ := encodeChunk_spec htyped (by omega)
  exact ⟨c, hc, by rw [chunkImage, hc]⟩

theorem ChunkFits.encode {t : ColumnType} {vs : List Value} (h : ChunkFits t vs) :
    ∃ c, encodeChunk t vs = .ok c ∧ chunkImage t vs = c.image :=
  exists_encodeChunk h.rows h.typed

/-- The numbers of a header fit their fields. -/
structure MetaFits (m : ChunkMeta) : Prop where
  numRows : m.numRows < 256 ^ 4
  encoding : m.encoding < 256 ^ 1
  hasZoneMap : m.hasZoneMap < 256 ^ 1
  reserved : m.reserved < 256 ^ 2
  nullCount : m.nullCount < 256 ^ 4
  byteLength : m.byteLength < 256 ^ 4

theorem metaFits_ofChunk {t : ColumnType} {vs : List Value} (h : ChunkFits t vs) {c : EncodedChunk}
    (hc : encodeChunk t vs = .ok c) : MetaFits (ChunkMeta.ofChunk c) := by
  have hrows := h.rows_lt
  obtain ⟨c', e, best, hc', -, -, -, -, -, hnum, hnull, -⟩ :=
    encodeChunk_spec h.typed hrows
  obtain rfl : c = c' := by rw [hc] at hc'; exact Except.ok.inj hc'
  have hnulls : (vs.filter Value.isNull).length ≤ vs.length := List.length_filter_le _ _
  have henc := c.encoding.toByte.toNat_lt
  refine ⟨?_, ?_, ?_, ?_, ?_, ?_⟩ <;> simp only [ChunkMeta.ofChunk]
  · omega
  · omega
  · split <;> omega
  · omega
  · omega
  · omega

theorem length_fields (m : ChunkMeta) : m.fields.flatten.length = 32 := by
  simp [ChunkMeta.fields]

/-- A chunk takes up bytes, so that a column of many chunks has a long stream. -/
theorem length_le_columnBytes {t : ColumnType} {vs : List Value} (h : ColumnFits t vs) :
    (vs.slices kChunkRows).length ≤ (columnBytes t vs).length := by
  unfold columnBytes
  unfold ColumnFits at h
  generalize vs.slices kChunkRows = chunks at h
  induction chunks with
  | nil => exact Nat.le_refl _
  | cons c chunks ih =>
    obtain ⟨e, -, himage⟩ := (h c List.mem_cons_self).encode
    have hlen : 32 ≤ (chunkImage t c).length := by
      rw [himage, EncodedChunk.image, List.length_append, length_fields]
      omega
    have hrest := ih fun d hd => h d (List.mem_cons_of_mem _ hd)
    rw [List.flatMap_cons, List.length_append, List.length_cons]
    omega

/-! ## Writing -/

namespace ColumnWriter

theorem staysOver_create (t : ColumnType) : EStateM.StaysOver Roomy (create t) := by
  unfold create
  refine EStateM.StaysOver.bind ?_ fun out => EStateM.staysOver_pure _
  exact PagedOutputStream.staysOver_startNewPage _

theorem staysOver_flushChunk (w : ColumnWriter) : EStateM.StaysOver Roomy (flushChunk w) := by
  unfold flushChunk
  refine EStateM.StaysOver.ite (EStateM.staysOver_pure _) ?_
  refine (EStateM.staysOver_ofExcept _).bind fun c => ?_
  exact (EStateM.StaysOver.foldlM PagedOutputStream.staysOver_write _ _).bind fun out =>
    EStateM.staysOver_pure _

theorem staysOver_append (w : ColumnWriter) (v : Value) : EStateM.StaysOver Roomy (append w v) :=
  EStateM.StaysOver.ite (EStateM.staysOver_throw _)
    (EStateM.StaysOver.ite (staysOver_flushChunk _) (EStateM.staysOver_pure _))

theorem staysOver_finish (w : ColumnWriter) : EStateM.StaysOver Roomy (finish w) :=
  EStateM.StaysOver.ite (EStateM.staysOver_throw _) <| (staysOver_flushChunk w).bind fun w =>
    (PagedOutputStream.staysOver_finish w.out).bind fun r => EStateM.staysOver_pure r.1

/-- A writer that has been given the values `vs`: full slices are in the stream, the rest is in
    the buffer. -/
def Given (usable : List Nat) (apart : List PageId) (base : List Page) (pins : List Pin) (w : ColumnWriter)
    (t : ColumnType) (vs : List Value) (bp : BufferPool) : Prop :=
  w.type = t ∧ w.finished = false ∧ ∃ full : List (List Value),
    (∀ c ∈ full, c.length = kChunkRows) ∧ vs = full.flatten ++ w.buffer ∧
    w.buffer.length < kChunkRows ∧
    PagedOutputStream.Writing usable apart base pins w.out (full.flatMap (chunkImage t)) bp

section

variable {usable : List Nat} {apart : List PageId} {base : List Page} {pins : List Pin} {bp : BufferPool}
  {w : ColumnWriter} {t : ColumnType} {vs : List Value}

/-- The constructor. -/
theorem create_returns (h : Serving usable apart bp pins base) (hroom : PinRoom usable pins 1)
    (t : ColumnType) :
    EStateM.Returns Roomy (create t) bp fun w bp' => Given usable apart base pins w t [] bp' := by
  refine (PagedOutputStream.create_returns h hroom).bind (fun out => EStateM.staysOver_pure _)
    fun out bp' hout => EStateM.returns_pure ?_
  exact ⟨rfl, rfl, [], by simp, rfl, kChunkRows_pos, hout⟩

/-- `FlushChunk` puts the image of the buffer behind the stream. -/
theorem flushChunk_returns {written : Bytes} (hroom : PinRoom usable pins 2)
    (hout : PagedOutputStream.Writing usable apart base pins w.out written bp) (hne : w.buffer ≠ [])
    (hrows : w.buffer.length ≤ kChunkRows) (htyped : ∀ v ∈ w.buffer, v.hasType w.type = true) :
    EStateM.Returns Roomy (flushChunk w) bp fun w' bp' =>
      w'.type = w.type ∧ w'.finished = w.finished ∧ w'.buffer = [] ∧
      PagedOutputStream.Writing usable apart base pins w'.out
        (written ++ chunkImage w.type w.buffer) bp' := by
  obtain ⟨c, hc, himage⟩ := exists_encodeChunk hrows htyped
  rw [flushChunk, if_neg hne, himage]
  refine (EStateM.returns_ofExcept (Q := fun c' bp' => c' = c ∧ bp' = bp) hc ⟨rfl, rfl⟩).bind
    (fun c => ?_) fun c' bp' ⟨hc', hbp'⟩ => ?_
  · exact (EStateM.StaysOver.foldlM PagedOutputStream.staysOver_write _ _).bind fun out =>
      EStateM.staysOver_pure _
  subst hc' hbp'
  -- the fields and the payload are written one after another
  have hloop := EStateM.Returns.foldlM (L := Roomy) (f := PagedOutputStream.write)
    (I := fun rest out bp => ∃ part, part ++ rest.flatten = c'.image ∧
      PagedOutputStream.Writing usable apart base pins out (written ++ part) bp)
    PagedOutputStream.staysOver_write (l := (ChunkMeta.ofChunk c').fields ++ [c'.payload])
    (b := w.out) (s := bp')
    ⟨[], by simp [EncodedChunk.image], by rwa [List.append_nil]⟩
    fun data rest out bp ⟨part, hpart, hout⟩ =>
      (PagedOutputStream.write_returns hout hroom data).mono fun out' bp'' hout' =>
        ⟨part ++ data, by rw [← hpart, List.flatten_cons, List.append_assoc],
          by rwa [← List.append_assoc]⟩
  refine hloop.bind (fun out => EStateM.staysOver_pure _) fun out bp'' ⟨part, hpart, hout'⟩ => ?_
  rw [List.flatten_nil, List.append_nil] at hpart
  exact EStateM.returns_pure ⟨rfl, rfl, rfl, hpart ▸ hout'⟩

/-- `Append` takes one more value; a full buffer goes into the stream. -/
theorem append_returns (h : Given usable apart base pins w t vs bp) (hroom : PinRoom usable pins 2)
    {v : Value} (htyped : ∀ u ∈ vs ++ [v], u.hasType t = true) :
    EStateM.Returns Roomy (append w v) bp fun w' bp' =>
      Given usable apart base pins w' t (vs ++ [v]) bp' := by
  obtain ⟨rfl, hopen, full, hfull, rfl, hlt, hout⟩ := h
  rw [append, if_neg (by simp [hopen])]
  by_cases hflush : kChunkRows ≤ (w.buffer ++ [v]).length
  · simp only [if_pos hflush]
    have hlen : (w.buffer ++ [v]).length = kChunkRows := by
      rw [List.length_append, List.length_singleton] at hflush ⊢
      omega
    have hfull' : ∀ c ∈ full ++ [w.buffer ++ [v]], c.length = kChunkRows := by
      intro c hc
      rcases List.mem_append.mp hc with hc | hc
      · exact hfull c hc
      · rw [List.mem_singleton.mp hc, hlen]
    have hflushed := flushChunk_returns (w := { w with buffer := w.buffer ++ [v] }) hroom hout
      (by simp) (Nat.le_of_eq hlen) fun u hu => htyped u ?_
    swap
    · rw [List.append_assoc]
      exact List.mem_append_right _ hu
    refine hflushed.mono fun w' bp' ⟨htype, hfin, hbuffer, hout'⟩ => ?_
    refine ⟨htype, hfin.trans hopen, full ++ [w.buffer ++ [v]], hfull', by simp [hbuffer], ?_, ?_⟩
    · rw [hbuffer]
      exact kChunkRows_pos
    · rwa [List.flatMap_append, List.flatMap_singleton]
  · simp only [if_neg hflush]
    refine EStateM.returns_pure ⟨rfl, hopen, full, hfull, by simp, ?_, hout⟩
    exact Nat.not_le.mp hflush

/-- `Finish` leaves the stream of the column behind, on new pages. -/
theorem finish_returns (h : Given usable apart base pins w t vs bp) (hroom : PinRoom usable pins 2)
    (htyped : ∀ v ∈ vs, v.hasType t = true) :
    EStateM.Returns Roomy (finish w) bp fun root bp' => ∃ pages,
      Serving usable apart bp' pins pages ∧ base <+: pages ∧
      pages.length = base.length + pagesFor (columnBytes t vs) ∧
      Stored pages root (newPages base.length (pagesFor (columnBytes t vs))) (columnBytes t vs) := by
  obtain ⟨rfl, hopen, full, hfull, rfl, hlt, hout⟩ := h
  rw [finish, if_neg (by simp [hopen])]
  have hslices := List.slices_flatten_append kChunkRows_pos hfull w.buffer
  -- what is left in the buffer is the last slice
  have hflushed : EStateM.Returns Roomy (flushChunk w) bp fun w' bp' =>
      PagedOutputStream.Writing usable apart base pins w'.out
        (columnBytes w.type (full.flatten ++ w.buffer)) bp' := by
    by_cases hempty : w.buffer = []
    · rw [flushChunk, if_pos hempty]
      refine EStateM.returns_pure ?_
      rw [hempty, List.append_nil, List.slices_nil, List.append_nil] at hslices
      rwa [columnBytes, hempty, List.append_nil, hslices]
    · have hone := List.slices_of_length_le hempty (Nat.le_of_lt hlt)
      rw [hone] at hslices
      refine (flushChunk_returns hroom hout hempty (Nat.le_of_lt hlt) fun v hv =>
        htyped v (List.mem_append_right _ hv)).mono fun w' bp' ⟨_, _, _, hout'⟩ => ?_
      rwa [columnBytes, hslices, List.flatMap_append, List.flatMap_singleton]
  refine hflushed.bind (fun w => (PagedOutputStream.staysOver_finish w.out).bind fun r =>
    EStateM.staysOver_pure r.1) fun w' bp' hout' => ?_
  refine (PagedOutputStream.finish_returns hout').bind (fun r => EStateM.staysOver_pure r.1)
    fun r bp'' h' => EStateM.returns_pure h'

/-- A whole column: `Append` for every value, and `Finish`. -/
def writeColumn (t : ColumnType) (vs : List Value) : EStateM Exc BufferPool PageId := do
  let w ← create t
  let w ← vs.foldlM append w
  finish w

theorem staysOver_writeColumn (t : ColumnType) (vs : List Value) :
    EStateM.StaysOver Roomy (writeColumn t vs) :=
  (staysOver_create t).bind fun _ => (EStateM.StaysOver.foldlM staysOver_append _ _).bind
    staysOver_finish

/-- A column that is written is stored on new pages. -/
theorem writeColumn_returns (h : Serving usable apart bp pins base) (hroom : PinRoom usable pins 2)
    (htyped : ∀ v ∈ vs, v.hasType t = true) :
    EStateM.Returns Roomy (writeColumn t vs) bp fun root bp' =>
      ∃ pages, Serving usable apart bp' pins pages ∧ base <+: pages ∧
        pages.length = base.length + pagesFor (columnBytes t vs) ∧
        Stored pages root (newPages base.length (pagesFor (columnBytes t vs)))
          (columnBytes t vs) := by
  have hroom₁ : PinRoom usable pins 1 := hroom.mono (Nat.le_succ 1)
  refine (create_returns h hroom₁ t).bind (fun w => (EStateM.StaysOver.foldlM staysOver_append _ _).bind
    staysOver_finish) fun w bp₁ hgiven => ?_
  have hloop := EStateM.Returns.foldlM (L := Roomy) (f := append)
    (I := fun rest w bp => ∃ done, done ++ rest = vs ∧ Given usable apart base pins w t done bp)
    staysOver_append (l := vs) ⟨[], rfl, hgiven⟩ fun v rest w bp ⟨done, hdone, hw⟩ =>
      (append_returns hw hroom fun u hu => htyped u (by
        rw [← hdone, ← List.singleton_append, ← List.append_assoc]
        exact List.mem_append_left _ hu)).mono fun w' bp' hw' =>
          ⟨done ++ [v], by rw [← hdone, List.append_assoc, List.singleton_append], hw'⟩
  refine hloop.bind staysOver_finish fun w bp₂ ⟨done, hdone, hw⟩ => ?_
  rw [List.append_nil] at hdone
  subst hdone
  exact finish_returns hw hroom htyped

end

end ColumnWriter

/-! ## Reading -/

namespace ColumnReader

theorem keeps_skipPayload (r : ColumnReader) : EStateM.Keeps (·.disk.numPages) (skipPayload r) := by
  unfold skipPayload
  refine EStateM.Keeps.ite (EStateM.keeps_pure _) ?_
  exact (PagedInputStream.keeps_advance r.inp _).bind fun a => EStateM.keeps_pure _

theorem keeps_create (root : PageId) (t : ColumnType) :
    EStateM.Keeps (·.disk.numPages) (create root t) :=
  (PagedInputStream.keeps_create root).bind fun _ => EStateM.keeps_pure _

theorem keeps_readPod (w : Nat) (inp : PagedInputStream) :
    EStateM.Keeps (·.disk.numPages) (readPod w inp) :=
  (PagedInputStream.keeps_advance inp w).bind fun a =>
    EStateM.keeps_pure (ofLeBytes a.1, a.2)

theorem keeps_readMeta (inp : PagedInputStream) : EStateM.Keeps (·.disk.numPages) (readMeta inp) := by
  unfold readMeta
  refine (keeps_readPod 4 inp).bind fun a => ?_
  refine (keeps_readPod 1 a.2).bind fun b => ?_
  refine (keeps_readPod 1 b.2).bind fun c => ?_
  refine (keeps_readPod 2 c.2).bind fun d => ?_
  refine (keeps_readPod 4 d.2).bind fun e => ?_
  refine (keeps_readPod 4 e.2).bind fun f => ?_
  refine (keeps_readPod 8 f.2).bind fun g => ?_
  exact (keeps_readPod 8 g.2).bind fun h => EStateM.keeps_pure _

theorem keeps_nextChunk (r : ColumnReader) : EStateM.Keeps (·.disk.numPages) (nextChunk r) := by
  unfold nextChunk
  refine (keeps_skipPayload r).bind fun r => ?_
  refine EStateM.Keeps.ite (EStateM.keeps_pure _) ?_
  exact (keeps_readMeta r.inp).bind fun a => EStateM.keeps_pure _

theorem keeps_decode (r : ColumnReader) (out : Vector) :
    EStateM.Keeps (·.disk.numPages) (decode r out) := by
  unfold decode
  refine (PagedInputStream.keeps_advance r.inp _).bind fun a => ?_
  exact (EStateM.keeps_ofExcept _).bind fun out => EStateM.keeps_pure _

theorem staysOver_skipPayload (r : ColumnReader) : EStateM.StaysOver Roomy (skipPayload r) :=
  (keeps_skipPayload r).staysOver (· < 2 ^ 32)

theorem staysOver_create (root : PageId) (t : ColumnType) :
    EStateM.StaysOver Roomy (create root t) :=
  (keeps_create root t).staysOver (· < 2 ^ 32)

theorem staysOver_readPod (w : Nat) (inp : PagedInputStream) :
    EStateM.StaysOver Roomy (readPod w inp) :=
  (keeps_readPod w inp).staysOver (· < 2 ^ 32)

theorem staysOver_readMeta (inp : PagedInputStream) : EStateM.StaysOver Roomy (readMeta inp) :=
  (keeps_readMeta inp).staysOver (· < 2 ^ 32)

theorem staysOver_nextChunk (r : ColumnReader) : EStateM.StaysOver Roomy (nextChunk r) :=
  (keeps_nextChunk r).staysOver (· < 2 ^ 32)

theorem staysOver_decode (r : ColumnReader) (out : Vector) :
    EStateM.StaysOver Roomy (decode r out) :=
  (keeps_decode r out).staysOver (· < 2 ^ 32)

/-- A reader before the header of the next slice; the payload of the slice before it may still
    have to be passed over. -/
def Before (apart : List PageId) (pins : List Pin) (pages : List Page) (r : ColumnReader)
    (t : ColumnType) (css : List (List Value)) : Prop :=
  r.type = t ∧ ∃ skip : Bytes,
    Delivers apart pins pages r.inp (skip ++ css.flatMap (chunkImage t)) ∧
    if r.payloadConsumed then skip = [] else r.chunkMeta.byteLength = skip.length

/-- A reader behind the header of the slice `vs`. -/
def On (apart : List PageId) (pins : List Pin) (pages : List Page) (r : ColumnReader)
    (t : ColumnType) (vs : List Value) (css : List (List Value)) : Prop :=
  r.type = t ∧ r.payloadConsumed = false ∧ ∃ c, encodeChunk t vs = .ok c ∧
    r.chunkMeta = ChunkMeta.ofChunk c ∧
    Delivers apart pins pages r.inp (c.payload ++ css.flatMap (chunkImage t))

section

variable {usable : List Nat} {apart : List PageId} {pages : List Page} {pins : List Pin} {bp : BufferPool}
  {r : ColumnReader} {t : ColumnType} {vs : List Value} {css : List (List Value)}

/-- A field of a header is read back. -/
theorem readPod_delivers {inp : PagedInputStream} {w x : Nat} {back : Bytes}
    (h : Serving usable apart bp pins pages) (hroom : PinRoom usable pins 1) (hx : x < 256 ^ w)
    (hinp : Delivers apart pins pages inp (leBytes w x ++ back)) :
    EStateM.Returns Roomy (readPod w inp) bp fun a bp' =>
      (a.1 = x ∧ Delivers apart pins pages a.2 back) ∧ Serving usable apart bp' pins pages := by
  refine (PagedInputStream.advance_delivers h hroom hinp (Bytes.length_leBytes w x).symm).bind
    (fun a => EStateM.staysOver_pure (ofLeBytes a.1, a.2)) fun a bp' ⟨⟨ha, hback⟩, hserving⟩ => ?_
  refine EStateM.returns_pure ⟨⟨?_, hback⟩, hserving⟩
  rw [ha]
  exact Bytes.ofLeBytes_leBytes_of_lt hx

/-- A header is read back. -/
theorem readMeta_delivers {inp : PagedInputStream} {m : ChunkMeta} {back : Bytes}
    (h : Serving usable apart bp pins pages) (hroom : PinRoom usable pins 1) (hm : MetaFits m)
    (hinp : Delivers apart pins pages inp (m.fields.flatten ++ back)) :
    EStateM.Returns Roomy (readMeta inp) bp fun a bp' =>
      (a.1 = m ∧ Delivers apart pins pages a.2 back) ∧ Serving usable apart bp' pins pages := by
  have hlt : ∀ x : Int64, x.toUInt64.toNat < 256 ^ 8 := fun x => by
    have := x.toUInt64.toNat_lt
    omega
  simp only [ChunkMeta.fields, List.flatten_cons, List.flatten_nil, List.append_nil,
    List.append_assoc] at hinp
  unfold readMeta
  refine (readPod_delivers h hroom hm.numRows hinp).bind (fun a => ?_)
    fun a bp₁ ⟨⟨h₁, hinp₁⟩, hs₁⟩ => ?_
  · repeat refine (staysOver_readPod _ _).bind fun _ => ?_
    exact EStateM.staysOver_pure _
  refine (readPod_delivers hs₁ hroom hm.encoding hinp₁).bind (fun a => ?_)
    fun b bp₂ ⟨⟨h₂, hinp₂⟩, hs₂⟩ => ?_
  · repeat refine (staysOver_readPod _ _).bind fun _ => ?_
    exact EStateM.staysOver_pure _
  refine (readPod_delivers hs₂ hroom hm.hasZoneMap hinp₂).bind (fun a => ?_)
    fun c bp₃ ⟨⟨h₃, hinp₃⟩, hs₃⟩ => ?_
  · repeat refine (staysOver_readPod _ _).bind fun _ => ?_
    exact EStateM.staysOver_pure _
  refine (readPod_delivers hs₃ hroom hm.reserved hinp₃).bind (fun a => ?_)
    fun d bp₄ ⟨⟨h₄, hinp₄⟩, hs₄⟩ => ?_
  · repeat refine (staysOver_readPod _ _).bind fun _ => ?_
    exact EStateM.staysOver_pure _
  refine (readPod_delivers hs₄ hroom hm.nullCount hinp₄).bind (fun a => ?_)
    fun e bp₅ ⟨⟨h₅, hinp₅⟩, hs₅⟩ => ?_
  · repeat refine (staysOver_readPod _ _).bind fun _ => ?_
    exact EStateM.staysOver_pure _
  refine (readPod_delivers hs₅ hroom hm.byteLength hinp₅).bind (fun a => ?_)
    fun f bp₆ ⟨⟨h₆, hinp₆⟩, hs₆⟩ => ?_
  · repeat refine (staysOver_readPod _ _).bind fun _ => ?_
    exact EStateM.staysOver_pure _
  refine (readPod_delivers hs₆ hroom (hlt _) hinp₆).bind (fun a => ?_)
    fun g bp₇ ⟨⟨h₇, hinp₇⟩, hs₇⟩ => ?_
  · repeat refine (staysOver_readPod _ _).bind fun _ => ?_
    exact EStateM.staysOver_pure _
  refine (readPod_delivers hs₇ hroom (hlt _) hinp₇).bind (fun a => EStateM.staysOver_pure _)
    fun k bp₈ ⟨⟨h₈, hinp₈⟩, hs₈⟩ => ?_
  refine EStateM.returns_pure ⟨⟨?_, hinp₈⟩, hs₈⟩
  simp only [h₁, h₂, h₃, h₄, h₅, h₆, h₇, h₈, UInt64.ofNat_toNat, Int64.toInt64_toUInt64]

/-- `SkipPayload` brings the reader behind the payload. -/
theorem skipPayload_returns (h : Serving usable apart bp pins pages) (hroom : PinRoom usable pins 1)
    (hr : Before apart pins pages r t css) :
    EStateM.Returns Roomy (skipPayload r) bp fun r' bp' =>
      (r'.type = t ∧ r'.payloadConsumed = true ∧
        Delivers apart pins pages r'.inp (css.flatMap (chunkImage t))) ∧
      Serving usable apart bp' pins pages := by
  obtain ⟨htype, skip, hinp, hskip⟩ := hr
  unfold skipPayload
  by_cases hconsumed : r.payloadConsumed = true
  · rw [if_pos hconsumed] at hskip ⊢
    rw [hskip, List.nil_append] at hinp
    exact EStateM.returns_pure ⟨⟨htype, hconsumed, hinp⟩, h⟩
  · rw [if_neg hconsumed] at hskip ⊢
    refine (PagedInputStream.advance_delivers h hroom hinp hskip).bind
      (fun a => EStateM.staysOver_pure _) fun a bp' ⟨⟨ha, hback⟩, hserving⟩ => ?_
    exact EStateM.returns_pure ⟨⟨htype, rfl, hback⟩, hserving⟩

/-- At the end of the column there is no further slice. -/
theorem nextChunk_end (h : Serving usable apart bp pins pages) (hroom : PinRoom usable pins 1)
    (hr : Before apart pins pages r t []) :
    EStateM.Returns Roomy (nextChunk r) bp fun a bp' =>
      (a.1 = false ∧ Before apart pins pages a.2 t []) ∧ Serving usable apart bp' pins pages := by
  refine (skipPayload_returns h hroom hr).bind (fun r => ?_)
    fun r' bp' ⟨⟨htype, hconsumed, hinp⟩, hserving⟩ => ?_
  · refine EStateM.StaysOver.ite (EStateM.staysOver_pure _) ?_
    exact (staysOver_readMeta r.inp).bind fun a => EStateM.staysOver_pure _
  have hend : r'.inp.atEnd = true := by
    obtain ⟨ids, -, -, hiff⟩ := hinp
    exact hiff.mpr rfl
  rw [if_pos hend]
  refine EStateM.returns_pure ⟨⟨rfl, htype, [], hinp, ?_⟩, hserving⟩
  rw [if_pos hconsumed]

/-- `NextChunk` reads the header of the next slice. -/
theorem nextChunk_returns (h : Serving usable apart bp pins pages) (hroom : PinRoom usable pins 1)
    (hr : Before apart pins pages r t (vs :: css)) (hfits : ChunkFits t vs) :
    EStateM.Returns Roomy (nextChunk r) bp fun a bp' =>
      (a.1 = true ∧ On apart pins pages a.2 t vs css) ∧ Serving usable apart bp' pins pages := by
  obtain ⟨c, hc, himage⟩ := hfits.encode
  refine (skipPayload_returns h hroom hr).bind (fun r => ?_)
    fun r' bp' ⟨⟨htype, hconsumed, hinp⟩, hserving⟩ => ?_
  · refine EStateM.StaysOver.ite (EStateM.staysOver_pure _) ?_
    exact (staysOver_readMeta r.inp).bind fun a => EStateM.staysOver_pure _
  rw [List.flatMap_cons, himage, EncodedChunk.image, List.append_assoc] at hinp
  have hend : ¬ r'.inp.atEnd = true := by
    obtain ⟨ids, -, -, hiff⟩ := hinp
    rw [hiff]
    intro hnil
    have := congrArg List.length hnil
    rw [List.length_append, length_fields, List.length_nil] at this
    omega
  rw [if_neg hend]
  refine (readMeta_delivers hserving hroom (metaFits_ofChunk hfits hc) hinp).bind
    (fun a => EStateM.staysOver_pure _) fun a bp'' ⟨⟨ha, hback⟩, hserving'⟩ => ?_
  exact EStateM.returns_pure ⟨⟨rfl, htype, rfl, c, hc, ha, hback⟩, hserving'⟩

/-- The header counts the rows of its slice. -/
theorem On.numRows (hr : On apart pins pages r t vs css) (hfits : ChunkFits t vs) :
    r.chunkMeta.numRows = vs.length := by
  obtain ⟨-, -, c, hc, hmeta, -⟩ := hr
  obtain ⟨c', e, best, hc', -, -, -, -, -, hnum, -⟩ :=
    encodeChunk_spec hfits.typed hfits.rows_lt
  obtain rfl : c = c' := by rw [hc] at hc'; exact Except.ok.inj hc'
  rw [hmeta]
  exact hnum

/-- A slice that is not decoded can be passed over. -/
theorem On.before (hr : On apart pins pages r t vs css) (hfits : ChunkFits t vs) :
    Before apart pins pages r t css := by
  obtain ⟨htype, hconsumed, c, hc, hmeta, hinp⟩ := hr
  refine ⟨htype, c.payload, hinp, ?_⟩
  rw [if_neg (by simp [hconsumed]), hmeta]
  exact Nat.mod_eq_of_lt (hfits.payload c hc)

/-- `Decode` appends the values of the slice. -/
theorem decode_returns (h : Serving usable apart bp pins pages) (hroom : PinRoom usable pins 1)
    (hr : On apart pins pages r t vs css) (hfits : ChunkFits t vs) (out : Vector) (hout : out.type = t) :
    EStateM.Returns Roomy (decode r out) bp fun a bp' =>
      (a.1.type = t ∧ a.1.values = out.values ++ vs ∧ Before apart pins pages a.2 t css) ∧
      Serving usable apart bp' pins pages := by
  obtain ⟨htype, hconsumed, c, hc, hmeta, hinp⟩ := hr
  have hlen : r.chunkMeta.byteLength = c.payload.length := by
    rw [hmeta]
    exact Nat.mod_eq_of_lt (hfits.payload c hc)
  refine (PagedInputStream.advance_delivers h hroom hinp hlen).bind (fun a => ?_)
    fun a bp' ⟨⟨ha, hback⟩, hserving⟩ => ?_
  · exact (EStateM.staysOver_ofExcept _).bind fun out => EStateM.staysOver_pure _
  obtain ⟨out', hdecode, htype', hvalues⟩ := decodeChunk_encodeChunk hfits.typed hfits.rows_lt
    hc (hfits.payload c hc) hout
  have henc : Encoding.ofByte (ChunkMeta.ofChunk c).encoding = some c.encoding := by
    cases hcase : c.encoding <;> simp [ChunkMeta.ofChunk, hcase] <;> rfl
  have hpayload : r.decodePayload a.1 out = .ok out' := by
    rw [decodePayload, hmeta, henc, ha, htype]
    exact hdecode
  refine (EStateM.returns_ofExcept (Q := fun v bp'' => v = out' ∧ bp'' = bp') hpayload
    ⟨rfl, rfl⟩).bind (fun out => EStateM.staysOver_pure _) fun v bp'' ⟨hv, hbp⟩ => ?_
  subst hv hbp
  refine EStateM.returns_pure ⟨⟨htype'.trans hout, hvalues, htype, [], hback, ?_⟩, hserving⟩
  rfl

/-- A reader on the first page of a column stands before its first slice. -/
theorem create_returns (h : Serving usable apart bp pins pages) (hroom : PinRoom usable pins 1)
    {root : PageId} {ids : List PageId} (hstored : Stored pages root ids (columnBytes t vs))
    (hfetch : ∀ pid ∈ ids, Fetchable apart pins pid) :
    EStateM.Returns Roomy (create root t) bp fun r bp' =>
      Before apart pins pages r t (vs.slices kChunkRows) ∧ Serving usable apart bp' pins pages := by
  refine (PagedInputStream.create_delivers h hroom hstored hfetch).bind
    (fun _ => EStateM.staysOver_pure _) fun inp bp' ⟨hinp, hserving⟩ => ?_
  exact EStateM.returns_pure ⟨⟨rfl, [], hinp, rfl⟩, hserving⟩

end

end ColumnReader

end LiteOLAP
