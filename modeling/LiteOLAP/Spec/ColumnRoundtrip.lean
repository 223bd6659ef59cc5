import LiteOLAP.Spec.ColumnStreamCorrect
import LiteOLAP.Spec.PagedStreamRoundtrip

/-!
# Columns round-trip

A column is written value by value and read chunk by chunk. Whatever a caller does with each chunk
before it asks for the next one, the chunks are the slices of `kChunkRows` values of the column,
and their headers describe them.

## Key results

- `ColumnReader.readChunks_returns`: the chunks of a stored column, for any use of them
- `Column.readChunks_writeColumn`: the chunks of a column that was just written
-/

namespace LiteOLAP

open BufferPool (Pin Serving PinRoom Fetchable Roomy)
open Catalog (newPages)

/-- A header that describes the values of its chunk. -/
structure ChunkMeta.Describes (m : ChunkMeta) (t : ColumnType) (vs : List Value) : Prop where
  numRows : m.numRows = vs.length
  nullCount : m.nullCount = (vs.filter Value.isNull).length
  zone : t = .int ∨ t = .bigInt → (∃ v ∈ vs, v ≠ .null) →
    m.hasZoneMap = 1 ∧ Extremes vs m.minValue m.maxValue

theorem ChunkMeta.describes_ofChunk {t : ColumnType} {vs : List Value} (h : ChunkFits t vs)
    {c : EncodedChunk} (hc : encodeChunk t vs = .ok c) : (ChunkMeta.ofChunk c).Describes t vs := by
  obtain ⟨c', e, best, hc', -, -, -, -, -, hnum, hnull, hzone, -⟩ :=
    encodeChunk_spec h.typed h.rows_lt
  obtain rfl : c = c' := by rw [hc] at hc'; exact Except.ok.inj hc'
  refine ⟨hnum, hnull, fun ht hsome => ?_⟩
  have hmap : c.hasZoneMap = true := hzone.mpr ⟨ht, hsome⟩
  exact ⟨by simp [ofChunk, hmap], encodeChunk_extremes h.typed hc hmap⟩

namespace ColumnReader

/-- What is done with a chunk before the next one. -/
inductive Use
  | decode
  | skip
  | leave
  deriving DecidableEq

/-- What a caller has seen of a chunk: the answer of `NextChunk`, the header, and the values if they
    were decoded. -/
structure Seen where
  more : Bool
  chunkMeta : ChunkMeta
  values : Option (List Value)

/-- Do something with the current chunk. -/
def use (u : Use) (r : ColumnReader) : EStateM Exc BufferPool (Option (List Value) × ColumnReader) :=
  match u with
  | .decode => do
    let (out, r) ← r.decode (.empty r.type)
    pure (some out.values, r)
  | .skip => do
    let r ← r.skipPayload
    pure (none, r)
  | .leave => pure (none, r)

/-- `NextChunk`, and a use of the chunk, as often as there are uses. -/
def readChunks : List Use → ColumnReader → EStateM Exc BufferPool (List Seen × ColumnReader)
  | [], r => pure ([], r)
  | u :: us, r => do
    let (more, r) ← r.nextChunk
    let (values, r') ← use u r
    let (seen, r') ← readChunks us r'
    pure (⟨more, r.chunkMeta, values⟩ :: seen, r')

/-- What should be seen of the slice `c` when it is used in the way `u`. -/
def Shows (t : ColumnType) (c : List Value × Use) (seen : Seen) : Prop :=
  seen.more = true ∧ seen.chunkMeta.Describes t c.1 ∧
    seen.values = if c.2 = .decode then some c.1 else none

theorem keeps_use (u : Use) (r : ColumnReader) : EStateM.Keeps (·.disk.numPages) (use u r) := by
  cases u with
  | decode => exact (keeps_decode r _).bind fun a => EStateM.keeps_pure _
  | skip => exact (keeps_skipPayload r).bind fun r => EStateM.keeps_pure _
  | leave => exact EStateM.keeps_pure _

theorem keeps_readChunks (us : List Use) :
    ∀ r : ColumnReader, EStateM.Keeps (·.disk.numPages) (readChunks us r) := by
  induction us with
  | nil => exact fun r => EStateM.keeps_pure _
  | cons u us ih =>
    intro r
    exact (keeps_nextChunk r).bind fun a => (keeps_use u a.2).bind fun b =>
      (ih b.2).bind fun c => EStateM.keeps_pure _

section

variable {usable : List Nat} {apart : List PageId} {pages : List Page} {pins : List Pin}
  {bp : BufferPool} {r : ColumnReader} {t : ColumnType} {vs : List Value} {css : List (List Value)}

/-- Whatever is done with a chunk, the reader is before the next one. -/
theorem use_returns (h : Serving usable apart bp pins pages) (hroom : PinRoom usable pins 1)
    (hr : On apart pins pages r t vs css) (hfits : ChunkFits t vs) (u : Use) :
    EStateM.Returns Roomy (use u r) bp fun a bp' =>
      (a.1 = (if u = .decode then some vs else none) ∧ Before apart pins pages a.2 t css) ∧
      Serving usable apart bp' pins pages := by
  cases u with
  | decode =>
    refine (decode_returns h hroom hr hfits (.empty r.type) hr.1).bind
      (fun a => EStateM.staysOver_pure _) fun a bp' ⟨⟨_, hvalues, hbefore⟩, h'⟩ => ?_
    exact EStateM.returns_pure ⟨⟨by simp [hvalues], hbefore⟩, h'⟩
  | skip =>
    refine (skipPayload_returns h hroom (hr.before hfits)).bind
      (fun r => EStateM.staysOver_pure _) fun r' bp' ⟨⟨htype, hconsumed, hinp⟩, h'⟩ => ?_
    refine EStateM.returns_pure ⟨⟨by simp, htype, [], hinp, ?_⟩, h'⟩
    rw [if_pos hconsumed]
  | leave => exact EStateM.returns_pure ⟨⟨by simp, hr.before hfits⟩, h⟩

/-- The chunks of a column, one after another. -/
theorem readChunks_returns (hroom : PinRoom usable pins 1) :
    ∀ {css : List (List Value)} {us : List Use} {r : ColumnReader} {bp : BufferPool},
      Serving usable apart bp pins pages → Before apart pins pages r t css →
      (∀ c ∈ css, ChunkFits t c) → us.length = css.length →
      EStateM.Returns Roomy (readChunks us r) bp fun a bp' =>
        List.Forall₂ (Shows t) (css.zip us) a.1 ∧ Before apart pins pages a.2 t [] ∧
        Serving usable apart bp' pins pages := by
  intro css
  induction css with
  | nil =>
    intro us r bp h hr _ hlen
    obtain rfl := List.eq_nil_of_length_eq_zero hlen
    exact EStateM.returns_pure ⟨.nil, hr, h⟩
  | cons c css ih =>
    intro us r bp h hr hfits hlen
    cases us with
    | nil => cases hlen
    | cons u us =>
      have hfit := hfits c List.mem_cons_self
      refine (nextChunk_returns h hroom hr hfit).bind (fun a => (((keeps_use u a.2).bind fun b =>
        (keeps_readChunks us b.2).bind fun c => EStateM.keeps_pure _).staysOver (· < 2 ^ 32)))
        fun a bp₁ ⟨⟨hmore, hon⟩, h₁⟩ => ?_
      refine (use_returns h₁ hroom hon hfit u).bind (fun b => (((keeps_readChunks us b.2).bind
        fun c => EStateM.keeps_pure _).staysOver (· < 2 ^ 32)))
        fun b bp₂ ⟨⟨hvalues, hbefore⟩, h₂⟩ => ?_
      refine (ih h₂ hbefore (fun d hd => hfits d (List.mem_cons_of_mem _ hd))
        (Nat.succ.inj hlen)).bind (fun c => EStateM.staysOver_pure _)
        fun d bp₃ ⟨hshows, hend, h₃⟩ => ?_
      obtain ⟨-, -, e, he, hmeta, -⟩ := hon
      refine EStateM.returns_pure ⟨.cons ⟨hmore, ?_, hvalues⟩ hshows, hend, h₃⟩
      rw [hmeta]
      exact ChunkMeta.describes_ofChunk hfit he

end

end ColumnReader

namespace Column

open ColumnReader (Use Shows readChunks)
open ColumnWriter (writeColumn)

section

variable {usable : List Nat} {pins : List Pin} {base : List Page} {bp : BufferPool} {t : ColumnType}
  {vs : List Value}

/-- While the file has fewer than `2 ^ 32` pages: a column that was written is read in
    `⌈n / kChunkRows⌉` chunks, which are its slices, under headers that describe them, for every use
    of each chunk. -/
theorem readChunks_writeColumn (h : Serving usable [] bp pins base) (hroom : PinRoom usable pins 2)
    (htyped : ∀ v ∈ vs, v.hasType t = true)
    (hpayload : ∀ c ∈ vs.slices kChunkRows, ∀ e, encodeChunk t c = .ok e →
      e.payload.length < 2 ^ 32)
    (hlim : Roomy (writeColumn t vs bp).state) :
    ∃ root bp₁ r bp₂, writeColumn t vs bp = .ok root bp₁ ∧
      ColumnReader.create root t bp₁ = .ok r bp₂ ∧
      ∀ us : List Use, us.length = (vs.length + kChunkRows - 1) / kChunkRows →
        ∃ seen r' bp₃ r'' bp₄, readChunks us r bp₂ = .ok (seen, r') bp₃ ∧
          List.Forall₂ (Shows t) ((vs.slices kChunkRows).zip us) seen ∧
          r'.nextChunk bp₃ = .ok (false, r'') bp₄ := by
  have hfits : ColumnFits t vs := fun c hc => by
    obtain ⟨-, hle, hsub⟩ := List.mem_slices kChunkRows_pos hc
    exact ⟨hle, fun v hv => htyped v (hsub hv), hpayload c hc⟩
  obtain ⟨root, bp₁, hwrite, pages, h₁, -, hlen, hstored⟩ :=
    ColumnWriter.writeColumn_returns h hroom htyped hlim
  rw [hwrite] at hlim
  have hroom₁ := hroom.mono (Nat.le_succ 1)
  have hfetch := h.fetchable_newPages h₁ hlim hlen
  have hcreates := ColumnReader.keeps_create root t
  obtain ⟨r, bp₂, hcreate, hr, h₂⟩ := (ColumnReader.create_returns h₁ hroom₁ hstored
    hfetch).of_keeps (P := (· < 2 ^ 32)) hcreates hlim
  have hlim₂ : bp₂.disk.numPages < 2 ^ 32 := (hcreates.of_ok hcreate).symm ▸ hlim
  refine ⟨root, bp₁, r, bp₂, hwrite, hcreate, fun us hus => ?_⟩
  have hreads := ColumnReader.keeps_readChunks us r
  obtain ⟨⟨seen, r'⟩, bp₃, hread, hshows, hend, h₃⟩ := (ColumnReader.readChunks_returns hroom₁ h₂ hr
    hfits (hus.trans (List.length_slices _).symm)).of_keeps (P := (· < 2 ^ 32)) hreads hlim₂
  have hlim₃ : bp₃.disk.numPages < 2 ^ 32 := (hreads.of_ok hread).symm ▸ hlim₂
  obtain ⟨⟨more, r''⟩, bp₄, hnext, ⟨hmore, -⟩, -⟩ := (ColumnReader.nextChunk_end h₃ hroom₁
    hend).of_keeps (P := (· < 2 ^ 32)) (ColumnReader.keeps_nextChunk r') hlim₃
  obtain rfl : more = false := hmore
  exact ⟨seen, r', bp₃, r'', bp₄, hread, hshows, hnext⟩

end

/-! ### A column of one value -/

/-- Bytes that fit on the current page only move the offset. -/
private theorem write_within {s : PagedOutputStream} {data : Bytes} {idx : Nat}
    (hopen : s.finished = false) (hcur : s.currentPage = some idx)
    (hfits : s.offset + data.length ≤ payloadCapacity) : ∃ f, ∀ bp,
      s.write data bp = .ok { s with offset := s.offset + data.length }
        (BufferPool.modifyPage idx f bp) := by
  obtain ⟨first, pid, page, offset, finished⟩ := s
  obtain rfl : finished = false := hopen
  obtain rfl : page = some idx := hcur
  cases data with
  | nil => exact ⟨id, fun bp => by rw [BufferPool.modifyPage_id]; rfl⟩
  | cons b data =>
    have hroom : PagedOutputStream.ensureRoom ⟨first, pid, some idx, offset, false⟩ =
        pure ⟨first, pid, some idx, offset, false⟩ := by
      rw [PagedOutputStream.ensureRoom, if_neg]
      rw [List.length_cons] at hfits
      simp only at hfits ⊢
      omega
    have htake : min (payloadCapacity - offset) (b :: data).length = (b :: data).length :=
      Nat.min_eq_right (Nat.le_sub_of_add_le' hfits)
    refine ⟨fun page => page.overwrite offset (b :: data), fun bp => ?_⟩
    rw [PagedOutputStream.write, if_neg Bool.false_ne_true, List.length_cons,
      PagedOutputStream.writeLoop, if_neg (List.cons_ne_nil b data), hroom, pure_bind]
    simp only [htake, List.take_length, List.drop_length]
    cases data with
    | nil => rfl
    | cons c data => rfl

private theorem writes_within {datas : List Bytes} :
    ∀ {s : PagedOutputStream} {idx : Nat}, s.finished = false → s.currentPage = some idx →
      s.offset + datas.flatten.length ≤ payloadCapacity → ∃ f, ∀ bp,
        datas.foldlM PagedOutputStream.write s bp =
          .ok { s with offset := s.offset + datas.flatten.length } (BufferPool.modifyPage idx f bp) := by
  induction datas with
  | nil => exact fun _ _ _ => ⟨id, fun bp => by rw [BufferPool.modifyPage_id]; rfl⟩
  | cons data datas ih =>
    intro s idx hopen hcur hfits
    rw [List.flatten_cons, List.length_append] at hfits
    have hfirst : s.offset + data.length ≤ payloadCapacity := by omega
    obtain ⟨f₁, hwrite⟩ := write_within hopen hcur hfirst
    obtain ⟨f₂, hrest⟩ := ih (s := { s with offset := s.offset + data.length }) hopen hcur
      (by simp only; omega)
    refine ⟨f₂ ∘ f₁, fun bp => ?_⟩
    rw [List.foldlM_cons, EStateM.bind_of_ok (hwrite bp), hrest, List.flatten_cons, List.length_append,
      Nat.add_assoc, BufferPool.modifyPage_modifyPage]

/-- A value whose chunk fits on one page takes one page. -/
theorem writeColumn_one_page {t : ColumnType} {v : Value} {c : EncodedChunk}
    (hc : encodeChunk t [v] = .ok c) (hsmall : 32 + c.payload.length ≤ payloadCapacity)
    {bp bp₁ : BufferPool} {pid : PageId} {idx : Nat} (hnew : BufferPool.newPage bp = .ok (pid, idx) bp₁) :
    ∃ f, writeColumn t [v] bp =
      .ok pid (BufferPool.unpinPage pid true (BufferPool.modifyPage idx f bp₁)).2 := by
  obtain ⟨s, hs⟩ : ∃ s : PagedOutputStream, s = ⟨pid, pid, some idx, 0, false⟩ := ⟨_, rfl⟩
  have hcreate : ColumnWriter.create t bp =
      .ok ⟨t, s, [], false⟩ (BufferPool.modifyPage idx PagedOutputStream.startPage bp₁) := by
    rw [hs, ColumnWriter.create, PagedOutputStream.create, PagedOutputStream.startNewPage, bind_assoc,
      EStateM.bind_of_ok hnew]
    rfl
  have happend : ColumnWriter.append ⟨t, s, [], false⟩ v = pure ⟨t, s, [v], false⟩ := rfl
  have hopened : s.finished = false := by rw [hs]
  have hcurrent : s.currentPage = some idx := by rw [hs]
  have hfits : s.offset + ((ChunkMeta.ofChunk c).fields ++ [c.payload]).flatten.length ≤
      payloadCapacity := by
    rw [hs, List.flatten_append, List.length_append, length_fields]
    simpa using hsmall
  obtain ⟨f, hwrites⟩ := writes_within hopened hcurrent hfits
  obtain ⟨off, hoff⟩ : ∃ off,
      off = s.offset + ((ChunkMeta.ofChunk c).fields ++ [c.payload]).flatten.length := ⟨_, rfl⟩
  rw [← hoff] at hwrites
  have hflush : ColumnWriter.flushChunk ⟨t, s, [v], false⟩
      (BufferPool.modifyPage idx PagedOutputStream.startPage bp₁) =
        .ok ⟨t, { s with offset := off }, [], false⟩
          (BufferPool.modifyPage idx (f ∘ PagedOutputStream.startPage) bp₁) := by
    rw [ColumnWriter.flushChunk, if_neg (List.cons_ne_nil v []), hc]
    refine (EStateM.bind_of_ok (hwrites _)).trans ?_
    rw [BufferPool.modifyPage_modifyPage]
    rfl
  refine ⟨PagedOutputStream.closePage kInvalidPageId off ∘ f ∘ PagedOutputStream.startPage, ?_⟩
  rw [writeColumn, EStateM.bind_of_ok hcreate, List.foldlM_cons, happend, pure_bind, List.foldlM_nil,
    pure_bind, ColumnWriter.finish, if_neg Bool.false_ne_true, EStateM.bind_of_ok hflush,
    ← BufferPool.modifyPage_modifyPage idx (PagedOutputStream.closePage kInvalidPageId off), hs]
  rfl

theorem encodeChunk_seven :
    ∃ c, encodeChunk .int [.int32 7] = .ok c ∧ c.payload.length ≤ 5 := by
  obtain ⟨c, e, best, hc, -, -, -, -, hmin, -⟩ :=
    encodeChunk_spec (show ∀ v ∈ [Value.int32 7], v.hasType .int = true by decide) (by norm_num)
  have hplain : encodeChunkWith .int [.int32 7] .plain =
      .ok { encoding := .plain, payload := [1, 7, 0, 0, 0] } := by decide
  exact ⟨c, hc, hmin .plain (by simp [candidates]) _ hplain⟩

/-- A column of one value, through the general statement. -/
theorem readChunks_writeColumn_one_value :
    ∃ bp root bp₁ r bp₂, BufferPool.create .create 2 = .ok bp ∧
      writeColumn .int [.int32 7] bp = .ok root bp₁ ∧ ColumnReader.create root .int bp₁ = .ok r bp₂ ∧
      ∃ seen r' bp₃ r'' bp₄, readChunks [.decode] r bp₂ = .ok ([seen], r') bp₃ ∧
        seen.values = some [.int32 7] ∧ r'.nextChunk bp₃ = .ok (false, r'') bp₄ := by
  obtain ⟨c, hc, hsmall⟩ := encodeChunk_seven
  have hslices : [Value.int32 7].slices kChunkRows = [[.int32 7]] :=
    List.slices_of_length_le (List.cons_ne_nil _ _) kChunkRows_pos
  have hcreate : BufferPool.create .create 2 = .ok ⟨.create, 2, fun _ => Frame.empty,
    fun _ => none, [], [1, 0]⟩ := rfl
  obtain ⟨bp, hbp⟩ : ∃ bp : BufferPool, bp = ⟨.create, 2, fun _ => Frame.empty,
    fun _ => none, [], [1, 0]⟩ := ⟨_, rfl⟩
  obtain ⟨bp₁, hnew, hpages⟩ : ∃ bp₁, BufferPool.newPage bp = .ok (1, 1) bp₁ ∧
      bp₁.disk.numPages = 2 := by
    rw [hbp]
    exact ⟨_, rfl, rfl⟩
  rw [← hbp] at hcreate
  have hnone : ∀ pid ∈ ([] : List PageId), pid.toNat < DiskManager.create.numPages :=
    fun pid hpid => by cases hpid
  have hserving := Serving.create hcreate rfl hnone
  obtain ⟨f, hwrite⟩ := writeColumn_one_page hc (by unfold payloadCapacity; omega) hnew
  have hlim : Roomy (writeColumn .int [.int32 7] bp).state := by
    rw [hwrite, EStateM.Result.state_ok, Roomy, BufferPool.numPages_unpinPage]
    show bp₁.disk.numPages < 2 ^ 32
    rw [hpages]
    norm_num
  obtain ⟨root, bp₁, r, bp₂, hwrite, hread, hall⟩ := readChunks_writeColumn hserving
    (show 2 ≤ _ by decide) (by decide) (fun c' hc' e he => by
      rw [hslices, List.mem_singleton] at hc'
      rw [hc', hc] at he
      obtain rfl := Except.ok.inj he
      omega) hlim
  obtain ⟨seen, r', bp₃, r'', bp₄, hchunks, hshows, hend⟩ := hall [.decode] rfl
  rw [hslices] at hshows
  cases hshows with
  | cons hshow hnil =>
    cases hnil
    exact ⟨bp, root, bp₁, r, bp₂, hcreate, hwrite, hread, _, r', bp₃, r'', bp₄, hchunks,
      hshow.2.2, hend⟩

/-- In a file of `2 ^ 32 - 1` pages a column of one value has no chunk. -/
theorem not_readChunks_writeColumn_full_file :
    ∃ bp root bp₁ r bp₂ r' bp₃,
      BufferPool.create ⟨List.replicate (2 ^ 32 - 1) .zero, []⟩ 2 = .ok bp ∧
      writeColumn .int [.int32 7] bp = .ok root bp₁ ∧ ColumnReader.create root .int bp₁ = .ok r bp₂ ∧
      r.nextChunk bp₂ = .ok (false, r') bp₃ := by
  obtain ⟨bp, hcreate⟩ : ∃ bp, BufferPool.create ⟨List.replicate (2 ^ 32 - 1) .zero, []⟩ 2 = .ok bp :=
    ⟨_, rfl⟩
  obtain ⟨idx, bp', hnew⟩ := PagedStream.newPage_full_file hcreate
    (by rw [DiskManager.numPages, List.length_replicate]) rfl
  obtain ⟨c, hc, hsmall⟩ := encodeChunk_seven
  obtain ⟨f, hwrite⟩ := writeColumn_one_page hc (by unfold payloadCapacity; omega) hnew
  exact ⟨bp, kInvalidPageId, _, _, _, _, _, hcreate, hwrite, rfl, rfl⟩

end Column

end LiteOLAP
