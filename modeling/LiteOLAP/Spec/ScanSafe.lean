import LiteOLAP.Native.Planner
import LiteOLAP.Spec.DBInvariant
import LiteOLAP.Spec.PagedStreamRoundtrip

/-!
# Queries change no page

Whatever a query reads of stored streams, and whatever becomes of it, the pool serves the same
pages afterwards and nothing stays pinned. This includes chunks that are cut: a reader may lose its
place in a stream, but it never leaves the pages of the stream.

## Key results

- `PagedInputStream.advance_ends`, `ColumnReader.decode_ends`: a reader stays in its stream
- `ColumnScan.open_ends`, `Plan.open_ends`: the pool after a query
-/

namespace LiteOLAP

open BufferPool (Pin Serving PinRoom Fetchable Roomy)

/-- A pool that serves the given pages, none of them pinned. -/
def Serves (usable : List Nat) (apart : List PageId) (pages : List Page) (bp : BufferPool) : Prop :=
  Serving usable apart bp [] pages ∧ Roomy bp

section

variable {usable : List Nat} {apart : List PageId} {pages : List Page} {bp : BufferPool}

/-- A run that returns within the limit. -/
theorem Serves.ends_of_returns {α : Type} {x : EStateM Exc BufferPool α}
    {post : α → BufferPool → Prop} {bad : BufferPool → Prop} (h : EStateM.Returns Roomy x bp post)
    (hkeeps : EStateM.Keeps (·.disk.numPages) x) (hlim : Roomy bp) :
    EStateM.Ends x bp (fun a bp' => post a bp' ∧ Roomy bp') bad := by
  obtain ⟨a, bp', hrun, hpost⟩ := h.of_keeps (P := (· < 2 ^ 32)) hkeeps hlim
  rw [EStateM.Ends, hrun]
  exact ⟨hpost, show bp'.disk.numPages < 2 ^ 32 from (hkeeps.of_ok hrun).symm ▸ hlim⟩

namespace PagedInputStream

/-- A reader somewhere in a stored stream. -/
def Inside (apart : List PageId) (pages : List Page) (s : PagedInputStream) : Prop :=
  ∃ rest, Delivers apart [] pages s rest

theorem create_ends (h : Serves usable apart pages bp) (hroom : PinRoom usable [] 1) {root : PageId}
    {ids : List PageId} {bytes : Bytes} (hstored : Stored pages root ids bytes)
    (hfetch : ∀ pid ∈ ids, Fetchable apart [] pid) :
    EStateM.Ends (create root) bp (fun s bp' => Inside apart pages s ∧ Serves usable apart pages bp')
      (Serves usable apart pages) :=
  (Serves.ends_of_returns (create_delivers h.1 hroom hstored hfetch) (keeps_create root) h.2).mono
    (fun _ _ ⟨⟨hs, hserving⟩, hlim⟩ => ⟨⟨bytes, hs⟩, hserving, hlim⟩) fun _ hbad => hbad

/-- However far a reader advances, it stays in its stream or throws. -/
theorem advance_ends (h : Serves usable apart pages bp) (hroom : PinRoom usable [] 1)
    {s : PagedInputStream} (hs : Inside apart pages s) (k : Nat) :
    EStateM.Ends (advance s k) bp
      (fun r bp' => Inside apart pages r.2 ∧ Serves usable apart pages bp')
      (Serves usable apart pages) := by
  obtain ⟨rest, hs⟩ := hs
  by_cases hk : rest.length < k
  · obtain ⟨bp', hrun, h'⟩ := advance_underflow h.1 hroom hs hk
    have hlim : (advance s k bp).state.disk.numPages = bp.disk.numPages := keeps_advance s k bp
    rw [hrun] at hlim
    rw [EStateM.Ends, hrun]
    exact ⟨h', Nat.lt_of_le_of_lt (Nat.le_of_eq hlim) h.2⟩
  · obtain ⟨s', bp', hrun, hlim, hs', h'⟩ := advance_eq_ok h.2 h.1 hroom hs (Nat.not_lt.mp hk)
    rw [EStateM.Ends, hrun]
    exact ⟨⟨_, hs'⟩, h', hlim⟩

end PagedInputStream

namespace ColumnReader

open PagedInputStream (Inside advance_ends)

theorem create_ends (h : Serves usable apart pages bp) (hroom : PinRoom usable [] 1) {root : PageId}
    {ids : List PageId} {bytes : Bytes} (hstored : Stored pages root ids bytes)
    (hfetch : ∀ pid ∈ ids, Fetchable apart [] pid) (t : ColumnType) :
    EStateM.Ends (create root t) bp
      (fun r bp' => Inside apart pages r.inp ∧ Serves usable apart pages bp')
      (Serves usable apart pages) :=
  (PagedInputStream.create_ends h hroom hstored hfetch).bind fun _ _ h' => EStateM.ends_pure h'

theorem readPod_ends (h : Serves usable apart pages bp) (hroom : PinRoom usable [] 1)
    {inp : PagedInputStream} (hinp : Inside apart pages inp) (w : Nat) :
    EStateM.Ends (readPod w inp) bp
      (fun r bp' => Inside apart pages r.2 ∧ Serves usable apart pages bp')
      (Serves usable apart pages) :=
  (advance_ends h hroom hinp w).bind fun _ _ h' => EStateM.ends_pure h'

theorem readMeta_ends (h : Serves usable apart pages bp) (hroom : PinRoom usable [] 1)
    {inp : PagedInputStream} (hinp : Inside apart pages inp) :
    EStateM.Ends (readMeta inp) bp
      (fun r bp' => Inside apart pages r.2 ∧ Serves usable apart pages bp')
      (Serves usable apart pages) := by
  refine (readPod_ends h hroom hinp 4).bind fun _ _ ⟨h₁, s₁⟩ => ?_
  refine (readPod_ends s₁ hroom h₁ 1).bind fun _ _ ⟨h₂, s₂⟩ => ?_
  refine (readPod_ends s₂ hroom h₂ 1).bind fun _ _ ⟨h₃, s₃⟩ => ?_
  refine (readPod_ends s₃ hroom h₃ 2).bind fun _ _ ⟨h₄, s₄⟩ => ?_
  refine (readPod_ends s₄ hroom h₄ 4).bind fun _ _ ⟨h₅, s₅⟩ => ?_
  refine (readPod_ends s₅ hroom h₅ 4).bind fun _ _ ⟨h₆, s₆⟩ => ?_
  refine (readPod_ends s₆ hroom h₆ 8).bind fun _ _ ⟨h₇, s₇⟩ => ?_
  exact (readPod_ends s₇ hroom h₇ 8).bind fun _ _ h₈ => EStateM.ends_pure h₈

variable {r : ColumnReader}

theorem skipPayload_ends (h : Serves usable apart pages bp) (hroom : PinRoom usable [] 1)
    (hr : Inside apart pages r.inp) :
    EStateM.Ends (skipPayload r) bp
      (fun r bp' => Inside apart pages r.inp ∧ Serves usable apart pages bp')
      (Serves usable apart pages) :=
  EStateM.Ends.ite (fun _ => EStateM.ends_pure ⟨hr, h⟩) fun _ =>
    (advance_ends h hroom hr _).bind fun _ _ h' => EStateM.ends_pure h'

theorem nextChunk_ends (h : Serves usable apart pages bp) (hroom : PinRoom usable [] 1)
    (hr : Inside apart pages r.inp) :
    EStateM.Ends (nextChunk r) bp
      (fun a bp' => Inside apart pages a.2.inp ∧ Serves usable apart pages bp')
      (Serves usable apart pages) :=
  (skipPayload_ends h hroom hr).bind fun _ _ ⟨hr', h'⟩ =>
    EStateM.Ends.ite (fun _ => EStateM.ends_pure ⟨hr', h'⟩) fun _ =>
      (readMeta_ends h' hroom hr').bind fun _ _ h'' => EStateM.ends_pure h''

theorem decode_ends (h : Serves usable apart pages bp) (hroom : PinRoom usable [] 1)
    (hr : Inside apart pages r.inp) (out : Vector) :
    EStateM.Ends (decode r out) bp
      (fun a bp' => Inside apart pages a.2.inp ∧ Serves usable apart pages bp')
      (Serves usable apart pages) :=
  (advance_ends h hroom hr _).bind fun _ _ ⟨hr', h'⟩ =>
    (EStateM.ends_ofExcept (Q := fun _ => Serves usable apart pages) (fun _ _ => h') h').bind
      fun _ _ h'' => EStateM.ends_pure ⟨hr', h''⟩

end ColumnReader

namespace ColumnScan

open PagedInputStream (Inside)

variable {s : ColumnScan}

/-- All readers are in their streams. -/
def AllInside (apart : List PageId) (pages : List Page) (readers : List ColumnReader) : Prop :=
  ∀ r ∈ readers, Inside apart pages r.inp

/-- The loop of `decode_rg`. -/
theorem decodeLoop_ends (hroom : PinRoom usable [] 1) (fuel : Nat) :
    ∀ {readers : List ColumnReader} {bp : BufferPool}, Serves usable apart pages bp →
      AllInside apart pages readers →
      EStateM.Ends (s.decodeLoop fuel readers) bp (fun _ => Serves usable apart pages)
        (Serves usable apart pages) := by
  induction fuel with
  | zero => exact fun h _ => EStateM.ends_throw h
  | succ fuel ih =>
    intro readers bp h hr
    cases readers with
    | nil => exact EStateM.ends_throw h
    | cons r rs =>
      unfold decodeLoop
      refine (ColumnReader.nextChunk_ends h hroom (hr r List.mem_cons_self)).bind
        fun a bp₁ hnext => EStateM.Ends.ite (fun _ => EStateM.ends_pure hnext.2) fun _ => ?_
      obtain ⟨ha, h₁⟩ := hnext
      refine (EStateM.Ends.mapM (P := fun r : ColumnReader => Inside apart pages r.inp)
        (fun r' hr' bp' h' => ?_) h₁).bind fun rs' bp₂ hothers => ?_
      · exact (ColumnReader.nextChunk_ends h' hroom (hr r' (List.mem_cons_of_mem _ hr'))).bind
          fun _ _ h'' => EStateM.ends_pure h''
      obtain ⟨hrs, h₂⟩ := hothers
      have hall : AllInside apart pages (a.2 :: rs') := by
        intro r' hr'
        rcases List.mem_cons.mp hr' with rfl | hr'
        · exact ha
        · exact hrs r' hr'
      refine (EStateM.ends_ofExcept (Q := fun _ => Serves usable apart pages) (fun _ _ => h₂)
        h₂).bind fun skip bp₃ h₃ => EStateM.Ends.ite (fun _ => ?_) fun _ => ?_
      · exact (EStateM.Ends.mapM (P := fun r : ColumnReader => Inside apart pages r.inp)
          (fun r' hr' bp' h' => ColumnReader.skipPayload_ends h' hroom (hall r' hr')) h₃).bind
            fun readers bp₄ hskipped => ih hskipped.2 hskipped.1
      · have hdecode : EStateM.Ends (decodeColumns s.outputTypes (a.2 :: rs')) bp₃ (fun decoded bp' =>
            (∀ d ∈ decoded, Inside apart pages d.2.inp) ∧ Serves usable apart pages bp')
            (Serves usable apart pages) :=
          EStateM.Ends.mapM (P := fun d : Vector × ColumnReader => Inside apart pages d.2.inp)
            (fun (d : ColumnType × ColumnReader) hd bp' h' => ColumnReader.decode_ends h' hroom
              (hall d.2 (List.of_mem_zip hd).2) (Vector.empty d.1)) h₃
        refine hdecode.bind fun decoded bp₄ hread => ?_
        obtain ⟨hdecoded, h₄⟩ := hread
        refine (EStateM.ends_ofExcept (Q := fun _ => Serves usable apart pages) (fun _ _ => h₄)
          h₄).bind fun chunk bp₅ h₅ => ?_
        refine (ih h₅ fun r' hr' => ?_).bind fun rest bp₆ h₆ => EStateM.ends_pure h₆
        obtain ⟨d, hd, rfl⟩ := List.mem_map.mp hr'
        exact hdecoded d hd

/-- The streams of a row group are stored on pages that can be fetched. -/
def GroupReadable (apart : List PageId) (pages : List Page) (schema : Schema) (g : RowGroup)
    (sg : StoredGroup) : Prop :=
  GroupStored pages schema g sg ∧ ∀ ids ∈ sg.chains, ∀ pid ∈ ids, Fetchable apart [] pid

theorem openReader_ends {g : RowGroup} {sg : StoredGroup} (h : Serves usable apart pages bp)
    (hroom : PinRoom usable [] 1) (hg : GroupReadable apart pages s.table.schema g sg) (c : Nat) :
    EStateM.Ends (s.openReader g c) bp
      (fun r bp' => Inside apart pages r.inp ∧ Serves usable apart pages bp')
      (Serves usable apart pages) := by
  unfold openReader
  split
  · exact EStateM.ends_throw h
  · rename_i root hroot
    refine (EStateM.ends_ofExcept (Q := fun col bp' => s.table.schema.columns[c]? = some col ∧
      Serves usable apart pages bp') (fun col hcol => ⟨?_, h⟩) h).bind fun col bp' ⟨hcol, h'⟩ => ?_
    · unfold Schema.getColumn at hcol
      split at hcol
      · rename_i col' hget
        rw [hget, Except.ok.inj hcol]
      · cases hcol
    · obtain ⟨root', ids, hroot', hids, hstored⟩ := hg.1.columns c col hcol
      rw [hroot] at hroot'
      obtain rfl := Option.some.inj hroot'
      exact ColumnReader.create_ends h' hroom hstored (hg.2 ids (List.mem_of_getElem? hids)) _

theorem decodeRg_ends {g : RowGroup} {sg : StoredGroup} (h : Serves usable apart pages bp)
    (hroom : PinRoom usable [] 1) (hg : GroupReadable apart pages s.table.schema g sg) :
    EStateM.Ends (s.decodeRg g) bp (fun _ => Serves usable apart pages)
      (Serves usable apart pages) :=
  (EStateM.Ends.mapM (P := fun r : ColumnReader => Inside apart pages r.inp)
    (fun c _ _ h' => openReader_ends h' hroom hg c) h).bind fun _ _ ⟨hreaders, h'⟩ =>
      EStateM.Ends.get (decodeLoop_ends hroom _ h' hreaders)

theorem inThread_ends {α : Type} {x : EStateM Exc BufferPool α} {post : α → BufferPool → Prop}
    {bad : BufferPool → Prop} (h : EStateM.Ends x bp post bad) :
    EStateM.Ends (inThread x) bp post bad := by
  unfold EStateM.Ends inThread at *
  cases hrun : x bp with
  | ok a bp' =>
    rw [hrun] at h
    exact h
  | error e bp' =>
    rw [hrun] at h
    cases e <;> exact h

/-- `Open` of a table whose row groups are stored. -/
theorem open_ends {groups : List StoredGroup} (h : Serves usable apart pages bp)
    (hroom : PinRoom usable [] 1) (hstored : TableStored pages s.table groups)
    (hfetch : ∀ sg ∈ groups, ∀ ids ∈ sg.chains, ∀ pid ∈ ids, Fetchable apart [] pid) :
    EStateM.Ends s.open bp (fun _ => Serves usable apart pages) (Serves usable apart pages) := by
  refine (EStateM.Ends.mapM (P := fun _ => True) (fun g hg bp' h' => ?_) h).bind
    fun _ _ ⟨_, h'⟩ => EStateM.ends_pure h'
  obtain ⟨i, hi, rfl⟩ := List.getElem_of_mem hg
  have hi' : i < groups.length := by rwa [← hstored.length_eq]
  have hgroup := (List.forall₂_iff_get.mp hstored).2 i hi hi'
  exact (inThread_ends (decodeRg_ends h' hroom ⟨hgroup, hfetch _ (List.get_mem groups ⟨i, hi'⟩)⟩)).mono
    (fun _ _ h'' => ⟨trivial, h''⟩) fun _ h'' => h''

end ColumnScan

namespace Plan

/-- The scans of a plan. -/
def scans : Plan → List ColumnScan
  | scan s => [s]
  | hashJoin left right _ _ => left.scans ++ right.scans
  | filter child _ => child.scans
  | hashAggregate child _ _ _ _ => child.scans
  | projection child _ _ => child.scans
  | orderBy child _ _ => child.scans
  | limit child _ => child.scans

/-- Opening a plan keeps the size of the file. -/
theorem keeps_open (m : Machine) (p : Plan) : EStateM.Keeps (·.disk.numPages) (p.open m) := by
  induction p with
  | scan s =>
    exact (EStateM.Keeps.mapM (fun g => ColumnScan.keeps_inThread (ColumnScan.keeps_decodeRg s g)) _).bind
      fun _ => EStateM.keeps_pure _
  | hashJoin left right leftKey rightKey ihl ihr =>
    exact ihr.bind fun rs => (EStateM.keeps_ofExcept _).bind fun built => ihl.bind fun ls =>
      EStateM.keeps_pure _
  | filter child predicate ih => exact ih.bind fun s => EStateM.keeps_pure _
  | hashAggregate child idxs names types aggs ih =>
    exact ih.bind fun s => (EStateM.keeps_ofExcept _).bind fun h => EStateM.keeps_pure _
  | projection child sources names ih => exact ih.bind fun s => EStateM.keeps_pure _
  | orderBy child key desc ih =>
    exact ih.bind fun s => (EStateM.keeps_ofExcept _).bind fun o => EStateM.keeps_pure _
  | limit child n ih => exact ih.bind fun s => EStateM.keeps_pure _

/-- The tables that a plan reads are stored on pages that can be fetched. -/
def Readable (apart : List PageId) (pages : List Page) (p : Plan) : Prop :=
  ∀ s ∈ p.scans, ∃ groups, TableStored pages s.table groups ∧
    ∀ sg ∈ groups, ∀ ids ∈ sg.chains, ∀ pid ∈ ids, Fetchable apart [] pid

/-- Opening a plan reads only. -/
theorem open_ends (hroom : PinRoom usable [] 1) (m : Machine) (p : Plan) :
    ∀ {bp : BufferPool}, Serves usable apart pages bp → p.Readable apart pages →
      EStateM.Ends (p.open m) bp (fun _ => Serves usable apart pages) (Serves usable apart pages) := by
  have hpure : ∀ {α : Type} {x : Except Exc α} {bp : BufferPool}, Serves usable apart pages bp →
      EStateM.Ends (EStateM.ofExcept x) bp (fun _ => Serves usable apart pages)
        (Serves usable apart pages) := fun h => EStateM.ends_ofExcept (fun _ _ => h) h
  induction p with
  | scan s =>
    intro bp h hread
    obtain ⟨groups, hstored, hfetch⟩ := hread s (List.mem_singleton_self s)
    exact ColumnScan.open_ends h hroom hstored hfetch
  | hashJoin left right leftKey rightKey ihl ihr =>
    intro bp h hread
    refine (ihr h fun s hs => hread s (List.mem_append_right _ hs)).bind fun rs bp₁ h₁ => ?_
    refine (hpure h₁).bind fun built bp₂ h₂ => ?_
    exact (ihl h₂ fun s hs => hread s (List.mem_append_left _ hs)).bind fun ls bp₃ h₃ =>
      EStateM.ends_pure h₃
  | filter child predicate ih =>
    intro bp h hread
    exact (ih h hread).bind fun s bp₁ h₁ => EStateM.ends_pure h₁
  | hashAggregate child idxs names types aggs ih =>
    intro bp h hread
    exact (ih h hread).bind fun s bp₁ h₁ => (hpure h₁).bind fun h bp₂ h₂ => EStateM.ends_pure h₂
  | projection child sources names ih =>
    intro bp h hread
    exact (ih h hread).bind fun s bp₁ h₁ => EStateM.ends_pure h₁
  | orderBy child key desc ih =>
    intro bp h hread
    exact (ih h hread).bind fun s bp₁ h₁ => (hpure h₁).bind fun o bp₂ h₂ => EStateM.ends_pure h₂
  | limit child n ih =>
    intro bp h hread
    exact (ih h hread).bind fun s bp₁ h₁ => EStateM.ends_pure h₁

end Plan

end

end LiteOLAP
