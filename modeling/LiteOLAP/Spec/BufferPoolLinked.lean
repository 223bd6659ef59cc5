import LiteOLAP.Native.BufferPool

/-!
# The links between the parts of a buffer pool

The page table, the eviction list, the free list and the frames describe one another. `Linked`
says how; every call keeps it, also one that throws. `Accounted` says that no frame has dropped
out of both lists, which a failed read breaks.

## Key results

- `takeFrame_cases`, `fetchPage_cases`: everything the two can do
- `Linked.call`: every call keeps the links, returning or throwing
- `accounted_fetchPage_error_iff`: a throwing `FetchPage` loses a frame unless it throws before
  it has taken one
-/

namespace LiteOLAP.BufferPool

open Bytes (ofAscii)

/-- The page table and the eviction list hold exactly the valid frames, and the free list holds
    invalid ones. -/
structure Linked (bp : BufferPool) : Prop where
  table_iff : ∀ pid idx, bp.pageTable pid = some idx ↔
    idx < bp.numFrames ∧ (bp.frames idx).valid = true ∧ (bp.frames idx).pageId = pid
  lru_nodup : bp.lru.Nodup
  mem_lru : ∀ idx, idx ∈ bp.lru ↔ idx < bp.numFrames ∧ (bp.frames idx).valid = true
  free_nodup : bp.freeList.Nodup
  free_invalid : ∀ idx ∈ bp.freeList, idx < bp.numFrames ∧ (bp.frames idx).valid = false
  in_file : ∀ idx < bp.numFrames, (bp.frames idx).valid = true →
    (bp.frames idx).pageId.toNat < bp.disk.numPages

/-- Every frame is on the free list or mapped by one page table entry and on the eviction
    list. -/
def Accounted (bp : BufferPool) : Prop :=
  ∀ idx < bp.numFrames,
    idx ∈ bp.freeList ∨ (∃! pid, bp.pageTable pid = some idx) ∧ idx ∈ bp.lru

/-! ## The links -/

/-- No two frames hold the same page. -/
theorem Linked.frame_inj {bp : BufferPool} (h : bp.Linked) {i j : Nat} (hi : i < bp.numFrames)
    (hj : j < bp.numFrames) (hvi : (bp.frames i).valid = true) (hvj : (bp.frames j).valid = true)
    (hpage : (bp.frames i).pageId = (bp.frames j).pageId) : i = j := by
  have hti := (h.table_iff _ i).mpr ⟨hi, hvi, hpage⟩
  have htj := (h.table_iff _ j).mpr ⟨hj, hvj, rfl⟩
  rw [hti] at htj
  exact Option.some.inj htj

/-- A frame on the eviction list is mapped by the entry of its page alone. -/
theorem Linked.existsUnique {bp : BufferPool} (h : bp.Linked) {idx : Nat} (hidx : idx ∈ bp.lru) :
    ∃! pid, bp.pageTable pid = some idx := by
  obtain ⟨hlt, hvalid⟩ := (h.mem_lru idx).mp hidx
  exact ⟨_, (h.table_iff _ idx).mpr ⟨hlt, hvalid, rfl⟩,
    fun pid hpid => ((h.table_iff pid idx).mp hpid).2.2.symm⟩

theorem Linked.accounted_iff {bp : BufferPool} (h : bp.Linked) :
    bp.Accounted ↔
      ∀ idx < bp.numFrames, idx ∈ bp.freeList ∨ (bp.frames idx).valid = true := by
  constructor
  · intro hacc idx hidx
    rcases hacc idx hidx with hfree | ⟨-, hlru⟩
    · exact .inl hfree
    · exact .inr ((h.mem_lru idx).mp hlru).2
  · intro hall idx hidx
    rcases hall idx hidx with hfree | hvalid
    · exact .inl hfree
    · have hlru := (h.mem_lru idx).mpr ⟨hidx, hvalid⟩
      exact .inr ⟨h.existsUnique hlru, hlru⟩

/-- The links depend on the file only through its length. -/
theorem Linked.withDisk {bp : BufferPool} (h : bp.Linked) {disk : DiskManager}
    (hlen : bp.disk.numPages ≤ disk.numPages) : Linked { bp with disk } :=
  ⟨h.table_iff, h.lru_nodup, h.mem_lru, h.free_nodup, h.free_invalid, fun idx hidx hvalid =>
    lt_of_lt_of_le (h.in_file idx hidx hvalid) hlen⟩

/-- A frame may change in everything but which page it holds. -/
theorem Linked.setFrame {bp : BufferPool} (h : bp.Linked) {idx : Nat} {f : Frame}
    (hvalid : f.valid = (bp.frames idx).valid) (hpage : f.pageId = (bp.frames idx).pageId) :
    (bp.setFrame idx f).Linked := by
  have hv : ∀ i, ((bp.setFrame idx f).frames i).valid = (bp.frames i).valid := by
    intro i
    by_cases hi : i = idx
    · subst hi
      rw [setFrame_frames_self, hvalid]
    · rw [setFrame_frames_of_ne bp idx hi]
  have hp : ∀ i, ((bp.setFrame idx f).frames i).pageId = (bp.frames i).pageId := by
    intro i
    by_cases hi : i = idx
    · subst hi
      rw [setFrame_frames_self, hpage]
    · rw [setFrame_frames_of_ne bp idx hi]
  refine ⟨fun pid i => ?_, h.lru_nodup, fun i => ?_, h.free_nodup, fun i hi => ?_,
    fun i hi hvi => ?_⟩
  · rw [hv, hp]
    exact h.table_iff pid i
  · rw [hv]
    exact h.mem_lru i
  · rw [hv]
    exact h.free_invalid i hi
  · rw [hp]
    exact h.in_file i hi (by rw [← hv]; exact hvi)

theorem Linked.pin {bp : BufferPool} (h : bp.Linked) (idx : Nat) : (bp.pin idx).Linked :=
  h.setFrame rfl rfl

/-- A pool from which frame `idx` has been taken. -/
structure Taken (bp : BufferPool) (idx : Nat) : Prop extends bp.Linked where
  lt : idx < bp.numFrames
  invalid : (bp.frames idx).valid = false
  not_free : idx ∉ bp.freeList

theorem Linked.taken_of_free {bp : BufferPool} (h : bp.Linked) {idx : Nat} {rest : List Nat}
    (hfree : bp.freeList = idx :: rest) : Taken { bp with freeList := rest } idx := by
  have hnodup := h.free_nodup
  rw [hfree, List.nodup_cons] at hnodup
  have hmem := h.free_invalid idx (by simp [hfree])
  exact ⟨⟨h.table_iff, h.lru_nodup, h.mem_lru, hnodup.2, fun i hi =>
    h.free_invalid i (by simp [hfree, hi]), h.in_file⟩, hmem.1, hmem.2, hnodup.1⟩

theorem Linked.taken_unlink {bp : BufferPool} (h : bp.Linked) {idx : Nat} (hlt : idx < bp.numFrames)
    (hvalid : (bp.frames idx).valid = true) : (bp.unlink idx).Taken idx := by
  have hself : ((bp.unlink idx).frames idx).valid = false := by simp [unlink]
  have hne : ∀ i, i ≠ idx → (bp.unlink idx).frames i = bp.frames i := by
    intro i hi
    simp [unlink, hi]
  have hnotfree : idx ∉ bp.freeList := by
    intro hmem
    rw [(h.free_invalid idx hmem).2] at hvalid
    cases hvalid
  refine ⟨⟨fun pid i => ?_, h.lru_nodup.erase idx, fun i => ?_, h.free_nodup, fun i hi => ?_,
    fun i hi hvi => ?_⟩, hlt, hself, hnotfree⟩
  · by_cases hpid : pid = (bp.frames idx).pageId
    · subst hpid
      have htable : (bp.unlink idx).pageTable (bp.frames idx).pageId = none := by simp [unlink]
      rw [htable]
      constructor
      · exact fun h => by cases h
      · rintro ⟨hi, hvi, hpi⟩
        have hi' : i ≠ idx := by
          rintro rfl
          rw [hself] at hvi
          cases hvi
        rw [hne i hi'] at hvi hpi
        exact absurd (h.frame_inj hi hlt hvi hvalid hpi) hi'
    · have htable : (bp.unlink idx).pageTable pid = bp.pageTable pid := by simp [unlink, hpid]
      rw [htable, h.table_iff]
      by_cases hi : i = idx
      · subst hi
        rw [hself]
        simp [Ne.symm hpid]
      · rw [hne i hi]
        rfl
  · by_cases hi : i = idx
    · subst hi
      rw [hself]
      simp [unlink, h.lru_nodup.mem_erase_iff]
    · rw [hne i hi]
      simp only [unlink, h.lru_nodup.mem_erase_iff, hi, ne_eq, not_false_eq_true, true_and]
      exact h.mem_lru i
  · have hi' : i ≠ idx := fun heq => hnotfree (heq ▸ hi)
    rw [hne i hi']
    exact h.free_invalid i hi
  · have hi' : i ≠ idx := by
      rintro rfl
      rw [hself] at hvi
      cases hvi
    rw [hne i hi'] at hvi ⊢
    exact h.in_file i hi hvi

/-- Loading a page that is not cached into a frame that has been taken. -/
theorem Taken.linked_install {bp : BufferPool} {idx : Nat} (h : bp.Taken idx) {pid : PageId}
    (hpid : bp.pageTable pid = none) (hfile : pid.toNat < bp.disk.numPages) (page : Page) :
    (((bp.install idx pid page).pin idx).touch idx).Linked := by
  have hnotlru : idx ∉ bp.lru := by
    intro hmem
    have hvalid := ((h.mem_lru idx).mp hmem).2
    rw [h.invalid] at hvalid
    cases hvalid
  have hne : ∀ i, i ≠ idx →
      (((bp.install idx pid page).pin idx).touch idx).frames i = bp.frames i := by
    intro i hi
    simp [touch, BufferPool.pin, BufferPool.setFrame, install, hi]
  have hvalid : ((((bp.install idx pid page).pin idx).touch idx).frames idx).valid = true := by
    simp [touch, BufferPool.pin, install]
  have hpage : ((((bp.install idx pid page).pin idx).touch idx).frames idx).pageId = pid := by
    simp [touch, BufferPool.pin, install]
  have hlru : (((bp.install idx pid page).pin idx).touch idx).lru = idx :: bp.lru := by
    simp [touch, BufferPool.pin, BufferPool.setFrame, install, List.erase_of_not_mem hnotlru]
  refine ⟨fun p i => ?_, ?_, fun i => ?_, h.free_nodup, fun i hi => ?_, fun i hi hvi => ?_⟩
  · by_cases hp : p = pid
    · subst hp
      have htable : (((bp.install idx p page).pin idx).touch idx).pageTable p = some idx := by
        simp [touch, BufferPool.pin, BufferPool.setFrame, install]
      rw [htable]
      constructor
      · intro heq
        obtain rfl := Option.some.inj heq
        exact ⟨h.lt, hvalid, hpage⟩
      · rintro ⟨hi, hvi, hpi⟩
        by_cases hidx : i = idx
        · rw [hidx]
        · rw [hne i hidx] at hvi hpi
          have hold := (h.table_iff p i).mpr ⟨hi, hvi, hpi⟩
          rw [hpid] at hold
          cases hold
    · have htable : (((bp.install idx pid page).pin idx).touch idx).pageTable p =
          bp.pageTable p := by
        simp [touch, BufferPool.pin, BufferPool.setFrame, install, hp]
      rw [htable, h.table_iff]
      by_cases hi : i = idx
      · subst hi
        rw [hpage, h.invalid]
        simp [Ne.symm hp]
      · rw [hne i hi]
        rfl
  · rw [hlru]
    exact List.nodup_cons.mpr ⟨hnotlru, h.lru_nodup⟩
  · rw [hlru, List.mem_cons]
    by_cases hi : i = idx
    · subst hi
      simp only [hvalid, true_or, and_true, true_iff]
      exact h.lt
    · rw [hne i hi]
      simp only [hi, false_or]
      exact h.mem_lru i
  · have hi' : i ≠ idx := fun heq => h.not_free (heq ▸ hi)
    rw [hne i hi']
    exact h.free_invalid i hi
  · by_cases hidx : i = idx
    · rw [hidx, hpage]
      exact hfile
    · rw [hne i hidx] at hvi ⊢
      exact h.in_file i hi hvi

/-! ## What the calls do -/

/-- The victim is the last unpinned frame of the list. -/
theorem pickVictim_eq_ok {bp : BufferPool} {idx : Nat} (h : bp.pickVictim = .ok idx) :
    (bp.frames idx).pinCount = 0 ∧
      ∃ newer older, bp.lru = newer ++ idx :: older ∧
        ∀ i ∈ older, (bp.frames i).pinCount ≠ 0 := by
  unfold pickVictim at h
  split at h
  · rename_i i hfind
    obtain rfl := Except.ok.inj h
    obtain ⟨hpin, as, bs, hsplit, has⟩ := List.find?_eq_some_iff_append.mp hfind
    refine ⟨by simpa using hpin, bs.reverse, as.reverse, ?_, fun i hi => ?_⟩
    · rw [← List.reverse_reverse bp.lru, hsplit]
      simp
    · simpa using has i (List.mem_reverse.mp hi)
  · cases h
theorem pickVictim_mem {bp : BufferPool} {idx : Nat} (h : bp.pickVictim = .ok idx) :
    idx ∈ bp.lru := by
  obtain ⟨-, newer, older, hsplit, -⟩ := pickVictim_eq_ok h
  simp [hsplit]

/-- There is no victim when every frame on the list is pinned. -/
theorem pickVictim_eq_error_iff {bp : BufferPool} :
    (∃ e, bp.pickVictim = .error e) ↔ ∀ idx ∈ bp.lru, (bp.frames idx).pinCount ≠ 0 := by
  unfold pickVictim
  split
  · rename_i i hfind
    have hmem := List.mem_reverse.mp (List.mem_of_find?_eq_some hfind)
    have hpin := List.find?_some hfind
    constructor
    · rintro ⟨e, he⟩
      cases he
    · intro hall
      exact absurd (by simpa using hpin) (hall i hmem)
  · rename_i hnone
    rw [List.find?_eq_none] at hnone
    refine ⟨fun _ idx hidx => ?_, fun _ => ⟨_, rfl⟩⟩
    simpa using hnone idx (List.mem_reverse.mpr hidx)

/-- The victim's page is on disk: it was written back, or had not changed. -/
def WroteBack (bp : BufferPool) (idx : Nat) (disk : DiskManager) : Prop :=
  if (bp.frames idx).dirty then
    DiskManager.writePage (bp.frames idx).pageId (bp.frames idx).page bp.disk = .ok () disk
  else disk = bp.disk

/-- The victim's page had to be written back, and that failed. -/
def WriteBackFails (bp : BufferPool) : Prop :=
  ∃ idx, bp.pickVictim = .ok idx ∧ (bp.frames idx).dirty = true ∧ ∃ e disk,
    DiskManager.writePage (bp.frames idx).pageId (bp.frames idx).page bp.disk = .error e disk

/-- Everything that taking a frame can do. -/
inductive TakeFrame (bp : BufferPool) : EStateM.Result Exc BufferPool Nat → Prop
  | free {idx rest} (h : bp.freeList = idx :: rest) :
    TakeFrame bp (.ok idx { bp with freeList := rest })
  | pinned {e} (h : bp.freeList = []) (hvictim : bp.pickVictim = .error e) :
    TakeFrame bp (.error e bp)
  | writeFails {idx e disk} (h : bp.freeList = []) (hvictim : bp.pickVictim = .ok idx)
    (hdirty : (bp.frames idx).dirty = true)
    (hwrite : DiskManager.writePage (bp.frames idx).pageId (bp.frames idx).page bp.disk =
      .error e disk) : TakeFrame bp (.error e { bp with disk })
  | evicts {idx disk} (h : bp.freeList = []) (hvictim : bp.pickVictim = .ok idx)
    (hwrote : bp.WroteBack idx disk) :
    TakeFrame bp (.ok idx ({ bp with disk }.unlink idx))

theorem takeFrame_cases (bp : BufferPool) : TakeFrame bp (takeFrame bp) := by
  simp only [takeFrame, EStateM.bind_apply, EStateM.get_apply]
  cases hfree : bp.freeList with
  | cons idx rest => exact .free hfree
  | nil =>
    simp only [EStateM.bind_apply]
    cases hvictim : bp.pickVictim with
    | error e => exact .pinned hfree hvictim
    | ok idx =>
      simp only [EStateM.ofExcept_ok]
      cases hdirty : (bp.frames idx).dirty with
      | false =>
        have hclean : bp.WroteBack idx bp.disk := by simp [WroteBack, hdirty]
        exact .evicts hfree hvictim hclean
      | true =>
        cases hwrite : DiskManager.writePage (bp.frames idx).pageId (bp.frames idx).page bp.disk with
        | error e disk =>
          have hz : BufferPool.withDisk (DiskManager.writePage (bp.frames idx).pageId
              (bp.frames idx).page) bp = .error e { bp with disk } :=
            EStateM.zoom_of_error hwrite
          simp only [if_true, EStateM.bind_apply, hz]
          exact .writeFails hfree hvictim hdirty hwrite
        | ok u disk =>
          have hz : BufferPool.withDisk (DiskManager.writePage (bp.frames idx).pageId
              (bp.frames idx).page) bp = .ok u { bp with disk } :=
            EStateM.zoom_of_ok hwrite
          simp only [if_true, EStateM.bind_apply, hz]
          exact .evicts hfree hvictim (by simp [WroteBack, hdirty, hwrite])

/-- Everything that `FetchPage` can do. -/
inductive FetchPage (bp : BufferPool) (pid : PageId) : EStateM.Result Exc BufferPool Nat → Prop
  | hit {idx} (htable : bp.pageTable pid = some idx) : FetchPage bp pid (.ok idx (bp.pin idx))
  | noFrame {e bp'} (htable : bp.pageTable pid = none) (htake : takeFrame bp = .error e bp') :
    FetchPage bp pid (.error e bp')
  | readFails {idx bp' e disk} (htable : bp.pageTable pid = none)
    (htake : takeFrame bp = .ok idx bp')
    (hread : DiskManager.readPage pid bp'.disk = .error e disk) :
    FetchPage bp pid (.error e { bp' with disk })
  | loads {idx bp' page disk} (htable : bp.pageTable pid = none)
    (htake : takeFrame bp = .ok idx bp')
    (hread : DiskManager.readPage pid bp'.disk = .ok page disk) :
    FetchPage bp pid (.ok idx ((({ bp' with disk }.install idx pid page).pin idx).touch idx))

theorem fetchPage_cases (bp : BufferPool) (pid : PageId) :
    FetchPage bp pid (fetchPage pid bp) := by
  simp only [fetchPage, EStateM.bind_apply, EStateM.get_apply]
  cases htable : bp.pageTable pid with
  | some idx => exact .hit htable
  | none =>
    simp only [loadIntoFrame, EStateM.bind_apply, EStateM.get_apply, htable]
    cases htake : takeFrame bp with
    | error e bp' => exact .noFrame htable htake
    | ok idx bp' =>
      cases hread : DiskManager.readPage pid bp'.disk with
      | error e disk =>
        have hz : BufferPool.withDisk (DiskManager.readPage pid) bp' =
            .error e { bp' with disk } := EStateM.zoom_of_error hread
        simp only [hz]
        exact .readFails htable htake hread
      | ok page disk =>
        have hz : BufferPool.withDisk (DiskManager.readPage pid) bp' =
            .ok page { bp' with disk } := EStateM.zoom_of_ok hread
        simp only [hz]
        exact .loads htable htake hread

/-- Everything that `NewPage` can do. -/
inductive NewPage (bp : BufferPool) : EStateM.Result Exc BufferPool (PageId × Nat) → Prop
  | allocFails {e disk} (halloc : DiskManager.allocatePage bp.disk = .error e disk) :
    NewPage bp (.error e { bp with disk })
  | fetchFails {pid disk e bp'} (halloc : DiskManager.allocatePage bp.disk = .ok pid disk)
    (hfetch : fetchPage pid { bp with disk } = .error e bp') : NewPage bp (.error e bp')
  | done {pid disk idx bp'} (halloc : DiskManager.allocatePage bp.disk = .ok pid disk)
    (hfetch : fetchPage pid { bp with disk } = .ok idx bp') :
    NewPage bp (.ok (pid, idx) (bp'.setFrame idx { bp'.frames idx with page := .fresh pid }))

theorem newPage_cases (bp : BufferPool) : NewPage bp (newPage bp) := by
  simp only [newPage, EStateM.bind_apply]
  cases halloc : DiskManager.allocatePage bp.disk with
  | error e disk =>
    have hz : BufferPool.withDisk DiskManager.allocatePage bp = .error e { bp with disk } :=
      EStateM.zoom_of_error halloc
    simp only [hz]
    exact .allocFails halloc
  | ok pid disk =>
    have hz : BufferPool.withDisk DiskManager.allocatePage bp = .ok pid { bp with disk } :=
      EStateM.zoom_of_ok halloc
    simp only [hz]
    cases hfetch : fetchPage pid { bp with disk } with
    | error e bp' => exact .fetchFails halloc hfetch
    | ok idx bp' => exact .done halloc hfetch

/-- Everything that flushing one frame can do. -/
inductive FlushFrame (bp : BufferPool) (idx : Nat) : EStateM.Result Exc BufferPool Unit → Prop
  | clean (h : ((bp.frames idx).valid && (bp.frames idx).dirty) = false) :
    FlushFrame bp idx (.ok () bp)
  | writeFails {e disk} (h : ((bp.frames idx).valid && (bp.frames idx).dirty) = true)
    (hwrite : DiskManager.writePage (bp.frames idx).pageId (bp.frames idx).page bp.disk =
      .error e disk) : FlushFrame bp idx (.error e { bp with disk })
  | writes {disk} (h : ((bp.frames idx).valid && (bp.frames idx).dirty) = true)
    (hwrite : DiskManager.writePage (bp.frames idx).pageId (bp.frames idx).page bp.disk =
      .ok () disk) :
    FlushFrame bp idx
      (.ok () ({ bp with disk }.setFrame idx { bp.frames idx with dirty := false }))

theorem flushFrame_cases (bp : BufferPool) (idx : Nat) :
    FlushFrame bp idx (flushFrame idx bp) := by
  simp only [flushFrame, EStateM.bind_apply, EStateM.get_apply]
  cases h : ((bp.frames idx).valid && (bp.frames idx).dirty) with
  | false => exact .clean h
  | true =>
    simp only [if_true, EStateM.bind_apply]
    cases hwrite : DiskManager.writePage (bp.frames idx).pageId (bp.frames idx).page bp.disk with
    | error e disk =>
      have hz : BufferPool.withDisk (DiskManager.writePage (bp.frames idx).pageId
          (bp.frames idx).page) bp = .error e { bp with disk } := EStateM.zoom_of_error hwrite
      simp only [hz]
      exact .writeFails h hwrite
    | ok u disk =>
      have hz : BufferPool.withDisk (DiskManager.writePage (bp.frames idx).pageId
          (bp.frames idx).page) bp = .ok u { bp with disk } := EStateM.zoom_of_ok hwrite
      simp only [hz]
      exact .writes h hwrite

/-- Everything that `FlushPage` can do. -/
inductive FlushPage (bp : BufferPool) (pid : PageId) : EStateM.Result Exc BufferPool Bool → Prop
  | absent (h : ∀ idx, bp.pageTable pid = some idx → (bp.frames idx).valid = false) :
    FlushPage bp pid (.ok false bp)
  | writeFails {idx e disk} (htable : bp.pageTable pid = some idx)
    (hwrite : DiskManager.writePage (bp.frames idx).pageId (bp.frames idx).page bp.disk =
      .error e disk) : FlushPage bp pid (.error e { bp with disk })
  | writes {idx disk} (htable : bp.pageTable pid = some idx)
    (hwrite : DiskManager.writePage (bp.frames idx).pageId (bp.frames idx).page bp.disk =
      .ok () disk) :
    FlushPage bp pid
      (.ok true ({ bp with disk }.setFrame idx { bp.frames idx with dirty := false }))

theorem flushPage_cases (bp : BufferPool) (pid : PageId) :
    FlushPage bp pid (flushPage pid bp) := by
  simp only [flushPage, EStateM.bind_apply, EStateM.get_apply]
  cases htable : bp.pageTable pid with
  | none => exact .absent fun idx h => by rw [htable] at h; cases h
  | some idx =>
    simp only [EStateM.ite_apply]
    cases hvalid : (bp.frames idx).valid with
    | false =>
      refine .absent fun i h => ?_
      rw [htable] at h
      obtain rfl := Option.some.inj h
      exact hvalid
    | true =>
      simp only [if_true, EStateM.bind_apply]
      cases hwrite : DiskManager.writePage (bp.frames idx).pageId (bp.frames idx).page bp.disk with
      | error e disk =>
        have hz : BufferPool.withDisk (DiskManager.writePage (bp.frames idx).pageId
            (bp.frames idx).page) bp = .error e { bp with disk } := EStateM.zoom_of_error hwrite
        simp only [hz]
        exact .writeFails htable hwrite
      | ok u disk =>
        have hz : BufferPool.withDisk (DiskManager.writePage (bp.frames idx).pageId
            (bp.frames idx).page) bp = .ok u { bp with disk } := EStateM.zoom_of_ok hwrite
        simp only [hz]
        exact .writes htable hwrite

/-! ## The links are kept -/

theorem writePage_numPages (d : DiskManager) (pid : PageId) (page : Page) :
    (DiskManager.writePage pid page d).state.numPages = d.numPages := by
  simp only [DiskManager.writePage, EStateM.bind_apply, EStateM.get_apply]
  split
  · rfl
  · rcases DiskManager.io_cases (ofAscii "DiskManager::WritePage: write failed") d with
      ⟨fs, hio, -⟩ | ⟨fs, hio, -⟩
    · simp [EStateM.bind_apply, hio, DiskManager.numPages]
    · simp [EStateM.bind_apply, hio, DiskManager.numPages]

theorem readPage_numPages (d : DiskManager) (pid : PageId) :
    (DiskManager.readPage pid d).state.numPages = d.numPages := by
  rcases d.readPage_cases pid with ⟨page, fs, hread, -⟩ | ⟨e, fs, hread⟩
  · rw [hread]
    rfl
  · rw [hread]
    rfl

theorem wroteBack_numPages {bp : BufferPool} {idx : Nat} {disk : DiskManager}
    (h : bp.WroteBack idx disk) : disk.numPages = bp.disk.numPages := by
  unfold WroteBack at h
  split at h
  · have hstate := writePage_numPages bp.disk (bp.frames idx).pageId
      (bp.frames idx).page
    rwa [h] at hstate
  · rw [h]

/-- Taking a frame keeps the links, whether it returns or throws, and drops no page but the
    victim's. -/
theorem Linked.takeFrame {bp : BufferPool} (h : bp.Linked) :
    match BufferPool.takeFrame bp with
    | .ok idx bp' => bp'.Taken idx ∧ bp'.disk.numPages = bp.disk.numPages ∧
        ∀ pid, bp.pageTable pid = none → bp'.pageTable pid = none
    | .error _ bp' => bp'.Linked := by
  have hcases := takeFrame_cases bp
  generalize BufferPool.takeFrame bp = r at hcases
  cases hcases with
  | free hfree => exact ⟨h.taken_of_free hfree, rfl, fun _ hpid => hpid⟩
  | pinned hfree hvictim => exact h
  | @writeFails idx e disk hfree hvictim hdirty hwrite =>
    refine h.withDisk (Nat.le_of_eq ?_)
    have hstate := writePage_numPages bp.disk (bp.frames idx).pageId
      (bp.frames idx).page
    rw [hwrite] at hstate
    exact hstate.symm
  | @evicts idx disk hfree hvictim hwrote =>
    have hlen := wroteBack_numPages hwrote
    have hlinked : Linked { bp with disk } := h.withDisk (Nat.le_of_eq hlen.symm)
    obtain ⟨hlt, hvalid⟩ := (h.mem_lru idx).mp (pickVictim_mem hvictim)
    refine ⟨hlinked.taken_unlink hlt hvalid, hlen, fun pid hpid => ?_⟩
    by_cases hp : pid = (bp.frames idx).pageId
    · simp [unlink, hp]
    · simp [unlink, hp, hpid]

theorem Linked.fetchPage {bp : BufferPool} (h : bp.Linked) (pid : PageId) :
    (BufferPool.fetchPage pid bp).state.Linked := by
  have hcases := fetchPage_cases bp pid
  have htakes := h.takeFrame
  generalize BufferPool.fetchPage pid bp = r at hcases
  cases hcases with
  | hit htable => exact h.pin _
  | noFrame htable htake =>
    rw [htake] at htakes
    exact htakes
  | @readFails idx bp' e disk htable htake hread =>
    rw [htake] at htakes
    have hstate := readPage_numPages bp'.disk pid
    rw [hread] at hstate
    exact htakes.1.toLinked.withDisk (Nat.le_of_eq hstate.symm)
  | @loads idx bp' page disk htable htake hread =>
    rw [htake] at htakes
    have hstate := readPage_numPages bp'.disk pid
    rw [hread] at hstate
    obtain ⟨htaken, -, hnone⟩ := htakes
    have htaken' : Taken { bp' with disk } idx :=
      ⟨htaken.toLinked.withDisk (Nat.le_of_eq hstate.symm), htaken.lt, htaken.invalid,
        htaken.not_free⟩
    refine htaken'.linked_install (hnone pid htable) ?_ page
    rcases bp'.disk.readPage_cases pid with ⟨page', fs, hread', hpage⟩ | ⟨e, fs, hread'⟩
    · change pid.toNat < disk.numPages
      have hdisk : disk.numPages = bp'.disk.numPages := hstate
      rw [hdisk]
      exact (List.getElem?_eq_some_iff.mp hpage).1
    · rw [hread] at hread'
      cases hread'
/-- A new pool has all its frames on the free list. -/
theorem Linked.create {disk : DiskManager} {n : Nat} {bp : BufferPool}
    (h : BufferPool.create disk n = .ok bp) : bp.Linked ∧ bp.Accounted := by
  unfold BufferPool.create at h
  split at h
  · cases h
  · obtain rfl := Except.ok.inj h
    have hlinked : Linked
        { disk, numFrames := n, frames := fun _ => .empty, pageTable := fun _ => none,
          lru := [], freeList := (List.range n).reverse } := by
      refine ⟨?_, List.nodup_nil, ?_, ?_, ?_, ?_⟩
      · simp [Frame.empty]
      · simp [Frame.empty]
      · simpa using List.nodup_range
      · simp [Frame.empty]
      · simp [Frame.empty]
    exact ⟨hlinked, hlinked.accounted_iff.mpr fun idx hidx => .inl (by simpa using hidx)⟩

theorem allocatePage_numPages {d : DiskManager} :
    d.numPages ≤ (DiskManager.allocatePage d).state.numPages := by
  rcases d.allocatePage_cases with ⟨fs, hd⟩ | ⟨e, fs, hd⟩
  · simp [hd, DiskManager.numPages]
  · simp [hd, DiskManager.numPages]

theorem Linked.newPage {bp : BufferPool} (h : bp.Linked) : (BufferPool.newPage bp).state.Linked := by
  have hcases := newPage_cases bp
  generalize BufferPool.newPage bp = r at hcases
  have hlen := allocatePage_numPages (d := bp.disk)
  cases hcases with
  | allocFails halloc =>
    rw [halloc] at hlen
    exact h.withDisk hlen
  | fetchFails halloc hfetch =>
    rw [halloc] at hlen
    have hstate := (h.withDisk hlen).fetchPage
    rename_i pid _ _ _
    have hthis := hstate pid
    rwa [EStateM.Result.state_ok, hfetch] at hthis
  | @done pid disk idx bp' halloc hfetch =>
    rw [halloc] at hlen
    have hstate := (h.withDisk hlen).fetchPage pid
    rw [EStateM.Result.state_ok, hfetch] at hstate
    exact hstate.setFrame rfl rfl

theorem Linked.unpinPage {bp : BufferPool} (h : bp.Linked) (pid : PageId) (isDirty : Bool) :
    (BufferPool.unpinPage pid isDirty bp).2.Linked := by
  unfold BufferPool.unpinPage
  split
  · exact h
  · dsimp only
    split
    · exact h
    · exact h.setFrame rfl rfl

/-- Writing a page keeps the file's length. -/
private theorem Linked.afterWrite {bp : BufferPool} (h : bp.Linked) {pid : PageId} {page : Page}
    {r : EStateM.Result Exc DiskManager Unit}
    (hwrite : DiskManager.writePage pid page bp.disk = r) :
    Linked { bp with disk := r.state } := by
  refine h.withDisk (Nat.le_of_eq ?_)
  rw [← hwrite, writePage_numPages]

theorem Linked.flushPage {bp : BufferPool} (h : bp.Linked) (pid : PageId) :
    (BufferPool.flushPage pid bp).state.Linked := by
  have hcases := flushPage_cases bp pid
  generalize BufferPool.flushPage pid bp = r at hcases
  cases hcases with
  | absent hinvalid => exact h
  | writeFails htable hwrite => exact h.afterWrite hwrite
  | writes htable hwrite => exact (h.afterWrite hwrite).setFrame rfl rfl

theorem Linked.flushFrame {bp : BufferPool} (h : bp.Linked) (idx : Nat) :
    (BufferPool.flushFrame idx bp).state.Linked := by
  have hcases := flushFrame_cases bp idx
  generalize BufferPool.flushFrame idx bp = r at hcases
  cases hcases with
  | clean hclean => exact h
  | writeFails hdirty hwrite => exact h.afterWrite hwrite
  | writes hdirty hwrite => exact (h.afterWrite hwrite).setFrame rfl rfl

private theorem Linked.forM_flushFrame {l : List Nat} {bp : BufferPool} (h : bp.Linked) :
    ((l.forM BufferPool.flushFrame) bp).state.Linked := by
  induction l generalizing bp with
  | nil => exact h
  | cons idx l ih =>
    have hstep := h.flushFrame idx
    change ((BufferPool.flushFrame idx >>= fun _ => l.forM BufferPool.flushFrame) bp).state.Linked
    rw [EStateM.bind_apply]
    cases hrun : BufferPool.flushFrame idx bp with
    | ok u bp' =>
      rw [hrun] at hstep
      exact ih hstep
    | error e bp' =>
      rw [hrun] at hstep
      exact hstep

theorem Linked.flushAll {bp : BufferPool} (h : bp.Linked) :
    (BufferPool.flushAll bp).state.Linked :=
  h.forM_flushFrame

/-- The calls of a pool's interface. -/
inductive Call
  | fetch (pid : PageId)
  | new
  | unpin (pid : PageId) (isDirty : Bool)
  | flush (pid : PageId)
  | flushAll

/-- The pool after a call, whether the call returned or threw. -/
def Call.run (bp : BufferPool) : Call → BufferPool
  | .fetch pid => (fetchPage pid bp).state
  | .new => (newPage bp).state
  | .unpin pid isDirty => (unpinPage pid isDirty bp).2
  | .flush pid => (flushPage pid bp).state
  | .flushAll => (BufferPool.flushAll bp).state

/-- Every call keeps the links, returning or throwing. -/
theorem Linked.call {bp : BufferPool} (h : bp.Linked) (c : Call) : (c.run bp).Linked := by
  cases c with
  | fetch pid => exact h.fetchPage pid
  | new => exact h.newPage
  | unpin pid isDirty => exact h.unpinPage pid isDirty
  | flush pid => exact h.flushPage pid
  | flushAll => exact h.flushAll

/-! ## Lost frames -/

/-- No frame can be taken: none is free, and all that hold a page are pinned or the victim's
    page cannot be written back. -/
def NoFrame (bp : BufferPool) : Prop :=
  bp.freeList = [] ∧ ((∀ idx ∈ bp.lru, (bp.frames idx).pinCount ≠ 0) ∨ bp.WriteBackFails)

/-- Fetching a page of the file succeeds as soon as some frame is not pinned, the file being
    reliable from now on. -/
def Serves (bp : BufferPool) : Prop :=
  ∀ pid page, bp.disk.pages[pid.toNat]? = some page →
    (∃ idx < bp.numFrames, (bp.frames idx).pinCount = 0) →
    ∃ idx bp', fetchPage pid { bp with disk := ⟨bp.disk.pages, []⟩ } = .ok idx bp'

theorem noFrame_of_takeFrame {bp bp' : BufferPool} {e : Exc}
    (h : BufferPool.takeFrame bp = .error e bp') : bp.NoFrame := by
  have hcases := takeFrame_cases bp
  rw [h] at hcases
  cases hcases with
  | pinned hfree hvictim => exact ⟨hfree, .inl (pickVictim_eq_error_iff.mp ⟨_, hvictim⟩)⟩
  | writeFails hfree hvictim hdirty hwrite =>
    exact ⟨hfree, .inr ⟨_, hvictim, hdirty, _, _, hwrite⟩⟩

theorem takeFrame_of_noFrame {bp : BufferPool} (h : bp.NoFrame) :
    ∃ e disk, takeFrame bp = .error e { bp with disk } := by
  have hcases := takeFrame_cases bp
  generalize takeFrame bp = r at hcases
  obtain ⟨hempty, hwhy⟩ := h
  cases hcases with
  | free hfree =>
    rw [hempty] at hfree
    cases hfree
  | pinned hfree hvictim => exact ⟨_, bp.disk, rfl⟩
  | writeFails hfree hvictim hdirty hwrite => exact ⟨_, _, rfl⟩
  | @evicts idx disk hfree hvictim hwrote =>
    rcases hwhy with hpinned | ⟨idx', hvictim', hdirty, e, disk', hwrite⟩
    · exact absurd (pickVictim_eq_ok hvictim).1 (hpinned idx (pickVictim_mem hvictim))
    · rw [hvictim] at hvictim'
      obtain rfl := Except.ok.inj hvictim'
      rw [WroteBack, if_pos hdirty, hwrite] at hwrote
      cases hwrote
/-- The pages of the file once the page of frame `idx` has been written back. -/
def writtenBack (bp : BufferPool) (idx : Nat) : List Page :=
  if (bp.frames idx).dirty then
    bp.disk.pages.set (bp.frames idx).pageId.toNat (bp.frames idx).page
  else bp.disk.pages

/-- The victim's page goes to its place in a reliable file. -/
theorem wroteBack_reliable {bp : BufferPool} (h : bp.Linked) (hreliable : bp.disk.faults = [])
    {idx : Nat} (hlru : idx ∈ bp.lru) {disk : DiskManager} (hwrote : bp.WroteBack idx disk) :
    disk = { bp.disk with pages := bp.writtenBack idx } := by
  obtain ⟨hlt, hvalid⟩ := (h.mem_lru idx).mp hlru
  unfold WroteBack at hwrote
  split at hwrote
  · rename_i hdirty
    rw [DiskManager.writePage_reliable hreliable (h.in_file idx hlt hvalid)] at hwrote
    injection hwrote with _ hdisk
    rw [← hdisk, writtenBack, if_pos hdirty]
  · rename_i hclean
    rw [hwrote, writtenBack, if_neg hclean]

theorem takeFrame_reliable {bp bp' : BufferPool} {idx : Nat} (h : bp.Linked)
    (hreliable : bp.disk.faults = []) (htake : takeFrame bp = .ok idx bp') :
    bp'.disk.faults = [] := by
  have hcases := takeFrame_cases bp
  rw [htake] at hcases
  cases hcases with
  | free hfree => exact hreliable
  | evicts hfree hvictim hwrote =>
    have hdisk := wroteBack_reliable h hreliable (pickVictim_mem hvictim) hwrote
    simp [unlink, hdisk, hreliable]

/-- Fetching a page of a reliable file succeeds as soon as some frame is free, or holds a page
    that is not pinned. -/
theorem Linked.fetches {bp : BufferPool} (h : bp.Linked) (hreliable : bp.disk.faults = [])
    {pid : PageId} (hpid : pid.toNat < bp.disk.numPages) {idx : Nat} (hidx : idx < bp.numFrames)
    (hacc : idx ∈ bp.freeList ∨ (bp.frames idx).valid = true)
    (hpin : (bp.frames idx).pinCount = 0) : ∃ idx' bp', BufferPool.fetchPage pid bp = .ok idx' bp' := by
  have hcases := fetchPage_cases bp pid
  have htakes := h.takeFrame
  generalize BufferPool.fetchPage pid bp = r at hcases
  cases hcases with
  | hit htable => exact ⟨_, _, rfl⟩
  | loads htable htake hread => exact ⟨_, _, rfl⟩
  | noFrame htable htake =>
    exfalso
    obtain ⟨hfree, hpinned | ⟨victim, hvictim, -, e, disk, hwrite⟩⟩ :=
      noFrame_of_takeFrame htake
    · rcases hacc with hmem | hvalid
      · rw [hfree] at hmem
        cases hmem
      · exact hpinned idx ((h.mem_lru idx).mpr ⟨hidx, hvalid⟩) hpin
    · obtain ⟨hlt, hvalid⟩ := (h.mem_lru victim).mp (pickVictim_mem hvictim)
      rw [DiskManager.writePage_reliable hreliable (h.in_file victim hlt hvalid)] at hwrite
      cases hwrite
  | @readFails idx bp' e disk htable htake hread =>
    have hreliable' := takeFrame_reliable h hreliable htake
    rw [htake] at htakes
    have hlt : pid.toNat < bp'.disk.numPages := by
      rw [htakes.2.1]
      exact hpid
    rw [DiskManager.readPage_reliable hreliable' (List.getElem?_eq_getElem hlt)] at hread
    cases hread

/-- A pool that has lost no frame serves every page while some frame is not pinned. -/
theorem Linked.serves {bp : BufferPool} (h : bp.Linked) (hacc : bp.Accounted) : bp.Serves := by
  intro pid page hpage ⟨idx, hidx, hpin⟩
  have h₀ : Linked { bp with disk := ⟨bp.disk.pages, []⟩ } := h.withDisk (Nat.le_refl _)
  exact h₀.fetches rfl (List.getElem?_eq_some_iff.mp hpage).1 hidx
    (h.accounted_iff.mp hacc idx hidx) hpin

/-- A `FetchPage` that throws leaves every frame accounted for, and the pool able to serve,
    exactly when it throws before it has taken a frame: a frame taken for a read that fails is
    lost. -/
theorem accounted_fetchPage_error_iff {bp bp' : BufferPool} {pid : PageId} {e : Exc}
    (h : bp.Linked) (hacc : bp.Accounted) (hthrow : fetchPage pid bp = .error e bp') :
    (bp'.Accounted ∧ bp'.Serves) ↔ bp.NoFrame := by
  have hlinked : bp'.Linked := by
    have hstate := h.fetchPage pid
    rwa [hthrow] at hstate
  have hcases := fetchPage_cases bp pid
  rw [hthrow] at hcases
  constructor
  · rintro ⟨hacc', -⟩
    cases hcases with
    | noFrame htable htake => exact noFrame_of_takeFrame htake
    | @readFails idx bp'' e disk htable htake hread =>
      -- the frame taken is neither free nor valid
      exfalso
      have htaken := h.takeFrame
      rw [htake] at htaken
      rcases hlinked.accounted_iff.mp hacc' idx htaken.1.lt with hfree | hvalid
      · exact htaken.1.not_free hfree
      · have hinvalid := htaken.1.invalid
        cases hinvalid.symm.trans hvalid
  · intro hno
    obtain ⟨e', disk, htake⟩ := takeFrame_of_noFrame hno
    have hacc' : bp'.Accounted := by
      cases hcases with
      | noFrame htable htake' =>
        rw [htake] at htake'
        injection htake' with _ hbp'
        rw [← hbp']
        exact hacc
      | readFails htable htake' hread =>
        rw [htake] at htake'
        cases htake'
    exact ⟨hacc', hlinked.serves hacc'⟩

/-- A pool of one frame over a file of one page. -/
private def onePool : BufferPool where
  disk := .create
  numFrames := 1
  frames := fun _ => .empty
  pageTable := fun _ => none
  lru := []
  freeList := [0]

/-- The pool with its only frame taken for a read that failed. -/
private def oneLost : BufferPool := { onePool with freeList := [] }

private theorem fetchPage_onePool : ∃ e, fetchPage 5 onePool = .error e oneLost :=
  ⟨.outOfRange (ofAscii "DiskManager::ReadPage: page_id out of range"), rfl⟩

/-- Fetching a page past the end of the file loses the only frame, and the pool then refuses the
    page that the file has although nothing is pinned. -/
theorem not_accounted_fetchPage_past_end :
    ∃ bp e bp' e' bp'', create .create 1 = .ok bp ∧ bp.Linked ∧ bp.Accounted ∧
      fetchPage 5 bp = .error e bp' ∧ ¬ bp'.Accounted ∧ (bp'.frames 0).pinCount = 0 ∧
      fetchPage 0 bp' = .error e' bp'' := by
  have hcreate : create .create 1 = .ok onePool := rfl
  obtain ⟨hlinked, hacc⟩ := Linked.create hcreate
  obtain ⟨e, hthrow⟩ := fetchPage_onePool
  refine ⟨onePool, e, oneLost, .runtimeError (ofAscii
    "BufferPool: all frames pinned, cannot evict"), oneLost, hcreate, hlinked, hacc, hthrow, ?_,
    rfl, rfl⟩
  intro hall
  rcases hall 0 (by decide) with hfree | ⟨-, hlru⟩
  · exact absurd hfree (by decide)
  · exact absurd hlru (by decide)

/-- The frame lost there, through the general statement. -/
theorem accounted_fetchPage_error_iff_past_end :
    ∃ bp e bp', bp.Linked ∧ bp.Accounted ∧ fetchPage 5 bp = .error e bp' ∧
      ((bp'.Accounted ∧ bp'.Serves) ↔ bp.NoFrame) := by
  have hcreate : create .create 1 = .ok onePool := rfl
  obtain ⟨hlinked, hacc⟩ := Linked.create hcreate
  obtain ⟨e, hthrow⟩ := fetchPage_onePool
  exact ⟨onePool, e, oneLost, hlinked, hacc, hthrow,
    accounted_fetchPage_error_iff hlinked hacc hthrow⟩

end LiteOLAP.BufferPool
