import LiteOLAP.Spec.BufferPoolLinked

/-!
# The buffer pool is a transparent cache

A client asks for pages, changes the ones it has pinned, and releases a page it has changed as
dirty. Over a reliable file it then sees a store of pages: what it fetches is what was last
written, wherever the pool keeps it. The only limit is the 32-bit pin count.

## Key results

- `Coherent.step`: the invariant between frames, pins and file is kept by every action
- `transparent_run`: what a client can rely on, in every state that a run reaches
- `not_transparent_pin_overflow`: `2 ^ 31` pins of one page make its pin count negative
-/

namespace LiteOLAP.BufferPool

/-- The pool after the page of frame `idx` has been written to its place in the file. -/
def synced (bp : BufferPool) (idx : Nat) : BufferPool :=
  setFrame { bp with disk := { bp.disk with
      pages := bp.disk.pages.set (bp.frames idx).pageId.toNat (bp.frames idx).page } } idx
    { bp.frames idx with dirty := false }

/-! ## Clients -/

/-- A pin that a client holds: the page, the frame it was given, and whether it changed the
    page. -/
structure Pin where
  page : PageId
  frame : Nat
  wrote : Bool
  deriving DecidableEq

/-- A pool with the pins its clients hold and the bytes last written to each page. -/
structure Client where
  pool : BufferPool
  pins : List Pin
  last : List Page

/-- What a client can do with the pool. -/
inductive Action
  | new
  | fetch (pid : PageId)
  /-- Change the bytes of a pinned page, through the pointer that came with the pin. -/
  | write (p : Pin) (page : Page)
  /-- Give a pin back. -/
  | unpin (p : Pin) (isDirty : Bool)
  /-- `UnpinPage` on a page that no one has pinned. -/
  | unpinUnpinned (pid : PageId) (isDirty : Bool)
  | flush (pid : PageId)
  | flushAll

namespace Client

/-- The rules a client follows. -/
def Allowed (c : Client) : Action → Prop
  | .fetch pid => pid.toNat < c.last.length
  | .write p _ => p ∈ c.pins
  | .unpin p isDirty => p ∈ c.pins ∧ (p.wrote = true → isDirty = true)
  | .unpinUnpinned pid _ => ∀ p ∈ c.pins, p.page ≠ pid
  | _ => True

/-- Fetching a page gives a pin, unless the call throws. -/
def fetch (c : Client) (pid : PageId) : Client :=
  match fetchPage pid c.pool with
  | .ok idx pool => { c with pool, pins := ⟨pid, idx, false⟩ :: c.pins }
  | .error _ pool => { c with pool }

/-- Changing a page makes its new bytes the last ones. -/
def write (c : Client) (p : Pin) (page : Page) : Client where
  pool := c.pool.setFrame p.frame { c.pool.frames p.frame with page }
  pins := { p with wrote := true } :: c.pins.erase p
  last := c.last.set p.page.toNat page

/-- An action on a pool over a reliable file. `NewPage` adds a zero page to the file, and
    initialises the page it returns. -/
def step (c : Client) : Action → Client
  | .new =>
    match newPage c.pool with
    | .ok (pid, idx) pool =>
      ⟨pool, ⟨pid, idx, true⟩ :: c.pins, (c.last ++ [Page.zero]).set pid.toNat (.fresh pid)⟩
    | .error _ pool => ⟨pool, c.pins, c.last ++ [Page.zero]⟩
  | .fetch pid => c.fetch pid
  | .write p page => c.write p page
  | .unpin p isDirty =>
    { c with pool := (unpinPage p.page isDirty c.pool).2, pins := c.pins.erase p }
  | .unpinUnpinned pid isDirty => { c with pool := (unpinPage pid isDirty c.pool).2 }
  | .flush pid => { c with pool := (flushPage pid c.pool).state }
  | .flushAll => { c with pool := (BufferPool.flushAll c.pool).state }

/-- The state after a run. -/
def run (c : Client) (as : List Action) : Client := as.foldl step c

/-- A run in which the client follows the rules. -/
def Behaves : Client → List Action → Prop
  | _, [] => True
  | c, a :: as => c.Allowed a ∧ Behaves (c.step a) as

/-- The page an action pins can be pinned once more: its pin count is not at its maximum. -/
def HasRoom (c : Client) (a : Action) : Prop :=
  ∀ pid idx, (a = .fetch pid ∨ a = .new ∧ pid = UInt32.ofNat c.pool.disk.numPages) →
    c.pool.pageTable pid = some idx → (c.pool.frames idx).pinCount ≠ Int32.maxValue

/-- A run whose every action has room. -/
def HasRoomAll : Client → List Action → Prop
  | _, [] => True
  | c, a :: as => c.HasRoom a ∧ HasRoomAll (c.step a) as

/-- What a client can rely on. -/
structure Transparent (c : Client) : Prop where
  /-- A fetched frame holds the bytes last written to the page. -/
  fetched : ∀ pid idx pool, pid.toNat < c.last.length → fetchPage pid c.pool = .ok idx pool →
    c.last[pid.toNat]? = some (pool.frames idx).page
  /-- No two frames hold the same page. -/
  unshared : ∀ i < c.pool.numFrames, ∀ j < c.pool.numFrames, (c.pool.frames i).valid = true →
    (c.pool.frames j).valid = true → (c.pool.frames i).pageId = (c.pool.frames j).pageId → i = j
  /-- A pinned page stays in its frame. -/
  keeps : ∀ a, c.Allowed a → ∀ pid idx, c.pool.pageTable pid = some idx →
    0 < (c.pool.frames idx).pinCount → (c.step a).pool.pageTable pid = some idx
  pinCount_nonneg : ∀ idx, 0 ≤ (c.pool.frames idx).pinCount
  /-- When nothing is pinned, flushing brings the file up to date. -/
  flushed : c.pins = [] → ∃ pool, BufferPool.flushAll c.pool = .ok () pool ∧
    ∀ pid : PageId, pool.disk.pages[pid.toNat]? = c.last[pid.toNat]?

/-! ## Pin counts -/

theorem toInt_add_one {x : Int32} (h : x ≠ Int32.maxValue) : (x + 1).toInt = x.toInt + 1 := by
  have hlt := Int32.toInt_lt x
  have hle := Int32.le_toInt x
  have hne : x.toInt ≠ 2147483647 := fun heq => h (Int32.toInt_inj.mp (heq.trans (by decide)))
  rw [Int32.toInt_add, show (1 : Int32).toInt = 1 by decide]
  exact Int.bmod_eq_of_le (by omega) (by omega)

theorem toInt_sub_one {x : Int32} (h : 0 < x.toInt) : (x - 1).toInt = x.toInt - 1 := by
  have hlt := Int32.toInt_lt x
  rw [Int32.toInt_sub, show (1 : Int32).toInt = 1 by decide]
  exact Int.bmod_eq_of_le (by omega) (by omega)

/-! ## The invariant -/

/-- The pins held through frame `idx`. -/
def pinsOf (c : Client) (idx : Nat) : Nat := c.pins.countP fun p => p.frame = idx

/-- Page `pid` may differ from its bytes in the file: its frame is dirty, or someone who has
    changed it still holds a pin. -/
def Ahead (c : Client) (pid : PageId) : Prop :=
  ∃ idx, c.pool.pageTable pid = some idx ∧
    ((c.pool.frames idx).dirty = true ∨ ∃ p ∈ c.pins, p.frame = idx ∧ p.wrote = true)

/-- How frames, pins and file hold the pages between them. -/
structure Coherent (c : Client) : Prop where
  linked : c.pool.Linked
  reliable : c.pool.disk.faults = []
  size : c.last.length = c.pool.disk.numPages
  resident : ∀ idx < c.pool.numFrames, (c.pool.frames idx).valid = true →
    c.last[(c.pool.frames idx).pageId.toNat]? = some (c.pool.frames idx).page
  stored : ∀ pid, ¬ c.Ahead pid → c.pool.disk.pages[pid.toNat]? = c.last[pid.toNat]?
  held : ∀ p ∈ c.pins, c.pool.pageTable p.page = some p.frame
  counts : ∀ idx, (c.pool.frames idx).pinCount.toInt = c.pinsOf idx

/-! ### What the invariant says -/

section

variable {c : Client}

theorem pinsOf_eq_zero_iff {idx : Nat} : c.pinsOf idx = 0 ↔ ∀ p ∈ c.pins, p.frame ≠ idx := by
  simp [pinsOf, List.countP_eq_zero]

theorem not_ahead_of_absent {pid : PageId} (h : c.pool.pageTable pid = none) : ¬ c.Ahead pid := by
  rintro ⟨idx, hidx, -⟩
  rw [h] at hidx
  cases hidx
/-- A frame without a page is not pinned. -/
theorem Coherent.pinsOf_invalid (h : c.Coherent) {idx : Nat}
    (hinvalid : (c.pool.frames idx).valid = false) : c.pinsOf idx = 0 := by
  rw [pinsOf_eq_zero_iff]
  rintro p hp rfl
  have hvalid := ((h.linked.table_iff _ _).mp (h.held p hp)).2.1
  rw [hinvalid] at hvalid
  cases hvalid
theorem Coherent.pinsOf_of_pinCount (h : c.Coherent) {idx : Nat}
    (hpin : (c.pool.frames idx).pinCount = 0) : c.pinsOf idx = 0 := by
  have hcount := h.counts idx
  rw [hpin] at hcount
  have hzero : (0 : Int32).toInt = 0 := rfl
  omega

/-- The page of a frame that is mapped is within the file. -/
theorem Coherent.lt_size (h : c.Coherent) {pid : PageId} {idx : Nat}
    (htable : c.pool.pageTable pid = some idx) : pid.toNat < c.last.length := by
  obtain ⟨hlt, hvalid, rfl⟩ := (h.linked.table_iff pid idx).mp htable
  rw [h.size]
  exact h.linked.in_file idx hlt hvalid

end

/-! ### Taking a frame and loading a page -/

section

variable {c : Client}

/-- Once the page of an unpinned frame is written back, the file has its last bytes. -/
private theorem Coherent.getElem?_writtenBack (h : c.Coherent) {idx : Nat}
    (hlt : idx < c.pool.numFrames) (hvalid : (c.pool.frames idx).valid = true)
    (hpins : c.pinsOf idx = 0) (q : PageId) :
    (c.pool.writtenBack idx)[q.toNat]? =
      if q = (c.pool.frames idx).pageId then c.last[q.toNat]?
      else c.pool.disk.pages[q.toNat]? := by
  have hown := (h.linked.table_iff _ idx).mpr ⟨hlt, hvalid, rfl⟩
  have hfile := h.linked.in_file idx hlt hvalid
  unfold writtenBack
  split <;> rename_i hdirty <;> split <;> rename_i hq
  · rw [hq, List.getElem?_set_self hfile, h.resident idx hlt hvalid]
  · exact List.getElem?_set_ne fun heq => hq (UInt32.toNat_inj.mp heq).symm
  · refine h.stored q fun ⟨i, hi, hwhy⟩ => ?_
    rw [hq, hown] at hi
    obtain rfl := Option.some.inj hi
    rcases hwhy with hd | ⟨p, hp, hframe, -⟩
    · exact hdirty hd
    · exact pinsOf_eq_zero_iff.mp hpins p hp hframe
  · rfl

/-- Dropping an unpinned page, which is written back first if it changed. -/
private theorem Coherent.evict (h : c.Coherent) {idx : Nat} (hlt : idx < c.pool.numFrames)
    (hvalid : (c.pool.frames idx).valid = true) (hpins : c.pinsOf idx = 0) :
    Coherent { c with pool := { c.pool.unlink idx with
      disk := { c.pool.disk with pages := c.pool.writtenBack idx } } } := by
  have hself : ((c.pool.unlink idx).frames idx).valid = false := by simp [BufferPool.unlink]
  have hne : ∀ i, i ≠ idx → (c.pool.unlink idx).frames i = c.pool.frames i := by
    intro i hi
    simp [BufferPool.unlink, hi]
  have htable : ∀ q, q ≠ (c.pool.frames idx).pageId →
      (c.pool.unlink idx).pageTable q = c.pool.pageTable q := by
    intro q hq
    simp [BufferPool.unlink, hq]
  have hown := (h.linked.table_iff _ idx).mpr ⟨hlt, hvalid, rfl⟩
  have hlen : (c.pool.writtenBack idx).length = c.pool.disk.pages.length := by
    unfold writtenBack
    split <;> simp
  refine ⟨(h.linked.taken_unlink hlt hvalid).toLinked.withDisk (Nat.le_of_eq hlen.symm),
    h.reliable, h.size.trans hlen.symm, fun i hi hvi => ?_, fun q hq => ?_, fun p hp => ?_,
    fun i => ?_⟩
  · have hidx : i ≠ idx := by
      rintro rfl
      rw [hself] at hvi
      cases hvi
    simp only [hne i hidx] at hvi ⊢
    exact h.resident i hi hvi
  · refine (h.getElem?_writtenBack hlt hvalid hpins q).trans ?_
    split
    · rfl
    · rename_i hqp
      refine h.stored q fun hahead => ?_
      obtain ⟨i, hi, hwhy⟩ := hahead
      refine hq ⟨i, (htable q hqp).trans hi, ?_⟩
      have hidx : i ≠ idx := by
        rintro rfl
        exact hqp ((h.linked.table_iff q i).mp hi).2.2.symm
      simpa only [hne i hidx] using hwhy
  · have hpage : p.page ≠ (c.pool.frames idx).pageId := by
      intro heq
      have hheld := h.held p hp
      rw [heq, hown] at hheld
      exact pinsOf_eq_zero_iff.mp hpins p hp (Option.some.inj hheld).symm
    exact (htable p.page hpage).trans (h.held p hp)
  · have hcount : ((c.pool.unlink idx).frames i).pinCount = (c.pool.frames i).pinCount := by
      by_cases hidx : i = idx
      · subst hidx
        simp [BufferPool.unlink]
      · rw [hne i hidx]
    exact (congrArg Int32.toInt hcount).trans (h.counts i)

/-- Taking a frame keeps the invariant; the frame taken is not pinned. -/
theorem Coherent.takeFrame (h : c.Coherent) {idx : Nat} {pool : BufferPool}
    (htake : BufferPool.takeFrame c.pool = .ok idx pool) :
    Coherent { c with pool } ∧ pool.Taken idx ∧ c.pinsOf idx = 0 := by
  have htaken := h.linked.takeFrame
  rw [htake] at htaken
  have hcases := takeFrame_cases c.pool
  rw [htake] at hcases
  cases hcases with
  | @free idx rest hfree =>
    refine ⟨⟨htaken.1.toLinked, h.reliable, h.size, h.resident, h.stored, h.held, h.counts⟩,
      htaken.1, h.pinsOf_invalid ?_⟩
    exact (h.linked.free_invalid idx (by simp [hfree])).2
  | @evicts idx disk hfree hvictim hwrote =>
    have hpins := h.pinsOf_of_pinCount (pickVictim_eq_ok hvictim).1
    obtain ⟨hlt, hvalid⟩ := (h.linked.mem_lru idx).mp (pickVictim_mem hvictim)
    have hdisk := wroteBack_reliable h.linked h.reliable (pickVictim_mem hvictim) hwrote
    refine ⟨?_, htaken.1, hpins⟩
    subst hdisk
    exact h.evict hlt hvalid hpins

/-- Over a reliable file, taking a frame only fails when all of them are pinned. -/
private theorem Coherent.takeFrame_error (h : c.Coherent) {e : Exc} {pool : BufferPool}
    (htake : BufferPool.takeFrame c.pool = .error e pool) : pool = c.pool := by
  have hcases := takeFrame_cases c.pool
  rw [htake] at hcases
  cases hcases with
  | pinned hfree hvictim => rfl
  | @writeFails idx e disk hfree hvictim hdirty hwrite =>
    obtain ⟨hlt, hvalid⟩ := (h.linked.mem_lru idx).mp (pickVictim_mem hvictim)
    rw [DiskManager.writePage_reliable h.reliable (h.linked.in_file idx hlt hvalid)] at hwrite
    cases hwrite
/-- A page that is not cached is read from the file into the frame taken for it. -/
private theorem Coherent.load (h : c.Coherent) {idx : Nat} (htaken : c.pool.Taken idx)
    (hpins : c.pinsOf idx = 0) {pid : PageId} {page : Page}
    (hpid : c.pool.pageTable pid = none)
    (hpage : c.pool.disk.pages[pid.toNat]? = some page) :
    Coherent { c with
      pool := ((c.pool.install idx pid page).pin idx).touch idx
      pins := ⟨pid, idx, false⟩ :: c.pins } := by
  have hlast : c.last[pid.toNat]? = some page := by
    rw [← h.stored pid (not_ahead_of_absent hpid), hpage]
  have hself : (((c.pool.install idx pid page).pin idx).touch idx).frames idx =
      ⟨page, pid, 1, false, true⟩ := by
    simp [touch, BufferPool.pin, install]
  have hne : ∀ i, i ≠ idx →
      (((c.pool.install idx pid page).pin idx).touch idx).frames i = c.pool.frames i := by
    intro i hi
    simp [touch, BufferPool.pin, BufferPool.setFrame, install, hi]
  have htable : ∀ q, (((c.pool.install idx pid page).pin idx).touch idx).pageTable q =
      if q = pid then some idx else c.pool.pageTable q := by
    intro q
    simp [touch, BufferPool.pin, install, Function.update_apply]
  refine ⟨htaken.linked_install hpid (List.getElem?_eq_some_iff.mp hpage).1 page, h.reliable,
    h.size, fun i hi hvi => ?_, fun q hq => ?_, fun p hp => ?_, fun i => ?_⟩
  · by_cases hidx : i = idx
    · subst hidx
      simpa only [hself] using hlast
    · simp only [hne i hidx] at hvi ⊢
      exact h.resident i hi hvi
  · refine h.stored q fun hahead => ?_
    obtain ⟨i, hi, hwhy⟩ := hahead
    refine hq ⟨i, ?_, ?_⟩
    · refine (htable q).trans ?_
      rw [if_neg, hi]
      rintro rfl
      rw [hpid] at hi
      cases hi
    · have hidx : i ≠ idx := by
        rintro rfl
        have hvi := ((h.linked.table_iff q i).mp hi).2.1
        rw [htaken.invalid] at hvi
        cases hvi
      simp only [hne i hidx]
      refine hwhy.imp_right fun hpin => ?_
      obtain ⟨p, hp, hwrote⟩ := hpin
      exact ⟨p, List.mem_cons_of_mem _ hp, hwrote⟩
  · rcases List.mem_cons.mp hp with rfl | hold
    · exact (htable pid).trans (if_pos rfl)
    · refine (htable p.page).trans ?_
      rw [if_neg, h.held p hold]
      intro heq
      have hheld := h.held p hold
      rw [heq, hpid] at hheld
      cases hheld
  · simp only [pinsOf, List.countP_cons]
    by_cases hidx : i = idx
    · subst hidx
      have hzero : c.pins.countP (fun p => p.frame = i) = 0 := hpins
      simp [hself, hzero]
    · have hcount : _ = ((c.pins.countP fun p => p.frame = i : Nat) : Int) := h.counts i
      simpa [hne i hidx, Ne.symm hidx] using hcount

/-- A page that is cached gets one more pin. -/
private theorem Coherent.pin (h : c.Coherent) {pid : PageId} {idx : Nat}
    (htable : c.pool.pageTable pid = some idx)
    (hroom : (c.pool.frames idx).pinCount ≠ Int32.maxValue) :
    Coherent { c with
      pool := c.pool.pin idx
      pins := ⟨pid, idx, false⟩ :: c.pins } := by
  have hne : ∀ i, i ≠ idx → (c.pool.pin idx).frames i = c.pool.frames i := fun i hi =>
    setFrame_frames_of_ne _ _ hi _
  refine ⟨h.linked.pin idx, h.reliable, h.size, fun i hi hvi => ?_, fun q hq => ?_,
    fun p hp => ?_, fun i => ?_⟩
  · by_cases hidx : i = idx
    · subst hidx
      have hold := h.resident i hi
      simp only [BufferPool.pin, setFrame_frames_self] at hvi ⊢
      exact hold hvi
    · simp only [hne i hidx] at hvi ⊢
      exact h.resident i hi hvi
  · refine h.stored q fun hahead => ?_
    obtain ⟨i, hi, hdirty | hpin⟩ := hahead
    · refine hq ⟨i, hi, .inl ?_⟩
      by_cases hidx : i = idx
      · subst hidx
        simpa [BufferPool.pin] using hdirty
      · simpa only [hne i hidx] using hdirty
    · obtain ⟨p, hp, hwrote⟩ := hpin
      exact hq ⟨i, hi, .inr ⟨p, List.mem_cons_of_mem _ hp, hwrote⟩⟩
  · rcases List.mem_cons.mp hp with rfl | hold
    · exact htable
    · exact h.held p hold
  · have hcount : _ = ((c.pins.countP fun p => p.frame = i : Nat) : Int) := h.counts i
    simp only [pinsOf, List.countP_cons]
    by_cases hidx : i = idx
    · subst hidx
      simp [BufferPool.pin, toInt_add_one hroom, hcount]
    · simpa [hne i hidx, Ne.symm hidx] using hcount

/-- `FetchPage` of a page of the file keeps the invariant. -/
theorem Coherent.fetch (h : c.Coherent) {pid : PageId} (hpid : pid.toNat < c.last.length)
    (hroom : ∀ idx, c.pool.pageTable pid = some idx →
      (c.pool.frames idx).pinCount ≠ Int32.maxValue) :
    (c.fetch pid).Coherent := by
  have hcases := fetchPage_cases c.pool pid
  unfold Client.fetch
  generalize fetchPage pid c.pool = r at hcases
  cases hcases with
  | hit htable => exact h.pin htable (hroom _ htable)
  | noFrame htable htake =>
    rw [h.takeFrame_error htake]
    exact h
  | @readFails idx pool e disk htable htake hread =>
    obtain ⟨hnext, -, -⟩ := h.takeFrame htake
    have hlt : pid.toNat < pool.disk.pages.length := by
      have hsize : c.last.length = pool.disk.pages.length := hnext.size
      omega
    rw [DiskManager.readPage_reliable hnext.reliable (List.getElem?_eq_getElem hlt)] at hread
    cases hread
  | @loads idx pool page disk htable htake hread =>
    obtain ⟨hnext, htaken, hpins⟩ := h.takeFrame htake
    have hlt : pid.toNat < pool.disk.pages.length := by
      have hsize : c.last.length = pool.disk.pages.length := hnext.size
      omega
    have hget := List.getElem?_eq_getElem hlt
    rw [DiskManager.readPage_reliable hnext.reliable hget] at hread
    injection hread with hpage hdisk
    subst hpage hdisk
    have hnone := h.linked.takeFrame
    rw [htake] at hnone
    exact hnext.load htaken hpins (hnone.2.2 pid htable) hget

end

/-! ### The other actions -/

section

variable {c : Client}

/-- The client after a page of zeros has been added to the file. -/
def extend (c : Client) : Client where
  pool := { c.pool with disk := { c.pool.disk with pages := c.pool.disk.pages ++ [Page.zero] } }
  pins := c.pins
  last := c.last ++ [Page.zero]

theorem Coherent.extend (h : c.Coherent) : c.extend.Coherent := by
  have hsize : c.last.length = c.pool.disk.pages.length := h.size
  refine ⟨h.linked.withDisk (by simp [DiskManager.numPages]), h.reliable,
    by simp [Client.extend, DiskManager.numPages, hsize], fun i hi hvi => ?_, fun q hq => ?_,
    h.held, h.counts⟩
  · have hlt : (c.pool.frames i).pageId.toNat < c.last.length :=
      hsize ▸ h.linked.in_file i hi hvi
    exact (List.getElem?_append_left hlt).trans (h.resident i hi hvi)
  · have hstored := h.stored q hq
    simp only [Client.extend]
    by_cases hlt : q.toNat < c.last.length
    · rw [List.getElem?_append_left hlt, List.getElem?_append_left (hsize ▸ hlt), hstored]
    · rw [List.getElem?_append_right (Nat.not_lt.mp hlt),
        List.getElem?_append_right (hsize ▸ Nat.not_lt.mp hlt), hsize]

/-- Changing a page that one holds a pin on. -/
theorem Coherent.write (h : c.Coherent) {p : Pin} (hp : p ∈ c.pins) (page : Page) :
    (c.write p page).Coherent := by
  obtain ⟨hlt, hvalid, hpage⟩ := (h.linked.table_iff _ _).mp (h.held p hp)
  have hne : ∀ i, i ≠ p.frame → (c.write p page).pool.frames i = c.pool.frames i := fun i hi =>
    setFrame_frames_of_ne _ _ hi _
  have hself : (c.write p page).pool.frames p.frame = { c.pool.frames p.frame with page } :=
    setFrame_frames_self _ _ _
  have hother : ∀ i q, c.pool.pageTable q = some i → i ≠ p.frame →
      p.page.toNat ≠ q.toNat := by
    intro i q hq hi heq
    obtain rfl := UInt32.toNat_inj.mp heq
    rw [h.held p hp] at hq
    exact hi (Option.some.inj hq).symm
  have hpins : (p :: c.pins.erase p).Perm c.pins := (List.perm_cons_erase hp).symm
  refine ⟨h.linked.setFrame rfl rfl, h.reliable, ?_, fun i hi hvi => ?_, fun q hq => ?_,
    fun p' hp' => ?_, fun i => ?_⟩
  · simp only [Client.write, List.length_set]
    exact h.size
  · by_cases hidx : i = p.frame
    · subst hidx
      simp only [hself, hpage]
      exact List.getElem?_set_self (h.lt_size (h.held p hp))
    · simp only [hne i hidx] at hvi ⊢
      have htable := (h.linked.table_iff _ i).mpr ⟨hi, hvi, rfl⟩
      refine (List.getElem?_set_ne (hother i _ htable hidx)).trans (h.resident i hi hvi)
  · have hnew : (c.write p page).pool.pageTable p.page = some p.frame := h.held p hp
    have hqp : q ≠ p.page := by
      rintro rfl
      exact hq ⟨p.frame, hnew, .inr ⟨{ p with wrote := true }, List.mem_cons_self, rfl, rfl⟩⟩
    have hnat : p.page.toNat ≠ q.toNat := fun heq => hqp (UInt32.toNat_inj.mp heq).symm
    refine Eq.trans ?_ (List.getElem?_set_ne hnat).symm
    refine h.stored q fun ⟨i, hi, hwhy⟩ => hq ⟨i, hi, ?_⟩
    have hidx : i ≠ p.frame := by
      rintro rfl
      exact hqp (((h.linked.table_iff q _).mp hi).2.2.symm.trans hpage)
    rw [hne i hidx]
    refine hwhy.imp_right fun ⟨p', hp', hframe, hwrote⟩ =>
      ⟨p', List.mem_cons_of_mem _ ((List.mem_erase_of_ne ?_).mpr hp'), hframe, hwrote⟩
    rintro rfl
    exact hidx hframe.symm
  · rcases List.mem_cons.mp hp' with rfl | hold
    · exact h.held p hp
    · exact h.held p' (List.mem_of_mem_erase hold)
  · have hcount : ((c.write p page).pool.frames i).pinCount = (c.pool.frames i).pinCount := by
      by_cases hidx : i = p.frame
      · rw [hidx, hself]
      · rw [hne i hidx]
    rw [hcount, h.counts i]
    simp only [pinsOf, Client.write, ← hpins.countP_eq, List.countP_cons]

/-- A pinned page has a positive pin count. -/
theorem Coherent.pinCount_pos (h : c.Coherent) {p : Pin} (hp : p ∈ c.pins) :
    0 < (c.pool.frames p.frame).pinCount.toInt := by
  have hpos : 0 < c.pinsOf p.frame := List.countP_pos_iff.mpr ⟨p, hp, by simp⟩
  rw [h.counts]
  omega

/-- Giving a pin back. -/
theorem Coherent.unpin (h : c.Coherent) {p : Pin} (hp : p ∈ c.pins) {isDirty : Bool}
    (hdirty : p.wrote = true → isDirty = true) :
    Coherent { c with
      pool := (unpinPage p.page isDirty c.pool).2
      pins := c.pins.erase p } := by
  have hpos := h.pinCount_pos hp
  have hnot : ¬ (c.pool.frames p.frame).pinCount ≤ 0 := by
    rw [Int32.le_iff_toInt_le]
    simpa using hpos
  have hpool : (unpinPage p.page isDirty c.pool).2 = c.pool.setFrame p.frame
      { c.pool.frames p.frame with
        pinCount := (c.pool.frames p.frame).pinCount - 1
        dirty := (c.pool.frames p.frame).dirty || isDirty } := by
    simp only [unpinPage, h.held p hp, if_neg hnot]
  rw [hpool]
  generalize hset : c.pool.setFrame p.frame { c.pool.frames p.frame with
    pinCount := (c.pool.frames p.frame).pinCount - 1
    dirty := (c.pool.frames p.frame).dirty || isDirty } = pool
  have hne : ∀ i, i ≠ p.frame → pool.frames i = c.pool.frames i := fun i hi =>
    hset ▸ setFrame_frames_of_ne _ _ hi _
  have hself : pool.frames p.frame = { c.pool.frames p.frame with
      pinCount := (c.pool.frames p.frame).pinCount - 1
      dirty := (c.pool.frames p.frame).dirty || isDirty } := hset ▸ setFrame_frames_self _ _ _
  have htable : pool.pageTable = c.pool.pageTable := hset ▸ rfl
  have hdisk : pool.disk = c.pool.disk := hset ▸ rfl
  have hnum : pool.numFrames = c.pool.numFrames := hset ▸ rfl
  refine ⟨hset ▸ h.linked.setFrame rfl rfl, hdisk ▸ h.reliable, hdisk ▸ h.size,
    fun i hi hvi => ?_, fun q hq => ?_, fun p' hp' => ?_, fun i => ?_⟩
  · by_cases hidx : i = p.frame
    · subst hidx
      have hold := h.resident _ (hnum ▸ hi)
      simp only [hself] at hvi ⊢
      exact hold hvi
    · simp only [hne i hidx] at hvi ⊢
      exact h.resident i (hnum ▸ hi) hvi
  · rw [hdisk]
    refine h.stored q fun ⟨i, hi, hwhy⟩ => hq ⟨i, htable ▸ hi, ?_⟩
    by_cases hidx : i = p.frame
    · subst hidx
      simp only [hself]
      rcases hwhy with hd | ⟨p', hp', hframe, hwrote⟩
      · exact .inl (by simp [hd])
      · by_cases heq : p' = p
        · subst heq
          exact .inl (by simp [hdirty hwrote])
        · exact .inr ⟨p', (List.mem_erase_of_ne heq).mpr hp', hframe, hwrote⟩
    · simp only [hne i hidx]
      refine hwhy.imp_right fun ⟨p', hp', hframe, hwrote⟩ =>
        ⟨p', (List.mem_erase_of_ne ?_).mpr hp', hframe, hwrote⟩
      rintro rfl
      exact hidx hframe.symm
  · rw [htable]
    exact h.held p' (List.mem_of_mem_erase hp')
  · have hcount : (c.pool.frames i).pinCount.toInt =
        (((p :: c.pins.erase p).countP fun p => p.frame = i : Nat) : Int) := by
      rw [h.counts i, (List.perm_cons_erase hp).symm.countP_eq]
      rfl
    rw [List.countP_cons] at hcount
    by_cases hidx : i = p.frame
    · subst hidx
      simp only [hself, toInt_sub_one hpos, hcount]
      simp [pinsOf]
    · simpa [pinsOf, hne i hidx, Ne.symm hidx] using hcount

/-- Unpinning a page that no one has pinned does nothing. -/
private theorem Coherent.unpinUnpinned (h : c.Coherent) {pid : PageId}
    (hpins : ∀ p ∈ c.pins, p.page ≠ pid) (isDirty : Bool) :
    (unpinPage pid isDirty c.pool).2 = c.pool := by
  unfold unpinPage
  split
  · rfl
  · rename_i idx htable
    have hzero : c.pinsOf idx = 0 := pinsOf_eq_zero_iff.mpr fun p hp hframe => by
      have hpage := ((h.linked.table_iff _ _).mp (h.held p hp)).2.2
      rw [hframe] at hpage
      exact hpins p hp (hpage.symm.trans ((h.linked.table_iff _ _).mp htable).2.2)
    have hle : (c.pool.frames idx).pinCount ≤ 0 := by
      rw [Int32.le_iff_toInt_le, h.counts idx, hzero]
      exact Int.le_refl _
    dsimp only
    rw [if_pos hle]

/-- Writing the page of a frame to the file. -/
private theorem Coherent.synced (h : c.Coherent) {idx : Nat} (hlt : idx < c.pool.numFrames)
    (hvalid : (c.pool.frames idx).valid = true) :
    Coherent { c with pool := c.pool.synced idx } := by
  have hne : ∀ i, i ≠ idx → (c.pool.synced idx).frames i = c.pool.frames i := fun i hi =>
    setFrame_frames_of_ne _ _ hi _
  have hself : (c.pool.synced idx).frames idx = { c.pool.frames idx with dirty := false } :=
    setFrame_frames_self _ _ _
  have hfile := h.linked.in_file idx hlt hvalid
  have hlinked : Linked { c.pool with disk := { c.pool.disk with
      pages := c.pool.disk.pages.set (c.pool.frames idx).pageId.toNat
        (c.pool.frames idx).page } } :=
    h.linked.withDisk (by simp [DiskManager.numPages])
  refine ⟨hlinked.setFrame rfl rfl, h.reliable, ?_, fun i hi hvi => ?_, fun q hq => ?_, h.held,
    fun i => ?_⟩
  · simpa [BufferPool.synced, DiskManager.numPages] using h.size
  · by_cases hidx : i = idx
    · subst hidx
      simp only [hself]
      exact h.resident i hlt hvalid
    · simp only [hne i hidx] at hvi ⊢
      exact h.resident i hi hvi
  · by_cases hqp : q = (c.pool.frames idx).pageId
    · rw [hqp, h.resident idx hlt hvalid]
      exact List.getElem?_set_self hfile
    · have hnat : (c.pool.frames idx).pageId.toNat ≠ q.toNat := fun heq =>
        hqp (UInt32.toNat_inj.mp heq).symm
      refine (List.getElem?_set_ne hnat).trans (h.stored q fun hahead => ?_)
      obtain ⟨i, hi, hwhy⟩ := hahead
      refine hq ⟨i, hi, ?_⟩
      have hidx : i ≠ idx := by
        rintro rfl
        exact hqp ((h.linked.table_iff q i).mp hi).2.2.symm
      simpa only [hne i hidx] using hwhy
  · have hcount : ((c.pool.synced idx).frames i).pinCount = (c.pool.frames i).pinCount := by
      by_cases hidx : i = idx
      · rw [hidx, hself]
      · rw [hne i hidx]
    exact (congrArg Int32.toInt hcount).trans (h.counts i)

/-- `FlushPage` writes the page if it is cached, and else does nothing. -/
private theorem Coherent.flushPage_eq (h : c.Coherent) (pid : PageId) :
    BufferPool.flushPage pid c.pool = .ok false c.pool ∨
      ∃ idx < c.pool.numFrames, (c.pool.frames idx).valid = true ∧
        BufferPool.flushPage pid c.pool = .ok true (c.pool.synced idx) := by
  have hcases := flushPage_cases c.pool pid
  generalize BufferPool.flushPage pid c.pool = r at hcases
  cases hcases with
  | absent hinvalid => exact .inl rfl
  | @writeFails idx e disk htable hwrite =>
    obtain ⟨hlt, hvalid, -⟩ := (h.linked.table_iff _ _).mp htable
    rw [DiskManager.writePage_reliable h.reliable (h.linked.in_file _ hlt hvalid)] at hwrite
    cases hwrite
  | @writes idx disk htable hwrite =>
    obtain ⟨hlt, hvalid, -⟩ := (h.linked.table_iff _ _).mp htable
    rw [DiskManager.writePage_reliable h.reliable (h.linked.in_file _ hlt hvalid)] at hwrite
    injection hwrite with _ hdisk
    subst hdisk
    exact .inr ⟨idx, hlt, hvalid, rfl⟩

/-- `FlushAll` writes a frame that is dirty, and leaves one that is clean. -/
private theorem Coherent.flushFrame_eq (h : c.Coherent) {idx : Nat}
    (hlt : idx < c.pool.numFrames) :
    ((c.pool.frames idx).valid && (c.pool.frames idx).dirty) = false ∧
        BufferPool.flushFrame idx c.pool = .ok () c.pool ∨
      (c.pool.frames idx).valid = true ∧
        BufferPool.flushFrame idx c.pool = .ok () (c.pool.synced idx) := by
  have hcases := flushFrame_cases c.pool idx
  generalize BufferPool.flushFrame idx c.pool = r at hcases
  cases hcases with
  | clean hclean => exact .inl ⟨hclean, rfl⟩
  | @writeFails e disk hdirty hwrite =>
    have hvalid := (Bool.and_eq_true_iff.mp hdirty).1
    rw [DiskManager.writePage_reliable h.reliable (h.linked.in_file _ hlt hvalid)] at hwrite
    cases hwrite
  | @writes disk hdirty hwrite =>
    have hvalid := (Bool.and_eq_true_iff.mp hdirty).1
    rw [DiskManager.writePage_reliable h.reliable (h.linked.in_file _ hlt hvalid)] at hwrite
    injection hwrite with _ hdisk
    subst hdisk
    exact .inr ⟨hvalid, rfl⟩

/-- What flushing a list of frames leaves behind: they are clean, and no page has moved. -/
private theorem Coherent.forM_flushFrame {l : List Nat} :
    ∀ {c : Client}, c.Coherent → (∀ idx ∈ l, idx < c.pool.numFrames) →
      ∃ pool, (l.forM flushFrame) c.pool = .ok () pool ∧ Coherent { c with pool } ∧
        pool.pageTable = c.pool.pageTable ∧
        ∀ idx, (pool.frames idx).valid = true → (pool.frames idx).dirty = true →
          idx ∉ l ∧ (c.pool.frames idx).valid = true ∧ (c.pool.frames idx).dirty = true := by
  induction l with
  | nil =>
    intro c h _
    exact ⟨c.pool, rfl, h, rfl, fun idx hvalid hdirty => ⟨List.not_mem_nil, hvalid, hdirty⟩⟩
  | cons i l ih =>
    intro c h hl
    have hi := hl i List.mem_cons_self
    rcases h.flushFrame_eq hi with ⟨hclean, hrun⟩ | ⟨hvalid, hrun⟩
    · obtain ⟨pool, hrest, hcoh, htable, hdirty⟩ :=
        ih h fun idx hidx => hl idx (List.mem_cons_of_mem _ hidx)
      refine ⟨pool, (EStateM.bind_of_ok hrun).trans hrest, hcoh, htable, fun idx hv hd => ?_⟩
      obtain ⟨hnot, hv', hd'⟩ := hdirty idx hv hd
      refine ⟨List.not_mem_cons_of_ne_of_not_mem ?_ hnot, hv', hd'⟩
      rintro rfl
      rw [hv', hd'] at hclean
      cases hclean
    · obtain ⟨pool, hrest, hcoh, htable, hdirty⟩ :=
        ih (h.synced hi hvalid) fun idx hidx => hl idx (List.mem_cons_of_mem _ hidx)
      refine ⟨pool, (EStateM.bind_of_ok hrun).trans hrest, hcoh, htable, fun idx hv hd => ?_⟩
      obtain ⟨hnot, hv', hd'⟩ := hdirty idx hv hd
      by_cases hidx : idx = i
      · subst hidx
        simp [BufferPool.synced] at hd'
      · rw [show (c.pool.synced i).frames idx = c.pool.frames idx from
          setFrame_frames_of_ne _ _ hidx _] at hv' hd'
        exact ⟨List.not_mem_cons_of_ne_of_not_mem hidx hnot, hv', hd'⟩

/-- `FlushAll` moves no page, and afterwards no frame is dirty. -/
theorem Coherent.flushAll (h : c.Coherent) :
    ∃ pool, BufferPool.flushAll c.pool = .ok () pool ∧ Coherent { c with pool } ∧
      pool.pageTable = c.pool.pageTable ∧
      ∀ pid idx, pool.pageTable pid = some idx → (pool.frames idx).dirty = false := by
  obtain ⟨pool, hrun, hcoh, htable, hdirty⟩ :=
    h.forM_flushFrame (l := List.range c.pool.numFrames) fun idx hidx => List.mem_range.mp hidx
  refine ⟨pool, hrun, hcoh, htable, fun pid idx hpid => ?_⟩
  have hlt := ((h.linked.table_iff pid idx).mp (htable ▸ hpid)).1
  obtain ⟨-, hvalid, -⟩ := (hcoh.linked.table_iff pid idx).mp hpid
  cases hd : (pool.frames idx).dirty with
  | false => rfl
  | true => exact absurd (List.mem_range.mpr hlt) (hdirty idx hvalid hd).1

/-- `NewPage` is an allocation, a fetch and a change. -/
private theorem Coherent.new (h : c.Coherent) (hroom : c.HasRoom .new) :
    (c.step .new).Coherent := by
  have hlt : (UInt32.ofNat c.pool.disk.numPages).toNat < c.extend.last.length := by
    have hsize : c.last.length = c.pool.disk.numPages := h.size
    simp only [Client.extend, List.length_append, List.length_singleton, hsize]
    exact Nat.lt_succ_of_le (Nat.mod_le _ _)
  have hfetched := h.extend.fetch hlt fun idx htable => hroom _ idx (.inr ⟨rfl, rfl⟩) htable
  have hcases := newPage_cases c.pool
  simp only [Client.step]
  generalize newPage c.pool = r at hcases
  have halloc' := DiskManager.allocatePage_reliable h.reliable
  cases hcases with
  | allocFails halloc =>
    rw [halloc'] at halloc
    cases halloc
  | @fetchFails pid disk e pool halloc hfetch =>
    rw [halloc'] at halloc
    injection halloc with hpid hdisk
    subst hpid hdisk
    unfold Client.fetch at hfetched
    rwa [show fetchPage _ c.extend.pool = _ from hfetch] at hfetched
  | @done pid disk idx pool halloc hfetch =>
    rw [halloc'] at halloc
    injection halloc with hpid hdisk
    subst hpid hdisk
    unfold Client.fetch at hfetched
    rw [show fetchPage _ c.extend.pool = _ from hfetch] at hfetched
    have hwrite := hfetched.write (p := ⟨_, idx, false⟩) List.mem_cons_self
      (.fresh (UInt32.ofNat c.pool.disk.numPages))
    simpa only [Client.write, Client.extend, List.erase_cons_head] using hwrite

/-- Every action keeps the invariant. -/
theorem Coherent.step (h : c.Coherent) {a : Action} (hallowed : c.Allowed a)
    (hroom : c.HasRoom a) : (c.step a).Coherent := by
  cases a with
  | new => exact h.new hroom
  | fetch pid => exact h.fetch hallowed fun idx htable => hroom pid idx (.inl rfl) htable
  | write p page => exact h.write hallowed page
  | unpin p isDirty => exact h.unpin hallowed.1 hallowed.2
  | unpinUnpinned pid isDirty =>
    simp only [Client.step]
    rw [h.unpinUnpinned hallowed]
    exact h
  | flush pid =>
    simp only [Client.step]
    rcases h.flushPage_eq pid with hrun | ⟨idx, hlt, hvalid, hrun⟩
    · rw [hrun]
      exact h
    · rw [hrun]
      exact h.synced hlt hvalid
  | flushAll =>
    obtain ⟨pool, hrun, hcoh, -⟩ := h.flushAll
    simp only [Client.step]
    rw [hrun]
    exact hcoh

end

/-! ## What a client can rely on -/

section

variable {c : Client}

/-- A page that is pinned keeps its frame when another page is fetched. -/
theorem keeps_fetchPage {bp : BufferPool} (h : bp.Linked) {pid : PageId} {idx : Nat}
    (htable : bp.pageTable pid = some idx) (hpin : 0 < (bp.frames idx).pinCount) (q : PageId) :
    (fetchPage q bp).state.pageTable pid = some idx := by
  have htake : ((takeFrame bp).state).pageTable pid = some idx := by
    have hcases := takeFrame_cases bp
    generalize takeFrame bp = r at hcases
    cases hcases with
    | free hfree => exact htable
    | pinned hfree hvictim => exact htable
    | writeFails hfree hvictim hdirty hwrite => exact htable
    | @evicts i disk hfree hvictim hwrote =>
      -- the victim is not pinned, so it holds another page
      have hne : pid ≠ (bp.frames i).pageId := by
        obtain ⟨hlt, hvalid⟩ := (h.mem_lru i).mp (pickVictim_mem hvictim)
        rintro rfl
        rw [(h.table_iff _ i).mpr ⟨hlt, hvalid, rfl⟩] at htable
        obtain rfl := Option.some.inj htable
        rw [(pickVictim_eq_ok hvictim).1] at hpin
        exact absurd hpin (by decide)
      simpa [unlink, hne] using htable
  have hcases := fetchPage_cases bp q
  generalize fetchPage q bp = r at hcases
  cases hcases with
  | hit hq => exact htable
  | noFrame hq htaken => rwa [htaken] at htake
  | readFails hq htaken hread => rwa [htaken] at htake
  | loads hq htaken hread =>
    have hne : pid ≠ q := by
      rintro rfl
      rw [hq] at htable
      cases htable
    rw [htaken] at htake
    simpa [touch, BufferPool.pin, install, hne] using htake

theorem unpinPage_pageTable (bp : BufferPool) (pid : PageId) (isDirty : Bool) :
    (unpinPage pid isDirty bp).2.pageTable = bp.pageTable := by
  unfold unpinPage
  split
  · rfl
  · dsimp only
    split <;> rfl

/-- A page that is pinned keeps its frame, whatever the client does. -/
theorem Coherent.keeps (h : c.Coherent) (a : Action) {pid : PageId} {idx : Nat}
    (htable : c.pool.pageTable pid = some idx) (hpin : 0 < (c.pool.frames idx).pinCount) :
    (c.step a).pool.pageTable pid = some idx := by
  cases a with
  | new =>
    have hcases := newPage_cases c.pool
    simp only [Client.step]
    generalize newPage c.pool = r at hcases
    have hkeeps : ∀ disk, c.pool.disk.numPages ≤ disk.numPages → ∀ q,
        (fetchPage q { c.pool with disk }).state.pageTable pid = some idx := fun disk hlen q =>
      keeps_fetchPage (h.linked.withDisk hlen) htable hpin q
    have hlen := allocatePage_numPages (d := c.pool.disk)
    cases hcases with
    | allocFails halloc => exact htable
    | @fetchFails q disk e pool halloc hfetch =>
      rw [halloc] at hlen
      have hkeep := hkeeps disk hlen q
      rwa [hfetch] at hkeep
    | @done q disk i pool halloc hfetch =>
      rw [halloc] at hlen
      have hkeep := hkeeps disk hlen q
      rwa [hfetch] at hkeep
  | fetch q =>
    have hkeep := keeps_fetchPage h.linked htable hpin q
    simp only [Client.step, Client.fetch]
    split
    · rename_i hrun
      rwa [hrun] at hkeep
    · rename_i hrun
      rwa [hrun] at hkeep
  | write p page => exact htable
  | unpin p isDirty => exact (congrFun (unpinPage_pageTable c.pool _ _) pid).trans htable
  | unpinUnpinned q isDirty => exact (congrFun (unpinPage_pageTable c.pool _ _) pid).trans htable
  | flush q =>
    simp only [Client.step]
    rcases h.flushPage_eq q with hrun | ⟨i, hlt, hvalid, hrun⟩
    · rwa [hrun]
    · rw [hrun]
      exact htable
  | flushAll =>
    obtain ⟨pool, hrun, -, hsame, -⟩ := h.flushAll
    simp only [Client.step]
    rw [hrun]
    exact (congrFun hsame pid).trans htable

/-- A fetched frame holds the bytes last written to the page. -/
theorem Coherent.fetched (h : c.Coherent) {pid : PageId} {idx : Nat} {pool : BufferPool}
    (hrun : fetchPage pid c.pool = .ok idx pool) :
    c.last[pid.toNat]? = some (pool.frames idx).page := by
  have hcases := fetchPage_cases c.pool pid
  rw [hrun] at hcases
  cases hcases with
  | hit htable =>
    obtain ⟨hlt, hvalid, rfl⟩ := (h.linked.table_iff _ _).mp htable
    simpa [BufferPool.pin] using h.resident idx hlt hvalid
  | @loads idx pool page disk htable htake hread =>
    obtain ⟨hnext, -, -⟩ := h.takeFrame htake
    have hnone := h.linked.takeFrame
    rw [htake] at hnone
    have hpage : pool.disk.pages[pid.toNat]? = some page := by
      rcases pool.disk.readPage_cases pid with ⟨page', fs, hread', hget⟩ | ⟨e, fs, hread'⟩
      · rw [hread] at hread'
        injection hread' with hsame
        rw [hget, hsame]
      · rw [hread] at hread'
        cases hread'
    have hstored := hnext.stored pid (not_ahead_of_absent (hnone.2.2 pid htable))
    simp only [touch, BufferPool.pin, setFrame_frames_self, install, Function.update_self]
    exact hstored.symm.trans hpage

theorem Coherent.transparent (h : c.Coherent) : c.Transparent where
  fetched _ _ _ _ hrun := h.fetched hrun
  unshared _ hi _ hj hvi hvj hpage := h.linked.frame_inj hi hj hvi hvj hpage
  keeps a _ _ _ htable hpin := h.keeps a htable hpin
  pinCount_nonneg idx := by
    rw [Int32.le_iff_toInt_le, h.counts idx]
    exact Int.natCast_nonneg _
  flushed hpins := by
    obtain ⟨pool, hrun, hcoh, -, hclean⟩ := h.flushAll
    refine ⟨pool, hrun, fun pid => hcoh.stored pid fun ⟨idx, htable, hwhy⟩ => ?_⟩
    rcases hwhy with hdirty | ⟨p, hp, -⟩
    · rw [hclean pid idx htable] at hdirty
      cases hdirty
    · rw [show c.pins = [] from hpins] at hp
      cases hp
end

/-- A pool without pages over a reliable file. -/
theorem Coherent.create {disk : DiskManager} {n : Nat} {bp : BufferPool}
    (hcreate : BufferPool.create disk n = .ok bp) (hreliable : disk.faults = []) :
    Coherent ⟨bp, [], disk.pages⟩ := by
  have hlinked := (Linked.create hcreate).1
  unfold BufferPool.create at hcreate
  split at hcreate
  · cases hcreate
  · obtain rfl := Except.ok.inj hcreate
    exact ⟨hlinked, hreliable, rfl, fun _ _ hvalid => (by cases hvalid), fun _ _ => rfl,
      fun _ hp => (by cases hp), fun _ => rfl⟩

/-- The invariant holds through a run. -/
theorem Coherent.run {as : List Action} :
    ∀ {c : Client}, c.Coherent → c.Behaves as → c.HasRoomAll as → (c.run as).Coherent := by
  induction as with
  | nil => exact fun h _ _ => h
  | cons a as ih => exact fun h hbehaves hroom => ih (h.step hbehaves.1 hroom.1) hbehaves.2 hroom.2

/-- The pool is a transparent cache for every client that follows the rules, as long as no page
    is pinned `2 ^ 31` times at once. -/
theorem transparent_run {disk : DiskManager} {n : Nat} {bp : BufferPool}
    (hcreate : BufferPool.create disk n = .ok bp) (hreliable : disk.faults = [])
    {as : List Action} (hbehaves : Behaves ⟨bp, [], disk.pages⟩ as)
    (hroom : HasRoomAll ⟨bp, [], disk.pages⟩ as) :
    (run ⟨bp, [], disk.pages⟩ as).Transparent :=
  ((Coherent.create hcreate hreliable).run hbehaves hroom).transparent

/-- A page goes through a pool of one frame: read, released, and pushed out by a new page. -/
theorem transparent_run_one_frame :
    ∃ bp, BufferPool.create .create 1 = .ok bp ∧
      (run ⟨bp, [], DiskManager.create.pages⟩
        [.fetch 0, .unpin ⟨0, 0, false⟩ false, .new]).Transparent := by
  refine ⟨_, rfl, transparent_run (n := 1) rfl rfl ?_ ?_⟩
  · exact ⟨Nat.zero_lt_one, ⟨by decide, fun h => (by cases h)⟩, trivial, trivial⟩
  · refine ⟨fun pid idx hpid htable => (by cases htable), fun pid idx hpid htable => ?_,
      fun pid idx hpid htable => ?_, trivial⟩
    · rcases hpid with hpid | ⟨hpid, -⟩ <;> cases hpid
    · rcases hpid with hpid | ⟨-, rfl⟩
      · cases hpid
      · cases htable
private theorem behaves_fetch_zero (n : Nat) :
    ∀ {c : Client}, 0 < c.last.length → c.Behaves (List.replicate n (.fetch 0)) := by
  induction n with
  | zero => exact fun _ => trivial
  | succ n ih =>
    refine fun {c} hlen => ⟨hlen, ih ?_⟩
    have hlast : (c.fetch 0).last = c.last := by
      unfold Client.fetch
      split <;> rfl
    exact hlast ▸ hlen

/-- Fetching a page that is cached only counts its pins. -/
private theorem pinCount_run_fetch (n : Nat) : ∀ {c : Client}, c.pool.pageTable 0 = some 0 →
    ((c.run (List.replicate n (.fetch 0))).pool.frames 0).pinCount =
      (c.pool.frames 0).pinCount + Int32.ofNat n := by
  induction n with
  | zero => exact fun _ => (Int32.add_zero _).symm
  | succ n ih =>
    intro c htable
    have hpool : (c.step (.fetch 0)).pool = c.pool.pin 0 := by
      have hrun : fetchPage 0 c.pool = .ok 0 (c.pool.pin 0) := by
        simp only [fetchPage, EStateM.bind_apply, EStateM.get_apply, htable,
          EStateM.modify_apply, EStateM.pure_apply]
      simp only [Client.step, Client.fetch, hrun]
    have hnext := ih (c := c.step (.fetch 0)) (by rw [hpool]; exact htable)
    refine Eq.trans hnext ?_
    rw [hpool, Nat.add_comm, Int32.ofNat_add, ← Int32.add_assoc]
    simp [BufferPool.pin]

/-- Pinning a page `2 ^ 31` times makes its pin count negative. -/
theorem not_transparent_pin_overflow :
    ∃ bp, BufferPool.create .create 1 = .ok bp ∧
      Behaves ⟨bp, [], DiskManager.create.pages⟩ (List.replicate 2147483648 (.fetch 0)) ∧
      ¬ (run ⟨bp, [], DiskManager.create.pages⟩
        (List.replicate 2147483648 (.fetch 0))).Transparent := by
  refine ⟨_, rfl, behaves_fetch_zero _ Nat.zero_lt_one, fun htransparent => ?_⟩
  have hcount := htransparent.pinCount_nonneg 0
  rw [show (2147483648 : Nat) = 2147483647 + 1 from rfl, List.replicate_succ, run,
    List.foldl_cons, ← run, pinCount_run_fetch _ rfl] at hcount
  exact absurd hcount (by decide)

end Client

end LiteOLAP.BufferPool
