import LiteOLAP.ForStd.Recency
import LiteOLAP.Spec.BufferPoolLinked

/-!
# Eviction follows the eviction list, not always the accesses

The eviction list is in the order of the last accesses as long as every hit is on the page
accessed last: a hit returns on the fast path of `FetchPage`, which leaves the list alone.

## Key results

- `Recent.step`: a call keeps the list in order unless it hits a page that is not at its front
- `evicts_leastRecent`: in a run of such calls, the page evicted is the least recently used
- `not_evicts_leastRecent`: a hit on an older page and then a miss evict the page just used
-/

namespace LiteOLAP.BufferPool

/-! ## Runs -/

/-- The page a call asks for: `NewPage` fetches the page it has just allocated. -/
def Call.page (bp : BufferPool) : Call → Option PageId
  | .fetch pid => some pid
  | .new => some (UInt32.ofNat bp.disk.numPages)
  | _ => none

/-- A pool and the pages asked for so far, the last one first. -/
structure Trace where
  pool : BufferPool
  history : List PageId

def Trace.step (t : Trace) (c : Call) : Trace where
  pool := c.run t.pool
  history := (c.page t.pool).toList ++ t.history

/-- A call that finds its page in the pool finds it at the front of the eviction list. -/
def HitsFront (bp : BufferPool) (c : Call) : Prop :=
  ∀ pid ∈ c.page bp, ∀ idx, bp.pageTable pid = some idx → bp.lru.head? = some idx

/-- Every call of the run hits the front of the eviction list or misses. -/
def Orderly : Trace → List Call → Prop
  | _, [] => True
  | t, c :: cs => HitsFront t.pool c ∧ Orderly (t.step c) cs

/-- The page is in the pool and not pinned. -/
def Unpinned (bp : BufferPool) (pid : PageId) : Prop :=
  ∃ idx, bp.pageTable pid = some idx ∧ (bp.frames idx).pinCount = 0

/-- The page was in the pool and no longer is. -/
def Evicts (bp bp' : BufferPool) (pid : PageId) : Prop :=
  bp.pageTable pid ≠ none ∧ bp'.pageTable pid = none

/-- Of the unpinned pages in the pool, `pid` is the one asked for the longest ago. -/
def LeastRecent (t : Trace) (pid : PageId) : Prop :=
  Unpinned t.pool pid ∧ pid ∈ t.history ∧
    ∀ q, Unpinned t.pool q → q ∈ t.history ∧ t.history.idxOf q ≤ t.history.idxOf pid

/-! ## The eviction list -/

/-- The pages in the order of the eviction list. -/
def pages (bp : BufferPool) : List PageId := bp.lru.map fun idx => (bp.frames idx).pageId

private theorem pages_eq {bp bp' : BufferPool} (hlru : bp'.lru = bp.lru)
    (hpage : ∀ i, (bp'.frames i).pageId = (bp.frames i).pageId) : bp'.pages = bp.pages := by
  simp only [pages, hlru, hpage]

private theorem pages_setFrame (bp : BufferPool) {idx : Nat} {f : Frame}
    (hpage : f.pageId = (bp.frames idx).pageId) : (bp.setFrame idx f).pages = bp.pages := by
  refine pages_eq rfl fun i => ?_
  by_cases hi : i = idx
  · subst hi
    rw [setFrame_frames_self, hpage]
  · rw [setFrame_frames_of_ne bp idx hi]

private theorem pages_pin (bp : BufferPool) (idx : Nat) : (bp.pin idx).pages = bp.pages :=
  pages_setFrame bp rfl

/-- The list holds the pages of the page table. -/
theorem Linked.mem_pages {bp : BufferPool} (h : bp.Linked) {pid : PageId} :
    pid ∈ bp.pages ↔ bp.pageTable pid ≠ none := by
  rw [pages, List.mem_map, Option.ne_none_iff_exists']
  constructor
  · rintro ⟨idx, hidx, rfl⟩
    obtain ⟨hlt, hvalid⟩ := (h.mem_lru idx).mp hidx
    exact ⟨idx, (h.table_iff _ idx).mpr ⟨hlt, hvalid, rfl⟩⟩
  · rintro ⟨idx, hidx⟩
    obtain ⟨hlt, hvalid, hpage⟩ := (h.table_iff pid idx).mp hidx
    exact ⟨idx, (h.mem_lru idx).mpr ⟨hlt, hvalid⟩, hpage⟩

/-- Taking a frame removes at most the victim from the list. -/
theorem takeFrame_pages (bp : BufferPool) : (takeFrame bp).state.pages.Sublist bp.pages := by
  have hcases := takeFrame_cases bp
  generalize takeFrame bp = r at hcases
  cases hcases with
  | free hfree => exact List.Sublist.refl _
  | pinned hfree hvictim => exact List.Sublist.refl _
  | writeFails hfree hvictim hdirty hwrite => exact List.Sublist.refl _
  | @evicts idx disk hfree hvictim hwrote =>
    have hpage : ∀ i, ((({ bp with disk } : BufferPool).unlink idx).frames i).pageId =
        (bp.frames i).pageId := by
      intro i
      by_cases hi : i = idx
      · subst hi
        simp [unlink]
      · simp [unlink, hi]
    simp only [pages, EStateM.Result.state_ok, hpage]
    exact (List.erase_sublist (a := idx) (l := bp.lru)).map _

/-- Loading a page puts it at the front. -/
private theorem pages_install {bp : BufferPool} {idx : Nat} (h : bp.Taken idx) (pid : PageId)
    (page : Page) : (((bp.install idx pid page).pin idx).touch idx).pages = pid :: bp.pages := by
  have hnotlru : idx ∉ bp.lru := by
    intro hmem
    have hvalid := ((h.mem_lru idx).mp hmem).2
    rw [h.invalid] at hvalid
    cases hvalid
  have hlru : (((bp.install idx pid page).pin idx).touch idx).lru = idx :: bp.lru := by
    simp [touch, BufferPool.pin, BufferPool.setFrame, install, List.erase_of_not_mem hnotlru]
  rw [pages, hlru, List.map_cons, pages]
  congr 1
  · simp [touch, BufferPool.pin, install]
  · apply List.map_congr_left
    intro i hi
    have hne : i ≠ idx := fun heq => hnotlru (heq ▸ hi)
    simp [touch, BufferPool.pin, BufferPool.setFrame, install, hne]

/-- Asking for the page at the front, or for one that is not in the pool, keeps the order. -/
private theorem Linked.recent_ask {bp : BufferPool} (h : bp.Linked) {history : List PageId}
    (hrecent : Recent history bp.pages) {pid : PageId}
    (hfront : ∀ idx, bp.pageTable pid = some idx → bp.lru.head? = some idx) :
    Recent (pid :: history) bp.pages := by
  cases htable : bp.pageTable pid with
  | none => exact hrecent.miss fun hmem => h.mem_pages.mp hmem htable
  | some idx =>
    have hhead := hfront idx htable
    have hpid : (bp.frames idx).pageId = pid := ((h.table_iff pid idx).mp htable).2.2
    rw [pages] at hrecent ⊢
    cases hlru : bp.lru with
    | nil => rw [hlru] at hhead; cases hhead
    | cons i rest =>
      rw [hlru, List.head?_cons] at hhead
      obtain rfl := Option.some.inj hhead
      rw [hlru, List.map_cons, hpid] at hrecent
      rw [List.map_cons, hpid]
      exact hrecent.again

/-- Fetching a page keeps the list in order unless it hits a page that is not at the front. -/
theorem Linked.recent_fetchPage {bp : BufferPool} (h : bp.Linked) {history : List PageId}
    (hrecent : Recent history bp.pages) {pid : PageId}
    (hfront : ∀ idx, bp.pageTable pid = some idx → bp.lru.head? = some idx) :
    Recent (pid :: history) (BufferPool.fetchPage pid bp).state.pages := by
  have hcases := fetchPage_cases bp pid
  have hpages := takeFrame_pages bp
  have htakes := h.takeFrame
  generalize BufferPool.fetchPage pid bp = r at hcases
  cases hcases with
  | @hit idx htable =>
    rw [EStateM.Result.state_ok, pages_pin]
    exact h.recent_ask hrecent hfront
  | noFrame htable htake =>
    have hnot : pid ∉ bp.pages := fun hmem => h.mem_pages.mp hmem htable
    rw [htake] at hpages
    exact (hrecent.miss hnot).sublist hpages
  | @readFails idx bp' e disk htable htake hread =>
    have hnot : pid ∉ bp.pages := fun hmem => h.mem_pages.mp hmem htable
    rw [htake] at hpages
    exact (hrecent.miss hnot).sublist hpages
  | @loads idx bp' page disk htable htake hread =>
    have hnot : pid ∉ bp.pages := fun hmem => h.mem_pages.mp hmem htable
    rw [htake] at hpages htakes
    have hstate := readPage_numPages bp'.disk pid
    rw [hread] at hstate
    have htaken' : Taken { bp' with disk } idx :=
      ⟨htakes.1.toLinked.withDisk (Nat.le_of_eq hstate.symm), htakes.1.lt, htakes.1.invalid,
        htakes.1.not_free⟩
    rw [EStateM.Result.state_ok, pages_install htaken' pid page]
    exact (hrecent.sublist hpages).push fun hmem => hnot (hpages.subset hmem)

private theorem pages_flushFrame (bp : BufferPool) (idx : Nat) :
    (BufferPool.flushFrame idx bp).state.pages = bp.pages := by
  have hcases := flushFrame_cases bp idx
  generalize BufferPool.flushFrame idx bp = r at hcases
  cases hcases with
  | clean hclean => rfl
  | writeFails hdirty hwrite => rfl
  | writes hdirty hwrite => exact pages_setFrame _ rfl

private theorem pages_forM_flushFrame (l : List Nat) (bp : BufferPool) :
    ((l.forM BufferPool.flushFrame) bp).state.pages = bp.pages := by
  induction l generalizing bp with
  | nil => rfl
  | cons idx l ih =>
    have hstep := pages_flushFrame bp idx
    change ((BufferPool.flushFrame idx >>= fun _ => l.forM BufferPool.flushFrame) bp).state.pages = _
    rw [EStateM.bind_apply]
    cases hrun : BufferPool.flushFrame idx bp with
    | ok u bp' =>
      rw [hrun] at hstep
      exact (ih bp').trans hstep
    | error e bp' =>
      rw [hrun] at hstep
      exact hstep

/-- A call keeps the list in order unless it hits a page that is not at the front. -/
theorem Linked.recent_step {t : Trace} (h : t.pool.Linked) (hrecent : Recent t.history t.pool.pages)
    {c : Call} (hfront : HitsFront t.pool c) :
    Recent (t.step c).history (t.step c).pool.pages := by
  cases c with
  | fetch pid => exact h.recent_fetchPage hrecent (hfront pid rfl)
  | new =>
    have hpid := hfront (UInt32.ofNat t.pool.disk.numPages) rfl
    have hcases := newPage_cases t.pool
    have hlen := allocatePage_numPages (d := t.pool.disk)
    change Recent (UInt32.ofNat t.pool.disk.numPages :: t.history)
      (BufferPool.newPage t.pool).state.pages
    generalize BufferPool.newPage t.pool = r at hcases
    cases hcases with
    | allocFails halloc => exact h.recent_ask hrecent hpid
    | @fetchFails pid disk e bp' halloc hfetch =>
      rw [halloc] at hlen
      obtain rfl := DiskManager.allocatePage_eq_ok halloc
      have hstep := (h.withDisk hlen).recent_fetchPage hrecent hpid
      rwa [EStateM.Result.state_ok, hfetch] at hstep
    | @done pid disk idx bp' halloc hfetch =>
      rw [halloc] at hlen
      obtain rfl := DiskManager.allocatePage_eq_ok halloc
      have hstep := (h.withDisk hlen).recent_fetchPage hrecent hpid
      rw [EStateM.Result.state_ok, hfetch] at hstep
      refine (congrArg (Recent _) ?_).mpr hstep
      exact pages_setFrame bp' rfl
  | unpin pid isDirty =>
    have hpages : ((Call.unpin pid isDirty).run t.pool).pages = t.pool.pages := by
      simp only [Call.run, BufferPool.unpinPage]
      split
      · rfl
      · split
        · rfl
        · exact pages_setFrame _ rfl
    rw [Trace.step, hpages]
    exact hrecent
  | flush pid =>
    have hpages : ((Call.flush pid).run t.pool).pages = t.pool.pages := by
      have hcases := flushPage_cases t.pool pid
      rw [Call.run]
      generalize BufferPool.flushPage pid t.pool = r at hcases
      cases hcases with
      | absent hinvalid => rfl
      | writeFails htable hwrite => rfl
      | writes htable hwrite => exact pages_setFrame _ rfl
    rw [Trace.step, hpages]
    exact hrecent
  | flushAll =>
    have hpages : ((Call.flushAll).run t.pool).pages = t.pool.pages :=
      pages_forM_flushFrame _ _
    rw [Trace.step, hpages]
    exact hrecent

/-- In a run whose calls hit only the front of the list, the list stays in order. -/
theorem recent_run {t : Trace} (h : t.pool.Linked) (hrecent : Recent t.history t.pool.pages)
    {cs : List Call} (horderly : Orderly t cs) :
    (cs.foldl Trace.step t).pool.Linked ∧
      Recent (cs.foldl Trace.step t).history (cs.foldl Trace.step t).pool.pages := by
  induction cs generalizing t with
  | nil => exact ⟨h, hrecent⟩
  | cons c cs ih => exact ih (h.call c) (h.recent_step hrecent horderly.1) horderly.2

/-! ## Who is evicted -/

/-- A page that leaves the pool during a fetch was the victim's. -/
private theorem victim_of_fetchPage {bp : BufferPool} {pid p : PageId}
    (hevicts : Evicts bp (BufferPool.fetchPage pid bp).state p) :
    ∃ idx, bp.pickVictim = .ok idx ∧ (bp.frames idx).pageId = p := by
  obtain ⟨hbefore, hafter⟩ := hevicts
  have htake : ∀ idx bp', BufferPool.takeFrame bp = .ok idx bp' → bp'.pageTable p = none →
      ∃ idx, bp.pickVictim = .ok idx ∧ (bp.frames idx).pageId = p := by
    intro idx bp' htake hnone
    have hcases := takeFrame_cases bp
    rw [htake] at hcases
    cases hcases with
    | free hfree => exact absurd hnone hbefore
    | evicts hfree hvictim hwrote =>
      refine ⟨idx, hvictim, ?_⟩
      by_contra hne
      have hne' : p ≠ (bp.frames idx).pageId := fun heq => hne heq.symm
      simp only [unlink, Function.update_of_ne hne'] at hnone
      exact hbefore hnone
  have hcases := fetchPage_cases bp pid
  generalize BufferPool.fetchPage pid bp = r at hcases hafter
  cases hcases with
  | hit htable => exact absurd hafter hbefore
  | noFrame htable htake' =>
    have hcases := takeFrame_cases bp
    rw [htake'] at hcases
    cases hcases with
    | pinned hfree hvictim => exact absurd hafter hbefore
    | writeFails hfree hvictim hdirty hwrite => exact absurd hafter hbefore
  | readFails htable htake' hread => exact htake _ _ htake' hafter
  | @loads idx bp' page disk htable htake' hread =>
    have hp : p ≠ pid := by
      rintro rfl
      exact hbefore htable
    refine htake _ _ htake' ?_
    simpa [touch, BufferPool.pin, BufferPool.setFrame, install, hp] using hafter

private theorem pageTable_forM_flushFrame (l : List Nat) (bp : BufferPool) :
    ((l.forM BufferPool.flushFrame) bp).state.pageTable = bp.pageTable := by
  induction l generalizing bp with
  | nil => rfl
  | cons idx l ih =>
    have hcases := flushFrame_cases bp idx
    change ((BufferPool.flushFrame idx >>= fun _ => l.forM BufferPool.flushFrame)
      bp).state.pageTable = _
    rw [EStateM.bind_apply]
    generalize BufferPool.flushFrame idx bp = r at hcases
    cases hcases with
    | clean hclean => exact ih bp
    | writeFails hdirty hwrite => rfl
    | writes hdirty hwrite => exact ih _

/-- A page that leaves the pool during a call was the victim's. -/
theorem victim_of_evicts {bp : BufferPool} {c : Call} {p : PageId}
    (hevicts : Evicts bp (c.run bp) p) :
    ∃ idx, bp.pickVictim = .ok idx ∧ (bp.frames idx).pageId = p := by
  cases c with
  | fetch pid => exact victim_of_fetchPage hevicts
  | new =>
    have hcases := newPage_cases bp
    rw [Call.run] at hevicts
    generalize BufferPool.newPage bp = r at hcases hevicts
    cases hcases with
    | allocFails halloc => exact absurd hevicts.2 hevicts.1
    | @fetchFails pid disk e bp' halloc hfetch =>
      have hvictim := @victim_of_fetchPage { bp with disk } pid p
      rw [hfetch] at hvictim
      exact hvictim hevicts
    | @done pid disk idx bp' halloc hfetch =>
      have hvictim := @victim_of_fetchPage { bp with disk } pid p
      rw [hfetch] at hvictim
      exact hvictim hevicts
  | unpin pid isDirty =>
    exfalso
    obtain ⟨hbefore, hafter⟩ := hevicts
    simp only [Call.run, BufferPool.unpinPage] at hafter
    split at hafter
    · exact hbefore hafter
    · split at hafter
      · exact hbefore hafter
      · exact hbefore hafter
  | flush pid =>
    exfalso
    obtain ⟨hbefore, hafter⟩ := hevicts
    have hcases := flushPage_cases bp pid
    rw [Call.run] at hafter
    generalize BufferPool.flushPage pid bp = r at hcases hafter
    cases hcases with
    | absent hinvalid => exact hbefore hafter
    | writeFails htable hwrite => exact hbefore hafter
    | writes htable hwrite => exact hbefore hafter
  | flushAll =>
    exfalso
    obtain ⟨hbefore, hafter⟩ := hevicts
    have htable : (Call.flushAll.run bp).pageTable = bp.pageTable := pageTable_forM_flushFrame _ _
    rw [htable] at hafter
    exact hbefore hafter

/-- The victim is the least recent of the unpinned pages when the list is in order. -/
private theorem Linked.leastRecent_victim {t : Trace} (h : t.pool.Linked)
    (hrecent : Recent t.history t.pool.pages) {idx : Nat} (hvictim : t.pool.pickVictim = .ok idx) :
    LeastRecent t (t.pool.frames idx).pageId := by
  obtain ⟨hpin, newer, older, hsplit, holder⟩ := pickVictim_eq_ok hvictim
  obtain ⟨hlt, hvalid⟩ := (h.mem_lru idx).mp (pickVictim_mem hvictim)
  have hmem : ∀ i ∈ t.pool.lru, (t.pool.frames i).pageId ∈ t.history := fun i hi =>
    hrecent.mem _ (List.mem_map_of_mem hi)
  refine ⟨⟨idx, (h.table_iff _ idx).mpr ⟨hlt, hvalid, rfl⟩, hpin⟩,
    hmem idx (pickVictim_mem hvictim), ?_⟩
  rintro q ⟨i, hi, hpini⟩
  obtain ⟨hlti, hvalidi, rfl⟩ := (h.table_iff q i).mp hi
  have hilru : i ∈ t.pool.lru := (h.mem_lru i).mpr ⟨hlti, hvalidi⟩
  refine ⟨hmem i hilru, ?_⟩
  rw [pages, hsplit, List.map_append, List.map_cons] at hrecent
  refine hrecent.idxOf_le ?_
  rw [hsplit, List.mem_append, List.mem_cons] at hilru
  rcases hilru with hnewer | rfl | hold
  · exact .inl (List.mem_map_of_mem hnewer)
  · exact .inr rfl
  · exact absurd hpini (holder i hold)

/-- In every run from a new pool whose calls hit no page but the one at the front of the
    eviction list, a page that a call evicts is the least recently used of the unpinned ones. -/
theorem evicts_leastRecent {disk : DiskManager} {n : Nat} {bp : BufferPool} {cs : List Call}
    {c : Call} {pid : PageId} (hcreate : create disk n = .ok bp)
    (horderly : Orderly ⟨bp, []⟩ cs)
    (hevicts : Evicts (cs.foldl Trace.step ⟨bp, []⟩).pool
      (c.run (cs.foldl Trace.step ⟨bp, []⟩).pool) pid) :
    LeastRecent (cs.foldl Trace.step ⟨bp, []⟩) pid := by
  have hempty : bp.pages = [] := by
    unfold create at hcreate
    split at hcreate
    · cases hcreate
    · obtain rfl := Except.ok.inj hcreate
      rfl
  obtain ⟨hlinked, hrecent⟩ := recent_run (t := ⟨bp, []⟩) (Linked.create hcreate).1
    (by rw [hempty]; exact Recent.nil []) horderly
  obtain ⟨idx, hvictim, rfl⟩ := victim_of_evicts hevicts
  exact hlinked.leastRecent_victim hrecent hvictim

/-- Two frames over a file of three pages. -/
def twoPool : BufferPool where
  disk := ⟨[.zero, .zero, .zero], []⟩
  numFrames := 2
  frames := fun _ => .empty
  pageTable := fun _ => none
  lru := []
  freeList := [1, 0]

/-- A call that finds nothing hits nothing. -/
private theorem hitsFront_of_miss {bp : BufferPool} {pid : PageId}
    (h : bp.pageTable pid = none) : HitsFront bp (.fetch pid) := by
  intro p hp idx hidx
  obtain rfl : pid = p := Option.some.inj hp
  rw [h] at hidx
  cases hidx
/-- A run that misses twice, then evicts the older page. -/
theorem evicts_leastRecent_two_pages :
    LeastRecent ([Call.fetch 0, .unpin 0 false, .fetch 1, .unpin 1 false].foldl Trace.step
      ⟨twoPool, []⟩) 0 :=
  @evicts_leastRecent twoPool.disk 2 _ _ (.fetch 2) _ rfl
    ⟨hitsFront_of_miss rfl, fun _ h => (by cases h), hitsFront_of_miss rfl,
      fun _ h => (by cases h), trivial⟩
    ⟨by decide, by decide⟩

/-- Page 0 is used again before the miss and evicted all the same, though page 1 has not been
    used since: the hit did not move page 0 to the front. -/
theorem not_evicts_leastRecent :
    ∃ (disk : DiskManager) (n : Nat) (bp : BufferPool) (cs : List Call) (c : Call) (pid : PageId),
      create disk n = .ok bp ∧
      Evicts (cs.foldl Trace.step ⟨bp, []⟩).pool (c.run (cs.foldl Trace.step ⟨bp, []⟩).pool) pid ∧
      ¬ LeastRecent (cs.foldl Trace.step ⟨bp, []⟩) pid := by
  refine ⟨twoPool.disk, 2, twoPool, [.fetch 0, .unpin 0 false, .fetch 1, .unpin 1 false,
    .fetch 0, .unpin 0 false], .fetch 2, 0, rfl, ⟨by decide, by decide⟩, ?_⟩
  rintro ⟨-, -, hleast⟩
  have hone := (hleast 1 ⟨0, by decide, by decide⟩).2
  exact absurd hone (by decide)

end LiteOLAP.BufferPool
