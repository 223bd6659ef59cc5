import LiteOLAP.Native.PagedStream
import LiteOLAP.Spec.BufferPoolCorrect

/-!
# Rules for programs that use the pool

A program that works on a pool over a reliable file sees a store of pages: the bytes last written
to each. `Serving` says that a pool keeps this store, has lost no frame, and caches none of the
pages that are set apart for whoever uses the file directly. Each call then has one rule.

The rules hold while the file has fewer than `2 ^ 32` pages, so that page numbers are not cut.

## Key results

- `Serving.fetchPage`, `Serving.newPage`: the rules for the calls that pin a page
- `Serving.modifyPage`, `Serving.unpinPage`: the rules for a page that is pinned
- `Serving.flushAll`: afterwards the file holds the store
- `Serving.withDisk`: the pages set apart can be changed behind the pool's back
-/

namespace LiteOLAP.BufferPool

open Client

/-- The file has fewer pages than there are page numbers. -/
def Roomy (bp : BufferPool) : Prop := bp.disk.numPages < 2 ^ 32

/-- A pool over a reliable file: the frames `usable` have not been lost, its clients hold the given
    pins, and `pages` are the bytes last written to each page. The pages `apart` belong to others
    and are not cached. -/
structure Serving (usable : List Nat) (apart : List PageId) (bp : BufferPool) (pins : List Pin)
    (pages : List Page) : Prop where
  coherent : Coherent ⟨bp, pins, pages⟩
  accounted : ∀ idx ∈ usable,
    idx < bp.numFrames ∧ (idx ∈ bp.freeList ∨ (bp.frames idx).valid = true)
  apart_lt : ∀ pid ∈ apart, pid.toNat < pages.length
  uncached : ∀ pid ∈ apart, bp.pageTable pid = none

/-- The pin count of a page. -/
def pinCountOf (bp : BufferPool) (pid : PageId) : Int32 :=
  match bp.pageTable pid with
  | some idx => (bp.frames idx).pinCount
  | none => 0

/-- At least `k` of the usable frames are not pinned. -/
def PinRoom (usable : List Nat) (pins : List Pin) (k : Nat) : Prop :=
  k ≤ (usable.dedup.filter fun idx => idx ∉ pins.map (·.frame)).length

/-- A page that can be fetched: it is not set apart, and its pin count does not overflow. -/
def Fetchable (apart : List PageId) (pins : List Pin) (pid : PageId) : Prop :=
  pid ∉ apart ∧ pins.countP (fun p => p.page = pid) + 1 < 2 ^ 31

/-- Pinning a page takes up one frame at most. -/
theorem PinRoom.cons {usable : List Nat} {pins : List Pin} {k : Nat}
    (h : PinRoom usable pins (k + 1)) (p : Pin) : PinRoom usable (p :: pins) k := by
  unfold PinRoom at *
  have hsub : (usable.dedup.filter fun idx => idx ∉ pins.map (·.frame)) ⊆
      p.frame :: (usable.dedup.filter fun idx => idx ∉ (p :: pins).map (·.frame)) := by
    intro idx hidx
    by_cases hp : idx = p.frame
    · exact hp ▸ List.mem_cons_self
    · simp only [List.mem_filter, List.mem_dedup, decide_eq_true_eq] at hidx
      refine List.mem_cons_of_mem _ (List.mem_filter.mpr ⟨List.mem_dedup.mpr hidx.1, ?_⟩)
      simpa [hp] using hidx.2
  have hle := ((usable.nodup_dedup.filter _).subperm hsub).length_le
  rw [List.length_cons] at hle
  omega

theorem PinRoom.mono {usable : List Nat} {pins : List Pin} {k j : Nat}
    (h : PinRoom usable pins k) (hle : j ≤ k) : PinRoom usable pins j := Nat.le_trans hle h

/-! ## The number of pages only grows -/

theorem staysOver_of_numPages_le {α : Type} {x : EStateM Exc BufferPool α}
    (h : ∀ bp, bp.disk.numPages ≤ (x bp).state.disk.numPages) :
    EStateM.StaysOver Roomy x := fun bp hlim => Nat.lt_of_le_of_lt (h bp) hlim

theorem numPages_unpinPage (pid : PageId) (isDirty : Bool) (bp : BufferPool) :
    (unpinPage pid isDirty bp).2.disk = bp.disk := by
  unfold unpinPage
  split
  · rfl
  · dsimp only
    split <;> rfl

theorem numPages_fetchPage (pid : PageId) (bp : BufferPool) :
    (fetchPage pid bp).state.disk.numPages = bp.disk.numPages := by
  have htake : (takeFrame bp).state.disk.numPages = bp.disk.numPages := by
    have hcases := takeFrame_cases bp
    generalize takeFrame bp = r at hcases
    cases hcases with
    | free hfree => rfl
    | pinned hfree hvictim => rfl
    | @writeFails idx e disk hfree hvictim hdirty hwrite =>
      have hlen := writePage_numPages bp.disk (bp.frames idx).pageId (bp.frames idx).page
      rw [hwrite] at hlen
      exact hlen
    | evicts hfree hvictim hwrote => exact wroteBack_numPages hwrote
  have hcases := fetchPage_cases bp pid
  generalize fetchPage pid bp = r at hcases
  cases hcases with
  | hit htable => rfl
  | noFrame htable htaken => rwa [htaken] at htake
  | @readFails idx bp' e disk htable htaken hread =>
    rw [htaken] at htake
    have hlen := readPage_numPages bp'.disk pid
    rw [hread] at hlen
    exact hlen.trans htake
  | @loads idx bp' page disk htable htaken hread =>
    rw [htaken] at htake
    have hlen := readPage_numPages bp'.disk pid
    rw [hread] at hlen
    exact hlen.trans htake

theorem numPages_newPage (bp : BufferPool) :
    bp.disk.numPages ≤ (newPage bp).state.disk.numPages := by
  have hlen := allocatePage_numPages (d := bp.disk)
  have hcases := newPage_cases bp
  generalize newPage bp = r at hcases
  cases hcases with
  | allocFails halloc =>
    rw [halloc] at hlen
    exact hlen
  | @fetchFails pid disk e bp' halloc hfetch =>
    rw [halloc] at hlen
    have hfetched := numPages_fetchPage pid { bp with disk }
    rw [hfetch] at hfetched
    exact Nat.le_trans hlen (Nat.le_of_eq hfetched.symm)
  | @done pid disk idx bp' halloc hfetch =>
    rw [halloc] at hlen
    have hfetched := numPages_fetchPage pid { bp with disk }
    rw [hfetch] at hfetched
    exact Nat.le_trans hlen (Nat.le_of_eq hfetched.symm)

theorem keeps_fetchPage (pid : PageId) : EStateM.Keeps (·.disk.numPages) (fetchPage pid) :=
  numPages_fetchPage pid

theorem keeps_unpinPage (pid : PageId) (isDirty : Bool) :
    EStateM.Keeps (·.disk.numPages)
      (modify fun bp => (unpinPage pid isDirty bp).2 : EStateM Exc BufferPool PUnit) :=
  EStateM.keeps_modify fun bp => by rw [numPages_unpinPage]

theorem staysOver_newPage : EStateM.StaysOver Roomy newPage :=
  staysOver_of_numPages_le numPages_newPage

theorem staysOver_modify {f : BufferPool → BufferPool} (h : ∀ bp, (f bp).disk = bp.disk) :
    EStateM.StaysOver Roomy (modify f : EStateM Exc BufferPool PUnit) :=
  staysOver_of_numPages_le fun bp => Nat.le_of_eq (by rw [EStateM.modify_apply]; simp [h])

theorem staysOver_modifyPage (idx : Nat) (f : Page → Page) :
    EStateM.StaysOver Roomy (modify (modifyPage idx f) : EStateM Exc BufferPool PUnit) :=
  staysOver_modify fun _ => rfl

theorem staysOver_unpinPage (pid : PageId) (isDirty : Bool) :
    EStateM.StaysOver Roomy
      (modify fun bp => (unpinPage pid isDirty bp).2 : EStateM Exc BufferPool PUnit) :=
  staysOver_modify fun bp => numPages_unpinPage pid isDirty bp

theorem numPages_flushFrame (idx : Nat) (bp : BufferPool) :
    (flushFrame idx bp).state.disk.numPages = bp.disk.numPages := by
  have hcases := flushFrame_cases bp idx
  have hlen := writePage_numPages bp.disk (bp.frames idx).pageId (bp.frames idx).page
  generalize flushFrame idx bp = r at hcases
  cases hcases with
  | clean h => rfl
  | writeFails h hwrite =>
    rw [hwrite] at hlen
    exact hlen
  | writes h hwrite =>
    rw [hwrite] at hlen
    exact hlen

theorem staysOver_flushAll : EStateM.StaysOver Roomy flushAll := by
  refine EStateM.staysOver_get.bind fun bp => ?_
  generalize List.range bp.numFrames = l
  induction l with
  | nil => exact EStateM.staysOver_pure _
  | cons i l ih =>
    exact (staysOver_of_numPages_le fun bp => Nat.le_of_eq (numPages_flushFrame i bp).symm).bind
      fun _ => ih

/-! ## Pinning a page -/

namespace Serving

variable {usable : List Nat} {apart : List PageId} {bp : BufferPool} {pins : List Pin} {pages : List Page}

theorem size (h : Serving usable apart bp pins pages) : bp.disk.numPages = pages.length :=
  h.coherent.size.symm

/-- Some usable frame is not pinned. -/
private theorem exists_unpinned (h : Serving usable apart bp pins pages)
    (hroom : PinRoom usable pins 1) : ∃ idx ∈ usable, (bp.frames idx).pinCount = 0 := by
  obtain ⟨idx, hidx⟩ := List.exists_mem_of_length_pos hroom
  rw [List.mem_filter, List.mem_dedup, decide_eq_true_eq] at hidx
  refine ⟨idx, hidx.1, Int32.toInt_inj.mp ?_⟩
  have hcount := h.coherent.counts idx
  have hzero : pinsOf ⟨bp, pins, pages⟩ idx = 0 := pinsOf_eq_zero_iff.mpr fun p hp heq =>
    hidx.2 (List.mem_map.mpr ⟨p, hp, heq⟩)
  rw [hzero] at hcount
  exact hcount

/-- The pin count of a page that can be fetched is not at its maximum. -/
private theorem pinCount_ne_max (h : Serving usable apart bp pins pages) {pid : PageId}
    (hfetch : Fetchable apart pins pid) {idx : Nat} (htable : bp.pageTable pid = some idx) :
    (bp.frames idx).pinCount ≠ Int32.maxValue := by
  intro hmax
  have hcount : (bp.frames idx).pinCount.toInt = ((pins.countP fun p => p.frame = idx : Nat) : Int) :=
    h.coherent.counts idx
  -- the pins on the frame are those on its page
  have hle : pins.countP (fun p => p.frame = idx) ≤ pins.countP (fun p => p.page = pid) := by
    refine List.countP_mono_left fun p hp hframe => ?_
    have hheld := (h.coherent.linked.table_iff _ _).mp (h.coherent.held p hp)
    have hpage := (h.coherent.linked.table_iff _ _).mp htable
    rw [decide_eq_true_eq] at hframe ⊢
    rw [← hheld.2.2, hframe, hpage.2.2]
  rw [hmax, show Int32.maxValue.toInt = 2147483647 by decide] at hcount
  have := hfetch.2
  omega

/-- A call that returns has lost no frame. -/
private theorem accounted_fetchPage {bp' : BufferPool} {pid : PageId} {idx : Nat}
    (hrun : fetchPage pid bp = .ok idx bp') :
    bp'.numFrames = bp.numFrames ∧
      ∀ i, i ∈ bp.freeList ∨ (bp.frames i).valid = true →
        i ∈ bp'.freeList ∨ (bp'.frames i).valid = true := by
  have hcases := fetchPage_cases bp pid
  rw [hrun] at hcases
  cases hcases with
  | hit htable =>
    refine ⟨rfl, fun i hi => hi.imp_right fun hvalid => ?_⟩
    by_cases hidx : i = idx
    · subst hidx
      simpa [BufferPool.pin] using hvalid
    · rw [BufferPool.pin, setFrame_frames_of_ne _ _ hidx]
      exact hvalid
  | @loads idx bp'' page disk htable htake hread =>
    have hcases' := takeFrame_cases bp
    rw [htake] at hcases'
    have hvalid : ∀ i, (bp''.frames i).valid = true → i ≠ idx →
        ((((({ bp'' with disk } : BufferPool).install idx pid page).pin idx).touch idx).frames
          i).valid = true := by
      intro i hi hne
      simpa [touch, BufferPool.pin, BufferPool.setFrame, install, hne] using hi
    have hself : ((((({ bp'' with disk } : BufferPool).install idx pid page).pin idx).touch
        idx).frames idx).valid = true := by
      simp [touch, BufferPool.pin, install]
    cases hcases' with
    | @free idx rest hfree =>
      refine ⟨rfl, fun i hi => ?_⟩
      by_cases hidx : i = idx
      · subst hidx
        exact .inr hself
      · rcases hi with hmem | hv
        · rw [hfree, List.mem_cons] at hmem
          exact .inl (hmem.resolve_left hidx)
        · exact .inr (hvalid i hv hidx)
    | @evicts idx disk' hfree hvictim hwrote =>
      refine ⟨rfl, fun i hi => ?_⟩
      by_cases hidx : i = idx
      · subst hidx
        exact .inr hself
      · rcases hi with hmem | hv
        · rw [hfree] at hmem
          cases hmem
        · refine .inr (hvalid i ?_ hidx)
          simpa [unlink, hidx] using hv

/-- Fetching a page caches that page at most. -/
private theorem pageTable_fetchPage {bp' : BufferPool} {pid q : PageId} {idx : Nat} (h : bp.Linked)
    (hrun : fetchPage pid bp = .ok idx bp') (hq : bp.pageTable q = none) (hne : q ≠ pid) :
    bp'.pageTable q = none := by
  have htakes := h.takeFrame
  have hcases := fetchPage_cases bp pid
  rw [hrun] at hcases
  cases hcases with
  | hit htable => exact hq
  | loads htable htake hread =>
    rw [htake] at htakes
    simpa [touch, BufferPool.pin, install, hne] using htakes.2.2 q hq

/-- A page of the store is fetched into some frame, which is pinned. -/
theorem fetchPage (h : Serving usable apart bp pins pages) {pid : PageId} {page : Page}
    (hpage : pages[pid.toNat]? = some page) (hfetch : Fetchable apart pins pid)
    (hroom : PinRoom usable pins 1) :
    ∃ idx bp', BufferPool.fetchPage pid bp = .ok idx bp' ∧
      Serving usable apart bp' (⟨pid, idx, false⟩ :: pins) pages ∧
      (bp'.frames idx).page = page := by
  have hlt : pid.toNat < pages.length := (List.getElem?_eq_some_iff.mp hpage).1
  have hfile : pid.toNat < bp.disk.numPages := by
    have hsize := h.size
    omega
  obtain ⟨free, husable, hpin⟩ := h.exists_unpinned hroom
  obtain ⟨hfree, hfreeAcc⟩ := h.accounted free husable
  obtain ⟨idx, bp', hrun⟩ :=
    h.coherent.linked.fetches h.coherent.reliable hfile hfree hfreeAcc hpin
  have hcoh := h.coherent.fetch hlt fun idx htable => h.pinCount_ne_max hfetch htable
  rw [Client.fetch, show BufferPool.fetchPage pid bp = _ from hrun] at hcoh
  obtain ⟨hframes, hacc⟩ := accounted_fetchPage hrun
  refine ⟨idx, bp', hrun, ⟨hcoh, fun i hi => ?_, h.apart_lt, fun q hq => ?_⟩, ?_⟩
  · rw [hframes]
    exact (h.accounted i hi).imp_right (hacc i)
  · refine pageTable_fetchPage h.coherent.linked hrun (h.uncached q hq) ?_
    rintro rfl
    exact hfetch.1 hq
  · have hfetched := h.coherent.fetched hrun
    rw [show (Client.mk bp pins pages).last = pages from rfl, hpage] at hfetched
    exact (Option.some.inj hfetched).symm

/-- The pool after the file has grown by a page of zeros. -/
private theorem extend (h : Serving usable apart bp pins pages) :
    Serving usable apart { bp with disk := { bp.disk with pages := bp.disk.pages ++ [Page.zero] } } pins
      (pages ++ [.zero]) :=
  ⟨h.coherent.extend, h.accounted, fun pid hpid => by
    have := h.apart_lt pid hpid
    rw [List.length_append]
    omega, h.uncached⟩

/-- Changing the page behind a pin changes the store. -/
theorem modifyPage (h : Serving usable apart bp pins pages) {p : Pin} (hp : p ∈ pins) {page : Page}
    (hpage : pages[p.page.toNat]? = some page) (f : Page → Page) :
    Serving usable apart (BufferPool.modifyPage p.frame f bp) ({ p with wrote := true } :: pins.erase p)
      (pages.set p.page.toNat (f page)) := by
  obtain ⟨hlt, hvalid, hid⟩ := (h.coherent.linked.table_iff _ _).mp (h.coherent.held p hp)
  have hframe : (bp.frames p.frame).page = page := by
    have hres := h.coherent.resident p.frame hlt hvalid
    rw [hid] at hres
    rw [show (Client.mk bp pins pages).last = pages from rfl, hpage] at hres
    exact (Option.some.inj hres).symm
  have hcoh := h.coherent.write (p := p) hp (f page)
  have hpool : BufferPool.modifyPage p.frame f bp =
      bp.setFrame p.frame { bp.frames p.frame with page := f page } := by
    rw [BufferPool.modifyPage, hframe]
  rw [hpool]
  have hkeep : ∀ i, ((bp.setFrame p.frame { bp.frames p.frame with page := f page }).frames i).valid =
      (bp.frames i).valid := by
    intro i
    by_cases hidx : i = p.frame
    · subst hidx
      simp
    · rw [setFrame_frames_of_ne _ _ hidx]
  refine ⟨hcoh, fun i hi => ?_, fun q hq => ?_, h.uncached⟩
  · rw [hkeep]
    exact h.accounted i hi
  · rw [List.length_set]
    exact h.apart_lt q hq

/-- However long the file is: a new page is numbered by its length, cut to 32 bits. -/
theorem newPage_cut (h : Serving usable [] bp [] pages) (hroom : PinRoom usable [] 1) :
    ∃ idx bp', BufferPool.newPage bp = .ok (UInt32.ofNat pages.length, idx) bp' ∧
      Serving usable [] bp' [⟨UInt32.ofNat pages.length, idx, true⟩]
        ((pages ++ [Page.zero]).set (UInt32.ofNat pages.length).toNat
          (.fresh (UInt32.ofNat pages.length))) := by
  have hsize := h.size
  have hlt : (UInt32.ofNat bp.disk.numPages).toNat < (pages ++ [Page.zero]).length := by
    rw [UInt32.toNat_ofNat', hsize, List.length_append, List.length_singleton]
    exact Nat.lt_succ_of_le (Nat.mod_le _ _)
  obtain ⟨page, hpage⟩ : ∃ page,
      (pages ++ [Page.zero])[(UInt32.ofNat bp.disk.numPages).toNat]? = some page :=
    ⟨_, List.getElem?_eq_getElem hlt⟩
  obtain ⟨idx, bp', hrun, hserving, -⟩ :=
    h.extend.fetchPage hpage ⟨List.not_mem_nil, by simp⟩ hroom
  have hwrite := hserving.modifyPage List.mem_cons_self hpage
    fun _ => .fresh (UInt32.ofNat bp.disk.numPages)
  rw [List.erase_cons_head] at hwrite
  refine ⟨idx, _, ?_, hsize ▸ hwrite⟩
  have halloc := DiskManager.allocatePage_reliable (d := bp.disk) h.coherent.reliable
  have hgrow : BufferPool.withDisk DiskManager.allocatePage bp = _ := EStateM.zoom_of_ok halloc
  rw [BufferPool.newPage, EStateM.bind_of_ok hgrow, EStateM.bind_of_ok hrun, ← hsize]
  rfl

/-- Below `2 ^ 32` pages, a new page gets the number after the last one. -/
theorem newPage (h : Serving usable apart bp pins pages) (hroom : PinRoom usable pins 1) :
    EStateM.Returns Roomy BufferPool.newPage bp fun r bp' =>
      pages.length + 1 < 2 ^ 32 ∧ r.1 = UInt32.ofNat pages.length ∧
      Serving usable apart bp' (⟨r.1, r.2, true⟩ :: pins) (pages ++ [.fresh r.1]) := by
  intro hlim
  have hsize := h.size
  have halloc := DiskManager.allocatePage_reliable (d := bp.disk) h.coherent.reliable
  have hgrown : pages.length + 1 < 2 ^ 32 := by
    -- the new file is within the limit
    have hcases := newPage_cases bp
    generalize BufferPool.newPage bp = r at hcases hlim
    have hlast : ∀ pid, (BufferPool.fetchPage pid
        { bp with disk := { bp.disk with pages := bp.disk.pages ++ [Page.zero] } }).state.disk.numPages
          = pages.length + 1 := by
      intro pid
      rw [numPages_fetchPage, ← hsize]
      simp [DiskManager.numPages]
    cases hcases with
    | allocFails hfails =>
      rw [halloc] at hfails
      cases hfails
    | @fetchFails pid disk e bp' hok hfetch =>
      rw [halloc] at hok
      cases hok
      have hlen := hlast (UInt32.ofNat bp.disk.numPages)
      rw [hfetch] at hlen
      exact hlen ▸ hlim
    | @done pid disk idx bp' hok hfetch =>
      rw [halloc] at hok
      cases hok
      have hlen := hlast (UInt32.ofNat bp.disk.numPages)
      rw [hfetch] at hlen
      exact hlen ▸ hlim
  have hnat : (UInt32.ofNat bp.disk.numPages).toNat = pages.length := by
    rw [UInt32.toNat_ofNat', hsize]
    omega
  have hget : (pages ++ [Page.zero])[(UInt32.ofNat bp.disk.numPages).toNat]? = some .zero := by
    rw [hnat, List.getElem?_append_right (Nat.le_refl _), Nat.sub_self]
    rfl
  have hapart : UInt32.ofNat bp.disk.numPages ∉ apart := by
    intro hmem
    have := h.apart_lt _ hmem
    omega
  have hnew : ∀ p ∈ pins, p.page ≠ UInt32.ofNat bp.disk.numPages := by
    rintro p hp heq
    have hold : p.page.toNat < pages.length := h.coherent.lt_size (h.coherent.held p hp)
    rw [heq, hnat] at hold
    exact Nat.lt_irrefl _ hold
  have hcount : pins.countP (fun p => p.page = UInt32.ofNat bp.disk.numPages) = 0 :=
    List.countP_eq_zero.mpr fun p hp => by simpa using hnew p hp
  obtain ⟨idx, bp', hrun, hserving, -⟩ :=
    h.extend.fetchPage hget ⟨hapart, by rw [hcount]; decide⟩ hroom
  refine ⟨(UInt32.ofNat bp.disk.numPages, idx),
    bp'.setFrame idx { bp'.frames idx with page := .fresh (UInt32.ofNat bp.disk.numPages) }, ?_,
    hgrown, by rw [hsize], ?_⟩
  · have hgrow : BufferPool.withDisk DiskManager.allocatePage bp = _ := EStateM.zoom_of_ok halloc
    rw [BufferPool.newPage, EStateM.bind_of_ok hgrow, EStateM.bind_of_ok hrun]
    rfl
  · have hwrite := hserving.modifyPage List.mem_cons_self hget
      fun _ => .fresh (UInt32.ofNat bp.disk.numPages)
    rw [List.erase_cons_head, hnat, List.set_append_right _ _ (Nat.le_refl _), Nat.sub_self] at hwrite
    exact hwrite

/-- A pin that is given back, as dirty if the page was changed. -/
theorem unpinPage (h : Serving usable apart bp pins pages) {p : Pin} (hp : p ∈ pins) (isDirty : Bool)
    (hdirty : p.wrote = true → isDirty = true) :
    Serving usable apart (BufferPool.unpinPage p.page isDirty bp).2 (pins.erase p) pages := by
  have hcoh := h.coherent.unpin (p := p) hp hdirty
  have htable := unpinPage_pageTable bp p.page isDirty
  have hparts : (BufferPool.unpinPage p.page isDirty bp).2.numFrames = bp.numFrames ∧
      (BufferPool.unpinPage p.page isDirty bp).2.freeList = bp.freeList ∧
      ∀ i, ((BufferPool.unpinPage p.page isDirty bp).2.frames i).valid = (bp.frames i).valid := by
    unfold BufferPool.unpinPage
    split
    · exact ⟨rfl, rfl, fun i => rfl⟩
    · rename_i idx _
      dsimp only
      split
      · exact ⟨rfl, rfl, fun i => rfl⟩
      · refine ⟨rfl, rfl, fun i => ?_⟩
        by_cases hi : i = idx
        · subst hi
          simp
        · rw [setFrame_frames_of_ne _ _ hi]
  obtain ⟨hnum, hfree, hvalid⟩ := hparts
  refine ⟨hcoh, fun i hi => ?_, h.apart_lt, fun q hq => ?_⟩
  · rw [hnum, hfree, hvalid]
    exact h.accounted i hi
  · rw [htable]
    exact h.uncached q hq

/-! ## Pin counts -/

/-- The pins on a page. -/
theorem toInt_pinCountOf (h : Serving usable apart bp pins pages) (pid : PageId) :
    (bp.pinCountOf pid).toInt = (pins.countP fun p => p.page = pid : Nat) := by
  unfold pinCountOf
  cases htable : bp.pageTable pid with
  | none =>
    have hzero : pins.countP (fun p => p.page = pid) = 0 := by
      refine List.countP_eq_zero.mpr fun p hp hpage => ?_
      rw [decide_eq_true_eq] at hpage
      have hheld : bp.pageTable p.page = some p.frame := h.coherent.held p hp
      rw [hpage, htable] at hheld
      cases hheld
    rw [hzero]
    rfl
  | some idx =>
    have hcount : (bp.frames idx).pinCount.toInt =
        ((pins.countP fun p => p.frame = idx : Nat) : Int) := h.coherent.counts idx
    rw [hcount]
    -- the pins on the frame are those on its page
    refine congrArg _ (List.countP_congr fun p hp => ?_)
    have hheld : bp.pageTable p.page = some p.frame := h.coherent.held p hp
    rw [decide_eq_true_eq, decide_eq_true_eq]
    constructor
    · rintro rfl
      have hpage := (h.coherent.linked.table_iff _ _).mp htable
      rw [← ((h.coherent.linked.table_iff _ _).mp hheld).2.2, hpage.2.2]
    · rintro rfl
      rw [htable] at hheld
      exact (Option.some.inj hheld).symm

/-- The same pins make the same pin counts. -/
theorem pinCountOf_eq {usable' : List Nat} {apart' : List PageId} {bp' : BufferPool}
    {pages' : List Page} (h : Serving usable apart bp pins pages)
    (h' : Serving usable' apart' bp' pins pages') : bp'.pinCountOf = bp.pinCountOf :=
  funext fun pid => Int32.toInt_inj.mp ((h'.toInt_pinCountOf pid).trans (h.toInt_pinCountOf pid).symm)

/-! ## Flushing, and the file behind the pool -/

private theorem flushFrames_parts (l : List Nat) :
    ∀ bp : BufferPool, ((l.forM flushFrame) bp).state.numFrames = bp.numFrames ∧
      ((l.forM flushFrame) bp).state.freeList = bp.freeList ∧
      ∀ i, (((l.forM flushFrame) bp).state.frames i).valid = (bp.frames i).valid := by
  induction l with
  | nil => exact fun bp => ⟨rfl, rfl, fun i => rfl⟩
  | cons i l ih =>
    intro bp
    change ((flushFrame i >>= fun _ => l.forM flushFrame) bp).state.numFrames = bp.numFrames ∧
      ((flushFrame i >>= fun _ => l.forM flushFrame) bp).state.freeList = bp.freeList ∧
      ∀ j, (((flushFrame i >>= fun _ => l.forM flushFrame) bp).state.frames j).valid =
        (bp.frames j).valid
    have hcases := flushFrame_cases bp i
    rw [EStateM.bind_apply]
    generalize flushFrame i bp = r at hcases
    cases hcases with
    | clean h => exact ih bp
    | writeFails h hwrite => exact ⟨rfl, rfl, fun j => rfl⟩
    | writes h hwrite =>
      obtain ⟨hnum, hfree, hvalid⟩ := ih _
      refine ⟨hnum, hfree, fun j => (hvalid j).trans ?_⟩
      by_cases hj : j = i
      · subst hj
        simp
      · rw [setFrame_frames_of_ne _ _ hj]

/-- After `FlushAll` with nothing pinned, the file holds the store. -/
theorem flushAll (h : Serving usable apart bp [] pages) :
    EStateM.Returns Roomy BufferPool.flushAll bp fun _ bp' =>
      Serving usable apart bp' [] pages ∧ bp'.disk = ⟨pages, []⟩ := by
  intro hlim
  obtain ⟨bp', hrun, hcoh, htable, hclean⟩ := h.coherent.flushAll
  have hparts := flushFrames_parts (List.range bp.numFrames) bp
  rw [show (List.range bp.numFrames).forM flushFrame bp = .ok () bp' from hrun] at hparts
  rw [show BufferPool.flushAll bp = .ok () bp' from hrun] at hlim
  obtain ⟨hnum, hfree, hvalid⟩ := hparts
  simp only [EStateM.Result.state_ok] at hnum hfree hvalid hlim
  refine ⟨(), bp', hrun, ⟨hcoh, fun i hi => ?_, h.apart_lt, fun q hq => ?_⟩, ?_⟩
  · rw [hnum, hfree, hvalid]
    exact h.accounted i hi
  · rw [htable]
    exact h.uncached q hq
  · have hsize : pages.length = bp'.disk.pages.length := hcoh.size
    have hbound : bp'.disk.pages.length < 2 ^ 32 := hlim
    have hpages : bp'.disk.pages = pages := by
      refine List.ext_getElem? fun i => ?_
      by_cases hi : i < 2 ^ 32
      · have hnat : (UInt32.ofNat i).toNat = i := by
          rw [UInt32.toNat_ofNat']
          omega
        -- nothing is ahead of the file any more
        have hstored := hcoh.stored (UInt32.ofNat i) fun ⟨idx, hidx, hwhy⟩ => by
          rcases hwhy with hdirty | ⟨p, hp, -⟩
          · rw [hclean _ idx hidx] at hdirty
            cases hdirty
          · cases hp
        rwa [hnat] at hstored
      · rw [List.getElem?_eq_none (by omega), List.getElem?_eq_none (by omega)]
    have hfaults : bp'.disk.faults = [] := hcoh.reliable
    rw [← hpages, ← hfaults]

/-- Someone who uses the file directly may change the pages set apart and add new ones; which of
    these are set apart from then on is up to them. -/
theorem withDisk (h : Serving usable apart bp pins pages) {disk : DiskManager} {apart' : List PageId}
    (hreliable : disk.faults = []) (hle : bp.disk.numPages ≤ disk.numPages)
    (hkeep : ∀ i < bp.disk.numPages, (∀ p ∈ apart, p.toNat ≠ i) →
      disk.pages[i]? = bp.disk.pages[i]?)
    (hapart : ∀ p ∈ apart', (p ∈ apart ∨ bp.disk.numPages ≤ p.toNat) ∧ p.toNat < disk.numPages) :
    ∃ pages', Serving usable apart' { bp with disk } pins pages' ∧ pages'.length = disk.numPages ∧
      (∀ i < pages.length, (∀ p ∈ apart, p.toNat ≠ i) → pages'[i]? = pages[i]?) ∧
      ∀ p : PageId, p ∈ apart ∨ pages.length ≤ p.toNat → pages'[p.toNat]? = disk.pages[p.toNat]? := by
  have hsize := h.size
  -- the store keeps its own bytes of the pages that are not set apart
  obtain ⟨pages', hpages'⟩ : ∃ pages', pages' = disk.pages.mapIdx fun i page =>
      if i < pages.length ∧ ∀ p ∈ apart, p.toNat ≠ i then pages.getD i page else page := ⟨_, rfl⟩
  have hlen : pages'.length = disk.numPages := by
    rw [hpages', List.length_mapIdx]
    rfl
  have hown : ∀ i < pages.length, (∀ p ∈ apart, p.toNat ≠ i) → pages'[i]? = pages[i]? := by
    intro i hi hother
    have hi' : i < disk.pages.length := by
      unfold DiskManager.numPages at hle hsize
      omega
    rw [hpages', List.getElem?_mapIdx, List.getElem?_eq_getElem hi', List.getElem?_eq_getElem hi,
      Option.map_some, if_pos ⟨hi, hother⟩, List.getD_eq_getElem _ _ hi]
  have htheirs : ∀ p : PageId, p ∈ apart ∨ pages.length ≤ p.toNat →
      pages'[p.toNat]? = disk.pages[p.toNat]? := by
    intro p hp
    rw [hpages', List.getElem?_mapIdx]
    cases hget : disk.pages[p.toNat]? with
    | none => rfl
    | some page =>
      rw [Option.map_some, if_neg]
      intro hmine
      rcases hp with hp | hp
      · exact hmine.2 p hp rfl
      · exact absurd hmine.1 (Nat.not_lt.mpr hp)
  -- a page that is cached is not set apart
  have hcached : ∀ pid idx, bp.pageTable pid = some idx →
      pid.toNat < pages.length ∧ ∀ p ∈ apart, p.toNat ≠ pid.toNat := by
    intro pid idx htable
    refine ⟨h.coherent.lt_size htable, fun p hp heq => ?_⟩
    rw [← UInt32.toNat_inj.mp heq, h.uncached p hp] at htable
    cases htable
  refine ⟨pages', ⟨⟨h.coherent.linked.withDisk hle, hreliable, hlen, ?_, ?_, h.coherent.held,
    h.coherent.counts⟩, h.accounted, ?_, ?_⟩, hlen, hown, htheirs⟩
  · intro idx hidx hvalid
    obtain ⟨hlt, hother⟩ := hcached _ idx ((h.coherent.linked.table_iff _ idx).mpr ⟨hidx, hvalid, rfl⟩)
    exact (hown _ hlt hother).trans (h.coherent.resident idx hidx hvalid)
  · intro pid hahead
    show disk.pages[pid.toNat]? = pages'[pid.toNat]?
    by_cases hmine : pid.toNat < pages.length ∧ ∀ p ∈ apart, p.toNat ≠ pid.toNat
    · rw [hown _ hmine.1 hmine.2, hkeep _ (by omega) hmine.2]
      exact h.coherent.stored pid hahead
    · refine (htheirs pid ?_).symm
      by_contra hneither
      rw [not_or, Nat.not_le] at hneither
      exact hmine ⟨hneither.2, fun p hp heq => hneither.1 (UInt32.toNat_inj.mp heq ▸ hp)⟩
  · intro p hp
    rw [hlen]
    exact (hapart p hp).2
  · intro p hp
    rcases (hapart p hp).1 with hp | hge
    · exact h.uncached p hp
    · cases htable : bp.pageTable p with
      | none => rfl
      | some idx =>
        have hlt := (hcached p idx htable).1
        omega

end Serving

/-- A new pool over a reliable file serves its pages. -/
theorem Serving.create {disk : DiskManager} {n : Nat} {bp : BufferPool} {apart : List PageId}
    (hcreate : BufferPool.create disk n = .ok bp) (hreliable : disk.faults = [])
    (hapart : ∀ pid ∈ apart, pid.toNat < disk.numPages) :
    Serving (List.range n) apart bp [] disk.pages := by
  have hcoh := Client.Coherent.create hcreate hreliable
  have hacc := hcoh.linked.accounted_iff.mp (Linked.create hcreate).2
  unfold BufferPool.create at hcreate
  split at hcreate
  · cases hcreate
  · obtain rfl := Except.ok.inj hcreate
    exact ⟨hcoh, fun i hi => ⟨List.mem_range.mp hi, hacc i (List.mem_range.mp hi)⟩, hapart,
      fun _ _ => rfl⟩

end LiteOLAP.BufferPool
