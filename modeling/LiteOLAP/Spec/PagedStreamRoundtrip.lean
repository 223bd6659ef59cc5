import LiteOLAP.Spec.PagedStreamCorrect

/-!
# Paged streams round-trip

A stream is written by any sequence of `Write` calls and read by any sequence of `Read` and `Skip`
calls, with cuts of their own. The reader is compared with a plain one, which takes its bytes off
a list.

## Key results

- `PagedInputStream.run_plainRun`: a reader does what the plain reader does
- `PagedStream.run_writeAll`: the bytes written are the bytes read, and all pins are given back
-/

namespace LiteOLAP

open BufferPool (Pin Serving PinRoom Fetchable Roomy)
open Catalog (newPages pagesFor)

namespace PagedInputStream

/-- A call on an open stream. -/
inductive Call
  | read (n : Nat)
  | skip (n : Nat)

/-- A sequence of calls: the bytes of each `Read`. It ends at the first call that throws. -/
def run : List Call → PagedInputStream → EStateM Exc BufferPool (List Bytes × PagedInputStream)
  | [], s => pure ([], s)
  | .read n :: calls, s => do
    let (bytes, s) ← s.read n
    let (outs, s) ← run calls s
    pure (bytes :: outs, s)
  | .skip n :: calls, s => do
    let s ← s.skip n
    run calls s

/-- The same calls on a list of bytes: the bytes of each `Read` and the bytes left. -/
def plainRun : List Call → Bytes → Except Exc (List Bytes × Bytes)
  | [], rest => .ok ([], rest)
  | .read n :: calls, rest =>
    if rest.length < n then .error underflow
    else do
      let (outs, left) ← plainRun calls (rest.drop n)
      .ok (rest.take n :: outs, left)
  | .skip n :: calls, rest =>
    if rest.length < n then .error underflow else plainRun calls (rest.drop n)

section

variable {usable : List Nat} {apart : List PageId} {pins : List Pin} {pages : List Page}
  {bp : BufferPool} {s : PagedInputStream} {ids : List PageId} {rest : Bytes}

/-- The loop of `Advance` throws when it has to go past the last byte. -/
theorem advanceLoop_underflow (hroom : PinRoom usable pins 1) {fuel : Nat} :
    ∀ {s : PagedInputStream} {ids : List PageId} {rest : Bytes} {bp : BufferPool} {k : Nat},
      Serving usable apart bp pins pages → Reading pages s ids rest →
      (∀ pid ∈ ids, Fetchable apart pins pid) → rest.length < k →
      (if s.offset = s.pageBuf.length then 2 * k + 1 else 2 * k) ≤ fuel →
      ∃ bp', advanceLoop fuel s k bp = .error underflow bp' ∧
        Serving usable apart bp' pins pages := by
  induction fuel with
  | zero =>
    intro s ids rest bp k _ _ _ hk hfuel
    split at hfuel <;> omega
  | succ fuel ih =>
    intro s ids rest bp k h hreading hfetch hk hfuel
    unfold advanceLoop
    rw [if_neg (by omega)]
    by_cases hend : s.atEnd = true
    · rw [if_pos hend]
      exact ⟨bp, rfl, h⟩
    rw [if_neg hend]
    by_cases hboundary : s.offset = s.pageBuf.length
    · rw [if_pos hboundary]
      rw [if_pos hboundary] at hfuel
      by_cases hnext : s.nextPageId = kInvalidPageId
      · rw [if_pos hnext]
        exact ⟨bp, rfl, h⟩
      rw [if_neg hnext]
      obtain ⟨parts, hbytes, hparts, hfull⟩ := hreading.parts
      rw [hboundary, List.drop_length, List.nil_append] at hbytes
      have hlinks := hreading.links
      cases hparts with
      | nil => exact absurd hlinks hnext
      | @cons pid part ids parts hpart hparts =>
        obtain ⟨hpid, -, page, hpage, hrest⟩ := hlinks
        obtain ⟨page', hpage', hused⟩ := hpart
        rw [← hpid, hpage] at hpage'
        obtain rfl := Option.some.inj hpage'
        obtain ⟨s', bp', hload, hs, h'⟩ := loadPage_eq_ok h hroom hpage hused
          (hpid ▸ hfetch _ List.mem_cons_self) s
        rw [EStateM.bind_of_ok hload]
        have hpart := hfull part List.mem_cons_self
        have hreading' : Reading pages s' ids rest := by
          subst hs
          refine ⟨Nat.zero_le _, hrest, ⟨parts, hbytes, hparts, fun p hp =>
            hfull p (List.mem_cons_of_mem _ hp)⟩, fun hend' => ?_⟩
          simp [hend, hpart] at hend'
        have hinside : s'.offset ≠ s'.pageBuf.length := by
          subst hs
          exact fun heq => hpart (List.eq_nil_of_length_eq_zero heq.symm)
        exact ih h' hreading' (fun p hp => hfetch p (List.mem_cons_of_mem _ hp)) hk
          (by rw [if_neg hinside]; omega)
    · -- the rest of the page is not enough
      rw [if_neg hboundary]
      rw [if_neg hboundary] at hfuel
      have hoffset := hreading.offset_le
      obtain ⟨parts, hbytes, -, -⟩ := hreading.parts
      have hle : s.pageBuf.length - s.offset ≤ rest.length := by
        rw [hbytes, List.length_append, List.length_drop]
        omega
      obtain ⟨t, ht⟩ : ∃ t, t = min (s.pageBuf.length - s.offset) k := ⟨_, rfl⟩
      rw [← ht]
      obtain ⟨hpass, -⟩ := hreading.pass (by simpa using hend) (k := t) (by omega)
      obtain ⟨bp', hrun, h'⟩ := ih h hpass hfetch (k := k - t)
        (by rw [List.length_drop]; omega) (by split <;> omega)
      rw [EStateM.bind_of_error hrun]
      exact ⟨bp', rfl, h'⟩

/-- Advancing past the end throws. -/
theorem advance_underflow (h : Serving usable apart bp pins pages) (hroom : PinRoom usable pins 1)
    (hs : Delivers apart pins pages s rest) {k : Nat} (hk : rest.length < k) :
    ∃ bp', advance s k bp = .error underflow bp' ∧ Serving usable apart bp' pins pages := by
  obtain ⟨ids, hreading, hfetch, -⟩ := hs
  exact advanceLoop_underflow hroom h hreading hfetch hk (by split <;> omega)

/-- Advancing within the stream returns its next bytes. -/
theorem advance_eq_ok (hlim : Roomy bp) (h : Serving usable apart bp pins pages)
    (hroom : PinRoom usable pins 1) (hs : Delivers apart pins pages s rest) {k : Nat}
    (hk : k ≤ rest.length) :
    ∃ s' bp', advance s k bp = .ok (rest.take k, s') bp' ∧ Roomy bp' ∧
      Delivers apart pins pages s' (rest.drop k) ∧ Serving usable apart bp' pins pages := by
  have hfront : k = (rest.take k).length := by
    rw [List.length_take]
    omega
  have hs' : Delivers apart pins pages s (rest.take k ++ rest.drop k) := by
    rwa [List.take_append_drop]
  have hkeeps := keeps_advanceLoop (2 * k + 1) s k
  obtain ⟨⟨bytes, s'⟩, bp', hrun, ⟨hbytes, hback⟩, h'⟩ := (advance_delivers h hroom hs'
    hfront).of_keeps (P := (· < 2 ^ 32)) hkeeps hlim
  obtain rfl : bytes = rest.take k := hbytes
  refine ⟨s', bp', hrun, ?_, hback, h'⟩
  exact show bp'.disk.numPages < 2 ^ 32 from (hkeeps.of_ok hrun).symm ▸ hlim

/-- A reader does what the plain reader does, and is at its end exactly when no bytes are left. -/
theorem run_plainRun (hroom : PinRoom usable pins 1) (calls : List Call) :
    ∀ {s : PagedInputStream} {rest : Bytes} {bp : BufferPool}, Roomy bp →
      Serving usable apart bp pins pages → Delivers apart pins pages s rest →
      ∃ bp', Serving usable apart bp' pins pages ∧
        match plainRun calls rest with
        | .ok (outs, left) => ∃ s', run calls s bp = .ok (outs, s') bp' ∧
            (s'.atEnd = true ↔ left = [])
        | .error e => run calls s bp = .error e bp' := by
  induction calls with
  | nil =>
    intro s rest bp _ h hs
    exact ⟨bp, h, s, rfl, hs.choose_spec.2.2⟩
  | cons c calls ih =>
    intro s rest bp hlim h hs
    cases c with
    | read k =>
      rw [plainRun]
      by_cases hk : rest.length < k
      · obtain ⟨bp', hrun, h'⟩ := advance_underflow h hroom hs hk
        rw [if_pos hk]
        exact ⟨bp', h', by rw [run, read, EStateM.bind_of_error hrun]⟩
      · obtain ⟨s', bp', hrun, hlim', hs', h'⟩ := advance_eq_ok hlim h hroom hs (Nat.not_lt.mp hk)
        obtain ⟨bp'', h'', hrest⟩ := ih hlim' h' hs'
        refine ⟨bp'', h'', ?_⟩
        rw [if_neg hk, run, read, EStateM.bind_of_ok hrun]
        cases hplain : plainRun calls (rest.drop k) with
        | ok a =>
          rw [hplain] at hrest
          obtain ⟨s'', hrun'', hend⟩ := hrest
          exact ⟨s'', (EStateM.bind_of_ok hrun'').trans rfl, hend⟩
        | error e =>
          rw [hplain] at hrest
          exact EStateM.bind_of_error hrest
    | skip k =>
      rw [plainRun]
      by_cases hk : rest.length < k
      · obtain ⟨bp', hrun, h'⟩ := advance_underflow h hroom hs hk
        rw [if_pos hk]
        exact ⟨bp', h', by rw [run, skip, EStateM.bind_of_error (EStateM.bind_of_error hrun)]⟩
      · obtain ⟨s', bp', hrun, hlim', hs', h'⟩ := advance_eq_ok hlim h hroom hs (Nat.not_lt.mp hk)
        obtain ⟨bp'', h'', hrest⟩ := ih hlim' h' hs'
        refine ⟨bp'', h'', ?_⟩
        have hskip : s.skip k bp = .ok s' bp' := by
          rw [skip, EStateM.bind_of_ok hrun]
          rfl
        rwa [if_neg hk, run, EStateM.bind_of_ok hskip]

end

end PagedInputStream

namespace PagedOutputStream

/-- A stream written by a sequence of `Write` calls and `Finish`: its first page. -/
def writeAll (datas : List Bytes) : EStateM Exc BufferPool PageId := do
  let s ← create
  let s ← datas.foldlM write s
  let (root, _) ← s.finish
  pure root

section

variable {usable : List Nat} {apart : List PageId} {pins : List Pin} {base : List Page}
  {bp : BufferPool}

/-- What is written in any number of calls is stored on new pages. -/
theorem writeAll_returns (h : Serving usable apart bp pins base) (hroom : PinRoom usable pins 2)
    (datas : List Bytes) :
    EStateM.Returns Roomy (writeAll datas) bp fun root bp' => ∃ pages,
      Serving usable apart bp' pins pages ∧ base <+: pages ∧
      pages.length = base.length + pagesFor datas.flatten ∧
      Stored pages root (newPages base.length (pagesFor datas.flatten)) datas.flatten := by
  have hfinish : ∀ s : PagedOutputStream, EStateM.StaysOver Roomy (do
      let (root, _) ← s.finish
      pure root) := fun s => (staysOver_finish s).bind fun r => EStateM.staysOver_pure r.1
  refine (create_returns h (hroom.mono (Nat.le_succ 1))).bind (fun s =>
    (EStateM.StaysOver.foldlM staysOver_write _ _).bind hfinish) fun s bp₁ hs => ?_
  have hloop := EStateM.Returns.foldlM (L := Roomy) (f := write)
    (I := fun rest s bp => ∃ done, done ++ rest.flatten = datas.flatten ∧
      Writing usable apart base pins s done bp)
    staysOver_write (l := datas) ⟨[], rfl, hs⟩ fun data rest s bp ⟨done, hdone, hs⟩ =>
      (write_returns hs hroom data).mono fun s' bp' hs' =>
        ⟨done ++ data, by rw [← hdone, List.flatten_cons, List.append_assoc], hs'⟩
  refine hloop.bind hfinish fun s bp₂ ⟨done, hdone, hs⟩ => ?_
  rw [List.flatten_nil, List.append_nil] at hdone
  subst hdone
  exact (finish_returns hs).bind (fun r => EStateM.staysOver_pure r.1) fun r bp₃ hr =>
    EStateM.returns_pure hr

end

end PagedOutputStream

namespace PagedStream

open PagedInputStream (Call run plainRun)
open PagedOutputStream (writeAll)

section

variable {usable : List Nat} {pins : List Pin} {base : List Page} {bp : BufferPool}

/-- While the file has fewer than `2 ^ 32` pages: what any calls of `Write` have written, any calls
    of `Read` and `Skip` find as the plain reader finds it on the list of these bytes. `AtEnd` says
    whether bytes are left, and writer and reader have given back every pin. -/
theorem run_writeAll (h : Serving usable [] bp pins base) (hroom : PinRoom usable pins 2)
    (datas : List Bytes) (hlim : Roomy (writeAll datas bp).state) :
    ∃ root bp', writeAll datas bp = .ok root bp' ∧ bp'.pinCountOf = bp.pinCountOf ∧
      ∃ s bp'', PagedInputStream.create root bp' = .ok s bp'' ∧
        bp''.pinCountOf = bp.pinCountOf ∧ (s.atEnd = true ↔ datas.flatten = []) ∧
        ∀ calls, ∃ bp₃, bp₃.pinCountOf = bp.pinCountOf ∧
          match plainRun calls datas.flatten with
          | .ok (outs, left) => ∃ s', run calls s bp'' = .ok (outs, s') bp₃ ∧
              (s'.atEnd = true ↔ left = [])
          | .error e => run calls s bp'' = .error e bp₃ := by
  obtain ⟨root, bp', hwrite, pages, h', -, hlen, hstored⟩ :=
    PagedOutputStream.writeAll_returns h hroom datas hlim
  rw [hwrite] at hlim
  have hroom₁ := hroom.mono (Nat.le_succ 1)
  have hfetch := h.fetchable_newPages h' hlim hlen
  have hkeeps := PagedInputStream.keeps_create root
  obtain ⟨s, bp'', hcreate, hs, h''⟩ := (PagedInputStream.create_delivers h' hroom₁ hstored
    hfetch).of_keeps (P := (· < 2 ^ 32)) hkeeps hlim
  have hlim'' : Roomy bp'' :=
    show bp''.disk.numPages < 2 ^ 32 from (hkeeps.of_ok hcreate).symm ▸ hlim
  refine ⟨root, bp', hwrite, h.pinCountOf_eq h', s, bp'', hcreate, h.pinCountOf_eq h'',
    hs.choose_spec.2.2, fun calls => ?_⟩
  obtain ⟨bp₃, h''', hrun⟩ := PagedInputStream.run_plainRun hroom₁ calls hlim'' h'' hs
  exact ⟨bp₃, h.pinCountOf_eq h''', hrun⟩

end

/-- Three calls of `Write`, one of them without bytes, through the general statement. -/
theorem run_writeAll_three_bytes :
    ∃ bp root bp', BufferPool.create .create 2 = .ok bp ∧ writeAll [[7], [], [8, 9]] bp = .ok root bp' ∧
      ∃ s bp'', PagedInputStream.create root bp' = .ok s bp'' ∧
        ∃ s' bp₃, run [.skip 1, .read 2] s bp'' = .ok ([[8, 9]], s') bp₃ ∧ s'.atEnd = true := by
  have hcreate : BufferPool.create .create 2 = .ok ⟨.create, 2, fun _ => Frame.empty,
    fun _ => none, [], [1, 0]⟩ := rfl
  have hnone : ∀ pid ∈ ([] : List PageId), pid.toNat < DiskManager.create.numPages :=
    fun pid hpid => by cases hpid
  have hserving := Serving.create hcreate rfl hnone
  obtain ⟨root, bp', hwrite, -, s, bp'', hs, -, -, hcalls⟩ :=
    run_writeAll hserving (show 2 ≤ _ by decide) [[7], [], [8, 9]]
      (show (2 : Nat) < 2 ^ 32 by omega)
  obtain ⟨bp₃, -, s', hrun, hend⟩ := hcalls [.skip 1, .read 2]
  exact ⟨_, root, bp', hcreate, hwrite, s, bp'', hs, s', bp₃, hrun, hend.mpr rfl⟩

/-- In a file of `2 ^ 32 - 1` pages the next page is numbered `kInvalidPageId`. -/
theorem newPage_full_file {disk : DiskManager} {bp : BufferPool}
    (hcreate : BufferPool.create disk 2 = .ok bp) (hnum : disk.numPages = 2 ^ 32 - 1)
    (hreliable : disk.faults = []) :
    ∃ idx bp', BufferPool.newPage bp = .ok (kInvalidPageId, idx) bp' := by
  have hlinked := (BufferPool.Linked.create hcreate).1
  obtain rfl : bp = ⟨disk, 2, fun _ => Frame.empty, fun _ => none, [], [1, 0]⟩ :=
    (Except.ok.inj hcreate).symm
  have halloc := DiskManager.allocatePage_reliable hreliable
  rw [show UInt32.ofNat disk.numPages = kInvalidPageId by rw [hnum]; rfl] at halloc
  have hsize : (disk.pages ++ [Page.zero]).length = 2 ^ 32 - 1 + 1 := by
    rw [List.length_append, ← hnum]
    rfl
  have hle : disk.numPages ≤ (DiskManager.mk (disk.pages ++ [.zero]) disk.faults).numPages := by
    simp [DiskManager.numPages]
  have hgrown := hlinked.withDisk hle
  have hlast : kInvalidPageId.toNat <
      (DiskManager.mk (disk.pages ++ [.zero]) disk.faults).numPages := by
    rw [DiskManager.numPages, hsize]
    exact Nat.lt_succ_self _
  have hfree : 0 ∈ [1, 0] := by simp
  obtain ⟨idx, bp', hfetch⟩ := hgrown.fetches hreliable hlast Nat.two_pos (.inl hfree) rfl
  have hgrow : BufferPool.withDisk DiskManager.allocatePage
      ⟨disk, 2, fun _ => Frame.empty, fun _ => none, [], [1, 0]⟩ = _ := EStateM.zoom_of_ok halloc
  exact ⟨idx, _, by
    rw [BufferPool.newPage, EStateM.bind_of_ok hgrow, EStateM.bind_of_ok hfetch]
    rfl⟩

/-- A stream that begins on that page is empty for every reader. -/
theorem not_run_writeAll_full_file :
    ∃ bp root bp₁, BufferPool.create ⟨List.replicate (2 ^ 32 - 1) .zero, []⟩ 2 = .ok bp ∧
      writeAll [[7]] bp = .ok root bp₁ ∧ ∃ s bp₂, PagedInputStream.create root bp₁ = .ok s bp₂ ∧
        s.atEnd = true ∧ ∃ bp₃, run [.read 1] s bp₂ = .error PagedInputStream.underflow bp₃ := by
  obtain ⟨bp, hcreate⟩ : ∃ bp, BufferPool.create ⟨List.replicate (2 ^ 32 - 1) .zero, []⟩ 2 = .ok bp :=
    ⟨_, rfl⟩
  obtain ⟨idx, bp', hnew⟩ := newPage_full_file hcreate
    (by rw [DiskManager.numPages, List.length_replicate]) rfl
  have hwrite : ∃ bp₁, writeAll [[7]] bp = .ok kInvalidPageId bp₁ := by
    rw [writeAll, PagedOutputStream.create, PagedOutputStream.startNewPage, bind_assoc,
      EStateM.bind_of_ok hnew]
    exact ⟨_, rfl⟩
  obtain ⟨bp₁, hwrite⟩ := hwrite
  have hread : PagedInputStream.create kInvalidPageId bp₁ = .ok ⟨0, kInvalidPageId, true, []⟩ bp₁ :=
    rfl
  exact ⟨bp, kInvalidPageId, bp₁, hcreate, hwrite, ⟨0, kInvalidPageId, true, []⟩, bp₁, hread, rfl,
    bp₁, rfl⟩

end PagedStream

end LiteOLAP
