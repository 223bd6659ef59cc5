import LiteOLAP.Spec.CatalogChainCorrect

/-!
# A `Persist` that is interrupted

`Persist` links the pages of a body one by one. A page that is named before it has been written is
all zeros and so names page 0: a walk that comes to it never ends.

## Key results

- `Catalog.load_terminates`: on a chain that ends, `Load` ends
- `Catalog.existingChain_diverges`: on pages that name each other, no walk ends
- `Catalog.reopens_iff`: after which writes an interrupted `Persist` can be read
-/

namespace LiteOLAP

namespace Catalog

/-! ## Runs that end -/

/-- The run from `d` ends, with a result or with an exception. -/
def Terminates {α : Type} (x : EStateM Exc DiskManager α) (d : DiskManager) : Prop :=
  ∀ d', x d ≠ .error .diverges d'

section

variable {α β : Type} {d : DiskManager}

theorem terminates_pure (a : α) : Terminates (pure a) d := fun _ h => by cases h

theorem Terminates.bind {x : EStateM Exc DiskManager α} {f : α → EStateM Exc DiskManager β}
    (hx : Terminates x d) (hf : ∀ a d', x d = .ok a d' → Terminates (f a) d') :
    Terminates (x >>= f) d := by
  intro d' h
  rcases EStateM.bind_eq_error.mp h with h | ⟨a, d₁, h₁, h⟩
  · exact hx d' h
  · exact hf a d₁ h₁ d' h

theorem terminates_ofExcept {x : Except Exc α} (h : x ≠ .error .diverges) :
    Terminates (EStateM.ofExcept x) d := by
  intro d' heq
  cases x with
  | ok a => cases heq
  | error e =>
    injection heq with he
    exact h (by rw [he])

theorem terminates_readPage (pid : PageId) : Terminates (DiskManager.readPage pid) d := by
  refine Terminates.bind (fun d' h => by cases h) fun d₁ d₂ _ => ?_
  split
  · exact fun d' h => by cases h
  · refine Terminates.bind (fun d' h => ?_) fun _ _ _ => terminates_pure _
    rcases DiskManager.io_cases (Bytes.ofAscii "DiskManager::ReadPage: short read") d₂ with
      ⟨fs, hio, -⟩ | ⟨fs, hio, -⟩
    · rw [hio] at h
      cases h
    · rw [hio] at h
      cases h

end

/-! ### What `Load` parses -/

private theorem bind_ne {α β : Type} {x : Except Exc α} {f : α → Except Exc β}
    (hx : x ≠ .error .diverges) (hf : ∀ a, f a ≠ .error .diverges) : (x >>= f) ≠ .error .diverges := by
  cases x with
  | error e =>
    intro h
    injection h with he
    exact hx (by rw [he])
  | ok a => exact hf a

private theorem getField_ne {m : Bytes} {w : Nat} {cur : Bytes} :
    getField m w cur ≠ .error .diverges := by
  unfold getField
  split <;> exact fun h => by cases h

private theorem getBytes_ne {m : Bytes} {n : Nat} {cur : Bytes} :
    getBytes m n cur ≠ .error .diverges := by
  unfold getBytes
  split <;> exact fun h => by cases h

private theorem ofColumns_ne (cols : List Column) : Schema.ofColumns cols ≠ .error .diverges := by
  unfold Schema.ofColumns
  split <;> exact fun h => by cases h

private theorem getColumns_ne (n : Nat) :
    ∀ index cur, Schema.getColumns n index cur ≠ .error .diverges := by
  induction n with
  | zero => exact fun _ _ h => by cases h
  | succ n ih =>
    intro index cur
    refine bind_ne ?_ fun _ => bind_ne (ih _ _) fun _ h => by cases h
    refine bind_ne getField_ne fun _ => bind_ne getBytes_ne fun _ => bind_ne getField_ne fun r => ?_
    refine bind_ne ?_ fun _ => bind_ne getField_ne fun _ h => by cases h
    unfold ColumnType.ofByte
    split <;> exact fun h => by cases h

private theorem deserialize_ne (data : Bytes) : Schema.deserialize data ≠ .error .diverges :=
  bind_ne getField_ne fun _ => bind_ne (getColumns_ne _ _ _) fun _ => bind_ne (ofColumns_ne _) fun _ h =>
    by cases h

private theorem getRoots_ne (n : Nat) : ∀ cur, getRoots n cur ≠ .error .diverges := by
  induction n with
  | zero => exact fun _ h => by cases h
  | succ n ih => exact fun cur => bind_ne getField_ne fun _ => bind_ne (ih _) fun _ h => by cases h

private theorem getRowGroups_ne (ncols n : Nat) :
    ∀ cur, getRowGroups ncols n cur ≠ .error .diverges := by
  induction n with
  | zero => exact fun _ h => by cases h
  | succ n ih =>
    exact fun cur => bind_ne getField_ne fun _ => bind_ne (getRoots_ne _ _) fun _ =>
      bind_ne (ih _) fun _ h => by cases h

private theorem getSchema_ne (size : Nat) (cur : Bytes) : getSchema size cur ≠ .error .diverges := by
  unfold getSchema
  split
  · exact fun h => by cases h
  · exact bind_ne (deserialize_ne _) fun _ h => by cases h

private theorem getTables_ne (n : Nat) : ∀ c cur, getTables n c cur ≠ .error .diverges := by
  induction n with
  | zero => exact fun _ _ h => by cases h
  | succ n ih =>
    intro c cur
    refine bind_ne ?_ fun _ => ih _ _
    exact bind_ne getField_ne fun _ => bind_ne getBytes_ne fun _ => bind_ne getField_ne fun _ =>
      bind_ne (getSchema_ne _ _) fun _ => bind_ne getField_ne fun _ =>
        bind_ne (getRowGroups_ne _ _ _) fun _ h => by cases h

/-- Any body is parsed, or rejected. -/
theorem parse_ne_diverges (body : Bytes) : parse body ≠ .error .diverges :=
  bind_ne getField_ne fun _ => getTables_ne _ _ _

/-! ## Walks that end -/

section

variable {d : DiskManager} {chain : List PageId}

/-- A page is read, and the file keeps its pages. -/
theorem pages_of_readPage {pid : PageId} {page : Page} {d' : DiskManager}
    (h : DiskManager.readPage pid d = .ok page d') :
    d.pages[pid.toNat]? = some page ∧ d'.pages = d.pages := by
  rcases d.readPage_cases pid with ⟨page', fs, hread, hpage⟩ | ⟨e, fs, hread⟩
  · rw [hread] at h
    injection h with hp hd
    exact ⟨hp ▸ hpage, by rw [← hd]⟩
  · rw [hread] at h
    cases h

/-- With enough steps, the walk along a chain that ends, ends. -/
theorem followChain_terminates : ∀ {chain : List PageId} {d : DiskManager} {next : PageId} {fuel : Nat},
    PageChain d.pages next chain → chain.length < fuel → Terminates (followChain fuel next) d := by
  intro chain
  induction chain with
  | nil =>
    intro d next fuel h hfuel
    obtain ⟨n, rfl⟩ := Nat.exists_eq_succ_of_ne_zero (Nat.ne_zero_of_lt hfuel)
    have hend : next = kInvalidPageId := h
    rw [followChain, if_pos hend]
    exact terminates_pure _
  | cons p chain ih =>
    intro d next fuel h hfuel
    obtain ⟨n, rfl⟩ := Nat.exists_eq_succ_of_ne_zero (Nat.ne_zero_of_lt hfuel)
    obtain ⟨rfl, hne, page, hpage, hrest⟩ := h
    rw [followChain, if_neg hne]
    refine (terminates_readPage next).bind fun page' d₁ hread => ?_
    obtain ⟨hpage', hd₁⟩ := pages_of_readPage hread
    obtain rfl : page = page' := Option.some.inj (hpage.symm.trans hpage')
    refine Terminates.bind (ih (hd₁ ▸ hrest) (by simpa using hfuel)) fun _ _ _ => terminates_pure _

theorem readChain_terminates : ∀ {chain : List PageId} {d : DiskManager} {pid : PageId} {fuel : Nat},
    PageChain d.pages pid chain → chain.length < fuel → Terminates (readChain fuel pid) d := by
  intro chain
  induction chain with
  | nil =>
    intro d pid fuel h hfuel
    obtain ⟨n, rfl⟩ := Nat.exists_eq_succ_of_ne_zero (Nat.ne_zero_of_lt hfuel)
    have hend : pid = kInvalidPageId := h
    rw [readChain, if_pos hend]
    exact terminates_pure _
  | cons p chain ih =>
    intro d pid fuel h hfuel
    obtain ⟨n, rfl⟩ := Nat.exists_eq_succ_of_ne_zero (Nat.ne_zero_of_lt hfuel)
    obtain ⟨rfl, hne, page, hpage, hrest⟩ := h
    rw [readChain, if_neg hne]
    refine (terminates_readPage pid).bind fun page' d₁ hread => ?_
    obtain ⟨hpage', hd₁⟩ := pages_of_readPage hread
    obtain rfl : page = page' := Option.some.inj (hpage.symm.trans hpage')
    have hused : page.used ≠ .error .diverges := by
      unfold Page.used
      split <;> exact fun h => by cases h
    refine (terminates_ofExcept hused).bind fun part d₂ hpart => ?_
    have hd₂ : d₂ = d₁ := by
      cases hu : page.used with
      | ok part' =>
        rw [hu] at hpart
        injection hpart with _ hd
        exact hd.symm
      | error e =>
        rw [hu] at hpart
        cases hpart
    rw [hd₂]
    exact Terminates.bind (ih (hd₁ ▸ hrest) (by simpa using hfuel)) fun _ _ _ => terminates_pure _

/-- The walk of `Persist` ends on the catalog's chain. -/
theorem existingChain_terminates (h : CatalogChain d.pages chain) : Terminates existingChain d := by
  refine Terminates.bind (fun d' h => by cases h) fun d₀ d₁ hget => ?_
  obtain ⟨rfl, rfl⟩ : d = d₀ ∧ d = d₁ := by
    injection hget with h₁ h₂
    exact ⟨h₁, h₂⟩
  refine (terminates_readPage 0).bind fun page d₂ hread => ?_
  obtain ⟨hpage, hd₂⟩ := pages_of_readPage hread
  refine Terminates.bind ?_ fun _ _ _ => terminates_pure _
  cases h with
  | @fresh page' h₀ htype =>
    obtain rfl : page' = page := Option.some.inj (h₀.symm.trans hpage)
    rw [if_neg htype]
    have hend : PageChain d₂.pages kInvalidPageId [] := rfl
    exact followChain_terminates hend (Nat.succ_pos _)
  | @linked page' _ h₀ htype hchain =>
    obtain rfl : page' = page := Option.some.inj (h₀.symm.trans hpage)
    rw [if_pos htype]
    have hle := hchain.length_le
    cases chain with
    | nil => exact absurd hchain (show (0 : PageId) ≠ kInvalidPageId by decide)
    | cons p rest =>
      obtain ⟨rfl, -, page'', h₀', hrest⟩ := hchain
      obtain rfl : page' = page'' := Option.some.inj (h₀.symm.trans h₀')
      refine followChain_terminates (hd₂ ▸ hrest) ?_
      rw [List.length_cons] at hle
      unfold walkFuel DiskManager.numPages
      omega

/-- `Load` ends on the catalog's chain. -/
theorem load_terminates (h : CatalogChain d.pages chain) : Terminates load d := by
  refine Terminates.bind (fun d' h => by cases h) fun d₀ d₁ hget => ?_
  obtain ⟨rfl, rfl⟩ : d = d₀ ∧ d = d₁ := by
    injection hget with h₁ h₂
    exact ⟨h₁, h₂⟩
  split
  · exact terminates_pure _
  · refine (terminates_readPage 0).bind fun page d₂ hread => ?_
    obtain ⟨hpage, hd₂⟩ := pages_of_readPage hread
    cases h with
    | @fresh page' h₀ htype =>
      obtain rfl : page' = page := Option.some.inj (h₀.symm.trans hpage)
      rw [if_neg htype]
      exact terminates_pure _
    | @linked page' _ h₀ htype hchain =>
      obtain rfl : page' = page := Option.some.inj (h₀.symm.trans hpage)
      rw [if_pos htype]
      have hle := hchain.length_le
      have hread : Terminates readBody d₂ := by
        refine Terminates.bind (fun d' h => by cases h) fun d₃ d₄ hget => ?_
        obtain ⟨rfl, rfl⟩ : d₂ = d₃ ∧ d₂ = d₄ := by
          injection hget with h₁ h₂
          exact ⟨h₁, h₂⟩
        refine readChain_terminates (hd₂ ▸ hchain) ?_
        have hlen := congrArg List.length hd₂
        unfold walkFuel DiskManager.numPages
        omega
      refine hread.bind fun body d₃ _ => ?_
      exact (terminates_ofExcept (parse_ne_diverges body)).bind fun _ _ _ => terminates_pure _

/-! ## Walks that never end -/

/-- Pages each of which names another of them. -/
def Circular (pages : List Page) (ring : List PageId) : Prop :=
  ∀ p ∈ ring, p ≠ kInvalidPageId ∧ ∃ page part, cells pages p = some page ∧ page.used = .ok part ∧
    page.nextPageId ∈ ring

theorem followChain_diverges {ring : List PageId} (h : Circular d.pages ring) (hd : d.faults = [])
    (fuel : Nat) : ∀ p ∈ ring, followChain fuel p d = .error .diverges d := by
  induction fuel with
  | zero => exact fun _ _ => rfl
  | succ n ih =>
    intro p hp
    obtain ⟨hne, page, part, hpage, -, hnext⟩ := h p hp
    rw [followChain, if_neg hne, EStateM.bind_of_ok (DiskManager.readPage_reliable hd hpage),
      EStateM.bind_of_error (ih _ hnext)]

theorem readChain_circular {ring : List PageId} (h : Circular d.pages ring) (hd : d.faults = [])
    (fuel : Nat) : ∀ p ∈ ring, readChain fuel p d = .error .diverges d := by
  induction fuel with
  | zero => exact fun _ _ => rfl
  | succ n ih =>
    intro p hp
    obtain ⟨hne, page, part, hpage, hpart, hnext⟩ := h p hp
    rw [readChain, if_neg hne, EStateM.bind_of_ok (DiskManager.readPage_reliable hd hpage), hpart,
      EStateM.bind_of_ok (EStateM.ofExcept_ok _ _), EStateM.bind_of_error (ih _ hnext)]

/-- Behind a catalog page that leads into a ring no walk ends. -/
theorem existingChain_diverges {ring : List PageId} (h : Circular d.pages ring) (hd : d.faults = [])
    {page : Page} (hpage : cells d.pages 0 = some page) (htype : page.pageType = .catalog)
    (hzero : 0 ∈ ring) : existingChain d = .error .diverges d := by
  obtain ⟨-, page', part, hpage', -, hnext⟩ := h 0 hzero
  obtain rfl : page = page' := Option.some.inj (hpage.symm.trans hpage')
  rw [existingChain, EStateM.bind_of_ok (EStateM.get_apply d),
    EStateM.bind_of_ok (DiskManager.readPage_reliable hd hpage), if_pos htype]
  exact EStateM.bind_of_error (followChain_diverges h hd _ _ hnext)

theorem load_diverges {ring : List PageId} (h : Circular d.pages ring) (hd : d.faults = [])
    {page : Page} (hpage : cells d.pages 0 = some page) (htype : page.pageType = .catalog)
    (hzero : 0 ∈ ring) : load d = .error .diverges d := by
  have hne : d.numPages ≠ 0 := Nat.ne_zero_of_lt (cells_lt hpage)
  have hread : readBody d = .error .diverges d :=
    (EStateM.bind_of_ok (EStateM.get_apply d)).trans (readChain_circular h hd _ 0 hzero)
  rw [load, EStateM.bind_of_ok (EStateM.get_apply d), if_neg hne,
    EStateM.bind_of_ok (DiskManager.readPage_reliable hd hpage), if_pos htype]
  exact EStateM.bind_of_error hread

/-! ## Interruptions -/

/-- `Persist` stops after its first `k` page writes: the next one throws. -/
def StopsAfter (body : Bytes) (k : Nat) (d d' : DiskManager) : Prop :=
  ∃ old new d₁ d₂ d₃ e, existingChain d = .ok old d₁ ∧
    allocatePages (pagesFor body - old.length) d₁ = .ok new d₂ ∧ k < pagesFor body ∧
    writePages (old ++ new) body k 0 d₂ = .ok () d₃ ∧
    DiskManager.writePage ((old ++ new).getD k kInvalidPageId) (chainPage (old ++ new) body k) d₃ =
      .error e d'

theorem writePages_add (chain : List PageId) (body : Bytes) (k n : Nat) :
    ∀ i, writePages chain body (k + n) i = (do
      writePages chain body k i
      writePages chain body n (i + k)) := by
  induction k with
  | zero =>
    intro i
    rw [Nat.zero_add]
    rfl
  | succ k ih =>
    intro i
    rw [Nat.add_right_comm, writePages, writePages, bind_assoc]
    refine congrArg _ (funext fun _ => ?_)
    rw [ih, Nat.add_right_comm i 1 k]
    rfl

/-- That is a run of `Persist`. -/
theorem StopsAfter.run {body : Bytes} {k : Nat} {d' : DiskManager} (h : StopsAfter body k d d') :
    ∃ e, persistBody body d = .error e d' := by
  obtain ⟨old, new, d₁, d₂, d₃, e, hold, hnew, hk, hwritten, hfail⟩ := h
  refine ⟨e, ?_⟩
  obtain ⟨n, hn⟩ := Nat.exists_eq_add_of_lt hk
  rw [persistBody, EStateM.bind_of_ok hold, EStateM.bind_of_ok hnew,
    show pagesFor body = k + (n + 1) by omega, writePages_add, EStateM.bind_of_ok hwritten,
    Nat.zero_add, writePages]
  exact EStateM.bind_of_error hfail

/-- A write that throws changes no page. -/
theorem pages_of_writePage {pid : PageId} {page : Page} {e : Exc} {d' : DiskManager}
    (h : DiskManager.writePage pid page d = .error e d') : d'.pages = d.pages := by
  unfold DiskManager.writePage at h
  rw [EStateM.bind_of_ok (EStateM.get_apply d)] at h
  split at h
  · injection h with _ hd
    rw [← hd]
  · rcases DiskManager.io_cases (Bytes.ofAscii "DiskManager::WritePage: write failed") d with
      ⟨fs, hio, -⟩ | ⟨fs, hio, -⟩
    · rw [EStateM.bind_of_ok hio] at h
      cases h
    · rw [EStateM.bind_of_error hio] at h
      injection h with _ hd
      rw [← hd]

/-- What the first `k` page writes leave: the first `k` pages of the chain are written, behind the
    old file there are new pages, and the rest is as it was. -/
structure CutAt (body : Bytes) (k : Nat) (pages : List Page) (chain : List PageId)
    (pages' : List Page) : Prop where
  size : pages'.length = pages.length + (pagesFor body - chain.length)
  written : ((chain ++ newPages pages.length (pagesFor body - chain.length)).take k).Nodup →
    ∀ i (hi : i < (chain ++ newPages pages.length (pagesFor body - chain.length)).length), i < k →
      cells pages' (chain ++ newPages pages.length (pagesFor body - chain.length))[i] =
        some (chainPage (chain ++ newPages pages.length (pagesFor body - chain.length)) body i)
  frame : ∀ j, (∀ i (hi : i < (chain ++ newPages pages.length
      (pagesFor body - chain.length)).length), i < k →
        (chain ++ newPages pages.length (pagesFor body - chain.length))[i].toNat ≠ j) →
    pages'[j]? = (pages ++ List.replicate (pagesFor body - chain.length) .zero)[j]?

theorem StopsAfter.cutAt {chain : List PageId} {body : Bytes} {k : Nat} {d' : DiskManager}
    (hchain : CatalogChain d.pages chain) (h : StopsAfter body k d d') :
    k < pagesFor body ∧ CutAt body k d.pages chain d'.pages := by
  obtain ⟨old, new, d₁, d₂, d₃, e, hold, hnew, hk, hwritten, hfail⟩ := h
  obtain ⟨rfl, hpages₁⟩ := hchain.existing.ok hold
  obtain ⟨hnew', hpages₂⟩ := (allocatePages_yields _).ok hnew
  have hsize₁ : d₁.numPages = d.pages.length := congrArg List.length hpages₁
  rw [hpages₁] at hpages₂
  rw [hsize₁] at hnew'
  subst hnew'
  have hsize₂ : d₂.numPages = d.pages.length + (pagesFor body - old.length) := by
    rw [DiskManager.numPages, hpages₂, List.length_append, List.length_replicate]
  have hlt : ∀ p ∈ old ++ newPages d.pages.length (pagesFor body - old.length),
      p.toNat < d₂.numPages := by
    intro p hp
    rcases List.mem_append.mp hp with hp | hp
    · have hp := hchain.lt hp
      omega
    · obtain ⟨i, hi, rfl⟩ := List.mem_map.mp hp
      rw [List.mem_range] at hi
      rw [UInt32.toNat_ofNat']
      omega
  have hlen : 0 + k ≤ (old ++ newPages d.pages.length (pagesFor body - old.length)).length := by
    rw [List.length_append, newPages, List.length_map, List.length_range]
    omega
  obtain ⟨hlength, hcells, hframe⟩ := (writePages_yields hlen hlt).ok hwritten
  rw [pages_of_writePage hfail]
  rw [Nat.zero_add] at hcells
  refine ⟨hk, hlength.trans hsize₂, fun hnodup i hi hik => hcells hnodup i hi (Nat.zero_le i) hik,
    fun j hj => ?_⟩
  rw [hframe j fun i hi _ hik => hj i hi (by omega), hpages₂]

section

variable {pages pages' : List Page} {body : Bytes} {k : Nat}

/-- `Load` and the walk of a later `Persist` end, whatever I/O fails then. -/
def Reopens (pages : List Page) : Prop :=
  ∀ faults, Terminates load ⟨pages, faults⟩ ∧ Terminates existingChain ⟨pages, faults⟩

theorem CatalogChain.reopens (h : CatalogChain pages chain) : Reopens pages := fun faults =>
  ⟨load_terminates (d := ⟨pages, faults⟩) h, existingChain_terminates (d := ⟨pages, faults⟩) h⟩

/-- As long as a page of the old chain is the next to be written, the old chain is a chain. -/
theorem CutAt.catalogChain (h : CatalogChain pages chain) (hcut : CutAt body k pages chain pages')
    (hk : k < pagesFor body) (hlt : k < chain.length) : CatalogChain pages' chain := by
  have hfull : ∀ i, i < chain.length →
      (chain ++ newPages pages.length (pagesFor body - chain.length))[i]? = chain[i]? :=
    fun i hi => List.getElem?_append_left hi
  -- a page of the old chain that is not written yet
  have hold : ∀ i (hi : i < chain.length), k ≤ i → cells pages' chain[i] = cells pages chain[i] := by
    intro i hi hki
    have hother := hcut.frame chain[i].toNat fun j hj hjk heq => by
      have hsame : chain[j]? = chain[i]? := by
        rw [← hfull j (by omega), List.getElem?_eq_getElem hj, List.getElem?_eq_getElem hi,
          UInt32.toNat_inj.mp heq]
      have := (List.getElem?_inj (show j < chain.length by omega) h.nodup).mp hsame
      omega
    rw [cells, cells, hother, List.getElem?_append_left (h.lt (List.getElem_mem hi))]
  cases k with
  | zero =>
    refine h.congr fun p hp => ?_
    obtain ⟨i, hi, rfl⟩ := List.getElem_of_mem hp
    exact hold i hi (Nat.zero_le i)
  | succ k =>
    have htake : (chain ++ newPages pages.length (pagesFor body - chain.length)).take (k + 1) =
        chain.take (k + 1) := List.take_append_of_le_length (by omega)
    have hnodup : (chain.take (k + 1)).Nodup := h.nodup.sublist (List.take_sublist _ _)
    -- a page that is written names the next page of the old chain, as it did before
    have hwritten : ∀ i (hi : i < chain.length), i < k + 1 → ∃ page,
        cells pages' chain[i] = some page ∧ page.pageType = .catalog ∧
        page.nextPageId = chain.getD (i + 1) kInvalidPageId := by
      intro i hi hik
      have hi' : i < (chain ++ newPages pages.length (pagesFor body - chain.length)).length := by
        rw [List.length_append]
        omega
      have hcell := hcut.written (by rwa [htake]) i hi' hik
      rw [List.getElem_append_left hi] at hcell
      refine ⟨_, hcell, rfl, ?_⟩
      simp only [chainPage]
      rw [if_pos (by omega), List.getD_eq_getElem?_getD, hfull (i + 1) (by omega),
        ← List.getD_eq_getElem?_getD]
    obtain ⟨rest, hhead⟩ := h.head
    have hlinked : PageChain pages 0 chain := by
      cases h with
      | fresh => exact absurd hlt (by simp)
      | linked _ _ hchain => exact hchain
    have hzero : chain.getD 0 kInvalidPageId = 0 := by rw [hhead]; rfl
    have hchain : PageChain pages' (chain.getD 0 kInvalidPageId) chain := by
      refine chain_of_links h.ne_invalid fun i hi => ?_
      by_cases hik : i < k + 1
      · obtain ⟨page, hpage, -, hnext⟩ := hwritten i hi hik
        exact ⟨page, hpage, hnext⟩
      · rw [hold i hi (by omega)]
        exact hlinked.link hi
    rw [hzero] at hchain
    obtain ⟨page, hpage, htype, -⟩ := hwritten 0 (by omega) (Nat.succ_pos k)
    have hget : chain[0] = 0 := by simp [hhead]
    rw [hget] at hpage
    exact .linked hpage htype hchain

/-- Once a new page has been named but not written, the pages of the chain form a ring. -/
theorem CutAt.circular (h : CatalogChain pages chain) (hcut : CutAt body k pages chain pages')
    (hk : k < pagesFor body) (hle : chain.length ≤ k) (hsmall : pages'.length < 2 ^ 32) :
    ∃ page, cells pages' 0 = some page ∧ page.pageType = .catalog ∧
      Circular pages' ((chain ++ newPages pages.length (pagesFor body - chain.length)).take (k + 1)) := by
  have hsize := hcut.size
  obtain ⟨full, hfull⟩ : ∃ full, full = chain ++ newPages pages.length (pagesFor body - chain.length) :=
    ⟨_, rfl⟩
  have hlen : full.length = pagesFor body := by
    rw [hfull, List.length_append, newPages, List.length_map, List.length_range]
    omega
  have hnew : ∀ p ∈ newPages pages.length (pagesFor body - chain.length),
      pages.length ≤ p.toNat ∧ p.toNat < pages'.length := fun p hp => by
    have := mem_newPages hp (by omega)
    omega
  have hnodup : full.Nodup := by
    rw [hfull]
    refine h.nodup.append (newPages_nodup (by omega)) fun p hp hp' => ?_
    have hlt := h.lt hp
    have hge := (hnew p hp').1
    omega
  have hne : ∀ p ∈ full, p ≠ kInvalidPageId := by
    intro p hp heq
    rw [hfull] at hp
    rcases List.mem_append.mp hp with hp | hp
    · exact h.ne_invalid (heq ▸ hp)
    · have hlast := (hnew p hp).2
      rw [heq, show kInvalidPageId.toNat = 2 ^ 32 - 1 from rfl] at hlast
      omega
  have hwritten := hcut.written
  have hframe := hcut.frame
  rw [← hfull] at hwritten hframe ⊢
  have hcell : ∀ i (hi : i < full.length), i < k → cells pages' full[i] = some (chainPage full body i) :=
    hwritten (hnodup.sublist (List.take_sublist _ _))
  have hmem : ∀ i (hi : i < full.length), i ≤ k → full[i] ∈ full.take (k + 1) := by
    intro i hi hik
    refine List.mem_of_getElem? (i := i) ?_
    rw [List.getElem?_take_of_lt (by omega), List.getElem?_eq_getElem hi]
  obtain ⟨rest, hhead⟩ := h.head
  have hchain : 0 < chain.length := by simp [hhead]
  have hfirst : ∀ h0 : 0 < full.length, full[0] = 0 := by
    intro h0
    have : full[0]? = some 0 := by rw [hfull, hhead]; rfl
    rw [List.getElem?_eq_getElem h0] at this
    exact Option.some.inj this
  refine ⟨chainPage full body 0, ?_, rfl, fun p hp => ?_⟩
  · rw [← hfirst (by omega)]
    exact hcell 0 (by omega) (by omega)
  obtain ⟨i, hi, hp⟩ := List.getElem_of_mem hp
  rw [List.length_take] at hi
  have hi' : i < full.length := by omega
  rw [List.getElem_take] at hp
  subst hp
  refine ⟨hne _ (List.getElem_mem hi'), ?_⟩
  by_cases hik : i < k
  · refine ⟨_, _, hcell i hi' hik, used_chainPage _ _ _, ?_⟩
    simp only [chainPage]
    rw [if_pos (by omega), List.getD_eq_getElem _ _ (by omega)]
    exact hmem (i + 1) (by omega) (by omega)
  · -- the page that is not written is all zeros, and names page 0
    obtain rfl : i = k := by omega
    have hzero : cells pages' full[i] = some .zero := by
      rw [cells, hframe _ fun j hj hji heq => by
        have := (List.Nodup.getElem_inj_iff hnodup).mp (UInt32.toNat_inj.mp heq)
        omega]
      have hget : full[i] ∈ newPages pages.length (pagesFor body - chain.length) := by
        have : full[i]? = (newPages pages.length (pagesFor body - chain.length))[i - chain.length]? := by
          rw [hfull, List.getElem?_append_right hle]
        rw [List.getElem?_eq_getElem hi'] at this
        exact List.mem_of_getElem? this.symm
      have hrange := hnew _ hget
      rw [List.getElem?_append_right hrange.1, List.getElem?_replicate, if_pos (by omega)]
    refine ⟨_, _, hzero, if_neg (Nat.not_lt.mpr (Nat.zero_le _)), ?_⟩
    rw [show Page.zero.nextPageId = full[0] from (hfirst (by omega)).symm]
    exact hmem 0 (by omega) (by omega)

end

/-- A body of two pages on a new file, stopped after the first. -/
theorem stopsAfter_new_file : StopsAfter twoPageBody 1 ⟨[.zero], [false, false, false, true]⟩
    ⟨[chainPage [0, 1] twoPageBody 0, .zero], []⟩ := by
  have hbody : pagesFor twoPageBody = 2 := by
    rw [pagesFor, twoPageBody, List.length_replicate]
    rfl
  refine ⟨[0], [1], ⟨[.zero], [false, false, true]⟩, ⟨[.zero, .zero], [false, true]⟩, _, _, rfl, ?_,
    by omega, rfl, rfl⟩
  rw [hbody]
  rfl

end

end Catalog

end LiteOLAP
