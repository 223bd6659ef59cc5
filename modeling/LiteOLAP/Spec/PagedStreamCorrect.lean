import LiteOLAP.Spec.CatalogChainCorrect
import LiteOLAP.Spec.PoolRules

/-!
# Paged streams

What a `PagedOutputStream` writes is stored on a chain of new pages, all of them full but the
last, and a `PagedInputStream` on the first of these pages gives the same bytes back.

## Key results

- `Filling.next`, `Filling.put`, `Filling.close`: what one step of the writer does to the pages
- `PagedOutputStream.create_returns`, `write_returns`, `finish_returns`: the writer stores its bytes
- `PagedInputStream.create_returns`, `advance_returns`: the reader finds them
-/

namespace LiteOLAP

open BufferPool (Pin Serving PinRoom Fetchable Roomy)
open Catalog (cells PageChain newPages pagesFor)

/-! ## Streams on pages -/

/-- The bytes that a page holds for its stream. -/
def PagePart (pages : List Page) (pid : PageId) (part : Bytes) : Prop :=
  ∃ page, cells pages pid = some page ∧ page.used = .ok part

/-- A stream that begins at page `root`, is kept on the pages `ids` and has the given bytes. A
    page without bytes is the only page of its stream. -/
structure Stored (pages : List Page) (root : PageId) (ids : List PageId) (bytes : Bytes) : Prop where
  links : PageChain pages root ids
  parts : ∃ parts : List Bytes, parts.flatten = bytes ∧ List.Forall₂ (PagePart pages) ids parts ∧
    (parts = [[]] ∨ ∀ part ∈ parts, part ≠ [])

theorem PagePart.congr {pages pages' : List Page} {pid : PageId} {part : Bytes}
    (h : PagePart pages pid part) (hcell : cells pages' pid = cells pages pid) :
    PagePart pages' pid part := by
  obtain ⟨page, hpage, hused⟩ := h
  exact ⟨page, hcell.trans hpage, hused⟩

/-- A stream depends on its own pages only. -/
theorem Stored.congr {pages pages' : List Page} {root : PageId} {ids : List PageId} {bytes : Bytes}
    (h : Stored pages root ids bytes) (hcells : ∀ pid ∈ ids, cells pages' pid = cells pages pid) :
    Stored pages' root ids bytes := by
  obtain ⟨parts, hbytes, hparts, hfull⟩ := h.parts
  refine ⟨Chain.congr h.links hcells, parts, hbytes, ?_, hfull⟩
  rw [List.forall₂_iff_get] at hparts ⊢
  exact ⟨hparts.1, fun i hi hi' => (hparts.2 i hi hi').congr (hcells _ (List.get_mem ids ⟨i, hi⟩))⟩

/-- Nobody has pinned the pages of a stream that was just written. -/
theorem BufferPool.Serving.fetchable_newPages {usable : List Nat} {bp bp' : BufferPool}
    {pins : List Pin} {base pages : List Page} {k : Nat} (h : Serving usable [] bp pins base)
    (h' : Serving usable [] bp' pins pages) (hlim : Roomy bp') (hlen : pages.length = base.length + k) :
    ∀ pid ∈ newPages base.length k, Fetchable [] pins pid := by
  intro pid hpid
  obtain ⟨i, hi, rfl⟩ := List.mem_map.mp hpid
  have hi := List.mem_range.mp hi
  have hbound : pages.length < 2 ^ 32 := h'.size ▸ hlim
  have hnone : pins.countP (fun p => p.page = UInt32.ofNat (base.length + i)) = 0 := by
    refine List.countP_eq_zero.mpr fun p hp hpage => ?_
    rw [decide_eq_true_eq] at hpage
    have hold : p.page.toNat < base.length := h.coherent.lt_size (h.coherent.held p hp)
    rw [hpage, UInt32.toNat_ofNat'] at hold
    omega
  exact ⟨List.not_mem_nil, by rw [hnone]; decide⟩

/-! ## Writing -/

namespace PagedOutputStream

theorem used_closePage (page : Page) (next : PageId) {offset : Nat} (h : offset ≤ payloadCapacity) :
    (closePage next offset page).used = .ok (page.payload.take offset) := by
  have hnat : (UInt32.ofNat offset).toNat = offset := by
    unfold payloadCapacity at h
    rw [UInt32.toNat_ofNat']
    omega
  simp only [Page.used, closePage, hnat, if_neg (Nat.not_lt.mpr h)]

/-- Bytes put behind those that are already on a page. -/
theorem take_overwrite (page : Page) {offset : Nat} {bytes : Bytes}
    (h : offset + bytes.length ≤ payloadCapacity) :
    (page.overwrite offset bytes).payload.take (offset + bytes.length) =
      page.payload.take offset ++ bytes := by
  have hlen := page.payload_length
  have hextends : (page.payload.take offset ++ bytes).length = offset + bytes.length := by
    rw [List.length_append, List.length_take]
    omega
  rw [Page.overwrite, dif_pos h, List.take_append_of_le_length (Nat.le_of_eq hextends.symm),
    List.take_of_length_le (Nat.le_of_eq hextends)]

/-- The pages of a stream that is being written, behind the pages `base` that were there before:
    the parts of the pages that are closed, and what is on the current page. -/
structure Filling (base pages : List Page) (s : PagedOutputStream) (closed : List Bytes)
    (cur : Bytes) : Prop where
  unfinished : s.finished = false
  kept : base <+: pages
  length : pages.length = base.length + closed.length + 1
  room : pages.length < 2 ^ 32
  first : s.firstPageId = UInt32.ofNat base.length
  current : s.currentPageId = UInt32.ofNat (base.length + closed.length)
  full : ∀ part ∈ closed, part.length = payloadCapacity
  links : ∀ k (hk : k < closed.length), ∃ page, pages[base.length + k]? = some page ∧
    page.used = .ok closed[k] ∧ page.nextPageId = UInt32.ofNat (base.length + k + 1)
  page : ∃ page, pages[base.length + closed.length]? = some page ∧ page.payload.take s.offset = cur
  offset : s.offset = cur.length
  fits : cur.length ≤ payloadCapacity

namespace Filling

variable {base pages : List Page} {s : PagedOutputStream} {closed : List Bytes} {cur : Bytes}

theorem current_toNat (h : Filling base pages s closed cur) :
    s.currentPageId.toNat = base.length + closed.length := by
  have hlen := h.length
  have hroom := h.room
  rw [h.current, UInt32.toNat_ofNat']
  omega

/-- The first page of a stream. -/
theorem start (hroom : base.length + 1 < 2 ^ 32) (idx : Nat) (page : Page) :
    Filling base (base ++ [page])
      ⟨UInt32.ofNat base.length, UInt32.ofNat base.length, some idx, 0, false⟩ [] [] where
  unfinished := rfl
  kept := List.prefix_append _ _
  length := by simp
  room := by simpa using hroom
  first := rfl
  current := rfl
  full := by simp
  links := by simp
  page := ⟨page, by simp, rfl⟩
  offset := rfl
  fits := Nat.zero_le _

/-- Writing to the current page changes no other. -/
theorem getElem?_set_current (h : Filling base pages s closed cur) (page : Page) {k : Nat}
    (hk : k < base.length + closed.length) :
    (pages.set s.currentPageId.toNat page)[k]? = pages[k]? := by
  rw [h.current_toNat, List.getElem?_set_ne (by omega)]

theorem kept_set_current (h : Filling base pages s closed cur) (page : Page) :
    base <+: pages.set s.currentPageId.toNat page := by
  obtain ⟨tail, htail⟩ := h.kept
  rw [h.current_toNat, ← htail, List.set_append_right _ _ (by omega)]
  exact List.prefix_append _ _

/-- Bytes that fit go onto the current page. -/
theorem put (h : Filling base pages s closed cur) {page : Page}
    (hpage : pages[s.currentPageId.toNat]? = some page) {bytes : Bytes}
    (hfits : s.offset + bytes.length ≤ payloadCapacity) :
    Filling base (pages.set s.currentPageId.toNat (page.overwrite s.offset bytes))
      { s with offset := s.offset + bytes.length } closed (cur ++ bytes) where
  unfinished := h.unfinished
  kept := h.kept_set_current _
  length := by rw [List.length_set, h.length]
  room := by
    rw [List.length_set]
    exact h.room
  first := h.first
  current := h.current
  full := h.full
  links k hk := by
    rw [h.getElem?_set_current _ (by omega)]
    exact h.links k hk
  page := by
    obtain ⟨page', hpage', hcur⟩ := h.page
    rw [h.current_toNat, hpage'] at hpage
    obtain rfl := Option.some.inj hpage
    have hlt := (List.getElem?_eq_some_iff.mp hpage').1
    refine ⟨page'.overwrite s.offset bytes, ?_, ?_⟩
    · rw [h.current_toNat, List.getElem?_set_self hlt]
    · rw [take_overwrite page' hfits, hcur]
  offset := by rw [List.length_append, h.offset]
  fits := by
    rw [List.length_append, ← h.offset]
    exact hfits

/-- A full page is closed with a link to a new one. -/
theorem next (h : Filling base pages s closed cur) (hfull : cur.length = payloadCapacity)
    {page : Page} (hpage : pages[s.currentPageId.toNat]? = some page) (page' : Page) (idx : Nat)
    (hroom : pages.length + 1 < 2 ^ 32) :
    Filling base
      ((pages.set s.currentPageId.toNat
        (closePage (UInt32.ofNat pages.length) s.offset page)) ++ [page'])
      { s with currentPage := some idx, currentPageId := UInt32.ofNat pages.length, offset := 0 }
      (closed ++ [cur]) [] where
  unfinished := h.unfinished
  kept := (h.kept_set_current _).trans (List.prefix_append _ _)
  length := by simp [h.length, Nat.add_assoc]
  room := by simpa using hroom
  first := h.first
  current := by rw [h.length, List.length_append, List.length_singleton, Nat.add_assoc]
  full part hpart := by
    rcases List.mem_append.mp hpart with hpart | hpart
    · exact h.full part hpart
    · rw [List.mem_singleton.mp hpart, hfull]
  links k hk := by
    have hlen := h.length
    rw [List.length_append, List.length_singleton] at hk
    rw [List.getElem?_append_left (by rw [List.length_set]; omega)]
    by_cases hlast : k = closed.length
    · subst hlast
      obtain ⟨page₀, hpage₀, hcur⟩ := h.page
      rw [h.current_toNat] at hpage ⊢
      rw [hpage₀] at hpage
      obtain rfl := Option.some.inj hpage
      have hlt := (List.getElem?_eq_some_iff.mp hpage₀).1
      refine ⟨_, List.getElem?_set_self hlt, ?_, ?_⟩
      · rw [used_closePage _ _ (by rw [h.offset, hfull]), hcur, List.getElem_concat_length rfl]
      · rw [← hlen]
        rfl
    · have hk' : k < closed.length := by omega
      rw [h.getElem?_set_current _ (by omega), List.getElem_append_left hk']
      exact h.links k hk'
  page := by
    refine ⟨page', ?_, rfl⟩
    rw [List.getElem?_append_right (by simp [h.length, Nat.add_assoc])]
    simp [h.length, Nat.add_assoc]
  offset := rfl
  fits := Nat.zero_le _

/-- A stream takes as many pages as its bytes do. -/
theorem pagesFor_eq (h : Filling base pages s closed cur) (hcur : closed ≠ [] → cur ≠ []) :
    pagesFor (closed.flatten ++ cur) = closed.length + 1 := by
  have hfull : closed.flatten.length = closed.length * payloadCapacity := by
    rw [List.length_flatten, List.map_congr_left h.full, List.map_const', List.sum_replicate,
      smul_eq_mul]
  have hfits := h.fits
  rw [pagesFor, List.length_append, hfull]
  unfold payloadCapacity at *
  by_cases hclosed : closed = []
  · subst hclosed
    rw [List.length_nil]
    omega
  · have := List.length_pos_of_ne_nil (hcur hclosed)
    omega

/-- Closing the last page ends the chain: the stream is stored on the new pages. -/
theorem close (h : Filling base pages s closed cur) (hcur : closed ≠ [] → cur ≠ []) {page : Page}
    (hpage : pages[s.currentPageId.toNat]? = some page) :
    Stored (pages.set s.currentPageId.toNat (closePage kInvalidPageId s.offset page)) s.firstPageId
      (newPages base.length (closed.length + 1)) (closed.flatten ++ cur) := by
  have hlen := h.length
  have hroom := h.room
  have hcount : (newPages base.length (closed.length + 1)).length = closed.length + 1 := by
    rw [newPages, List.length_map, List.length_range]
  have hid : ∀ k (hk : k < (newPages base.length (closed.length + 1)).length),
      (newPages base.length (closed.length + 1))[k].toNat = base.length + k := by
    intro k hk
    rw [hcount] at hk
    simp only [newPages, List.getElem_map, List.getElem_range, UInt32.toNat_ofNat']
    omega
  -- every page of the stream holds its part and names the next page
  have hcell : ∀ k (hk : k < (newPages base.length (closed.length + 1)).length),
      ∃ a, cells (pages.set s.currentPageId.toNat (closePage kInvalidPageId s.offset page))
          (newPages base.length (closed.length + 1))[k] = some a ∧
        a.used = .ok ((closed ++ [cur]).getD k []) ∧
        a.nextPageId = (newPages base.length (closed.length + 1)).getD (k + 1) kInvalidPageId := by
    intro k hk
    rw [cells, hid k hk]
    rw [hcount] at hk
    by_cases hlast : k = closed.length
    · subst hlast
      obtain ⟨page₀, hpage₀, htake⟩ := h.page
      rw [h.current_toNat] at hpage ⊢
      rw [hpage₀] at hpage
      obtain rfl := Option.some.inj hpage
      refine ⟨_, List.getElem?_set_self (List.getElem?_eq_some_iff.mp hpage₀).1, ?_, ?_⟩
      · rw [used_closePage _ _ (by rw [h.offset]; exact h.fits), htake]
        simp
      · rw [List.getD_eq_default _ _ (Nat.le_of_eq hcount)]
        rfl
    · have hk' : k < closed.length := by omega
      obtain ⟨a, ha, hused, hnext⟩ := h.links k hk'
      refine ⟨a, (h.getElem?_set_current _ (by omega)).trans ha, ?_, ?_⟩
      · rw [hused, List.getD_append _ _ _ _ hk', List.getD_eq_getElem _ _ hk']
      · rw [hnext, List.getD_eq_getElem _ _ (by omega)]
        simp only [newPages, List.getElem_map, List.getElem_range, Nat.add_assoc]
  have hstop : kInvalidPageId ∉ newPages base.length (closed.length + 1) := by
    intro hmem
    obtain ⟨k, hk, heq⟩ := List.getElem_of_mem hmem
    have hnat := hid k hk
    rw [heq, show kInvalidPageId.toNat = 2 ^ 32 - 1 from rfl] at hnat
    omega
  refine ⟨?_, closed ++ [cur], ?_, List.forall₂_iff_get.mpr ⟨?_, fun k hk hk' => ?_⟩, ?_⟩
  · have hchain := chain_of_links hstop fun k hk =>
      (hcell k hk).imp fun a ha => ⟨ha.1, ha.2.2⟩
    have hpos : 0 < (newPages base.length (closed.length + 1)).length := by omega
    have hfirst : (newPages base.length (closed.length + 1))[0] = s.firstPageId := by
      rw [h.first]
      simp only [newPages, List.getElem_map, List.getElem_range, Nat.add_zero]
    rwa [List.getD_eq_getElem _ _ hpos, hfirst] at hchain
  · simp
  · rw [hcount, List.length_append, List.length_singleton]
  · obtain ⟨a, ha, hused, -⟩ := hcell k hk
    refine ⟨a, ha, ?_⟩
    rw [hused, List.getD_eq_getElem _ _ hk']
    rfl
  · by_cases hclosed : closed = []
    · subst hclosed
      by_cases hempty : cur = []
      · exact .inl (by rw [hempty]; rfl)
      · exact .inr fun part hpart => by rw [List.mem_singleton.mp hpart]; exact hempty
    · refine .inr fun part hpart => ?_
      rcases List.mem_append.mp hpart with hpart | hpart
      · rintro rfl
        have hzero := h.full [] hpart
        unfold payloadCapacity at hzero
        cases hzero
      · rw [List.mem_singleton.mp hpart]
        exact hcur hclosed

end Filling

/-! ### The writer on a pool -/

theorem staysOver_startNewPage (s : PagedOutputStream) :
    EStateM.StaysOver Roomy (startNewPage s) := by
  unfold startNewPage
  refine BufferPool.staysOver_newPage.bind fun r => ?_
  refine (BufferPool.staysOver_modifyPage _ _).bind fun _ => ?_
  cases s.currentPage with
  | none => exact EStateM.staysOver_pure _
  | some cur =>
    refine (BufferPool.staysOver_modifyPage _ _).bind fun _ => ?_
    exact (BufferPool.staysOver_unpinPage _ _).bind fun _ =>
      EStateM.staysOver_pure _

theorem staysOver_writeLoop (fuel : Nat) :
    ∀ (s : PagedOutputStream) (data : Bytes), EStateM.StaysOver Roomy (writeLoop fuel s data) := by
  induction fuel with
  | zero => exact fun s data => EStateM.staysOver_pure _
  | succ fuel ih =>
    intro s data
    unfold writeLoop
    refine EStateM.StaysOver.ite (EStateM.staysOver_pure _) ?_
    refine EStateM.StaysOver.bind (EStateM.StaysOver.ite (staysOver_startNewPage s)
      (EStateM.staysOver_pure _)) fun s => ?_
    cases s.currentPage with
    | none => exact EStateM.staysOver_throw _
    | some cur => exact (BufferPool.staysOver_modifyPage _ _).bind fun _ => ih _ _

theorem staysOver_write (s : PagedOutputStream) (data : Bytes) :
    EStateM.StaysOver Roomy (write s data) :=
  EStateM.StaysOver.ite (EStateM.staysOver_throw _) (staysOver_writeLoop _ _ _)

theorem staysOver_finish (s : PagedOutputStream) : EStateM.StaysOver Roomy (finish s) := by
  unfold finish
  refine EStateM.StaysOver.ite (EStateM.staysOver_throw _) ?_
  cases s.currentPage with
  | none => exact EStateM.staysOver_throw _
  | some cur =>
    refine (BufferPool.staysOver_modifyPage _ _).bind fun _ => ?_
    exact (BufferPool.staysOver_unpinPage _ _).bind fun _ =>
      EStateM.staysOver_pure _

/-- A writer at work on a pool: it holds one pin, on its current page, and has written the given
    bytes on new pages behind `base`. -/
def Writing (usable : List Nat) (apart : List PageId) (base : List Page) (pins : List Pin)
    (s : PagedOutputStream) (written : Bytes) (bp : BufferPool) : Prop :=
  ∃ pages closed cur idx, Filling base pages s closed cur ∧ s.currentPage = some idx ∧
    Serving usable apart bp (⟨s.currentPageId, idx, true⟩ :: pins) pages ∧
    written = closed.flatten ++ cur ∧ (closed ≠ [] → cur ≠ [])

section

variable {usable : List Nat} {apart : List PageId} {base : List Page} {pins : List Pin} {bp : BufferPool}
  {s : PagedOutputStream} {written : Bytes}

/-- The constructor. -/
theorem create_returns (h : Serving usable apart bp pins base) (hroom : PinRoom usable pins 1) :
    EStateM.Returns Roomy create bp fun s bp' => Writing usable apart base pins s [] bp' := by
  refine (h.newPage hroom).bind (fun r => ?_) fun r bp₁ hnew => ?_
  · exact (BufferPool.staysOver_modifyPage _ _).bind fun _ => EStateM.staysOver_pure _
  obtain ⟨hlen, hid, hserving⟩ := hnew
  have hnat : r.1.toNat = base.length := by
    rw [hid, UInt32.toNat_ofNat']
    omega
  have hget : (base ++ [Page.fresh r.1])[r.1.toNat]? = some (.fresh r.1) := by simp [hnat]
  have hstart := hserving.modifyPage List.mem_cons_self hget startPage
  rw [List.erase_cons_head, hnat, List.set_append_right _ _ (Nat.le_refl _), Nat.sub_self] at hstart
  refine EStateM.Returns.modify (EStateM.returns_pure ?_)
  have hfilling := Filling.start hlen r.2 (startPage (.fresh r.1))
  rw [← hid] at hfilling
  exact ⟨_, _, _, r.2, hfilling, rfl, hstart, rfl, fun hne => absurd rfl hne⟩

/-- A full page is left for a new one. -/
theorem startNewPage_returns {pages : List Page} {closed : List Bytes} {cur : Bytes} {idx : Nat}
    (h : Filling base pages s closed cur) (hidx : s.currentPage = some idx)
    (hserving : Serving usable apart bp (⟨s.currentPageId, idx, true⟩ :: pins) pages)
    (hfull : cur.length = payloadCapacity) (hroom : PinRoom usable pins 2) :
    EStateM.Returns Roomy (startNewPage s) bp fun s' bp' => ∃ pages' idx',
      Filling base pages' s' (closed ++ [cur]) [] ∧ s'.currentPage = some idx' ∧
      Serving usable apart bp' (⟨s'.currentPageId, idx', true⟩ :: pins) pages' := by
  have hroom' := hroom.cons ⟨s.currentPageId, idx, true⟩
  unfold startNewPage
  simp only [hidx]
  refine (hserving.newPage hroom').bind (fun r => ?_) fun r bp₁ hnew => ?_
  · refine (BufferPool.staysOver_modifyPage _ _).bind fun _ => ?_
    refine (BufferPool.staysOver_modifyPage _ _).bind fun _ => ?_
    exact (BufferPool.staysOver_unpinPage _ _).bind fun _ =>
      EStateM.staysOver_pure _
  obtain ⟨hlen, hid, hnew⟩ := hnew
  have hnat : r.1.toNat = pages.length := by
    rw [hid, UInt32.toNat_ofNat']
    omega
  have hcurlt : s.currentPageId.toNat < pages.length := by
    rw [h.current_toNat, h.length]
    omega
  obtain ⟨page, hpage⟩ : ∃ page, pages[s.currentPageId.toNat]? = some page :=
    ⟨_, List.getElem?_eq_getElem hcurlt⟩
  -- the new page is initialised
  have hget : (pages ++ [Page.fresh r.1])[r.1.toNat]? = some (.fresh r.1) := by simp [hnat]
  have hstart := hnew.modifyPage List.mem_cons_self hget startPage
  rw [List.erase_cons_head, hnat, List.set_append_right _ _ (Nat.le_refl _), Nat.sub_self] at hstart
  -- the full page is linked to it
  have hmem : (⟨s.currentPageId, idx, true⟩ : Pin) ∈
      (⟨r.1, r.2, true⟩ : Pin) :: ⟨s.currentPageId, idx, true⟩ :: pins := by simp
  have hget' : (pages ++ [Page.fresh r.1].set 0 (startPage (.fresh r.1)))[s.currentPageId.toNat]? =
      some page := by
    rw [List.getElem?_append_left hcurlt, hpage]
  have hclose := hstart.modifyPage hmem hget' (closePage r.1 s.offset)
  have hne : (⟨r.1, r.2, true⟩ : Pin) ≠ ⟨s.currentPageId, idx, true⟩ := by
    intro heq
    have hsame := congrArg UInt32.toNat (congrArg Pin.page heq)
    simp only [hnat] at hsame
    omega
  rw [List.erase_cons_tail (by simpa using hne), List.erase_cons_head,
    List.set_append_left _ _ hcurlt] at hclose
  -- and released
  have hunpin := hclose.unpinPage List.mem_cons_self true fun _ => rfl
  rw [List.erase_cons_head] at hunpin
  refine EStateM.Returns.modify (EStateM.Returns.modify (EStateM.Returns.modify
    (EStateM.returns_pure ⟨_, r.2, ?_, rfl, hunpin⟩)))
  have hnext := h.next hfull hpage (startPage (.fresh r.1)) r.2 hlen
  rw [← hid] at hnext
  exact hnext

/-- The loop of `Write` puts its bytes behind those written before. -/
theorem writeLoop_returns (hroom : PinRoom usable pins 2) {fuel : Nat} :
    ∀ {s : PagedOutputStream} {written data : Bytes} {bp : BufferPool}, data.length ≤ fuel →
      Writing usable apart base pins s written bp →
      EStateM.Returns Roomy (writeLoop fuel s data) bp fun s' bp' =>
        Writing usable apart base pins s' (written ++ data) bp' := by
  induction fuel with
  | zero =>
    intro s written data bp hdata h
    obtain rfl : data = [] := List.eq_nil_of_length_eq_zero (Nat.le_zero.mp hdata)
    exact EStateM.returns_pure (by rwa [List.append_nil])
  | succ fuel ih =>
    intro s written data bp hdata h
    unfold writeLoop
    by_cases hempty : data = []
    · rw [if_pos hempty, hempty, List.append_nil]
      exact EStateM.returns_pure h
    · rw [if_neg hempty]
      obtain ⟨pages, closed, cur, idx, hfilling, hidx, hserving, hwritten, -⟩ := h
      -- after the head of the loop the current page has room
      have hensure : EStateM.Returns Roomy (ensureRoom s) bp fun s' bp' =>
          ∃ pages closed cur idx, Filling base pages s' closed cur ∧ s'.currentPage = some idx ∧
            Serving usable apart bp' (⟨s'.currentPageId, idx, true⟩ :: pins) pages ∧
            written = closed.flatten ++ cur ∧ s'.offset < payloadCapacity := by
        unfold ensureRoom
        split
        · rename_i hfull
          have hnext := startNewPage_returns hfilling hidx hserving
            (by rw [← hfilling.offset, hfull]) hroom
          refine hnext.mono fun s' bp' ⟨pages', idx', hfilling', hidx', hserving'⟩ => ?_
          refine ⟨pages', _, _, idx', hfilling', hidx', hserving', by simp [hwritten], ?_⟩
          rw [hfilling'.offset]
          exact Nat.succ_pos _
        · rename_i hnot
          refine EStateM.returns_pure ⟨pages, closed, cur, idx, hfilling, hidx, hserving, hwritten, ?_⟩
          have := hfilling.fits
          have := hfilling.offset
          omega
      refine hensure.bind (fun s' => ?_) fun s' bp' h' => ?_
      · cases s'.currentPage with
        | none => exact EStateM.staysOver_throw _
        | some cur =>
          exact (BufferPool.staysOver_modifyPage _ _).bind fun _ => staysOver_writeLoop _ _ _
      obtain ⟨pages', closed', cur', idx', hfilling', hidx', hserving', hwritten', hspace⟩ := h'
      simp only [hidx']
      obtain ⟨page, hpage⟩ : ∃ page, pages'[s'.currentPageId.toNat]? = some page := by
        obtain ⟨page, hpage, -⟩ := hfilling'.page
        exact ⟨page, by rw [hfilling'.current_toNat, hpage]⟩
      have hpos : 0 < data.length := List.length_pos_iff.mpr hempty
      obtain ⟨k, hk⟩ : ∃ k, k = min (payloadCapacity - s'.offset) data.length := ⟨_, rfl⟩
      rw [← hk]
      have htake : (data.take k).length = k := by
        rw [List.length_take]
        omega
      have hspan : s'.offset + (data.take k).length ≤ payloadCapacity := by omega
      have hput := hfilling'.put hpage hspan
      have hmodify := hserving'.modifyPage List.mem_cons_self hpage
        fun page => page.overwrite s'.offset (data.take k)
      rw [List.erase_cons_head] at hmodify
      rw [htake] at hput
      refine EStateM.Returns.modify ?_
      have hfuel : (data.drop k).length ≤ fuel := by
        rw [List.length_drop]
        omega
      have hsplit : written ++ data.take k = closed'.flatten ++ (cur' ++ data.take k) := by
        rw [hwritten', List.append_assoc]
      have hnext := ih hfuel
        ⟨_, closed', cur' ++ data.take k, idx', hput, hidx', hmodify, hsplit, fun _ => ?_⟩
      · rwa [List.append_assoc, List.take_append_drop, hidx'] at hnext
      · intro hnil
        have := congrArg List.length (List.append_eq_nil_iff.mp hnil).2
        rw [htake, List.length_nil] at this
        omega

/-- `Write`. -/
theorem write_returns (h : Writing usable apart base pins s written bp) (hroom : PinRoom usable pins 2)
    (data : Bytes) : EStateM.Returns Roomy (write s data) bp fun s' bp' =>
      Writing usable apart base pins s' (written ++ data) bp' := by
  have hopen : s.finished = false := by
    obtain ⟨_, _, _, _, hfilling, -⟩ := h
    exact hfilling.unfinished
  rw [write, hopen]
  exact writeLoop_returns hroom (Nat.le_refl _) h

/-- `Finish`: the bytes are stored on new pages, and no old page has changed. -/
theorem finish_returns (h : Writing usable apart base pins s written bp) :
    EStateM.Returns Roomy (finish s) bp fun r bp' => ∃ pages,
      Serving usable apart bp' pins pages ∧ base <+: pages ∧
      pages.length = base.length + pagesFor written ∧
      Stored pages r.1 (newPages base.length (pagesFor written)) written := by
  obtain ⟨pages, closed, cur, idx, hfilling, hidx, hserving, hwritten, hcur⟩ := h
  obtain ⟨page, hpage⟩ : ∃ page, pages[s.currentPageId.toNat]? = some page := by
    obtain ⟨page, hpage, -⟩ := hfilling.page
    exact ⟨page, by rw [hfilling.current_toNat, hpage]⟩
  have hmodify := hserving.modifyPage List.mem_cons_self hpage (closePage kInvalidPageId s.offset)
  rw [List.erase_cons_head] at hmodify
  have hunpin := hmodify.unpinPage List.mem_cons_self true fun _ => rfl
  rw [List.erase_cons_head] at hunpin
  rw [finish, hfilling.unfinished]
  simp only [hidx, Bool.false_eq_true, if_false]
  rw [hwritten, hfilling.pagesFor_eq hcur]
  refine EStateM.Returns.modify (EStateM.Returns.modify (EStateM.returns_pure
    ⟨_, hunpin, hfilling.kept_set_current _, ?_, hfilling.close hcur hpage⟩))
  rw [List.length_set, hfilling.length, Nat.add_assoc]

end

end PagedOutputStream

/-! ## Reading -/

namespace PagedInputStream

/-- A reader with the bytes `rest` still to deliver: those of its copy of a page that it has not
    passed over, and those of the pages `ids` behind. -/
structure Reading (pages : List Page) (s : PagedInputStream) (ids : List PageId) (rest : Bytes) :
    Prop where
  offset_le : s.offset ≤ s.pageBuf.length
  links : PageChain pages s.nextPageId ids
  parts : ∃ parts : List Bytes, rest = s.pageBuf.drop s.offset ++ parts.flatten ∧
    List.Forall₂ (PagePart pages) ids parts ∧ ∀ part ∈ parts, part ≠ []
  atEnd : s.atEnd = true → rest = []

namespace Reading

variable {pages : List Page} {s : PagedInputStream} {ids : List PageId} {rest : Bytes}

/-- A reader without pages to come is at its last page. -/
theorem next_eq_invalid (h : Reading pages s ids rest) (hrest : rest = []) :
    s.offset = s.pageBuf.length ∧ s.nextPageId = kInvalidPageId := by
  obtain ⟨parts, hbytes, hparts, hfull⟩ := h.parts
  rw [hrest] at hbytes
  obtain ⟨hdrop, hflat⟩ := List.append_eq_nil_iff.mp hbytes.symm
  have hoffset := h.offset_le
  rw [List.drop_eq_nil_iff] at hdrop
  refine ⟨Nat.le_antisymm hoffset hdrop, ?_⟩
  cases hparts with
  | nil => exact h.links
  | cons hpart hparts =>
    rw [List.flatten_cons, List.append_eq_nil_iff] at hflat
    exact absurd hflat.1 (hfull _ List.mem_cons_self)

/-- Once its end is looked for, a reader knows whether it is there. -/
theorem atEnd_detectEnd (h : Reading pages s ids rest) :
    s.detectEnd.atEnd = true ↔ rest = [] := by
  constructor
  · intro hend
    rw [detectEnd, Bool.or_eq_true, Bool.and_eq_true, beq_iff_eq, beq_iff_eq] at hend
    rcases hend with hend | ⟨hoffset, hnext⟩
    · exact h.atEnd hend
    · obtain ⟨parts, hbytes, hparts, -⟩ := h.parts
      have hlinks := h.links
      rw [hnext] at hlinks
      cases hparts with
      | nil => rw [hbytes, hoffset, List.drop_length, List.flatten_nil, List.append_nil]
      | cons hpart hparts => exact absurd rfl hlinks.2.1
  · intro hrest
    obtain ⟨hoffset, hnext⟩ := h.next_eq_invalid hrest
    simp [detectEnd, hoffset, hnext]

theorem detectEnd (h : Reading pages s ids rest) : Reading pages s.detectEnd ids rest :=
  ⟨h.offset_le, h.links, h.parts, h.atEnd_detectEnd.mp⟩

/-- Passing over bytes of the page the reader is at. -/
theorem pass (h : Reading pages s ids rest) (hend : s.atEnd = false) {k : Nat}
    (hk : s.offset + k ≤ s.pageBuf.length) :
    Reading pages { s with offset := s.offset + k } ids (rest.drop k) ∧
      rest.take k = (s.pageBuf.drop s.offset).take k := by
  obtain ⟨parts, hbytes, hparts, hfull⟩ := h.parts
  have hlen : k ≤ (s.pageBuf.drop s.offset).length := by
    rw [List.length_drop]
    omega
  refine ⟨⟨hk, h.links, ⟨parts, ?_, hparts, hfull⟩, fun hend' => ?_⟩, ?_⟩
  · rw [hbytes, List.drop_append_of_le_length hlen, List.drop_drop]
  · rw [show s.atEnd = true from hend'] at hend
    cases hend
  · rw [hbytes, List.take_append_of_le_length hlen]

end Reading

/-! ### The reader on a pool -/

theorem keeps_loadPage (s : PagedInputStream) (pid : PageId) :
    EStateM.Keeps (·.disk.numPages) (loadPage s pid) := by
  unfold loadPage
  refine (BufferPool.keeps_fetchPage pid).bind fun idx => ?_
  refine EStateM.keeps_get.bind fun bp => ?_
  refine (EStateM.keeps_ofExcept _).bind fun pageBuf => ?_
  exact (BufferPool.keeps_unpinPage pid false).bind fun _ => EStateM.keeps_pure _

theorem keeps_create (pid : PageId) : EStateM.Keeps (·.disk.numPages) (create pid) :=
  EStateM.Keeps.ite (EStateM.keeps_pure _) (keeps_loadPage _ _)

theorem keeps_advanceLoop (fuel : Nat) :
    ∀ (s : PagedInputStream) (k : Nat), EStateM.Keeps (·.disk.numPages) (advanceLoop fuel s k) := by
  induction fuel with
  | zero => exact fun s k => EStateM.keeps_throw _
  | succ fuel ih =>
    intro s k
    unfold advanceLoop
    refine EStateM.Keeps.ite (EStateM.keeps_pure _) ?_
    refine EStateM.Keeps.ite (EStateM.keeps_throw _) ?_
    refine EStateM.Keeps.ite ?_ ?_
    · refine EStateM.Keeps.ite (EStateM.keeps_throw _) ?_
      exact (keeps_loadPage s _).bind fun s => ih s k
    · exact (ih _ _).bind fun r => EStateM.keeps_pure _

theorem keeps_advance (s : PagedInputStream) (k : Nat) :
    EStateM.Keeps (·.disk.numPages) (advance s k) := keeps_advanceLoop _ s k

theorem staysOver_create (pid : PageId) : EStateM.StaysOver Roomy (create pid) :=
  (keeps_create pid).staysOver (· < 2 ^ 32)

theorem staysOver_advanceLoop (fuel : Nat) (s : PagedInputStream) (k : Nat) :
    EStateM.StaysOver Roomy (advanceLoop fuel s k) :=
  (keeps_advanceLoop fuel s k).staysOver (· < 2 ^ 32)

theorem staysOver_advance (s : PagedInputStream) (k : Nat) :
    EStateM.StaysOver Roomy (advance s k) := staysOver_advanceLoop _ s k

section

variable {usable : List Nat} {apart : List PageId} {pins : List Pin} {pages : List Page} {bp : BufferPool}
  {s : PagedInputStream} {ids : List PageId} {rest : Bytes}

/-- `LoadPage` copies what a page holds, and gives its pin back. -/
theorem loadPage_eq_ok (h : Serving usable apart bp pins pages) (hroom : PinRoom usable pins 1)
    {pid : PageId} {page : Page} {part : Bytes} (hpage : cells pages pid = some page)
    (hused : page.used = .ok part) (hfetch : Fetchable apart pins pid) (s : PagedInputStream) :
    ∃ s' bp', loadPage s pid bp = .ok s' bp' ∧
      s' = ⟨0, page.nextPageId, s.atEnd || part.isEmpty, part⟩ ∧
      Serving usable apart bp' pins pages := by
  obtain ⟨idx, bp', hrun, hserving, hframe⟩ := h.fetchPage hpage hfetch hroom
  have hunpin := hserving.unpinPage List.mem_cons_self false fun h => by cases h
  rw [List.erase_cons_head] at hunpin
  refine ⟨_, _, ?_, rfl, hunpin⟩
  rw [loadPage, EStateM.bind_of_ok hrun, EStateM.bind_of_ok (EStateM.get_apply bp')]
  rw [hframe, hused]
  rfl

/-- The constructor, on the first page of a stream. -/
theorem create_returns (h : Serving usable apart bp pins pages) (hroom : PinRoom usable pins 1)
    {root : PageId} {bytes : Bytes} (hstored : Stored pages root ids bytes)
    (hfetch : ∀ pid ∈ ids, Fetchable apart pins pid) :
    EStateM.Returns Roomy (create root) bp fun s bp' =>
      Serving usable apart bp' pins pages ∧ Reading pages s ids.tail bytes ∧
      (s.atEnd = true ↔ bytes = []) := by
  obtain ⟨parts, hbytes, hparts, hfull⟩ := hstored.parts
  have hlinks := hstored.links
  cases hparts with
  | nil =>
    have hroot : root = kInvalidPageId := hlinks
    rw [create, if_pos hroot]
    refine EStateM.returns_pure ⟨h, ⟨Nat.le_refl _, rfl, ⟨[], ?_, .nil, by simp⟩, fun _ => ?_⟩, ?_⟩
    · rw [← hbytes]
      rfl
    · rw [← hbytes, List.flatten_nil]
    · rw [← hbytes, List.flatten_nil]
      exact ⟨fun _ => rfl, fun _ => rfl⟩
  | @cons pid part ids parts hpart hparts =>
    obtain ⟨rfl, hvalid, page, hpage, hrest⟩ := hlinks
    obtain ⟨page', hpage', hused⟩ := hpart
    rw [hpage] at hpage'
    obtain rfl := Option.some.inj hpage'
    rw [create, if_neg hvalid]
    -- an empty page is the only one
    have hrestFull : ∀ p ∈ parts, p ≠ [] := by
      rcases hfull with hone | hfull
      · obtain ⟨-, rfl⟩ := List.cons.inj hone
        simp
      · exact fun p hp => hfull p (List.mem_cons_of_mem _ hp)
    have hempty : part = [] → bytes = [] := by
      intro hpart
      rcases hfull with hone | hfull
      · obtain ⟨-, rfl⟩ := List.cons.inj hone
        rw [← hbytes, hpart]
        rfl
      · exact absurd hpart (hfull part List.mem_cons_self)
    have hload : EStateM.Returns Roomy (loadPage _ root) bp _ := fun _ =>
      loadPage_eq_ok h hroom hpage hused (hfetch _ List.mem_cons_self) ⟨0, kInvalidPageId, false, []⟩
    refine hload.mono fun s bp' ⟨hs, hserving⟩ => ⟨hserving, ?_, ?_⟩
    · subst hs
      refine ⟨Nat.zero_le _, hrest, ⟨parts, hbytes.symm, hparts, hrestFull⟩, fun hend => ?_⟩
      exact hempty (List.isEmpty_iff.mp (by simpa using hend))
    · subst hs
      simp only [Bool.false_or, List.isEmpty_iff]
      refine ⟨hempty, fun hnil => ?_⟩
      rw [← hbytes, List.flatten_cons, List.append_eq_nil_iff] at hnil
      exact hnil.1

/-- The loop of `Advance`. At the end of a page it takes one round more to load the next one. -/
theorem advanceLoop_returns (hroom : PinRoom usable pins 1) {fuel : Nat} :
    ∀ {s : PagedInputStream} {ids : List PageId} {rest : Bytes} {bp : BufferPool} {k : Nat},
      Serving usable apart bp pins pages → Reading pages s ids rest → (∀ pid ∈ ids, Fetchable apart pins pid) →
      k ≤ rest.length →
      (if s.offset = s.pageBuf.length then 2 * k + 1 else 2 * k) ≤ fuel → 0 < fuel →
      EStateM.Returns Roomy (advanceLoop fuel s k) bp fun r bp' => ∃ ids',
        Serving usable apart bp' pins pages ∧ r.1 = rest.take k ∧
        Reading pages r.2 ids' (rest.drop k) ∧ ids' ⊆ ids ∧
        (r.2.atEnd = true ↔ rest.drop k = []) := by
  induction fuel with
  | zero =>
    intro s ids rest bp k h hreading hfetch hk hfuel hpos
    exact absurd hpos (Nat.lt_irrefl 0)
  | succ fuel ih =>
    intro s ids rest bp k h hreading hfetch hk hfuel _
    unfold advanceLoop
    by_cases hzero : k = 0
    · rw [if_pos hzero, hzero]
      exact EStateM.returns_pure ⟨ids, h, rfl, hreading.detectEnd, fun _ hp => hp,
        hreading.atEnd_detectEnd⟩
    · rw [if_neg hzero]
      have hsome : rest ≠ [] := by
        rintro rfl
        rw [List.length_nil] at hk
        omega
      have hend : s.atEnd = false := by
        cases hend : s.atEnd with
        | false => rfl
        | true => exact absurd (hreading.atEnd hend) hsome
      rw [if_neg (by simp [hend])]
      by_cases hboundary : s.offset = s.pageBuf.length
      · -- at the end of a page, whose bytes are used up
        rw [if_pos hboundary]
        rw [if_pos hboundary] at hfuel
        obtain ⟨parts, hbytes, hparts, hfull⟩ := hreading.parts
        rw [hboundary, List.drop_length, List.nil_append] at hbytes
        have hlinks := hreading.links
        cases hparts with
        | nil => exact absurd hbytes hsome
        | @cons pid part ids parts hpart hparts =>
          obtain ⟨hpid, hvalid, page, hpage, hrest⟩ := hlinks
          obtain ⟨page', hpage', hused⟩ := hpart
          rw [← hpid, hpage] at hpage'
          obtain rfl := Option.some.inj hpage'
          rw [if_neg hvalid]
          have hload : EStateM.Returns Roomy (loadPage s s.nextPageId) bp _ := fun _ =>
            loadPage_eq_ok h hroom hpage hused (hpid ▸ hfetch _ List.mem_cons_self) s
          refine hload.bind (fun s => staysOver_advanceLoop fuel s k) fun s' bp' ⟨hs, h'⟩ => ?_
          have hpart := hfull part List.mem_cons_self
          have hnonempty : part.isEmpty = false := by simpa using hpart
          have hreading' : Reading pages s' ids rest := by
            subst hs
            refine ⟨Nat.zero_le _, hrest, ⟨parts, hbytes, hparts, fun p hp =>
              hfull p (List.mem_cons_of_mem _ hp)⟩, fun hend' => ?_⟩
            rw [hend, hnonempty] at hend'
            cases hend'
          have hinside : s'.offset ≠ s'.pageBuf.length := by
            subst hs
            exact fun heq => hpart (List.eq_nil_of_length_eq_zero heq.symm)
          refine (ih h' hreading' (fun p hp => hfetch p (List.mem_cons_of_mem _ hp)) hk
            (by rw [if_neg hinside]; omega) (by omega)).mono
              fun r bp'' ⟨ids', hserving, hr, hread, hsub, hiff⟩ => ?_
          exact ⟨ids', hserving, hr, hread, fun p hp => List.mem_cons_of_mem _ (hsub hp), hiff⟩
      · -- within a page
        rw [if_neg hboundary]
        rw [if_neg hboundary] at hfuel
        have hoffset := hreading.offset_le
        obtain ⟨t, ht⟩ : ∃ t, t = min (s.pageBuf.length - s.offset) k := ⟨_, rfl⟩
        rw [← ht]
        obtain ⟨hpass, htake⟩ := hreading.pass hend (k := t) (by omega)
        have hlen : k - t ≤ (rest.drop t).length := by
          rw [List.length_drop]
          omega
        refine (ih h hpass hfetch hlen (by split <;> omega) (by omega)).bind
          (fun r => EStateM.staysOver_pure ((s.pageBuf.drop s.offset).take t ++ r.1, r.2))
          fun r bp' ⟨ids', hserving, hr, hread, hsub, hiff⟩ => ?_
        have hsum : t + (k - t) = k := by omega
        rw [List.drop_drop, hsum] at hread hiff
        refine EStateM.returns_pure ⟨ids', hserving, ?_, hread, hsub, hiff⟩
        show (s.pageBuf.drop s.offset).take t ++ r.1 = rest.take k
        rw [hr, ← htake, ← List.take_add, hsum]

/-- `Advance`: the next bytes, and `AtEnd` exactly if they were the last. -/
theorem advance_returns (h : Serving usable apart bp pins pages) (hroom : PinRoom usable pins 1)
    (hreading : Reading pages s ids rest) (hfetch : ∀ pid ∈ ids, Fetchable apart pins pid) {k : Nat}
    (hk : k ≤ rest.length) :
    EStateM.Returns Roomy (advance s k) bp fun r bp' => ∃ ids',
      Serving usable apart bp' pins pages ∧ r.1 = rest.take k ∧
      Reading pages r.2 ids' (rest.drop k) ∧ ids' ⊆ ids ∧
      (r.2.atEnd = true ↔ rest.drop k = []) :=
  advanceLoop_returns hroom h hreading hfetch hk (by split <;> omega) (Nat.succ_pos _)

/-- A reader that delivers the given bytes, and knows whether there are any. -/
def Delivers (apart : List PageId) (pins : List Pin) (pages : List Page) (s : PagedInputStream)
    (rest : Bytes) : Prop :=
  ∃ ids, Reading pages s ids rest ∧ (∀ pid ∈ ids, Fetchable apart pins pid) ∧
    (s.atEnd = true ↔ rest = [])

/-- A reader on the first page of a stream delivers the stream. -/
theorem create_delivers (h : Serving usable apart bp pins pages) (hroom : PinRoom usable pins 1)
    {root : PageId} {bytes : Bytes} (hstored : Stored pages root ids bytes)
    (hfetch : ∀ pid ∈ ids, Fetchable apart pins pid) :
    EStateM.Returns Roomy (create root) bp fun s bp' =>
      Delivers apart pins pages s bytes ∧ Serving usable apart bp' pins pages :=
  (create_returns h hroom hstored hfetch).mono fun _ _ ⟨hserving, hreading, hend⟩ =>
    ⟨⟨_, hreading, fun pid hpid => hfetch pid (List.mem_of_mem_tail hpid), hend⟩, hserving⟩

/-- Advancing delivers the next bytes. -/
theorem advance_delivers (h : Serving usable apart bp pins pages) (hroom : PinRoom usable pins 1)
    {front back : Bytes} (hs : Delivers apart pins pages s (front ++ back)) {k : Nat}
    (hk : k = front.length) :
    EStateM.Returns Roomy (advance s k) bp fun r bp' =>
      (r.1 = front ∧ Delivers apart pins pages r.2 back) ∧ Serving usable apart bp' pins pages := by
  obtain ⟨ids, hreading, hfetch, -⟩ := hs
  refine (advance_returns h hroom hreading hfetch (k := k) (by simp [hk])).mono
    fun r bp' ⟨ids', hserving, hr, hread, hsub, hend⟩ => ?_
  subst hk
  rw [List.drop_left] at hread hend
  rw [List.take_left] at hr
  exact ⟨⟨hr, ids', hread, fun pid hpid => hfetch pid (hsub hpid), hend⟩, hserving⟩

end

end PagedInputStream

end LiteOLAP
