import LiteOLAP.ForStd.Chain
import LiteOLAP.Native.Catalog
import LiteOLAP.Spec.DiskRules

/-!
# The page chain of the catalog

`Catalog::Persist` rewrites the chain of pages from page 0 on: it walks the chain there is, takes
new pages if the body needs more, and writes the body slice by slice. `Load` follows the chain
and puts the slices together again.

## Key results

- `CatalogChain.existing`: the walk of `Persist` finds the chain
- `Holds.read`: the walk of `Load` finds the body a chain holds
- `persistBody_yields`: what one `Persist` does to the file
- `persistBody_run`: every `Persist` of a run leaves its body on the chain from page 0 on, and
  changes no page but those of the old chain and the new ones
-/

namespace LiteOLAP.Catalog

open DiskManager (Yields yields_pure yields_ofExcept_ok yields_readPage
  yields_writePage yields_allocatePage)

/-- The page with a number. -/
def cells (pages : List Page) (pid : PageId) : Option Page := pages[pid.toNat]?

/-- The pages that a walk from a page on visits. -/
def PageChain (pages : List Page) : PageId → List PageId → Prop :=
  Chain (cells pages) Page.nextPageId kInvalidPageId

/-- The pages of the catalog: page 0 and, behind a catalog page, those it leads to. -/
inductive CatalogChain (pages : List Page) : List PageId → Prop
  | fresh {page : Page} (h₀ : cells pages 0 = some page) (htype : page.pageType ≠ .catalog) :
    CatalogChain pages [0]
  | linked {page : Page} {chain : List PageId} (h₀ : cells pages 0 = some page)
    (htype : page.pageType = .catalog) (hchain : PageChain pages 0 chain) :
    CatalogChain pages chain

/-- The chain from page 0 on consists of catalog pages whose payloads make up the body. -/
structure Holds (pages : List Page) (chain : List PageId) (body : Bytes) : Prop where
  catalog : ∃ page, cells pages 0 = some page ∧ page.pageType = .catalog
  links : PageChain pages 0 chain
  payloads : ∃ parts : List Bytes, parts.flatten = body ∧
    List.Forall₂ (fun pid part => ∃ page, cells pages pid = some page ∧
      page.used = .ok part) chain parts

theorem cells_lt {pages : List Page} {pid : PageId} {page : Page} (h : cells pages pid = some page) :
    pid.toNat < pages.length :=
  (List.getElem?_eq_some_iff.mp h).1

private theorem zero_ne_invalid : (0 : PageId) ≠ kInvalidPageId := by decide

/-- A chain that ends is no longer than the file. -/
theorem PageChain.length_le {pages : List Page} {pid : PageId} {chain : List PageId}
    (h : PageChain pages pid chain) : chain.length ≤ pages.length := by
  have hnodup : (chain.map UInt32.toNat).Nodup :=
    h.nodup.map fun a b hab => UInt32.toNat_inj.mp hab
  have hsub : chain.map UInt32.toNat ⊆ List.range pages.length := by
    intro i hi
    obtain ⟨p, hp, rfl⟩ := List.mem_map.mp hi
    obtain ⟨-, page, hpage⟩ := h.mem hp
    exact List.mem_range.mpr (cells_lt hpage)
  have hle := (hnodup.subperm hsub).length_le
  rwa [List.length_map, List.length_range] at hle

namespace CatalogChain

variable {pages pages' : List Page} {chain : List PageId}

theorem head (h : CatalogChain pages chain) : ∃ rest, chain = 0 :: rest := by
  cases h with
  | fresh h₀ htype => exact ⟨[], rfl⟩
  | linked h₀ htype hchain =>
    cases chain with
    | nil => exact absurd hchain zero_ne_invalid
    | cons p rest => exact ⟨rest, by rw [hchain.1]⟩

theorem nodup (h : CatalogChain pages chain) : chain.Nodup := by
  cases h with
  | fresh h₀ htype => exact List.nodup_singleton 0
  | linked h₀ htype hchain => exact hchain.nodup

/-- The pages of the catalog are pages of the file. -/
theorem lt (h : CatalogChain pages chain) {p : PageId} (hp : p ∈ chain) :
    p.toNat < pages.length := by
  cases h with
  | fresh h₀ htype =>
    obtain rfl := List.mem_singleton.mp hp
    exact cells_lt h₀
  | linked h₀ htype hchain =>
    obtain ⟨-, page, hpage⟩ := hchain.mem hp
    exact cells_lt hpage

theorem ne_invalid (h : CatalogChain pages chain) : kInvalidPageId ∉ chain := by
  intro hmem
  cases h with
  | fresh h₀ htype => exact zero_ne_invalid (List.mem_singleton.mp hmem).symm
  | linked h₀ htype hchain => exact (hchain.mem hmem).1 rfl

/-- Changes to other pages leave the catalog's chain as it was. -/
theorem congr (h : CatalogChain pages chain) (hcells : ∀ p ∈ chain, cells pages' p = cells pages p) :
    CatalogChain pages' chain := by
  obtain ⟨rest, hhead⟩ := h.head
  have hzero : cells pages' 0 = cells pages 0 := hcells 0 (by simp [hhead])
  cases h with
  | fresh h₀ htype => exact .fresh (hzero.trans h₀) htype
  | linked h₀ htype hchain => exact .linked (hzero.trans h₀) htype (hchain.congr hcells)

end CatalogChain

/-! ## Walking the chain -/

/-- With enough steps, the walk of `Persist` visits the chain. -/
theorem followChain_yields {d : DiskManager} {next : PageId} {chain : List PageId} {fuel : Nat}
    (h : PageChain d.pages next chain) (hfuel : chain.length < fuel) :
    Yields d (followChain fuel next) fun r pages => r = chain ∧ pages = d.pages := by
  induction chain generalizing d next fuel with
  | nil =>
    obtain ⟨n, rfl⟩ := Nat.exists_eq_succ_of_ne_zero (Nat.ne_zero_of_lt hfuel)
    have hend : next = kInvalidPageId := h
    rw [followChain, if_pos hend]
    exact yields_pure ⟨rfl, rfl⟩
  | cons p chain ih =>
    obtain ⟨n, rfl⟩ := Nat.exists_eq_succ_of_ne_zero (Nat.ne_zero_of_lt hfuel)
    obtain ⟨rfl, hne, page, hpage, hrest⟩ := h
    rw [followChain, if_neg hne]
    refine (yields_readPage hpage).bind fun q d' hread => ?_
    obtain ⟨rfl, hpages⟩ := hread
    rw [← hpages] at hrest
    have hlen : chain.length < n := by simpa using hfuel
    refine (ih hrest hlen).bind fun r d'' hwalk => ?_
    exact yields_pure ⟨by rw [hwalk.1], hwalk.2.trans hpages⟩

/-- The walk of `Persist` finds the catalog's pages. -/
theorem CatalogChain.existing {d : DiskManager} {chain : List PageId}
    (h : CatalogChain d.pages chain) :
    Yields d existingChain fun r pages => r = chain ∧ pages = d.pages := by
  refine Yields.get ?_
  cases h with
  | @fresh page h₀ htype =>
    refine (yields_readPage h₀).bind fun q d' hread => ?_
    obtain ⟨rfl, hpages⟩ := hread
    rw [if_neg htype]
    have hend : PageChain d'.pages kInvalidPageId [] := rfl
    refine (followChain_yields hend (Nat.succ_pos _)).bind fun r d'' hwalk => ?_
    exact yields_pure ⟨by rw [hwalk.1], hwalk.2.trans hpages⟩
  | @linked page _ h₀ htype hchain =>
    have hle := hchain.length_le
    refine (yields_readPage h₀).bind fun q d' hread => ?_
    obtain ⟨rfl, hpages⟩ := hread
    rw [if_pos htype]
    cases chain with
    | nil => exact absurd hchain zero_ne_invalid
    | cons p rest =>
      obtain ⟨rfl, -, page', hpage', hrest⟩ := hchain
      obtain rfl : page' = q := by rw [h₀] at hpage'; exact (Option.some.inj hpage').symm
      rw [← hpages] at hrest
      have hfuel : rest.length < walkFuel d := by
        rw [List.length_cons] at hle
        unfold walkFuel DiskManager.numPages
        omega
      refine (followChain_yields hrest hfuel).bind fun r d'' hwalk => ?_
      exact yields_pure ⟨by rw [hwalk.1], hwalk.2.trans hpages⟩

/-- With enough steps, the walk of `Load` collects the payloads. -/
theorem readChain_yields {pages : List Page} {pid : PageId} {chain : List PageId}
    {parts : List Bytes} {fuel : Nat} (h : PageChain pages pid chain)
    (hparts : List.Forall₂ (fun pid part => ∃ page, cells pages pid = some page ∧
      page.used = .ok part) chain parts)
    (hfuel : chain.length < fuel) {d : DiskManager} (hd : d.pages = pages) :
    Yields d (readChain fuel pid) fun r pages' => r = parts.flatten ∧ pages' = pages := by
  induction hparts generalizing d pid fuel with
  | nil =>
    obtain ⟨n, rfl⟩ := Nat.exists_eq_succ_of_ne_zero (Nat.ne_zero_of_lt hfuel)
    have hend : pid = kInvalidPageId := h
    rw [readChain, if_pos hend]
    exact yields_pure ⟨rfl, hd⟩
  | @cons p part chain parts hpart hparts ih =>
    obtain ⟨n, rfl⟩ := Nat.exists_eq_succ_of_ne_zero (Nat.ne_zero_of_lt hfuel)
    obtain ⟨rfl, hne, page, hpage, hrest⟩ := h
    obtain ⟨page', hpage', hpart⟩ := hpart
    obtain rfl : page' = page := by rw [hpage] at hpage'; exact (Option.some.inj hpage').symm
    rw [readChain, if_neg hne]
    refine (yields_readPage (hd ▸ hpage)).bind fun q d' hread => ?_
    obtain ⟨rfl, hpages⟩ := hread
    have hd' : d'.pages = pages := hpages.trans hd
    have hlen : chain.length < n := by simpa using hfuel
    rw [hpart]
    refine (yields_ofExcept_ok).bind fun r d'' hr => ?_
    obtain ⟨rfl, hpages'⟩ := hr
    refine (ih hrest hlen (hpages'.trans hd')).bind fun r' d''' hwalk => ?_
    exact yields_pure ⟨by rw [hwalk.1, List.flatten_cons], hwalk.2⟩

/-- The walk of `Load` finds the body that the chain holds. -/
theorem Holds.read {d : DiskManager} {chain : List PageId} {body : Bytes}
    (h : Holds d.pages chain body) :
    Yields d readBody fun r pages => r = body ∧ pages = d.pages := by
  obtain ⟨parts, hbody, hparts⟩ := h.payloads
  have hle := h.links.length_le
  have hfuel : chain.length < walkFuel d := by
    unfold walkFuel DiskManager.numPages
    omega
  have hwalk := readChain_yields h.links hparts hfuel rfl
  rw [hbody] at hwalk
  exact Yields.get hwalk

/-! ## Writing the chain -/

/-- The numbers of `n` new pages of a file with `size` pages. -/
def newPages (size n : Nat) : List PageId := (List.range n).map fun k => UInt32.ofNat (size + k)

theorem newPages_succ (size n : Nat) :
    newPages size (n + 1) = UInt32.ofNat size :: newPages (size + 1) n := by
  simp only [newPages, List.range_succ_eq_map, List.map_cons, List.map_map, Nat.add_zero]
  congr 1
  apply List.map_congr_left
  intro k _
  simp only [Function.comp_apply, Nat.succ_eq_add_one]
  congr 1
  omega

theorem allocatePages_yields {d : DiskManager} (n : Nat) :
    Yields d (allocatePages n) fun r pages =>
      r = newPages d.numPages n ∧ pages = d.pages ++ List.replicate n .zero := by
  induction n generalizing d with
  | zero => exact yields_pure ⟨rfl, by simp⟩
  | succ n ih =>
    refine yields_allocatePage.bind fun pid d' halloc => ?_
    obtain ⟨rfl, hpages⟩ := halloc
    have hsize : d'.numPages = d.numPages + 1 := by
      simp [DiskManager.numPages, hpages]
    refine ih.bind fun r d'' hrest => ?_
    obtain ⟨rfl, hpages'⟩ := hrest
    refine yields_pure ⟨by rw [newPages_succ, hsize], ?_⟩
    rw [hpages', hpages, List.append_assoc, List.replicate_succ]
    rfl

/-- Writing `n` pages of a chain from number `i` on puts each in its place, if the chain does
    not come back to a page, and changes no other page. -/
theorem writePages_yields {chain : List PageId} {body : Bytes} {d : DiskManager} {n i : Nat}
    (hlen : i + n ≤ chain.length) (hlt : ∀ p ∈ chain, p.toNat < d.numPages) :
    Yields d (writePages chain body n i) fun _ pages =>
      pages.length = d.numPages ∧
      ((chain.take (i + n)).Nodup → ∀ k (hk : k < chain.length), i ≤ k → k < i + n →
        cells pages chain[k] = some (chainPage chain body k)) ∧
      ∀ j, (∀ k (hk : k < chain.length), i ≤ k → k < i + n → chain[k].toNat ≠ j) →
        pages[j]? = d.pages[j]? := by
  induction n generalizing d i with
  | zero =>
    exact yields_pure ⟨rfl, fun _ k _ hik hki => by omega, fun _ _ => rfl⟩
  | succ n ih =>
    have hi : i < chain.length := by omega
    have hget : chain.getD i kInvalidPageId = chain[i] := List.getD_eq_getElem _ _ hi
    rw [writePages, hget]
    refine (yields_writePage (hlt _ (List.getElem_mem hi)) _).bind fun _ d' hwrite => ?_
    have hsize : d'.numPages = d.numPages := by
      simp [DiskManager.numPages, hwrite]
    refine (ih (by omega) (by rwa [hsize])).mono fun _ pages hpost => ?_
    obtain ⟨hlen', hwritten, hframe⟩ := hpost
    refine ⟨hlen'.trans hsize, fun hnodup k hk hik hki => ?_, fun j hj => ?_⟩
    · rw [← Nat.add_assoc] at hnodup
      rcases Nat.lt_or_eq_of_le hik with hik | rfl
      · exact hwritten (by rwa [Nat.add_right_comm]) k hk hik (by omega)
      · -- the pages written later are others
        have hother : ∀ k (hk : k < chain.length), i + 1 ≤ k → k < i + 1 + n →
            chain[k].toNat ≠ chain[i].toNat := by
          intro k hk hik hkn heq
          have hsame : (chain.take (i + n + 1))[k]? = (chain.take (i + n + 1))[i]? := by
            rw [List.getElem?_take_of_lt (by omega), List.getElem?_take_of_lt (by omega),
              List.getElem?_eq_getElem hk, List.getElem?_eq_getElem hi, UInt32.toNat_inj.mp heq]
          have hlt : k < (chain.take (i + n + 1)).length := by
            rw [List.length_take]
            omega
          have := (List.getElem?_inj hlt hnodup).mp hsame
          omega
        rw [cells, hframe _ hother, hwrite, List.getElem?_set_self (hlt _ (List.getElem_mem hi))]
    · rw [hframe j fun k hk hik hki => hj k hk (by omega) (by omega), hwrite,
        List.getElem?_set_ne (hj i hi (Nat.le_refl i) (by omega))]

/-! ## One `Persist` -/

theorem pagesFor_pos (body : Bytes) : 0 < pagesFor body := Nat.le_max_left 1 _

theorem length_le_pagesFor (body : Bytes) : body.length ≤ pagesFor body * payloadCapacity := by
  have hle : (body.length + payloadCapacity - 1) / payloadCapacity ≤ pagesFor body :=
    Nat.le_max_right _ _
  unfold payloadCapacity at *
  omega

/-- The slices make up the body. -/
theorem flatten_slices (body : Bytes) :
    ((List.range (pagesFor body)).map (slice body)).flatten = body := by
  have htake : ∀ n, ((List.range n).map (slice body)).flatten = body.take (n * payloadCapacity) := by
    intro n
    induction n with
    | zero => simp
    | succ n ih =>
      rw [List.range_succ, List.map_append, List.flatten_append, ih, Nat.succ_mul, List.take_add]
      simp [slice]
  rw [htake, List.take_of_length_le (length_le_pagesFor body)]

/-- What `Load` copies of a page of the chain is its slice. -/
theorem used_chainPage (chain : List PageId) (body : Bytes) (i : Nat) :
    (chainPage chain body i).used = .ok (slice body i) := by
  have hle := slice_length_le body i
  have hbytes : (chainPage chain body i).payloadBytes.toNat = (slice body i).length := by
    unfold payloadCapacity at hle
    simp only [chainPage, UInt32.toNat_ofNat']
    omega
  rw [Page.used, hbytes, if_neg (Nat.not_lt.mpr hle)]
  simp only [chainPage, List.take_left']

/-- A row of pages written by `Persist` holds the body. -/
theorem holds_written {pages : List Page} {full : List PageId} {body : Bytes}
    (hlen : pagesFor body ≤ full.length) (hhead : full.getD 0 kInvalidPageId = 0)
    (hinvalid : kInvalidPageId ∉ full)
    (hwritten : ∀ k (hk : k < full.length), k < pagesFor body →
      cells pages full[k] = some (chainPage full body k)) :
    Holds pages (full.take (pagesFor body)) body := by
  have hpos := pagesFor_pos body
  have hfirst : full[0] = 0 := by rwa [List.getD_eq_getElem _ _ (by omega)] at hhead
  have hget : ∀ k (hk : k < (full.take (pagesFor body)).length),
      cells pages (full.take (pagesFor body))[k] = some (chainPage full body k) := by
    intro k hk
    rw [List.length_take] at hk
    rw [List.getElem_take]
    exact hwritten k (by omega) (by omega)
  have hlength : (full.take (pagesFor body)).length = pagesFor body := by
    rw [List.length_take]
    omega
  refine ⟨⟨chainPage full body 0, ?_, rfl⟩, ?_, (List.range (pagesFor body)).map (slice body),
    flatten_slices body, ?_⟩
  · rw [← hfirst]
    exact hwritten 0 (by omega) hpos
  · have hlinks : PageChain pages ((full.take (pagesFor body)).getD 0 kInvalidPageId)
        (full.take (pagesFor body)) := by
      refine chain_of_links (fun h => hinvalid (List.mem_of_mem_take h)) fun k hk =>
        ⟨_, hget k hk, ?_⟩
      rw [hlength] at hk
      simp only [chainPage]
      split
      · rename_i hnext
        rw [List.getD_eq_getElem _ _ (by omega), List.getD_eq_getElem _ _ (by omega),
          List.getElem_take]
      · rw [List.getD_eq_default _ _ (by omega)]
    rwa [List.getD_eq_getElem _ _ (by omega), List.getElem_take, hfirst] at hlinks
  · refine List.forall₂_iff_get.mpr ⟨by simp [hlength], fun k hk hk' => ?_⟩
    refine ⟨chainPage full body k, hget k hk, ?_⟩
    simp [used_chainPage]

theorem mem_newPages {size n : Nat} {p : PageId} (h : p ∈ newPages size n)
    (hroom : size + n < 2 ^ 32) : size ≤ p.toNat ∧ p.toNat < size + n := by
  obtain ⟨k, hk, rfl⟩ := List.mem_map.mp h
  rw [List.mem_range] at hk
  rw [UInt32.toNat_ofNat']
  omega

theorem newPages_nodup {size n : Nat} (hroom : size + n < 2 ^ 32) : (newPages size n).Nodup := by
  refine List.Nodup.map_on (fun j hj k hk heq => ?_) List.nodup_range
  rw [List.mem_range] at hj hk
  have h := congrArg UInt32.toNat heq
  rw [UInt32.toNat_ofNat', UInt32.toNat_ofNat'] at h
  omega

/-- The pages that `Persist` has to write to, if it finds the given chain. -/
def fullChain (d : DiskManager) (chain : List PageId) (body : Bytes) : List PageId :=
  chain ++ newPages d.numPages (pagesFor body - chain.length)

theorem pagesFor_le_fullChain (d : DiskManager) (chain : List PageId) (body : Bytes) :
    pagesFor body ≤ (fullChain d chain body).length := by
  rw [fullChain, List.length_append, newPages, List.length_map, List.length_range]
  omega

/-- `Persist` adds the pages that are missing and writes the body over the chain. -/
theorem persistBody_writes {d : DiskManager} {chain : List PageId}
    (h : CatalogChain d.pages chain) (body : Bytes) :
    Yields d (persistBody body) fun _ pages =>
      pages.length = d.numPages + (pagesFor body - chain.length) ∧
      ((fullChain d chain body).Nodup → ∀ k (hk : k < (fullChain d chain body).length),
        k < pagesFor body → cells pages (fullChain d chain body)[k] =
          some (chainPage (fullChain d chain body) body k)) ∧
      ∀ j < d.numPages, (∀ p ∈ fullChain d chain body, p.toNat ≠ j) →
        pages[j]? = d.pages[j]? := by
  refine h.existing.bind fun old d₁ hold => ?_
  obtain ⟨rfl, hpages₁⟩ := hold
  refine (allocatePages_yields _).bind fun new d₂ hnew => ?_
  obtain ⟨rfl, hpages₂⟩ := hnew
  have hsize₁ : d₁.numPages = d.numPages := congrArg List.length hpages₁
  have hsize₂ : d₂.numPages = d.numPages + (pagesFor body - old.length) := by
    rw [DiskManager.numPages, hpages₂, List.length_append, List.length_replicate, hpages₁]
    rfl
  rw [hsize₁]
  have hlt : ∀ p ∈ fullChain d old body, p.toNat < d₂.numPages := by
    intro p hp
    rcases List.mem_append.mp hp with hp | hp
    · have hp := h.lt hp
      unfold DiskManager.numPages at *
      omega
    · obtain ⟨k, hk, rfl⟩ := List.mem_map.mp hp
      rw [List.mem_range] at hk
      rw [UInt32.toNat_ofNat']
      omega
  have hlen := pagesFor_le_fullChain d old body
  refine (writePages_yields (by omega) hlt).mono fun _ pages hpost => ?_
  obtain ⟨hlength, hwritten, hframe⟩ := hpost
  refine ⟨hlength.trans hsize₂, fun hnodup k hk hkn => hwritten
    (hnodup.sublist (List.take_sublist _ _)) k hk (Nat.zero_le k) (by omega), fun j hj hother => ?_⟩
  rw [hframe j fun k hk _ _ => hother _ (List.getElem_mem hk), hpages₂, hpages₁,
    List.getElem?_append_left hj]

/-- What one `Persist` does to a file with the given catalog pages: the body is on the chain
    from page 0 on, and only pages of the catalog and new ones have changed. -/
structure Persisted (d : DiskManager) (chain : List PageId) (body : Bytes) (pages : List Page) :
    Prop where
  holds : ∃ chain', Holds pages chain' body ∧ ∀ p ∈ chain', p ∈ chain ∨ d.numPages ≤ p.toNat
  frame : ∀ i < d.numPages, (∀ p ∈ chain, p.toNat ≠ i) → pages[i]? = d.pages[i]?

/-- `Persist` that leaves fewer than `2 ^ 32` pages: the first pages of the chain hold the body. -/
theorem persistBody_holds {d : DiskManager} {chain : List PageId}
    (h : CatalogChain d.pages chain) (body : Bytes) :
    Yields d (persistBody body) fun _ pages =>
      pages.length = d.numPages + (pagesFor body - chain.length) ∧
      (pages.length < 2 ^ 32 →
        Holds pages ((fullChain d chain body).take (pagesFor body)) body ∧
        (∀ p ∈ fullChain d chain body, p ∈ chain ∨ d.numPages ≤ p.toNat) ∧
        ∀ i < d.numPages, (∀ p ∈ chain, p.toNat ≠ i) → pages[i]? = d.pages[i]?) := by
  refine (persistBody_writes h body).mono fun _ pages hpost => ?_
  obtain ⟨hlength, hwritten, hframe⟩ := hpost
  refine ⟨hlength, fun hroom => ?_⟩
  -- below `2 ^ 32` pages, the numbers of the new pages are not cut
  have hnew : ∀ p ∈ newPages d.numPages (pagesFor body - chain.length),
      d.numPages ≤ p.toNat ∧ p.toNat < d.numPages + (pagesFor body - chain.length) :=
    fun p hp => mem_newPages hp (by omega)
  have hnodup : (fullChain d chain body).Nodup := by
    refine h.nodup.append (newPages_nodup (by omega)) fun p hp hp' => ?_
    have hlt := h.lt hp
    have hge := (hnew p hp').1
    unfold DiskManager.numPages at hge
    omega
  have hinvalid : kInvalidPageId ∉ fullChain d chain body := by
    intro hp
    rcases List.mem_append.mp hp with hp | hp
    · exact h.ne_invalid hp
    · have hlast := (hnew _ hp).2
      rw [show kInvalidPageId.toNat = 2 ^ 32 - 1 from rfl] at hlast
      omega
  have hhead : (fullChain d chain body).getD 0 kInvalidPageId = 0 := by
    obtain ⟨rest, hrest⟩ := h.head
    simp [fullChain, hrest]
  refine ⟨holds_written (pagesFor_le_fullChain d chain body) hhead hinvalid (hwritten hnodup),
    fun p hp => (List.mem_append.mp hp).imp_right fun hp => (hnew p hp).1,
    fun i hi hother => hframe i hi fun p hp heq => ?_⟩
  rcases List.mem_append.mp hp with hp | hp
  · exact hother p hp heq
  · have hge := (hnew p hp).1
    omega

theorem persistBody_yields {d : DiskManager} {chain : List PageId}
    (h : CatalogChain d.pages chain) (body : Bytes) :
    Yields d (persistBody body) fun _ pages =>
      d.numPages ≤ pages.length ∧ (pages.length < 2 ^ 32 → Persisted d chain body pages) := by
  refine (persistBody_holds h body).mono fun _ pages hpost => ⟨by omega, fun hroom => ?_⟩
  obtain ⟨hholds, hmem, hframe⟩ := hpost.2 hroom
  exact ⟨⟨_, hholds, fun p hp => hmem p (List.mem_of_mem_take hp)⟩, hframe⟩

/-! ## Runs -/

/-- The file, and the pages that have been handed to column writers. -/
structure World where
  disk : DiskManager
  columnPages : List PageId

/-- One step of a program that uses the file: a `Persist` that returned, an allocation for a
    column writer, a write to a page of a column writer, or I/O that changes no page. -/
inductive Step : World → World → Prop
  | persist {w : World} {body : Bytes} {d : DiskManager}
    (h : persistBody body w.disk = .ok () d) : Step w { w with disk := d }
  | allocate {w : World} {pid : PageId} {d : DiskManager}
    (h : DiskManager.allocatePage w.disk = .ok pid d) :
    Step w ⟨d, pid :: w.columnPages⟩
  | writeColumn {w : World} {pid : PageId} {page : Page} {d : DiskManager}
    (hpid : pid ∈ w.columnPages) (h : DiskManager.writePage pid page w.disk = .ok () d) :
    Step w { w with disk := d }
  | other {w : World} {faults : List Bool} :
    Step w { w with disk := { w.disk with faults } }

/-- The states of a run that begins with a new file, while the file has fewer than `2 ^ 32`
    pages. -/
def Reaches (w : World) : Prop :=
  ∃ faults, Relation.ReflTransGen (fun w w' => Step w w' ∧ w'.disk.numPages < 2 ^ 32)
    ⟨⟨[.zero], faults⟩, []⟩ w

/-- What holds throughout a run: the catalog's pages form a chain, and no column writer has been
    handed one of them. -/
structure World.Sound (w : World) : Prop where
  chain : ∃ chain, CatalogChain w.disk.pages chain ∧ ∀ p ∈ w.columnPages, p ∉ chain
  columns : ∀ p ∈ w.columnPages, p.toNat < w.disk.numPages

theorem sound_start (faults : List Bool) : World.Sound ⟨⟨[.zero], faults⟩, []⟩ where
  chain := ⟨[0], .fresh rfl (by decide), fun p hp => by simp at hp⟩
  columns := fun p hp => by simp at hp

/-- A step never shortens the file. -/
theorem Step.numPages_le {w w' : World} (h : Step w w') (hsound : w.Sound) :
    w.disk.numPages ≤ w'.disk.numPages := by
  cases h with
  | persist h =>
    obtain ⟨chain, hchain, -⟩ := hsound.chain
    exact ((persistBody_yields hchain _).ok h).1
  | allocate h =>
    have hpages := (yields_allocatePage.ok h).2
    simp [DiskManager.numPages, hpages]
  | writeColumn hpid h =>
    have hpages := (yields_writePage (hsound.columns _ hpid) _).ok h
    simp [DiskManager.numPages, hpages]
  | other => exact Nat.le_refl _

/-- A step keeps the invariant while the file has fewer than `2 ^ 32` pages. -/
theorem Step.sound {w w' : World} (h : Step w w') (hsound : w.Sound)
    (hroom : w'.disk.numPages < 2 ^ 32) : w'.Sound := by
  have hle := h.numPages_le hsound
  obtain ⟨chain, hchain, hdisjoint⟩ := hsound.chain
  cases h with
  | @persist body d h =>
    obtain ⟨chain', hholds, hmem⟩ := (((persistBody_yields hchain body).ok h).2 hroom).holds
    obtain ⟨page, hpage, htype⟩ := hholds.catalog
    refine ⟨⟨chain', .linked hpage htype hholds.links, fun p hp hp' => ?_⟩, fun p hp => ?_⟩
    · rcases hmem p hp' with hp' | hge
      · exact hdisjoint p hp hp'
      · exact absurd (hsound.columns p hp) (Nat.not_lt.mpr hge)
    · exact Nat.lt_of_lt_of_le (hsound.columns p hp) hle
  | @allocate pid d h =>
    obtain ⟨rfl, hpages⟩ := yields_allocatePage.ok h
    have hsize : d.numPages = w.disk.numPages + 1 := by simp [DiskManager.numPages, hpages]
    have hnew : (UInt32.ofNat w.disk.numPages).toNat = w.disk.numPages := by
      rw [UInt32.toNat_ofNat']
      omega
    have hcells : ∀ p ∈ chain, cells d.pages p = cells w.disk.pages p := by
      intro p hp
      rw [cells, hpages, List.getElem?_append_left (hchain.lt hp)]
      rfl
    refine ⟨⟨chain, hchain.congr hcells, fun p hp hp' => ?_⟩, fun p hp => ?_⟩
    · rcases List.mem_cons.mp hp with rfl | hp
      · have hlt := hchain.lt hp'
        rw [hnew] at hlt
        exact Nat.lt_irrefl _ hlt
      · exact hdisjoint p hp hp'
    · rcases List.mem_cons.mp hp with rfl | hp
      · show (UInt32.ofNat w.disk.numPages).toNat < d.numPages
        omega
      · exact Nat.lt_of_lt_of_le (hsound.columns p hp) hle
  | @writeColumn pid page d hpid h =>
    have hpages := (yields_writePage (hsound.columns _ hpid) page).ok h
    have hcells : ∀ p ∈ chain, cells d.pages p = cells w.disk.pages p := by
      intro p hp
      have hne : pid.toNat ≠ p.toNat := by
        intro heq
        rw [UInt32.toNat_inj.mp heq] at hpid
        exact hdisjoint p hpid hp
      rw [cells, hpages, List.getElem?_set_ne hne]
      rfl
    exact ⟨⟨chain, hchain.congr hcells, hdisjoint⟩, fun p hp =>
      Nat.lt_of_lt_of_le (hsound.columns p hp) hle⟩
  | other => exact ⟨⟨chain, hchain, hdisjoint⟩, hsound.columns⟩

/-- The invariant holds throughout a run. -/
theorem Reaches.sound {w : World} (h : Reaches w) : w.Sound := by
  obtain ⟨faults, hrun⟩ := h
  induction hrun with
  | refl => exact sound_start faults
  | tail _ hstep ih => exact hstep.1.sound ih hstep.2

/-- After every `Persist` of a run, following the chain from page 0 on terminates and gives the
    body just written, and no page has changed but those of the chain there was before and new
    ones. On a file whose operations do not fail, `Persist` returns. -/
theorem persistBody_run {w : World} (h : Reaches w) (body : Bytes) :
    (w.disk.faults = [] → ∃ d, persistBody body w.disk = .ok () d) ∧
    ∀ d, persistBody body w.disk = .ok () d → d.numPages < 2 ^ 32 →
      readBody ⟨d.pages, []⟩ = .ok body ⟨d.pages, []⟩ ∧
      ∃ chain, existingChain ⟨w.disk.pages, []⟩ = .ok chain ⟨w.disk.pages, []⟩ ∧
        ∀ i < w.disk.numPages, (∀ p ∈ chain, p.toNat ≠ i) → d.pages[i]? = w.disk.pages[i]? := by
  obtain ⟨chain, hchain, -⟩ := h.sound.chain
  have hyields := persistBody_yields hchain body
  constructor
  · intro hreliable
    obtain ⟨_, pages, hrun, -⟩ := hyields.reliable hreliable
    exact ⟨_, hrun⟩
  · intro d hrun hroom
    obtain ⟨⟨chain', hholds, -⟩, hframe⟩ := (hyields.ok hrun).2 hroom
    have hread := Holds.read (d := ⟨d.pages, []⟩) hholds
    obtain ⟨r, pages, hr, rfl, rfl⟩ := hread.reliable rfl
    have hold := CatalogChain.existing (d := ⟨w.disk.pages, []⟩) hchain
    obtain ⟨c, pages, hc, rfl, rfl⟩ := hold.reliable rfl
    exact ⟨hr, c, hc, hframe⟩

/-- The first `Persist` of a new file. -/
theorem persistBody_run_new_file :
    ∃ d, persistBody [7] ⟨[.zero], []⟩ = .ok () d ∧ d.numPages = 1 ∧
      readBody ⟨d.pages, []⟩ = .ok [7] ⟨d.pages, []⟩ := by
  have h := persistBody_run (w := ⟨⟨[.zero], []⟩, []⟩) ⟨[], .refl⟩ [7]
  obtain ⟨d, hrun⟩ := h.1 rfl
  have hfresh : CatalogChain [Page.zero] [0] := .fresh rfl (by decide)
  have hone : d.numPages = 1 :=
    ((persistBody_writes (d := ⟨[.zero], []⟩) hfresh [7]).ok hrun).1
  exact ⟨d, hrun, hone, (h.2 d hrun (by omega)).1⟩

/-! ## Where it ends -/

/-- A run that allocates pages for column writers only. -/
theorem reaches_allocated (n : Nat) (hn : n + 1 < 2 ^ 32) :
    ∃ columnPages, Reaches ⟨⟨List.replicate (n + 1) .zero, []⟩, columnPages⟩ := by
  induction n with
  | zero => exact ⟨[], [], .refl⟩
  | succ n ih =>
    obtain ⟨columnPages, faults, hrun⟩ := ih (by omega)
    have hpages : List.replicate (n + 1) Page.zero ++ [Page.zero] = List.replicate (n + 1 + 1) .zero :=
      List.replicate_succ'.symm
    have hstep := DiskManager.allocatePage_reliable (d := ⟨List.replicate (n + 1) .zero, []⟩) rfl
    simp only [hpages] at hstep
    have hroom : (List.replicate (n + 1 + 1) Page.zero).length < 2 ^ 32 := by
      rwa [List.length_replicate]
    exact ⟨_, faults, hrun.tail ⟨.allocate hstep, hroom⟩⟩

/-- The page number of the end of every chain is handed out as that of a page: when the file has
    `2 ^ 32 - 1` pages, a body of two pages is cut after the first. -/
theorem persistBody_cut {d : DiskManager} (hd : d.numPages = 2 ^ 32 - 1) (hreliable : d.faults = [])
    (hfresh : CatalogChain d.pages [0]) {body : Bytes} (hbody : pagesFor body = 2) :
    ∃ d', persistBody body d = .ok () d' ∧
      readBody ⟨d'.pages, []⟩ = .ok (slice body 0) ⟨d'.pages, []⟩ := by
  have hfull : fullChain d [0] body = [0, kInvalidPageId] := by
    rw [fullChain, hbody, hd]
    rfl
  obtain ⟨_, pages, hrun, -, hwritten, -⟩ := (persistBody_writes hfresh body).reliable hreliable
  rw [hfull] at hwritten
  have hpage := hwritten (by decide) 0 (by decide) (by omega)
  refine ⟨_, hrun, ?_⟩
  have hholds : Holds pages [0] (slice body 0) := by
    refine ⟨⟨_, hpage, rfl⟩, ⟨rfl, zero_ne_invalid, _, hpage, ?_⟩, [slice body 0], by simp,
      .cons ⟨_, hpage, used_chainPage _ _ _⟩ .nil⟩
    simp only [chainPage, hbody]
    rfl
  obtain ⟨r, pages', hr, rfl, rfl⟩ := (Holds.read (d := ⟨pages, []⟩) hholds).reliable rfl
  exact hr

/-- A walk that goes back and forth between two pages never ends. -/
theorem readChain_diverges {d : DiskManager} {page page' : Page}
    (h₀ : d.pages = [page, page']) (hnext : page.nextPageId = 1) (hnext' : page'.nextPageId = 0)
    (hpart : ∃ part, page.used = .ok part) (hpart' : ∃ part, page'.used = .ok part)
    (hd : d.faults = []) (fuel : Nat) :
    readChain fuel 0 d = .error .diverges d ∧ readChain fuel 1 d = .error .diverges d := by
  obtain ⟨part, hpart⟩ := hpart
  obtain ⟨part', hpart'⟩ := hpart'
  have hread₀ : DiskManager.readPage 0 d = .ok page d :=
    DiskManager.readPage_reliable hd (by simp [h₀])
  have hread₁ : DiskManager.readPage 1 d = .ok page' d :=
    DiskManager.readPage_reliable hd (by simp [h₀])
  induction fuel with
  | zero => exact ⟨rfl, rfl⟩
  | succ n ih =>
    constructor
    · rw [readChain, if_neg zero_ne_invalid, EStateM.bind_of_ok hread₀, hpart, hnext,
        EStateM.bind_of_ok (EStateM.ofExcept_ok part d), EStateM.bind_of_error ih.2]
    · rw [readChain, if_neg (by decide), EStateM.bind_of_ok hread₁, hpart', hnext',
        EStateM.bind_of_ok (EStateM.ofExcept_ok part' d), EStateM.bind_of_error ih.1]

/-- The second of two pages is not written. -/
theorem persistBody_fails {body : Bytes} (hbody : pagesFor body = 2) :
    persistBody body ⟨[.zero], [false, false, false, true]⟩ =
      .error (.runtimeError (Bytes.ofAscii "DiskManager::WritePage: write failed"))
        ⟨[chainPage [0, 1] body 0, .zero], []⟩ := by
  unfold persistBody
  rw [hbody]
  rfl

/-- Page 0 then names a page that is still all zeros, and so names page 0. -/
theorem readBody_fails {body : Bytes} (hbody : pagesFor body = 2) :
    readBody ⟨[chainPage [0, 1] body 0, .zero], []⟩ =
      .error .diverges ⟨[chainPage [0, 1] body 0, .zero], []⟩ := by
  have hnext : (chainPage [0, 1] body 0).nextPageId = 1 := by
    simp [chainPage, hbody]
  have hzero : ∃ part, Page.zero.used = .ok part :=
    ⟨_, if_neg (Nat.not_lt.mpr (Nat.zero_le _))⟩
  have hloop := readChain_diverges (d := ⟨[chainPage [0, 1] body 0, .zero], []⟩) rfl hnext rfl
    ⟨_, used_chainPage _ _ _⟩ hzero rfl
  exact (hloop _).1

/-- A body of two pages. -/
def twoPageBody : Bytes := List.replicate (payloadCapacity + 1) 0

theorem pagesFor_twoPageBody : pagesFor twoPageBody = 2 := by
  rw [pagesFor, twoPageBody, List.length_replicate]
  rfl

/-- Two ways to lose the body: a file of `2 ^ 32 - 1` pages, and a write that fails between the
    pages of the body. -/
theorem persistBody_loses :
    (∃ w d, Reaches w ∧ w.disk = ⟨List.replicate (2 ^ 32 - 1) .zero, []⟩ ∧
      persistBody twoPageBody w.disk = .ok () d ∧
      readBody ⟨d.pages, []⟩ ≠ .ok twoPageBody ⟨d.pages, []⟩) ∧
    ∃ e d, persistBody twoPageBody ⟨[.zero], [false, false, false, true]⟩ = .error e d ∧
      readBody ⟨d.pages, []⟩ = .error .diverges ⟨d.pages, []⟩ := by
  have hbody : pagesFor twoPageBody = 2 := by
    rw [pagesFor, twoPageBody, List.length_replicate]
    rfl
  constructor
  · obtain ⟨n, hn⟩ : ∃ n, n + 1 = 2 ^ 32 - 1 := ⟨2 ^ 32 - 2, by norm_num⟩
    obtain ⟨columnPages, hreaches⟩ := reaches_allocated n (by omega)
    have hzero : cells (List.replicate (n + 1) Page.zero) 0 = some .zero := by simp [cells]
    have hfresh : CatalogChain (List.replicate (n + 1) Page.zero) [0] := .fresh hzero (by decide)
    obtain ⟨d, hrun, hread⟩ := persistBody_cut (d := ⟨List.replicate (n + 1) .zero, []⟩)
      (by rw [DiskManager.numPages, List.length_replicate, hn]) rfl hfresh hbody
    refine ⟨_, d, hreaches, by rw [hn], hrun, ?_⟩
    rw [hread]
    intro heq
    injection heq with hslice
    have hle := slice_length_le twoPageBody 0
    rw [hslice, twoPageBody, List.length_replicate] at hle
    omega
  · exact ⟨_, _, persistBody_fails hbody, readBody_fails hbody⟩

end LiteOLAP.Catalog
