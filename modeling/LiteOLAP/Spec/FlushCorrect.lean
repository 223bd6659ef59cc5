import LiteOLAP.Spec.CatalogCodecCorrect
import LiteOLAP.Spec.DBInvariant

/-!
# Flushing

`FlushTable` turns the pending rows of a table into row groups of `kRowGroupSize` rows, and puts the
catalog on its chain behind the pool's back.

## Key results

- `DB.persistCatalog_returns`: the catalog is on its chain
- `DB.flushTable_returns`: the rows of a table are the same, and none of them is pending
-/

namespace LiteOLAP

open BufferPool (Pin Serving PinRoom Fetchable Roomy)
open Catalog (cells PageChain CatalogChain Holds Persisted newPages pagesFor)

/-! ## The catalog in memory -/

namespace Catalog

theorem addRowGroup_eq {c : Catalog} {name : Bytes} {m : TableMeta} (hm : c.getTable name = some m)
    (rg : RowGroup) : ∃ c', c.addRowGroup name rg = .ok c' ∧ ∀ n, c'.getTable n =
      if n = name then some { m with rowGroups := m.rowGroups ++ [rg] } else c.getTable n := by
  refine ⟨c.setTable { m with rowGroups := m.rowGroups ++ [rg] }, ?_, fun n => ?_⟩
  · rw [addRowGroup, hm]
  · rw [getTable_setTable, c.named name m hm]

theorem clearRowGroups_eq {c : Catalog} {name : Bytes} {m : TableMeta}
    (hm : c.getTable name = some m) : ∃ c', c.clearRowGroups name = .ok c' ∧ ∀ n, c'.getTable n =
      if n = name then some { m with rowGroups := [] } else c.getTable n := by
  refine ⟨c.setTable { m with rowGroups := [] }, ?_, fun n => ?_⟩
  · rw [clearRowGroups, hm]
  · rw [getTable_setTable, c.named name m hm]

theorem dropTable_eq {c : Catalog} {name : Bytes} {m : TableMeta} (hm : c.getTable name = some m) :
    ∃ c', c.dropTable name = some c' ∧
      ∀ n, c'.getTable n = if n = name then none else c.getTable n := by
  unfold dropTable
  rw [hm]
  exact ⟨_, rfl, fun n => SortedMap.find?_erase c.tables name n⟩

/-- A body depends on the pages of its chain only. -/
theorem Holds.congr {pages pages' : List Page} {chain : List PageId} {body : Bytes}
    (h : Holds pages chain body) (hcells : ∀ pid ∈ chain, cells pages' pid = cells pages pid) :
    Holds pages' chain body := by
  obtain ⟨page, hpage, htype⟩ := h.catalog
  obtain ⟨rest, hhead⟩ := (CatalogChain.linked hpage htype h.links).head
  obtain ⟨parts, hbody, hparts⟩ := h.payloads
  refine ⟨⟨page, (hcells 0 (by simp [hhead])).trans hpage, htype⟩, h.links.congr hcells, parts, hbody,
    ?_⟩
  rw [List.forall₂_iff_get] at hparts ⊢
  refine ⟨hparts.1, fun i hi hi' => ?_⟩
  obtain ⟨page, hpage, hused⟩ := hparts.2 i hi hi'
  exact ⟨page, (hcells _ (List.get_mem chain ⟨i, hi⟩)).trans hpage, hused⟩

/-- No operation of `Persist` shortens the file. -/
theorem staysOver_persistBody (body : Bytes) :
    EStateM.StaysOver DiskManager.Roomy (persistBody body) := by
  have hfollow : ∀ fuel next, EStateM.StaysOver DiskManager.Roomy (followChain fuel next) := by
    intro fuel
    induction fuel with
    | zero => exact fun next => EStateM.staysOver_throw _
    | succ fuel ih =>
      intro next
      unfold followChain
      refine EStateM.StaysOver.ite (EStateM.staysOver_pure _) ?_
      exact (DiskManager.staysOver_readPage next).bind fun page =>
        (ih page.nextPageId).bind fun rest => EStateM.staysOver_pure _
  have hallocate : ∀ n, EStateM.StaysOver DiskManager.Roomy (allocatePages n) := by
    intro n
    induction n with
    | zero => exact EStateM.staysOver_pure _
    | succ n ih =>
      exact DiskManager.staysOver_allocatePage.bind fun pid => ih.bind fun rest =>
        EStateM.staysOver_pure _
  have hwrite : ∀ chain n i, EStateM.StaysOver DiskManager.Roomy (writePages chain body n i) := by
    intro chain n
    induction n with
    | zero => exact fun i => EStateM.staysOver_pure _
    | succ n ih => exact fun i => (DiskManager.staysOver_writePage _ _).bind fun _ => ih (i + 1)
  unfold persistBody existingChain
  refine EStateM.StaysOver.bind (EStateM.staysOver_get.bind fun d => ?_) fun old =>
    (hallocate _).bind fun new => hwrite _ _ _
  exact (DiskManager.staysOver_readPage 0).bind fun page => (hfollow _ _).bind fun rest =>
    EStateM.staysOver_pure _

theorem createTable_eq {c : Catalog} {name : Bytes} (hname : c.getTable name = none)
    (schema : Schema) : ∃ c', c.createTable name schema = .ok c' ∧ ∀ n, c'.getTable n =
      if n = name then some ⟨name, schema, []⟩ else c.getTable n := by
  refine ⟨c.setTable ⟨name, schema, []⟩, ?_, fun n => c.getTable_setTable _ n⟩
  rw [createTable, hname]

end Catalog

namespace DB

/-! ## Between two statements -/

/-- The file has fewer pages than there are page numbers. -/
def Within (db : DB) : Prop := Roomy db.pool

/-- The frames of the pool. -/
abbrev frames : List Nat := List.range kDefaultBufferPoolFrames

/-- The rows of a table that are not yet in row groups. -/
def pendingOf (db : DB) (name : Bytes) : List Row :=
  match db.pending.find? name with
  | some cols => pendingRows cols
  | none => []

/-- What holds between two statements: nothing is pinned, the pages that the pool serves have their
    owners, pending values are rows of their table, and a table has columns. -/
structure Sound (db : DB) (pages : List Page) (chain : List PageId)
    (groups : Bytes → List StoredGroup) : Prop where
  serving : Serving frames chain db.pool [] pages
  holdings : Holdings db.catalog pages chain groups
  pending : ∀ name m cols, db.catalog.getTable name = some m → db.pending.find? name = some cols →
    ∃ n, PendingFits m.schema cols n
  columns : ∀ name m, db.catalog.getTable name = some m → m.schema.columns ≠ []

/-- The pool has frames enough. -/
theorem pinRoom_frames : PinRoom frames [] 2 := by
  unfold PinRoom
  rw [List.dedup_eq_self.mpr List.nodup_range]
  simp [kDefaultBufferPoolFrames]

theorem staysOver_withPool {α : Type} {x : EStateM Exc BufferPool α}
    (h : EStateM.StaysOver Roomy x) : EStateM.StaysOver Within (withPool x) :=
  EStateM.StaysOver.zoom (L := Roomy) (fun _ _ => rfl) h

/-- A run on the pool. -/
theorem withPool_returns {α : Type} {x : EStateM Exc BufferPool α} {db : DB}
    {post : α → BufferPool → Prop} (h : EStateM.Returns Roomy x db.pool post) :
    EStateM.Returns Within (withPool x) db fun a db' =>
      ∃ pool, db' = { db with pool } ∧ post a pool :=
  EStateM.Returns.zoom (L := Roomy) (fun _ _ => rfl) h

theorem withPool_of_ok {α : Type} {x : EStateM Exc BufferPool α} {db : DB} {a : α} {pool : BufferPool}
    (h : x db.pool = .ok a pool) : withPool x db = .ok a { db with pool } :=
  EStateM.zoom_of_ok h

/-- A change that leaves the pool alone. -/
theorem staysOver_modify {f : DB → DB} (h : ∀ db, (f db).pool = db.pool) :
    EStateM.StaysOver Within (modify f : EStateM Exc DB PUnit) := by
  intro db hlim
  exact show Roomy db.pool from h db ▸ hlim

/-! ## The catalog on disk -/

theorem staysOver_persistCatalog : EStateM.StaysOver Within persistCatalog :=
  EStateM.staysOver_get.bind fun db => staysOver_withPool <|
    EStateM.StaysOver.zoom (L := DiskManager.Roomy) (fun _ _ => rfl)
      (Catalog.staysOver_persistBody db.catalog.body)

/-- The catalog's pages are on the file as the pool would serve them. -/
theorem cells_catalog {db : DB} {pages : List Page} {chain : List PageId}
    (h : Serving frames chain db.pool [] pages) {pid : PageId} (hpid : pid ∈ chain) :
    cells db.pool.disk.pages pid = cells pages pid :=
  h.coherent.stored pid (BufferPool.Client.not_ahead_of_absent (h.uncached pid hpid))

/-- `Persist` puts the catalog on its chain, and nothing else changes. -/
theorem persistCatalog_returns {db : DB} {pages : List Page} {chain : List PageId}
    {groups : Bytes → List StoredGroup} (hserving : Serving frames chain db.pool [] pages)
    (hholdings : Holdings db.catalog pages chain groups) :
    EStateM.Returns Within persistCatalog db fun _ db' => ∃ pages' chain',
      db' = { db with pool := db'.pool } ∧ Serving frames chain' db'.pool [] pages' ∧
      Holdings db'.catalog pages' chain' groups ∧ Holds pages' chain' db.catalog.body ∧
      (∀ pid ∈ chain', pid ∈ chain ∨ pages.length ≤ pid.toNat) ∧
      pages'.length = pages.length + (pagesFor db.catalog.body - chain.length) ∧
      (db.pool.disk = ⟨pages, []⟩ → db'.pool.disk = ⟨pages', []⟩) := by
  intro hlim
  have hchain : CatalogChain db.pool.disk.pages chain :=
    hholdings.catalogChain.congr fun pid hpid => cells_catalog hserving hpid
  have hyields := Catalog.persistBody_yields hchain db.catalog.body
  obtain ⟨_, written, hrun, hle, hpersisted⟩ := hyields.reliable hserving.coherent.reliable
  have hlength := ((Catalog.persistBody_writes hchain db.catalog.body).ok hrun).1
  have hpool : BufferPool.withDisk db.catalog.persist db.pool =
      .ok () { db.pool with disk := ⟨written, []⟩ } := EStateM.zoom_of_ok hrun
  have hcall : persistCatalog db =
      .ok () { db with pool := { db.pool with disk := ⟨written, []⟩ } } := withPool_of_ok hpool
  have hsmall : written.length < 2 ^ 32 := by
    rw [hcall] at hlim
    exact hlim
  have hsize : db.pool.disk.numPages = pages.length := hserving.size
  obtain ⟨⟨chain', hholds, hmem⟩, hframe⟩ := hpersisted hsmall
  obtain ⟨page, hpage, htype⟩ := hholds.catalog
  have hwritten : CatalogChain written chain' := .linked hpage htype hholds.links
  have hapart : ∀ pid ∈ chain', (pid ∈ chain ∨ db.pool.disk.numPages ≤ pid.toNat) ∧
      pid.toNat < (DiskManager.mk written []).numPages :=
    fun pid hpid => ⟨hmem pid hpid, hwritten.lt hpid⟩
  have hgrown : db.pool.disk.numPages ≤ (DiskManager.mk written []).numPages := hle
  obtain ⟨pages', hserving', hlen, hown, htheirs⟩ := hserving.withDisk rfl hgrown hframe hapart
  -- the pool serves the new chain as it was written
  rw [hsize] at hmem
  have hholds' : Holds pages' chain' db.catalog.body :=
    hholds.congr fun pid hpid => htheirs pid (hmem pid hpid)
  obtain ⟨chain'', hholds'', hholdings', hmem''⟩ := hholdings.persist (d := ⟨pages, []⟩) rfl
    ⟨⟨chain', hholds', hmem⟩, hown⟩
  obtain rfl : chain'' = chain' := hholds''.links.unique hholds'.links
  refine ⟨(), _, hcall, pages', chain'', rfl, hserving', hholdings', hholds', hmem, ?_, fun hdisk => ?_⟩
  · rw [hlen, ← hsize]
    exact hlength
  · have hwritten' : written = pages' := by
      refine List.ext_getElem? fun i => ?_
      by_cases hmine : i < pages.length ∧ ∀ p ∈ chain, p.toNat ≠ i
      · rw [hown i hmine.1 hmine.2, hframe i (hsize ▸ hmine.1) hmine.2, hdisk]
      · by_cases hi : i < 2 ^ 32
        · -- a page of the catalog, or a new one
          have hnat : (UInt32.ofNat i).toNat = i := by
            rw [UInt32.toNat_ofNat']
            omega
          have hcells := htheirs (UInt32.ofNat i) (by
            rw [hnat]
            by_contra hneither
            rw [not_or, Nat.not_le] at hneither
            exact hmine ⟨hneither.2, fun p hp heq => hneither.1 (by rwa [← heq, UInt32.ofNat_toNat])⟩)
          rw [hnat] at hcells
          exact hcells.symm
        · rw [List.getElem?_eq_none (by omega), List.getElem?_eq_none (by
            have hle' : pages'.length = written.length := hlen
            omega)]
    rw [hwritten']

/-! ## Flushing a table -/

/-- The rows of the row group that begins at `start`. -/
def groupRows (rows : List Row) (start : Nat) : List Row :=
  (rows.drop start).take (min kRowGroupSize (rows.length - start))

/-- The row groups of a flush are slices of the pending rows. -/
theorem map_groupRows (rows : List Row) :
    (rowGroupStarts rows.length).map (groupRows rows) = rows.slices kRowGroupSize := by
  rw [rowGroupStarts, List.slices, List.map_map]
  refine List.map_congr_left fun i _ => ?_
  rw [Function.comp_apply, groupRows, Nat.mul_comm, ← List.length_drop, ← List.take_eq_take_min]

theorem mem_rowGroupStarts {total start : Nat} (h : start ∈ rowGroupStarts total) :
    start < total := by
  obtain ⟨i, hi, rfl⟩ := List.mem_map.mp h
  rw [List.mem_range] at hi
  unfold kRowGroupSize at *
  omega

/-- The pages that the row groups take. -/
def flushPages (schema : Schema) (cols : List (List Value)) (total : Nat) (starts : List Nat) : Nat :=
  (starts.map fun start => groupPages schema cols start (min kRowGroupSize (total - start))
    (List.range schema.numColumns)).sum

theorem staysOver_flushRowGroup (schema : Schema) (cols : List (List Value)) (start n : Nat) :
    EStateM.StaysOver Roomy (flushRowGroup schema cols start n) := by
  unfold flushRowGroup
  refine (EStateM.StaysOver.mapM (fun c => ?_) _).bind fun roots => EStateM.staysOver_pure _
  exact (EStateM.staysOver_ofExcept _).bind fun col => staysOver_flushColumn cols start n c col.type

theorem staysOver_flushFrom (name : Bytes) (schema : Schema) (cols : List (List Value))
    (total start : Nat) : EStateM.StaysOver Within (flushFrom name schema cols total start) := by
  unfold flushFrom
  refine (staysOver_withPool (staysOver_flushRowGroup _ _ _ _)).bind fun rg => ?_
  refine EStateM.staysOver_get.bind fun db => (EStateM.staysOver_ofExcept _).bind fun catalog => ?_
  exact staysOver_modify fun _ => rfl

section

variable {pages : List Page} {chain : List PageId} {groups : Bytes → List StoredGroup} {name : Bytes}
  {m : TableMeta} {cols : List (List Value)} {total : Nat}

/-- In the loop of `FlushTable`: the row groups `new` have been added to the table, and those from
    the starts `rest` on are still to come. -/
structure Flushing (db₀ : DB) (pages₀ : List Page) (chain : List PageId)
    (groups : Bytes → List StoredGroup) (name : Bytes) (m : TableMeta) (cols : List (List Value))
    (total : Nat) (rest : List Nat) (new : List StoredGroup) (pages : List Page) (db : DB) : Prop where
  serving : Serving frames chain db.pool [] pages
  holdings : Holdings db.catalog pages chain (Function.update groups name (groups name ++ new))
  table : ∃ rgs, db.catalog.getTable name = some { m with rowGroups := rgs }
  others : ∀ n, n ≠ name → db.catalog.getTable n = db₀.catalog.getTable n
  pending : db.pending = db₀.pending
  rows : new.map (·.rows) ++ rest.map (groupRows (rowsAt cols total)) =
    (rowsAt cols total).slices kRowGroupSize
  starts : ∀ start ∈ rest, start < total
  size : pages.length + flushPages m.schema cols total rest =
    pages₀.length + flushPages m.schema cols total (rowGroupStarts total)

/-- One round of the loop. -/
theorem flushFrom_returns {db₀ db : DB} {pages₀ : List Page} {start : Nat} {rest : List Nat}
    {new : List StoredGroup} (hfits : PendingFits m.schema cols total)
    (h : Flushing db₀ pages₀ chain groups name m cols total (start :: rest) new pages db) :
    EStateM.Returns Within (flushFrom name m.schema cols total start) db fun _ db' =>
      ∃ new' pages', Flushing db₀ pages₀ chain groups name m cols total rest new' pages' db' := by
  have hstart := h.starts start List.mem_cons_self
  have hle : start + min kRowGroupSize (total - start) ≤ total := by omega
  have hgroup := flushRowGroup_returns h.serving pinRoom_frames hfits hle (Nat.min_le_left _ _)
  refine (withPool_returns hgroup).bind (fun rg => ?_) fun rg db₁ hdb₁ => ?_
  · refine EStateM.staysOver_get.bind fun db => ?_
    exact (EStateM.staysOver_ofExcept _).bind fun catalog => staysOver_modify fun _ => rfl
  obtain ⟨pool, rfl, pages', sg, hserving, hextends, hlength, hstored, hrows, hfresh⟩ := hdb₁
  obtain ⟨rgs, htable⟩ := h.table
  obtain ⟨catalog', hadd, hcatalog⟩ := Catalog.addRowGroup_eq htable rg
  refine EStateM.Returns.get ?_
  simp only [hadd]
  refine EStateM.Returns.ofExcept_bind (EStateM.returns_modify ⟨new ++ [sg], pages', ?_⟩)
  have hadded := h.holdings.addGroup hextends htable hcatalog hstored hfresh
  rw [Function.update_self, Function.update_idem, List.append_assoc] at hadded
  refine ⟨hserving, hadded, ⟨_, by rw [hcatalog, if_pos rfl]⟩, fun n hn => ?_, h.pending, ?_,
    fun s hs => h.starts s (List.mem_cons_of_mem _ hs), ?_⟩
  · rw [hcatalog, if_neg hn]
    exact h.others n hn
  · rw [← h.rows, List.map_append, List.map_cons, List.map_cons, List.map_nil, List.append_assoc,
      hrows, groupRows, length_rowsAt, List.singleton_append]
  · have hsize := h.size
    simp only [flushPages, List.map_cons, List.sum_cons] at hsize ⊢
    omega

/-- All row groups of a flush. -/
theorem flushLoop_returns {db : DB} (h : Sound db pages chain groups)
    (hm : db.catalog.getTable name = some m) (hfits : PendingFits m.schema cols total) :
    EStateM.Returns Within ((rowGroupStarts total).forM (flushFrom name m.schema cols total)) db
      fun _ db' => ∃ new pages', Flushing db pages chain groups name m cols total [] new pages' db' := by
  refine EStateM.Returns.forM (I := fun rest db' => ∃ new pages', Flushing db pages chain groups name
    m cols total rest new pages' db') (staysOver_flushFrom name m.schema cols total) ⟨[], pages, ?_⟩
    fun start rest db' ⟨new, pages', h'⟩ => flushFrom_returns hfits h'
  refine ⟨h.serving, ?_, ⟨m.rowGroups, hm⟩, fun _ _ => rfl, rfl, ?_, fun start => mem_rowGroupStarts, rfl⟩
  · rw [List.append_nil, Function.update_eq_self]
    exact h.holdings
  · have hall := map_groupRows (rowsAt cols total)
    rw [length_rowsAt] at hall
    rw [List.map_nil, List.nil_append, hall]

/-! ### The whole of `FlushTable` -/

@[simp] theorem clearPending_pool (name : Bytes) (db : DB) : (clearPending name db).pool = db.pool := by
  unfold clearPending
  split <;> rfl

@[simp] theorem clearPending_catalog (name : Bytes) (db : DB) :
    (clearPending name db).catalog = db.catalog := by
  unfold clearPending
  split <;> rfl

theorem find?_clearPending (name : Bytes) (db : DB) (n : Bytes) :
    (clearPending name db).pending.find? n = if n = name then
      (db.pending.find? name).map (List.map fun _ => []) else db.pending.find? n := by
  unfold clearPending
  split
  · rename_i cols hcols
    rw [SortedMap.find?_insert, hcols]
    rfl
  · rename_i hnone
    split
    · rename_i hn
      rw [hn, hnone]
      rfl
    · rfl

theorem pending_clearPending {db db' : DB} (h : db'.pending = db.pending) (name : Bytes) :
    (clearPending name db').pending = (clearPending name db).pending := by
  unfold clearPending
  rw [h]
  split
  · rfl
  · exact h

theorem pendingRows_cleared (cols : List (List Value)) : pendingRows (cols.map fun _ => []) = [] := by
  cases cols with
  | nil => rfl
  | cons col cols => rfl

/-- Nothing of a table is pending once it has been cleared. -/
theorem pendingOf_clearPending (name : Bytes) (db : DB) (n : Bytes) :
    pendingOf (clearPending name db) n = if n = name then [] else pendingOf db n := by
  rw [pendingOf, find?_clearPending]
  by_cases hn : n = name
  · rw [if_pos hn, if_pos hn]
    cases db.pending.find? name with
    | none => rfl
    | some cols => exact pendingRows_cleared cols
  · rw [if_neg hn, if_neg hn]
    rfl

theorem PendingFits.cleared {schema : Schema} {cols : List (List Value)} {n : Nat}
    (h : PendingFits schema cols n) : PendingFits schema (cols.map fun _ => []) 0 := by
  refine List.forall₂_map_left_iff.mpr (h.imp fun vs col _ => ⟨rfl, fun v hv => ?_⟩)
  cases hv

/-- The pool has nothing left to write, and the file is what it serves. -/
theorem flushAll_returns {db : DB} {catalogChain : List PageId}
    (h : Serving frames catalogChain db.pool [] pages) :
    EStateM.Returns Within (withPool BufferPool.flushAll) db fun _ db' =>
      db' = { db with pool := db'.pool } ∧ Serving frames catalogChain db'.pool [] pages ∧
      db'.pool.disk = ⟨pages, []⟩ :=
  (withPool_returns h.flushAll).mono fun _ db' ⟨pool, hdb', hserving, hdisk⟩ => by
    subst hdb'
    exact ⟨rfl, hserving, hdisk⟩

/-- A flush of a table with pending rows. -/
theorem flushTable_pending {db : DB} {col : List Value} {rest : List (List Value)}
    (h : Sound db pages chain groups) (hm : db.catalog.getTable name = some m)
    (hcols : db.pending.find? name = some (col :: rest)) (hcol : col ≠ []) :
    EStateM.Returns Within (flushTable name) db fun _ db' => ∃ pages' chain' new,
      Sound db' pages' chain' (Function.update groups name (groups name ++ new)) ∧
      new.map (·.rows) = (pendingRows (col :: rest)).slices kRowGroupSize ∧
      (∃ rgs, db'.catalog.getTable name = some { m with rowGroups := rgs }) ∧
      (∀ n, n ≠ name → db'.catalog.getTable n = db.catalog.getTable n) ∧
      db'.pending = (clearPending name db).pending ∧
      (∀ pid ∈ chain', pid ∈ chain ∨ pages.length ≤ pid.toNat) ∧
      pages'.length = pages.length +
        flushPages m.schema (col :: rest) col.length (rowGroupStarts col.length) +
        (pagesFor db'.catalog.body - chain.length) := by
  obtain ⟨total, hfits⟩ := h.pending name m _ hm hcols
  have htotal : col.length = total := by
    obtain ⟨_, _, hvs, -, -⟩ := List.forall₂_cons_left_iff.mp hfits
    exact hvs.1
  have hrows : rowsAt (col :: rest) total = pendingRows (col :: rest) := by
    rw [hfits.pendingRows_eq (List.cons_ne_nil _ _)]
  unfold flushTable
  refine EStateM.Returns.get ?_
  simp only [hcols, hm, if_neg hcol]
  rw [htotal]
  refine (flushLoop_returns h hm hfits).bind (fun _ => ?_) fun _ db₁ ⟨new, pages₁, h₁⟩ => ?_
  · refine (staysOver_modify (clearPending_pool name)).bind fun _ => ?_
    exact (staysOver_withPool BufferPool.staysOver_flushAll).bind fun _ => staysOver_persistCatalog
  refine EStateM.Returns.modify ?_
  have hserving : Serving frames chain (clearPending name db₁).pool [] pages₁ := by
    rw [clearPending_pool]
    exact h₁.serving
  refine (flushAll_returns hserving).bind (fun _ => staysOver_persistCatalog)
    fun _ db₂ ⟨hdb₂, h₂, _⟩ => ?_
  have hcatalog₂ : db₂.catalog = db₁.catalog := by rw [hdb₂, clearPending_catalog]
  refine (persistCatalog_returns h₂ (hcatalog₂ ▸ h₁.holdings)).mono
    fun _ db₃ ⟨pages₃, chain₃, hdb₃, h₃, hholdings₃, hholds₃, hchain₃, hlen₃, _⟩ => ?_
  have hcatalog₃ : db₃.catalog = db₁.catalog := by rw [hdb₃, ← hcatalog₂]
  have hpending₃ : db₃.pending = (clearPending name db).pending := by
    rw [hdb₃, hdb₂, ← pending_clearPending h₁.pending name]
  obtain ⟨rgs, hrgs⟩ := h₁.table
  have hsize := h₁.size
  refine ⟨pages₃, chain₃, new, ⟨h₃, hholdings₃, fun n m' cols hm' hcols' => ?_, fun n m' hm' => ?_⟩,
    ?_, ⟨rgs, ?_⟩, fun n hn => ?_, hpending₃, fun pid hpid => (hchain₃ pid hpid).imp_right fun hge => ?_, ?_⟩
  · rw [hcatalog₃] at hm'
    rw [hpending₃, find?_clearPending] at hcols'
    by_cases hn : n = name
    · subst hn
      rw [hrgs] at hm'
      rw [if_pos rfl, hcols] at hcols'
      obtain rfl := Option.some.inj hm'
      obtain rfl := Option.some.inj hcols'
      exact ⟨0, hfits.cleared⟩
    · rw [if_neg hn] at hcols'
      rw [h₁.others n hn] at hm'
      exact h.pending n m' cols hm' hcols'
  · rw [hcatalog₃] at hm'
    by_cases hn : n = name
    · rw [hn, hrgs] at hm'
      rw [← Option.some.inj hm']
      exact h.columns name m hm
    · rw [h₁.others n hn] at hm'
      exact h.columns n m' hm'
  · have hnew := h₁.rows
    rwa [List.map_nil, List.append_nil, hrows] at hnew
  · rw [hcatalog₃, hrgs]
  · rw [hcatalog₃, h₁.others n hn]
  · simp only [flushPages, List.map_nil, List.sum_nil] at hsize
    omega
  · rw [hcatalog₂] at hlen₃
    rw [hcatalog₃, hlen₃]
    simp only [flushPages, List.map_nil, List.sum_nil] at hsize ⊢
    omega

end

end DB

end LiteOLAP
