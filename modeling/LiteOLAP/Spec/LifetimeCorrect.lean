import LiteOLAP.Spec.InterruptedPersist
import LiteOLAP.Spec.StatementsCorrect

/-!
# The life of a database

A database file is created, used by statements, closed, opened again, used again. As long as the
file has fewer pages than there are page numbers, every page has one owner, and the tables are what
the statements have made of them.

## Key results

- `DB.close_returns`, `DB.open_sound`: the tables across `Close` and `Open`
- `DB.lifetime_sound`: what holds in every state
- `DB.separate_lifetime`: the catalog and the columns keep to their own pages
-/

namespace LiteOLAP

open BufferPool (Pin Serving PinRoom Fetchable Roomy)
open Catalog (cells PageChain CatalogChain Holds Reopens)

namespace DB

/-- The statement is no `INSERT`, or it succeeds. -/
def InsertsSucceed (mach : Machine) (db : DB) (stmt : Statement) : Prop :=
  ∀ name rows, stmt = .insert name rows → ∃ r db', execute mach stmt db = .ok r db'

/-- The states of a database in the course of its life, with the statements so far; `true` as long
    as it is open. Of an opened file the catalog that was written last is restored. -/
inductive Lifetime (mach : Machine) (fits : DB → Prop) : Bool → List Statement → DB → Prop
  | create {db : DB} : DB.open .create = .ok db → Lifetime mach fits true [] db
  | execute {stmts : List Statement} {db : DB} {stmt : Statement} :
      Lifetime mach fits true stmts db → Parsed stmt → InsertsSucceed mach db stmt →
      fits (execute mach stmt db).state →
      Lifetime mach fits true (stmts ++ [stmt]) (execute mach stmt db).state
  | close {stmts : List Statement} {db db' : DB} :
      Lifetime mach fits true stmts db → close db = .ok () db' → fits db' →
      Lifetime mach fits false stmts db'
  | reopen {stmts : List Statement} {db db' : DB} :
      Lifetime mach fits false stmts db → DB.open db.pool.disk = .ok db' →
      db'.catalog = db.catalog → Lifetime mach fits true stmts db'

/-- An `INSERT` that succeeds splits no row. -/
theorem InsertsSucceed.insertsWhole {mach : Machine} {db : DB} {stmt : Statement}
    (h : InsertsSucceed mach db stmt) : InsertsWhole db stmt := by
  intro name rows schema hstmt hschema before row after heq _ hrejected
  obtain ⟨r, db', hrun⟩ := h name rows hstmt
  obtain ⟨m, hm, rfl⟩ := Option.map_eq_some_iff.mp hschema
  rw [hstmt, show execute mach (.insert name rows) db = _ from insert_eq hm rows] at hrun
  cases hout : (pushRows m.schema rows (fitted m.schema (buffersOf db name))).2 with
  | some e =>
    rw [hout] at hrun
    cases hrun
  | none =>
    have hnone := (accepted_iff rows _).mp hout row (by rw [heq]; simp)
    rw [hnone] at hrejected
    cases hrejected

section

variable {mach : Machine} {db : DB} {pages : List Page} {chain : List PageId}
  {groups : Bytes → List StoredGroup}

/-! ## `Close` -/

/-- `Close` leaves the tables as they are, and all of them on the file. -/
theorem close_returns (h : Sound db pages chain groups) :
    EStateM.Returns Within close db fun _ db' => ∃ pages' chain' groups',
      Sound db' pages' chain' groups' ∧ view db' groups' = view db groups ∧
      db'.pool.disk = ⟨pages', []⟩ ∧ ∀ n, schemaOf db' n ≠ none → pendingOf db' n = [] := by
  have hover : ∀ _ : PUnit, EStateM.StaysOver Within (do
      withPool BufferPool.flushAll
      persistCatalog) := fun _ =>
    (staysOver_withPool BufferPool.staysOver_flushAll).bind fun _ => staysOver_persistCatalog
  have hpending := flushTables_returns h db.pending.keys
  refine EStateM.Returns.bind (show EStateM.Returns Within flushAllPending db _ from hpending) hover
    fun _ db₁ ⟨pages₁, chain₁, groups₁, h₁, hkeys⟩ => ?_
  refine (flushAll_returns h₁.sound.serving).bind (fun _ => staysOver_persistCatalog)
    fun _ db₂ ⟨hdb₂, hserving₂, hdisk₂⟩ => ?_
  have hcatalog₂ : db₂.catalog = db₁.catalog := by rw [hdb₂]
  have hpending₂ : db₂.pending = db₁.pending := by rw [hdb₂]
  have h₂ : Sound db₂ pages₁ chain₁ groups₁ := by
    refine ⟨hserving₂, hcatalog₂ ▸ h₁.sound.holdings, ?_, hcatalog₂ ▸ h₁.sound.columns⟩
    rw [hcatalog₂, hpending₂]
    exact h₁.sound.pending
  refine h₂.writeCatalog.mono fun _ db₃ ⟨pages₃, chain₃, h₃, hcatalog₃, hpending₃, hdisk₃⟩ => ?_
  have hcatalog : db₃.catalog = db₁.catalog := hcatalog₃.trans hcatalog₂
  have hpending : db₃.pending = db₁.pending := hpending₃.trans hpending₂
  refine ⟨pages₃, chain₃, groups₁, h₃, (view_eq hcatalog hpending).trans h₁.same, hdisk₃ hdisk₂,
    fun n hn => ?_⟩
  rw [pendingOf_congr hpending]
  rw [schemaOf, hcatalog] at hn
  by_cases hkey : n ∈ db.pending.keys
  · exact hkeys n hkey (by rw [← h₁.schemas]; exact hn)
  · refine h₁.pending n ?_
    cases hfind : db.pending.find? n with
    | none => rw [pendingOf, hfind]
    | some cols => exact absurd (SortedMap.mem_keys.mpr ⟨cols, hfind⟩) hkey

/-! ## `Open` -/

/-- A reliable file stays as it is. -/
private def Still (d d' : DiskManager) : Prop := d.faults = [] → d' = d

private instance : Std.Refl Still := ⟨fun _ _ => rfl⟩

private instance : IsTrans DiskManager Still where
  trans := by
    intro d d₁ d₂ h h' hd
    have h₁ := h hd
    subst h₁
    exact h' hd

private theorem still_readPage (pid : PageId) : EStateM.Moves Still (DiskManager.readPage pid) := by
  intro d hd
  cases hpage : d.pages[pid.toNat]? with
  | none =>
    rw [DiskManager.readPage, EStateM.bind_of_ok (EStateM.get_apply d), hpage]
    rfl
  | some page =>
    rw [DiskManager.readPage_reliable hd hpage]
    rfl

private theorem still_load : EStateM.Moves Still Catalog.load := by
  have hchain : ∀ fuel pid, EStateM.Moves Still (Catalog.readChain fuel pid) := by
    intro fuel
    induction fuel with
    | zero => exact fun pid => EStateM.moves_throw _
    | succ fuel ih =>
      intro pid
      unfold Catalog.readChain
      split
      · exact EStateM.moves_pure _
      · exact (still_readPage pid).bind fun page => (EStateM.moves_ofExcept _).bind fun part =>
          (ih _).bind fun rest => EStateM.moves_pure _
  refine EStateM.moves_get.bind fun d => ?_
  split
  · exact EStateM.moves_pure _
  · refine (still_readPage 0).bind fun page => ?_
    split
    · refine EStateM.Moves.bind (EStateM.moves_get.bind fun d => hchain _ _) fun body => ?_
      exact (EStateM.moves_ofExcept _).bind fun _ => EStateM.moves_pure _
    · exact EStateM.moves_pure _

/-- `Open` of a reliable file makes a pool that serves its pages. -/
theorem open_serving {db' : DB} (hopen : DB.open ⟨pages, []⟩ = .ok db')
    (hchain : ∀ pid ∈ chain, pid.toNat < pages.length) :
    Serving frames chain db'.pool [] pages ∧ db'.pool.disk = ⟨pages, []⟩ ∧ db'.pending = .empty := by
  have hstill := still_load ⟨pages, []⟩ rfl
  unfold DB.open at hopen
  split at hopen
  · rename_i catalog disk hload
    rw [hload] at hstill
    obtain rfl : disk = ⟨pages, []⟩ := hstill
    obtain ⟨pool, hpool, hopen⟩ := Except.bind_eq_ok.mp hopen
    obtain rfl := Except.ok.inj hopen
    have hserving := Serving.create hpool rfl hchain
    refine ⟨hserving, ?_, rfl⟩
    unfold BufferPool.create at hpool
    split at hpool
    · cases hpool
    · rw [← Except.ok.inj hpool]
  · cases hopen

/-- `Open` of a file that was closed, with the catalog that was written then. -/
theorem open_sound {db' : DB} (h : Sound db pages chain groups) (hdisk : db.pool.disk = ⟨pages, []⟩)
    (hpending : ∀ n, schemaOf db n ≠ none → pendingOf db n = [])
    (hopen : DB.open db.pool.disk = .ok db') (hcatalog : db'.catalog = db.catalog) :
    Sound db' pages chain groups ∧ view db' groups = view db groups ∧
      db'.pool.disk = ⟨pages, []⟩ := by
  rw [hdisk] at hopen
  obtain ⟨hserving, hdisk', hempty⟩ := open_serving hopen
    fun pid (hpid : pid ∈ chain) => h.holdings.catalogChain.lt hpid
  refine ⟨⟨hserving, hcatalog ▸ h.holdings, fun n m cols _ hcols => ?_, hcatalog ▸ h.columns⟩,
    funext fun n => ?_, hdisk'⟩
  · rw [hempty] at hcols
    cases hcols
  · have hschema : schemaOf db' n = schemaOf db n := by rw [schemaOf, schemaOf, hcatalog]
    have hnone : pendingOf db' n = [] := by
      rw [pendingOf, hempty]
      rfl
    rw [view, view, hschema, hnone]
    cases hdb : schemaOf db n with
    | none => rfl
    | some schema => rw [hpending n (by rw [hdb]; exact Option.some_ne_none _)]

/-- A new file. -/
theorem create_sound (hopen : DB.open .create = .ok db) :
    Sound db [.zero] [0] (fun _ => []) ∧ view db (fun _ => []) = (fun _ => none) ∧ Within db := by
  have hcatalog : db.catalog = .empty := by
    obtain ⟨db', hdb', hempty⟩ : ∃ db', DB.open .create = .ok db' ∧ db'.catalog = .empty := ⟨_, rfl, rfl⟩
    rw [hopen] at hdb'
    rw [Except.ok.inj hdb', hempty]
  have hnone : ∀ n, db.catalog.getTable n = none := fun n => by rw [hcatalog]; rfl
  have hzero : ∀ pid ∈ [(0 : PageId)], pid.toNat < [Page.zero].length := by
    intro pid hpid
    rw [List.mem_singleton.mp hpid]
    exact Nat.one_pos
  obtain ⟨hserving, hdisk, hempty⟩ := open_serving hopen hzero
  have howned : Owned [0] (fun _ : Bytes => ([] : List StoredGroup)) :=
    ⟨fun _ => List.nodup_nil, fun _ _ _ pid hpid => (by cases hpid),
      fun _ pid _ hpid => (by cases hpid)⟩
  have hfresh : CatalogChain [Page.zero] [0] := .fresh rfl (by decide)
  refine ⟨⟨hserving, ⟨hfresh, fun n m hm => ?_, fun _ _ => rfl, howned⟩,
    fun n m cols hm => ?_, fun n m hm => ?_⟩, funext fun n => ?_, ?_⟩
  · rw [hnone] at hm
    cases hm
  · rw [hnone] at hm
    cases hm
  · rw [hnone] at hm
    cases hm
  · rw [view, schemaOf, hnone]
    rfl
  · rw [Within, Roomy, hdisk]
    exact (show 1 < 2 ^ 32 by omega)

/-! ## Every state -/

/-- In every state of its life a database stands for what the statements have made of the empty
    map of tables. -/
theorem lifetime_sound {opened : Bool} {stmts : List Statement}
    (hrun : Lifetime mach Within opened stmts db) : ∃ pages chain groups,
      Sound db pages chain groups ∧ view db groups = stmts.foldl Tables.step (fun _ => none) ∧
      Within db ∧ (opened = false → db.pool.disk = ⟨pages, []⟩ ∧
        ∀ n, schemaOf db n ≠ none → pendingOf db n = []) := by
  induction hrun with
  | create hopen =>
    obtain ⟨hsound, hview, hwithin⟩ := create_sound hopen
    exact ⟨_, _, _, hsound, hview, hwithin, fun h => by cases h⟩
  | execute _ hparsed hsucceeds hfits ih =>
    obtain ⟨pages, chain, groups, h, hview, -, -⟩ := ih
    obtain ⟨pages', chain', groups', h', hview'⟩ := execute_leaves mach h hparsed
      hsucceeds.insertsWhole hfits
    refine ⟨pages', chain', groups', h', ?_, hfits, fun h => by cases h⟩
    rw [hview', hview, List.foldl_append, List.foldl_cons, List.foldl_nil]
  | close _ hclose hfits ih =>
    obtain ⟨pages, chain, groups, h, hview, -, -⟩ := ih
    obtain ⟨pages', chain', groups', h', hview', hdisk, hpending⟩ := (close_returns h).ok hclose hfits
    exact ⟨pages', chain', groups', h', hview'.trans hview, hfits, fun _ => ⟨hdisk, hpending⟩⟩
  | reopen _ hopen hcatalog ih =>
    obtain ⟨pages, chain, groups, h, hview, hwithin, hclosed⟩ := ih
    obtain ⟨hdisk, hpending⟩ := hclosed rfl
    obtain ⟨h', hview', hdisk'⟩ := open_sound h hdisk hpending hopen hcatalog
    refine ⟨pages, chain, groups, h', hview'.trans hview, ?_, fun h => by cases h⟩
    rw [Within, Roomy, hdisk', ← hdisk]
    exact hwithin

/-! ## Pages of one's own -/

/-- The first pages of all column streams that the catalog lists. -/
def columnRoots (c : Catalog) : List PageId :=
  c.tables.entries.flatMap fun e => e.2.rowGroups.flatMap (·.columnRoots)

/-- The pages of the streams, in the same order. -/
def columnChains (c : Catalog) (groups : Bytes → List StoredGroup) : List (List PageId) :=
  c.tables.entries.flatMap fun e => (groups e.1).flatMap (·.chains)

/-- A reader that begins at the page, whatever it reads and skips, comes to the end of the stream
    or throws. -/
def ReadsToEnd (pool : BufferPool) (root : PageId) : Prop :=
  ∃ bytes s pool', PagedInputStream.create root pool = .ok s pool' ∧ ∀ calls, ∃ pool'',
    match PagedInputStream.plainRun calls bytes with
    | .ok (outs, left) => ∃ s', PagedInputStream.run calls s pool' = .ok (outs, s') pool'' ∧
        (s'.atEnd = true ↔ left = [])
    | .error e => PagedInputStream.run calls s pool' = .error e pool''

/-- The catalog is on the pages `chain`, and the columns that it lists are on the pages `columns`,
    of the pages that the pool serves. -/
structure Separate (db : DB) (pages : List Page) (chain : List PageId) (columns : List (List PageId)) :
    Prop where
  serving : Serving frames chain db.pool [] pages
  catalogChain : CatalogChain pages chain
  /-- The catalog is read from the file, behind the pool's back. -/
  onFile : CatalogChain db.pool.disk.pages chain
  columnChains : List.Forall₂ (PageChain pages) (columnRoots db.catalog) columns
  nodup : (chain ++ columns.flatten).Nodup
  lt : ∀ pid ∈ chain ++ columns.flatten, pid.toNat < db.pool.disk.numPages
  /-- The walks of `Load` and `Persist` end. -/
  reopens : Reopens db.pool.disk.pages
  /-- The walks of `PagedInputStream` end. -/
  reads : ∀ root ∈ columnRoots db.catalog, ReadsToEnd db.pool root
  /-- No `Persist` changes a page of a column. -/
  persists : ∀ body d, Catalog.persistBody body db.pool.disk = .ok () d → d.numPages < 2 ^ 32 →
    ∀ pid ∈ columns.flatten, cells d.pages pid = cells db.pool.disk.pages pid
  /-- No column that is written changes a page that there is. -/
  writes : ∀ t vs, (∀ v ∈ vs, v.hasType t = true) →
    EStateM.Returns Roomy (ColumnWriter.writeColumn t vs) db.pool fun _ pool => ∃ pages',
      Serving frames chain pool [] pages' ∧ pages <+: pages'

theorem flatten_columnChains (c : Catalog) (groups : Bytes → List StoredGroup) :
    (columnChains c groups).flatten = c.tables.entries.flatMap fun e => pagesOf (groups e.1) := by
  unfold columnChains
  induction c.tables.entries with
  | nil => rfl
  | cons e entries ih =>
    rw [List.flatMap_cons, List.flatMap_cons, List.flatten_append, ih]
    rfl

theorem mem_columnChains {c : Catalog} {pid : PageId} (h : pid ∈ (columnChains c groups).flatten) :
    ∃ name, pid ∈ pagesOf (groups name) := by
  rw [flatten_columnChains] at h
  obtain ⟨e, -, hpid⟩ := List.mem_flatMap.mp h
  exact ⟨e.1, hpid⟩

/-- Each column of a row group is a stream on the pages that stand for it. -/
theorem streams_group {schema : Schema} {g : RowGroup} {sg : StoredGroup}
    (h : GroupStored pages schema g sg) : List.Forall₂ (fun root ids => ∃ bytes,
      Stored pages root ids bytes) g.columnRoots sg.chains := by
  refine List.forall₂_iff_get.mpr ⟨h.roots.trans h.chains.symm, fun c hc hc' => ?_⟩
  have hlt : c < schema.columns.length := Nat.lt_of_lt_of_eq hc h.roots
  obtain ⟨root, ids, hroot, hids, hstored⟩ := h.columns c _ (List.getElem?_eq_getElem hlt)
  rw [List.getElem?_eq_getElem hc] at hroot
  rw [List.getElem?_eq_getElem hc'] at hids
  rw [List.get_eq_getElem, List.get_eq_getElem, Option.some.inj hroot, Option.some.inj hids]
  exact ⟨_, hstored⟩

/-- Each stream that the catalog lists is on the pages that stand for it. -/
theorem Holdings.streams {c : Catalog} (h : Holdings c pages chain groups) :
    List.Forall₂ (fun root ids => ∃ bytes, Stored pages root ids bytes) (columnRoots c)
      (columnChains c groups) := by
  have hentries : ∀ e ∈ c.tables.entries, TableStored pages e.2 (groups e.1) := fun e he =>
    h.stored e.1 e.2 (SortedMap.mem_entries.mp he)
  unfold columnRoots columnChains
  generalize c.tables.entries = entries at hentries
  induction entries with
  | nil => exact .nil
  | cons e entries ih =>
    rw [List.flatMap_cons, List.flatMap_cons]
    refine List.rel_append ?_ (ih fun e' he' => hentries e' (List.mem_cons_of_mem _ he'))
    have hstored := hentries e List.mem_cons_self
    unfold TableStored at hstored
    generalize groups e.1 = sgs at hstored
    generalize e.2.rowGroups = rgs at hstored
    induction hstored with
    | nil => exact .nil
    | cons hg _ ih =>
      rw [List.flatMap_cons, List.flatMap_cons]
      exact List.rel_append (streams_group hg) ih

theorem Holdings.nodup_columnChains {c : Catalog} (h : Holdings c pages chain groups) :
    (chain ++ (columnChains c groups).flatten).Nodup := by
  refine h.catalogChain.nodup.append ?_ fun pid hpid hpid' => ?_
  · rw [flatten_columnChains]
    refine List.nodup_flatMap.mpr ⟨fun e _ => h.owned.nodup e.1, c.tables.sorted.imp fun hlt => ?_⟩
    exact h.owned.apart _ _ fun heq => Std.Irrefl.irrefl _ (heq ▸ hlt)
  · obtain ⟨name, hname⟩ := mem_columnChains hpid'
    exact h.owned.catalogApart name hpid hname

/-- Between two statements the catalog and the columns keep to their own pages. -/
theorem Sound.separate (h : Sound db pages chain groups) (hwithin : Within db) :
    Separate db pages chain (columnChains db.catalog groups) := by
  have hcells : ∀ pid ∈ chain, cells db.pool.disk.pages pid = cells pages pid :=
    fun pid hpid => cells_catalog h.serving hpid
  have honFile : CatalogChain db.pool.disk.pages chain := h.holdings.catalogChain.congr hcells
  have hstreams := Holdings.streams h.holdings
  have hnodup := Holdings.nodup_columnChains h.holdings
  have hlt : ∀ pid ∈ chain ++ (columnChains db.catalog groups).flatten,
      pid.toNat < db.pool.disk.numPages := by
    intro pid hpid
    rw [h.serving.size]
    rcases List.mem_append.mp hpid with hpid | hpid
    · exact h.holdings.catalogChain.lt hpid
    · obtain ⟨name, hname⟩ := mem_columnChains hpid
      exact h.holdings.lt hname
  refine ⟨h.serving, h.holdings.catalogChain, honFile, hstreams.imp fun _ _ ⟨_, hs⟩ => hs.links, hnodup,
    hlt, honFile.reopens, fun root hroot => ?_, fun body d hrun hsmall pid hpid => ?_, fun t vs htyped => ?_⟩
  · obtain ⟨i, hi, rfl⟩ := List.getElem_of_mem hroot
    have hi' := hstreams.length_eq ▸ hi
    obtain ⟨bytes, hstored⟩ := (List.forall₂_iff_get.mp hstreams).2 i hi hi'
    rw [List.get_eq_getElem, List.get_eq_getElem] at hstored
    have hfetch : ∀ pid ∈ (columnChains db.catalog groups)[i], Fetchable chain [] pid := by
      intro pid hpid
      have hmem := List.mem_flatten_of_mem (List.getElem_mem hi') hpid
      exact ⟨fun hchain => List.disjoint_of_nodup_append hnodup hchain hmem, by simp⟩
    have hroom : PinRoom frames [] 1 := pinRoom_frames.mono (by decide)
    have hkeeps := PagedInputStream.keeps_create (columnRoots db.catalog)[i]
    obtain ⟨s, pool', hcreate, hs, hserving'⟩ := (PagedInputStream.create_delivers h.serving hroom
      hstored hfetch).of_keeps (P := (· < 2 ^ 32)) hkeeps hwithin
    have hwithin' : Roomy pool' :=
      show pool'.disk.numPages < 2 ^ 32 from (hkeeps.of_ok hcreate).symm ▸ hwithin
    refine ⟨bytes, s, pool', hcreate, fun calls => ?_⟩
    obtain ⟨pool'', -, hcalls⟩ := PagedInputStream.run_plainRun hroom calls hwithin' hserving' hs
    exact ⟨pool'', hcalls⟩
  · obtain ⟨hle, hpersisted⟩ := (Catalog.persistBody_yields honFile body).ok hrun
    refine (hpersisted hsmall).frame _ (hlt pid (List.mem_append_right _ hpid)) fun p hp heq => ?_
    exact List.disjoint_of_nodup_append hnodup (UInt32.toNat_inj.mp heq ▸ hp) hpid
  · exact (ColumnWriter.writeColumn_returns h.serving pinRoom_frames htyped).mono
      fun _ pool ⟨pages', hserving', hextends, _⟩ => ⟨pages', hserving', hextends⟩

end

end DB

end LiteOLAP
