import LiteOLAP.Spec.ColumnRoundtrip
import LiteOLAP.Spec.LifetimeCorrect

/-!
# A file with as many pages as page numbers

Every flush takes new pages, and no page is given back. A table that is filled, read and truncated
over and over lets the file grow to `2 ^ 32 - 1` pages; the next flush then begins a column on the
page that the catalog has.

## Key results

- `DB.Steady.cycle`: one round takes two pages
- `DB.not_separate_fullFile`: the first round that does not fit
-/

namespace LiteOLAP

open Bytes (ofAscii)
open BufferPool (Pin Serving PinRoom Fetchable Roomy)
open Catalog (pagesFor)

/-! ## What keeps the size of the file -/

namespace Catalog

/-- `Persist` of a body that fits on one page allocates none: there is always page 0. -/
theorem keeps_persistBody {body : Bytes} (hsmall : pagesFor body ≤ 1) :
    EStateM.Keeps DiskManager.numPages (persistBody body) := by
  have hread : ∀ pid, EStateM.Keeps DiskManager.numPages (DiskManager.readPage pid) :=
    fun pid d => BufferPool.readPage_numPages d pid
  have hfollow : ∀ fuel next, EStateM.Keeps DiskManager.numPages (followChain fuel next) := by
    intro fuel
    induction fuel with
    | zero => exact fun next => EStateM.keeps_throw _
    | succ fuel ih =>
      intro next
      unfold followChain
      refine EStateM.Keeps.ite (EStateM.keeps_pure _) ?_
      exact (hread next).bind fun page => (ih page.nextPageId).bind fun rest => EStateM.keeps_pure _
  have hwrite : ∀ chain n i, EStateM.Keeps DiskManager.numPages (writePages chain body n i) := by
    intro chain n
    induction n with
    | zero => exact fun i => EStateM.keeps_pure _
    | succ n ih =>
      intro i
      exact EStateM.Keeps.bind (fun d => BufferPool.writePage_numPages d _ _) fun _ => ih (i + 1)
  simp only [persistBody, existingChain, bind_assoc, pure_bind]
  refine EStateM.keeps_get.bind fun d => (hread 0).bind fun page => ?_
  refine (hfollow _ _).bind fun rest => ?_
  have hnone : pagesFor body - (0 :: rest).length = 0 := by
    rw [List.length_cons]
    omega
  rw [hnone, allocatePages, pure_bind]
  exact hwrite _ _ _

/-- The body of a catalog with one table. -/
theorem pagesFor_one_table {c : Catalog} {name : Bytes} {m : TableMeta}
    (hm : c.getTable name = some m) (halone : ∀ n, n ≠ name → c.getTable n = none)
    (hsize : 4 + (putTable m).length ≤ payloadCapacity) : pagesFor c.body ≤ 1 := by
  have hentries : c.tables = SortedMap.empty.insert name m := by
    refine SortedMap.ext_find? fun k => ?_
    rw [SortedMap.find?_insert]
    by_cases hk : k = name
    · rw [if_pos hk, hk]
      exact hm
    · rw [if_neg hk]
      exact halone k hk
  have hbody : c.body.length = 4 + (putTable m).length := by
    rw [body, numTables, hentries, List.length_append, Bytes.length_leBytes]
    show 4 + ([(name, m)].flatMap fun p => putTable p.2).length = _
    simp
  rw [pagesFor, hbody]
  unfold payloadCapacity at *
  omega

end Catalog

namespace Column

variable {usable : List Nat} {bp : BufferPool} {pages : List Page}

/-- A value on a page of its own, however long the file is. -/
theorem writeColumn_cut (h : Serving usable [] bp [] pages) (hroom : PinRoom usable [] 1)
    {t : ColumnType} {v : Value} {c : EncodedChunk} (hc : encodeChunk t [v] = .ok c)
    (hsmall : 32 + c.payload.length ≤ payloadCapacity) : ∃ bp' pages',
      ColumnWriter.writeColumn t [v] bp = .ok (UInt32.ofNat pages.length) bp' ∧
      Serving usable [] bp' [] pages' ∧ pages'.length = pages.length + 1 := by
  obtain ⟨idx, bp₁, hnew, hserving⟩ := h.newPage_cut hroom
  obtain ⟨f, hwrite⟩ := writeColumn_one_page hc hsmall hnew
  have hlt : (UInt32.ofNat pages.length).toNat < (pages ++ [Page.zero]).length := by
    rw [UInt32.toNat_ofNat', List.length_append, List.length_singleton]
    exact Nat.lt_succ_of_le (Nat.mod_le _ _)
  have hmodified := hserving.modifyPage List.mem_cons_self (List.getElem?_set_self hlt) f
  have hunpinned := hmodified.unpinPage List.mem_cons_self true fun _ => rfl
  rw [List.erase_cons_head, List.erase_cons_head] at hunpinned
  refine ⟨_, _, hwrite, hunpinned, ?_⟩
  rw [List.length_set, List.length_set, List.length_append, List.length_singleton]

end Column

namespace DB

section

variable {db : DB} {schema : Schema}

/-! ## One flush -/

/-- The row group of the pending row `(7, 7)`: two pages, numbered by the length of the file. -/
theorem flushRowGroup_sevens {pool : BufferPool} {pages : List Page}
    (h : Serving frames [] pool [] pages) (hcolumns : schema.columns = columnsOf twoInts) :
    ∃ pool', flushRowGroup schema [[.int32 7], [.int32 7]] 0 1 pool =
        .ok ⟨1, [UInt32.ofNat pages.length, UInt32.ofNat (pages.length + 1)]⟩ pool' ∧
      pool'.disk.numPages = pages.length + 2 := by
  have hroom : PinRoom frames [] 1 := pinRoom_frames.mono (by decide)
  obtain ⟨c, hc, hsmall⟩ := Column.encodeChunk_seven
  have hfits : 32 + c.payload.length ≤ payloadCapacity := by
    unfold payloadCapacity
    omega
  obtain ⟨pool₁, pages₁, hwrite₁, h₁, hlen₁⟩ := Column.writeColumn_cut h hroom hc hfits
  obtain ⟨pool₂, pages₂, hwrite₂, h₂, hlen₂⟩ := Column.writeColumn_cut h₁ hroom hc hfits
  have hcolumn : ∀ c : Nat, [[Value.int32 7], [.int32 7]][c]? = some [.int32 7] →
      flushColumn [[.int32 7], [.int32 7]] 0 1 c .int = ColumnWriter.writeColumn .int [.int32 7] :=
    fun c hvs => flushColumn_eq hvs (Nat.le_refl 1) .int
  refine ⟨pool₂, ?_, by rw [h₂.size, hlen₂, hlen₁]⟩
  have hnum : schema.numColumns = 2 := by rw [Schema.numColumns, hcolumns]; rfl
  have hfirst : schema.getColumn 0 = .ok ⟨ofAscii "a", .int, 0, 0⟩ := by
    rw [Schema.getColumn, hcolumns]
    rfl
  have hsecond : schema.getColumn 1 = .ok ⟨ofAscii "b", .int, 0, 1⟩ := by
    rw [Schema.getColumn, hcolumns]
    rfl
  rw [hlen₁] at hwrite₂
  obtain ⟨f, hf⟩ : ∃ f : Nat → EStateM Exc BufferPool PageId, f = fun c => (do
      let col ← EStateM.ofExcept (schema.getColumn c)
      flushColumn [[.int32 7], [.int32 7]] 0 1 c col.type) := ⟨_, rfl⟩
  have hf₀ : f 0 pool = .ok (UInt32.ofNat pages.length) pool₁ := by
    rw [hf]
    dsimp only
    rw [hfirst]
    refine (EStateM.bind_of_ok (EStateM.ofExcept_ok _ _)).trans ?_
    rw [hcolumn 0 rfl]
    exact hwrite₁
  have hf₁ : f 1 pool₁ = .ok (UInt32.ofNat (pages.length + 1)) pool₂ := by
    rw [hf]
    dsimp only
    rw [hsecond]
    refine (EStateM.bind_of_ok (EStateM.ofExcept_ok _ _)).trans ?_
    rw [hcolumn 1 rfl]
    exact hwrite₂
  rw [flushRowGroup, hnum, ← hf, show List.range 2 = [0, 1] from rfl]
  simp only [List.mapM_cons, List.mapM_nil, EStateM.bind_apply, hf₀, hf₁, EStateM.pure_apply]
  rfl

/-- Catalog and pending columns are the same, and the file has as many pages if the catalog fits on
    one page. -/
structure Same (db db' : DB) : Prop where
  catalog : db'.catalog = db.catalog
  pending : db'.pending = db.pending
  size : pagesFor db.catalog.body ≤ 1 → db'.pool.disk.numPages = db.pool.disk.numPages

instance : Std.Refl Same := ⟨fun _ => ⟨rfl, rfl, fun _ => rfl⟩⟩

instance : IsTrans DB Same where
  trans := fun _ _ _ h h' => ⟨h'.catalog.trans h.catalog, h'.pending.trans h.pending,
    fun hsmall => (h'.size (h.catalog.symm ▸ hsmall)).trans (h.size hsmall)⟩

/-- What keeps the size of the file changes nothing else of the database. -/
theorem same_withPool {α : Type} {x : EStateM Exc BufferPool α}
    (h : EStateM.Keeps (·.disk.numPages) x) : EStateM.Moves Same (withPool x) := by
  intro db
  have hsize := h db.pool
  unfold withPool EStateM.zoom
  split
  · rename_i hrun
    rw [hrun] at hsize
    exact ⟨rfl, rfl, fun _ => hsize⟩
  · rename_i hrun
    rw [hrun] at hsize
    exact ⟨rfl, rfl, fun _ => hsize⟩

theorem same_flushAll : EStateM.Moves Same (withPool BufferPool.flushAll) := by
  refine same_withPool (EStateM.keeps_get.bind fun bp => ?_)
  generalize List.range bp.numFrames = l
  induction l with
  | nil => exact EStateM.keeps_pure _
  | cons i l ih =>
    exact EStateM.Keeps.bind (fun bp => BufferPool.numPages_flushFrame i bp) fun _ => ih

theorem same_persistCatalog : EStateM.Moves Same persistCatalog := by
  intro db
  obtain ⟨hcatalog, hpending⟩ := Prod.ext_iff.mp (keeps_persistCatalog db)
  refine ⟨hcatalog, hpending, fun hsmall => ?_⟩
  have hkeeps : EStateM.Keeps (·.disk.numPages) (BufferPool.withDisk db.catalog.persist) := by
    intro pool
    have hsize := Catalog.keeps_persistBody hsmall pool.disk
    unfold BufferPool.withDisk EStateM.zoom Catalog.persist
    split <;> rename_i hrun <;> rw [hrun] at hsize <;> exact hsize
  exact (same_withPool hkeeps db).size hsmall

/-- What `SELECT` does after its flushes. -/
theorem same_planned (mach : Machine) (stmt : SelectStmt) : EStateM.Moves Same (do
    let plan ← EStateM.ofExcept (Planner.planSelect stmt (← get).catalog)
    let stream ← withPool (plan.open mach)
    let rows ← EStateM.ofExcept (stream.forEach (fun rows b => .ok (rows ++ b.rows)) [])
    return ⟨plan.outputNames, rows⟩ : EStateM Exc DB ResultSet) := by
  refine EStateM.moves_get.bind fun db => (EStateM.moves_ofExcept _).bind fun plan => ?_
  refine (same_withPool (Plan.keeps_open mach plan)).bind fun stream => ?_
  exact (EStateM.moves_ofExcept _).bind fun rows => EStateM.moves_pure _

/-! ## One round -/

/-- `SELECT * FROM t`. -/
def selectAll : SelectStmt where
  selectStar := true
  items := []
  tables := [⟨ofAscii "t", ofAscii "t"⟩]
  «where» := none
  groupBy := []
  having := none
  orderBy := none
  limit := none

/-- The only table is `t`, with the row groups `rgs` and the pending columns `cols`. -/
structure Alone (schema : Schema) (rgs : List RowGroup) (cols : List (List Value)) (db : DB) :
    Prop where
  table : db.catalog.getTable (ofAscii "t") = some ⟨ofAscii "t", schema, rgs⟩
  alone : ∀ n, n ≠ ofAscii "t" → db.catalog.getTable n = none
  pending : db.pending.find? (ofAscii "t") = some cols

theorem Alone.same {db' : DB} {rgs : List RowGroup} {cols : List (List Value)}
    (h : Alone schema rgs cols db) (hsame : Same db db') : Alone schema rgs cols db' :=
  ⟨hsame.catalog ▸ h.table, hsame.catalog ▸ h.alone, hsame.pending ▸ h.pending⟩

/-- The catalog fits on one page. -/
theorem Alone.small {rgs : List RowGroup} {cols : List (List Value)} (h : Alone schema rgs cols db)
    (hcolumns : schema.columns = columnsOf twoInts)
    (hrgs : (rgs.flatMap Catalog.putRowGroup).length ≤ 16) : pagesFor db.catalog.body ≤ 1 := by
  refine Catalog.pagesFor_one_table h.table h.alone ?_
  have hschema : schema.serialize.length = 12 := by
    rw [Schema.serialize, hcolumns]
    rfl
  have hname : (ofAscii "t").length = 1 := rfl
  simp only [Catalog.putTable, List.length_append, Bytes.length_leBytes, hschema, hname]
  unfold payloadCapacity
  omega

/-- `INSERT INTO t VALUES (7, 7)`. -/
theorem insert_sevens (hcolumns : schema.columns = columnsOf twoInts)
    (h : Alone schema [] [[], []] db) : ∃ db',
      execute oneThread (.insert (ofAscii "t") [[.int32 7, .int32 7]]) db = .ok ⟨[], []⟩ db' ∧
      Alone schema [] [[.int32 7], [.int32 7]] db' ∧ db'.pool = db.pool := by
  have hpush : pushRows schema [[.int32 7, .int32 7]] (fitted schema [[], []]) =
      ([[.int32 7], [.int32 7]], none) := by
    simp only [pushRows, rowOutcome, fitted, Schema.numColumns, hcolumns]
    rfl
  have hbuffers : buffersOf db (ofAscii "t") = [[], []] := by rw [buffersOf, h.pending]; rfl
  refine ⟨setBuffers (ofAscii "t") [[.int32 7], [.int32 7]] db, (insert_eq h.table _).trans ?_,
    ⟨h.table, h.alone, (SortedMap.find?_insert _ _ _ _).trans (if_pos rfl)⟩, rfl⟩
  rw [hbuffers, hpush]
  rfl

/-- `SELECT * FROM t` takes two pages for the pending row. -/
theorem select_sevens {pages : List Page} (hcolumns : schema.columns = columnsOf twoInts)
    (h : Alone schema [] [[.int32 7], [.int32 7]] db) (hserving : Serving frames [] db.pool [] pages) :
    Alone schema [⟨1, [UInt32.ofNat pages.length, UInt32.ofNat (pages.length + 1)]⟩] [[], []]
        (execute oneThread (.select selectAll) db).state ∧
      (execute oneThread (.select selectAll) db).state.pool.disk.numPages = pages.length + 2 := by
  obtain ⟨pool, hgroup, hsize⟩ := flushRowGroup_sevens hserving hcolumns
  obtain ⟨catalog, hadd, hget⟩ := Catalog.addRowGroup_eq h.table
    ⟨1, [UInt32.ofNat pages.length, UInt32.ofNat (pages.length + 1)]⟩
  have hround : flushFrom (ofAscii "t") schema [[.int32 7], [.int32 7]] 1 0 db =
      .ok () { db with pool, catalog } := by
    refine (EStateM.bind_of_ok (withPool_of_ok hgroup)).trans ?_
    refine (EStateM.bind_of_ok (EStateM.get_apply _)).trans ?_
    dsimp only
    rw [hadd]
    rfl
  -- after the row group is added and the pending columns are cleared
  obtain ⟨db', hdb'⟩ : ∃ db', db' = clearPending (ofAscii "t") { db with pool, catalog } := ⟨_, rfl⟩
  have halone : Alone schema
      [⟨1, [UInt32.ofNat pages.length, UInt32.ofNat (pages.length + 1)]⟩] [[], []] db' := by
    rw [hdb']
    refine ⟨?_, fun n hn => ?_, ?_⟩
    · rw [clearPending_catalog]
      exact (hget _).trans (if_pos rfl)
    · rw [clearPending_catalog]
      exact ((hget n).trans (if_neg hn)).trans (h.alone n hn)
    · rw [find?_clearPending, if_pos rfl]
      exact congrArg (Option.map _) h.pending
  have hflush : flushTable (ofAscii "t") db = (do
      withPool BufferPool.flushAll
      persistCatalog : EStateM Exc DB Unit) db' := by
    have hstarts : rowGroupStarts [Value.int32 7].length = [0] := rfl
    rw [flushTable, EStateM.bind_of_ok (EStateM.get_apply db), h.pending, h.table]
    dsimp only
    rw [if_neg (List.cons_ne_nil _ _), hstarts, hdb']
    refine (EStateM.bind_of_ok ((EStateM.bind_of_ok hround).trans rfl)).trans ?_
    exact EStateM.bind_of_ok (EStateM.modify_apply _ _)
  have hsame : Same db' (execute oneThread (.select selectAll) db).state := by
    refine EStateM.Moves.follow (R := Same) ?_ fun _ => same_planned oneThread selectAll
    refine EStateM.Moves.follow (R := Same) ?_ fun _ => EStateM.moves_pure _
    show Same db' (flushTable (ofAscii "t") db).state
    rw [hflush]
    exact (same_flushAll.bind fun _ => same_persistCatalog) db'
  refine ⟨halone.same hsame, (hsame.size (halone.small hcolumns ?_)).trans ?_⟩
  · simp [Catalog.putRowGroup, Bytes.length_leBytes]
  · rw [hdb', clearPending_pool]
    exact hsize

/-- `TRUNCATE TABLE t` takes no page. -/
theorem truncate_sevens {rgs : List RowGroup} (hcolumns : schema.columns = columnsOf twoInts)
    (h : Alone schema rgs [[], []] db) :
    Alone schema [] [[], []] (execute oneThread (.truncate (ofAscii "t")) db).state ∧
      (execute oneThread (.truncate (ofAscii "t")) db).state.pool.disk.numPages =
        db.pool.disk.numPages := by
  obtain ⟨catalog, hclear, hget⟩ := Catalog.clearRowGroups_eq h.table
  have halone : Alone schema [] [[], []] (clearPending (ofAscii "t") { db with catalog }) := by
    refine ⟨?_, fun n hn => ?_, ?_⟩
    · rw [clearPending_catalog]
      exact (hget _).trans (if_pos rfl)
    · rw [clearPending_catalog]
      exact ((hget n).trans (if_neg hn)).trans (h.alone n hn)
    · rw [find?_clearPending, if_pos rfl]
      exact congrArg (Option.map _) h.pending
  have hrun : execute oneThread (.truncate (ofAscii "t")) db =
      (do persistCatalog; return ⟨[], []⟩ : EStateM Exc DB ResultSet)
        (clearPending (ofAscii "t") { db with catalog }) := by
    rw [execute, truncate, EStateM.bind_of_ok (EStateM.get_apply db), h.table]
    simp only [Option.isNone_some, Bool.false_eq_true, if_false]
    rw [EStateM.bind_of_ok (EStateM.get_apply db), hclear,
      EStateM.bind_of_ok (EStateM.ofExcept_ok _ _)]
    exact EStateM.bind_of_ok (EStateM.modify_apply _ _)
  have hsame := (same_persistCatalog.bind fun _ => EStateM.moves_pure (⟨[], []⟩ : ResultSet))
    (clearPending (ofAscii "t") { db with catalog })
  rw [hrun]
  refine ⟨halone.same hsame, (hsame.size (halone.small hcolumns (Nat.zero_le _))).trans ?_⟩
  rw [clearPending_pool]

/-! ## All rounds -/

/-- Between two rounds, with `size` pages in the file. -/
def Steady (schema : Schema) (size : Nat) (db : DB) : Prop :=
  (∃ stmts, Lifetime oneThread (fun _ => True) true stmts db) ∧ Alone schema [] [[], []] db ∧
    ∃ pages chain groups, Sound db pages chain groups ∧ pages.length = size

/-- No `INSERT`. -/
theorem insertsSucceed_of_ne {mach : Machine} {stmt : Statement}
    (h : ∀ name rows, stmt ≠ .insert name rows) : InsertsSucceed mach db stmt :=
  fun name rows heq => absurd heq (h name rows)

theorem exists_lifetime {stmts : List Statement} (h : Lifetime oneThread (fun _ => True) true stmts db)
    (stmt : Statement) (hparsed : Parsed stmt) (hsucceeds : InsertsSucceed oneThread db stmt) :
    ∃ stmts, Lifetime oneThread (fun _ => True) true stmts (execute oneThread stmt db).state :=
  ⟨_, h.execute hparsed hsucceeds trivial⟩

/-- A statement keeps the database sound as long as the file is not full. -/
theorem Sound.executed {pages : List Page} {chain : List PageId} {groups : Bytes → List StoredGroup}
    (h : Sound db pages chain groups) (stmt : Statement) (hparsed : Parsed stmt)
    (hsucceeds : InsertsSucceed oneThread db stmt) {size : Nat}
    (hsize : (execute oneThread stmt db).state.pool.disk.numPages = size) (hlt : size < 2 ^ 32) :
    ∃ pages' chain' groups', Sound (execute oneThread stmt db).state pages' chain' groups' ∧
      pages'.length = size := by
  obtain ⟨pages', chain', groups', h', -⟩ := execute_leaves oneThread h hparsed hsucceeds.insertsWhole
    (show Within _ from show _ < _ from hsize ▸ hlt)
  exact ⟨pages', chain', groups', h', h'.serving.size.symm.trans hsize⟩

/-- One round takes two pages. -/
theorem Steady.cycle {size : Nat} (hcolumns : schema.columns = columnsOf twoInts)
    (h : Steady schema size db) : ∃ db',
      (∃ stmts, Lifetime oneThread (fun _ => True) true stmts db') ∧
      Alone schema [⟨1, [UInt32.ofNat size, UInt32.ofNat (size + 1)]⟩] [[], []] db' ∧
      (size + 2 < 2 ^ 32 → ∃ db'', Steady schema (size + 2) db'') := by
  obtain ⟨⟨stmts, hrun⟩, halone, pages, chain, groups, hsound, hlen⟩ := h
  obtain ⟨db₁, hinsert, halone₁, hpool₁⟩ := insert_sevens hcolumns halone
  have hsucceeds : InsertsSucceed oneThread db (.insert (ofAscii "t") [[.int32 7, .int32 7]]) :=
    fun _ _ _ => ⟨_, _, hinsert⟩
  obtain ⟨stmts₁, hrun₁⟩ := exists_lifetime hrun (.insert (ofAscii "t") [[.int32 7, .int32 7]])
    trivial hsucceeds
  rw [hinsert] at hrun₁
  have hserving₁ : Serving frames [] db₁.pool [] pages := by
    rw [hpool₁]
    exact ⟨hsound.serving.coherent, hsound.serving.accounted, fun _ hpid => (by cases hpid),
      fun _ hpid => by cases hpid⟩
  have hselect : ∀ name rows, Statement.select selectAll ≠ .insert name rows :=
    fun _ _ heq => by cases heq
  obtain ⟨stmts₂, hrun₂⟩ := exists_lifetime hrun₁ (.select selectAll) trivial
    (insertsSucceed_of_ne hselect)
  obtain ⟨halone₂, hsize₂⟩ := select_sevens hcolumns halone₁ hserving₁
  rw [hlen] at halone₂ hsize₂
  refine ⟨_, ⟨stmts₂, hrun₂⟩, halone₂, fun hlt => ?_⟩
  have hsize₁ : (execute oneThread (.insert (ofAscii "t") [[.int32 7, .int32 7]])
      db).state.pool.disk.numPages = size := by
    rw [hinsert, EStateM.Result.state_ok, hpool₁, hsound.serving.size, hlen]
  have hinsertParsed : Parsed (.insert (ofAscii "t") [[.int32 7, .int32 7]]) := trivial
  obtain ⟨pages₁, chain₁, groups₁, hsound₁, -⟩ := hsound.executed _ hinsertParsed hsucceeds hsize₁
    (by omega)
  rw [hinsert] at hsound₁
  obtain ⟨pages₂, chain₂, groups₂, hsound₂, hlen₂⟩ := hsound₁.executed (.select selectAll)
    trivial (insertsSucceed_of_ne hselect) hsize₂ hlt
  have htruncate : ∀ name rows, Statement.truncate (ofAscii "t") ≠ .insert name rows :=
    fun _ _ heq => by cases heq
  obtain ⟨halone₃, hsize₃⟩ := truncate_sevens hcolumns halone₂
  exact ⟨_, exists_lifetime hrun₂ (.truncate (ofAscii "t")) trivial (insertsSucceed_of_ne htruncate),
    halone₃, hsound₂.executed (.truncate (ofAscii "t")) trivial
      (insertsSucceed_of_ne htruncate) (hsize₃.trans hsize₂) hlt⟩

/-- A new file, with the empty table `t (a INT, b INT)`. -/
theorem exists_created : ∃ schema start, schema.columns = columnsOf twoInts ∧
    DB.open .create = .ok start ∧
    Alone schema [] [[], []] (execute oneThread (.createTable (ofAscii "t") twoInts) start).state ∧
    (execute oneThread (.createTable (ofAscii "t") twoInts) start).state.pool.disk.numPages = 1 := by
  obtain ⟨schema, hschema, hcolumns⟩ : ∃ schema, Schema.ofColumns (columnsOf twoInts) = .ok schema ∧
      schema.columns = columnsOf twoInts := ⟨_, rfl, rfl⟩
  obtain ⟨start, hopen, hcatalog⟩ :
      ∃ start, DB.open .create = .ok start ∧ start.catalog = .empty := ⟨_, rfl, rfl⟩
  have hnone : ∀ n, start.catalog.getTable n = none := fun n => by rw [hcatalog]; rfl
  obtain ⟨hsound, -, -⟩ := create_sound hopen
  obtain ⟨catalog, hget, hrun⟩ := createTable_eq (hnone (ofAscii "t")) hschema
  have halone : Alone schema [] [[], []]
      (setBuffers (ofAscii "t") (List.replicate schema.numColumns []) { start with catalog }) := by
    refine ⟨(hget _).trans (if_pos rfl), fun n hn => ((hget n).trans (if_neg hn)).trans (hnone n), ?_⟩
    rw [setBuffers, SortedMap.find?_insert, if_pos rfl, Schema.numColumns, hcolumns]
    rfl
  have hsame := (same_persistCatalog.bind fun _ => EStateM.moves_pure (⟨[], []⟩ : ResultSet))
    (setBuffers (ofAscii "t") (List.replicate schema.numColumns []) { start with catalog })
  have hstate : (execute oneThread (.createTable (ofAscii "t") twoInts) start).state =
      ((do persistCatalog; return ⟨[], []⟩ : EStateM Exc DB ResultSet)
        (setBuffers (ofAscii "t") (List.replicate schema.numColumns [])
          { start with catalog })).state := congrArg EStateM.Result.state hrun
  refine ⟨schema, start, hcolumns, hopen, ?_, ?_⟩
  · rw [hstate]
    exact halone.same hsame
  · rw [hstate, hsame.size (halone.small hcolumns (Nat.zero_le _))]
    exact hsound.serving.size

/-- `CREATE TABLE` is no `INSERT`. -/
theorem createTable_ne_insert (table : Bytes) (defs : List ColumnDef) (name : Bytes)
    (rows : List (List Value)) : Statement.createTable table defs ≠ .insert name rows :=
  fun heq => by cases heq

/-- The file can grow to any odd number of pages that is a page number. -/
theorem exists_steady : ∃ schema : Schema, schema.columns = columnsOf twoInts ∧
    ∀ rounds, 1 + 2 * rounds < 2 ^ 32 → ∃ db, Steady schema (1 + 2 * rounds) db := by
  obtain ⟨schema, start, hcolumns, hopen, halone, hsize⟩ := exists_created
  obtain ⟨hsound, -, -⟩ := create_sound hopen
  refine ⟨schema, hcolumns, fun rounds => ?_⟩
  induction rounds with
  | zero =>
    intro _
    have hparsed : Parsed (.createTable (ofAscii "t") twoInts) := List.cons_ne_nil _ _
    have hsucceeds : InsertsSucceed oneThread start (.createTable (ofAscii "t") twoInts) :=
      insertsSucceed_of_ne (createTable_ne_insert _ _)
    exact ⟨_, exists_lifetime (.create hopen) _ hparsed hsucceeds, halone,
      hsound.executed _ hparsed hsucceeds hsize (by omega)⟩
  | succ rounds ih =>
    intro hlt
    obtain ⟨db, h⟩ := ih (by omega)
    obtain ⟨-, -, -, hnext⟩ := h.cycle hcolumns
    have heq : 1 + 2 * rounds + 2 = 1 + 2 * (rounds + 1) := by omega
    exact heq ▸ hnext (heq ▸ hlt)

/-- A column that begins on page 0 has a page of the catalog. -/
theorem not_separate_of_zero {pages : List Page} {chain : List PageId} {columns : List (List PageId)}
    (hzero : 0 ∈ columnRoots db.catalog) : ¬ Separate db pages chain columns := by
  intro h
  obtain ⟨i, hi, hroot⟩ := List.getElem_of_mem hzero
  have hi' := h.columnChains.length_eq ▸ hi
  have hpages := (List.forall₂_iff_get.mp h.columnChains).2 i hi hi'
  rw [List.get_eq_getElem, List.get_eq_getElem, hroot] at hpages
  obtain ⟨rest, hchain⟩ := h.catalogChain.head
  have hmem : 0 ∈ columns[i] := by
    generalize columns[i] = ids at hpages
    cases ids with
    | nil => exact absurd (show (0 : PageId) = kInvalidPageId from hpages) (by decide)
    | cons pid ids =>
      rw [show (0 : PageId) = pid from hpages.1]
      exact List.mem_cons_self
  exact List.disjoint_of_nodup_append h.nodup (hchain ▸ List.mem_cons_self)
    (List.mem_flatten_of_mem (List.getElem_mem hi') hmem)

end

end DB

end LiteOLAP
