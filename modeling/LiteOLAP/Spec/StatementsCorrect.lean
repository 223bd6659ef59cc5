import LiteOLAP.Spec.PendingCorrect
import LiteOLAP.Spec.PlanScans

/-!
# The database as a map of tables

What a database is for: a map from table names to a schema and a list of rows. Rows lie in row
groups and in pending columns; a statement does to the two together what it does to the map.

## Key results

- `DB.flushTable_returns`: a flush changes nothing of the map
- `DB.execute_leaves`: a statement that splits no row is a step of the map
-/

namespace LiteOLAP

open BufferPool (Pin Serving PinRoom Fetchable Roomy)
open Catalog (cells PageChain CatalogChain Holds)

/-- Tables by their names: the schema of each, and its rows in the order of their insertion. -/
abbrev Tables : Type := Bytes → Option (Schema × List Row)

/-- What a statement does to the tables. Rows of an `INSERT` are stored up to the first that is
    rejected. -/
def Tables.step (t : Tables) : Statement → Tables
  | .createTable name defs =>
    match t name, Schema.ofColumns (DB.columnsOf defs) with
    | none, .ok schema => Function.update t name (some (schema, []))
    | _, _ => t
  | .dropTable name => Function.update t name none
  | .truncate name => Function.update t name ((t name).map fun e => (e.1, []))
  | .insert name rows =>
    Function.update t name ((t name).map fun e => (e.1, e.2 ++ DB.storedRows e.1 rows))
  | .select _ => t

namespace DB

/-- The tables that a database stands for, where `groups` are the row groups of each. -/
def view (db : DB) (groups : Bytes → List StoredGroup) : Tables := fun n =>
  (schemaOf db n).map fun schema => (schema, rowsOf (groups n) ++ pendingOf db n)

section

variable {db : DB} {pages : List Page} {chain : List PageId} {groups : Bytes → List StoredGroup}
  {name : Bytes}

theorem view_congr {db' : DB} {groups' : Bytes → List StoredGroup}
    (hschemas : ∀ n, schemaOf db' n = schemaOf db n)
    (hrows : ∀ n, rowsOf (groups' n) ++ pendingOf db' n = rowsOf (groups n) ++ pendingOf db n) :
    view db' groups' = view db groups := by
  refine funext fun n => ?_
  rw [view, view, hschemas, hrows]

theorem pendingOf_eq_of_find? {db' : DB} {n : Bytes}
    (h : db'.pending.find? n = db.pending.find? n) : pendingOf db' n = pendingOf db n := by
  rw [pendingOf, pendingOf, h]

theorem pendingOf_congr {db' : DB} {n : Bytes} (h : db'.pending = db.pending) :
    pendingOf db' n = pendingOf db n := pendingOf_eq_of_find? (by rw [h])

/-- One table is replaced. -/
theorem view_update (groups : Bytes → List StoredGroup) {db' : DB} {entry : Option Schema}
    (new : List StoredGroup)
    (hschemas : ∀ n, schemaOf db' n = if n = name then entry else schemaOf db n)
    (hpending : ∀ n, n ≠ name → pendingOf db' n = pendingOf db n) :
    view db' (Function.update groups name new) = Function.update (view db groups) name
      (entry.map fun schema => (schema, rowsOf new ++ pendingOf db' name)) := by
  refine funext fun n => ?_
  rw [view, hschemas]
  by_cases hn : n = name
  · rw [if_pos hn, hn, Function.update_self, Function.update_self]
  · rw [if_neg hn, Function.update_of_ne hn, Function.update_of_ne hn, hpending n hn]
    rfl

/-! ## Flushing -/

theorem staysOver_flushTable (name : Bytes) : EStateM.StaysOver Within (flushTable name) := by
  refine EStateM.staysOver_get.bind fun db => ?_
  split
  · refine EStateM.StaysOver.ite (EStateM.staysOver_pure _) ?_
    refine (EStateM.StaysOver.forM (fun start => staysOver_flushFrom _ _ _ _ start) _).bind fun _ => ?_
    refine (staysOver_modify (clearPending_pool name)).bind fun _ => ?_
    exact (staysOver_withPool BufferPool.staysOver_flushAll).bind fun _ => staysOver_persistCatalog
  · exact EStateM.staysOver_pure _

/-- Between two statements again: the tables are the same, and what was not pending is not
    pending. -/
structure Flushed (db : DB) (groups : Bytes → List StoredGroup) (pages' : List Page)
    (chain' : List PageId) (groups' : Bytes → List StoredGroup) (db' : DB) : Prop where
  sound : Sound db' pages' chain' groups'
  same : view db' groups' = view db groups
  schemas : ∀ n, schemaOf db' n = schemaOf db n
  pending : ∀ n, pendingOf db n = [] → pendingOf db' n = []

theorem Flushed.refl (h : Sound db pages chain groups) : Flushed db groups pages chain groups db :=
  ⟨h, rfl, fun _ => rfl, fun _ h => h⟩

theorem Flushed.trans {db₁ db₂ : DB} {pages₁ pages₂ : List Page} {chain₁ chain₂ : List PageId}
    {groups₁ groups₂ : Bytes → List StoredGroup} (h : Flushed db groups pages₁ chain₁ groups₁ db₁)
    (h' : Flushed db₁ groups₁ pages₂ chain₂ groups₂ db₂) :
    Flushed db groups pages₂ chain₂ groups₂ db₂ where
  sound := h'.sound
  same := h'.same.trans h.same
  schemas := fun n => (h'.schemas n).trans (h.schemas n)
  pending := fun n hn => h'.pending n (h.pending n hn)

/-- A flush of any name leaves the tables as they are, and nothing pending for a table of that
    name. -/
theorem flushTable_returns (h : Sound db pages chain groups) (name : Bytes) :
    EStateM.Returns Within (flushTable name) db fun _ db' => ∃ pages' chain' groups',
      Flushed db groups pages' chain' groups' db' ∧
      (schemaOf db name ≠ none → pendingOf db' name = []) := by
  -- the cases in which there is nothing to do
  have hidle : (schemaOf db name ≠ none → pendingOf db name = []) → flushTable name db = .ok () db →
      EStateM.Returns Within (flushTable name) db fun _ db' => ∃ pages' chain' groups',
        Flushed db groups pages' chain' groups' db' ∧
        (schemaOf db name ≠ none → pendingOf db' name = []) :=
    fun hnone hrun _ => ⟨(), db, hrun, pages, chain, groups, .refl h, hnone⟩
  cases hcols : db.pending.find? name with
  | none =>
    refine hidle (fun _ => by rw [pendingOf, hcols]) ?_
    rw [flushTable, EStateM.bind_of_ok (EStateM.get_apply db), hcols]
    rfl
  | some cols =>
    cases hm : db.catalog.getTable name with
    | none =>
      refine hidle (fun hne => absurd (by rw [schemaOf, hm]; rfl) hne) ?_
      rw [flushTable, EStateM.bind_of_ok (EStateM.get_apply db), hcols, hm]
      cases cols <;> rfl
    | some m =>
      cases cols with
      | nil =>
        refine hidle (fun _ => by rw [pendingOf, hcols]; rfl) ?_
        rw [flushTable, EStateM.bind_of_ok (EStateM.get_apply db), hcols, hm]
        rfl
      | cons col rest =>
        by_cases hcol : col = []
        · subst hcol
          refine hidle (fun _ => by rw [pendingOf, hcols]; rfl) ?_
          rw [flushTable, EStateM.bind_of_ok (EStateM.get_apply db), hcols, hm]
          rfl
        · refine (flushTable_pending h hm hcols hcol).mono fun _ db' hflushed => ?_
          obtain ⟨pages', chain', new, hsound, hnew, ⟨rgs, hrgs⟩, hothers, hpending, -⟩ := hflushed
          have hschemas : ∀ n, schemaOf db' n = schemaOf db n := by
            intro n
            by_cases hn : n = name
            · rw [hn, schemaOf, schemaOf, hrgs, hm]
              rfl
            · rw [schemaOf, schemaOf, hothers n hn]
          have hcleared : ∀ n, pendingOf db' n = if n = name then [] else pendingOf db n := by
            intro n
            rw [← pendingOf_clearPending, pendingOf, pendingOf, hpending]
          have hrows : rowsOf new = pendingOf db name := by
            rw [pendingOf, hcols, rowsOf, List.flatMap, hnew]
            exact List.flatten_slices (by decide) _
          refine ⟨pages', chain', _, ⟨hsound, view_congr hschemas fun n => ?_, hschemas, fun n hn => ?_⟩,
            fun _ => by rw [hcleared, if_pos rfl]⟩
          · rw [hcleared]
            by_cases hn : n = name
            · rw [if_pos hn, hn, Function.update_self, rowsOf_append, hrows, List.append_nil]
            · rw [if_neg hn, Function.update_of_ne hn]
          · rw [hcleared, hn, ite_self]

/-- A flush of several tables. -/
theorem flushTables_returns (h : Sound db pages chain groups) (names : List Bytes) :
    EStateM.Returns Within (names.forM flushTable) db fun _ db' => ∃ pages' chain' groups',
      Flushed db groups pages' chain' groups' db' ∧
      ∀ n ∈ names, schemaOf db n ≠ none → pendingOf db' n = [] := by
  have hrun := EStateM.Returns.forM (L := Within) (f := flushTable)
    (I := fun rest db' => ∃ pages' chain' groups',
      Flushed db groups pages' chain' groups' db' ∧
      ∀ n ∈ names, schemaOf db n ≠ none → n ∈ rest ∨ pendingOf db' n = [])
    staysOver_flushTable (l := names) (s := db)
    ⟨pages, chain, groups, .refl h, fun n hn _ => .inl hn⟩
    fun name rest db' ⟨pages', chain', groups', h', hdone⟩ => ?_
  · refine hrun.mono fun _ db' ⟨pages', chain', groups', h', hdone⟩ =>
      ⟨pages', chain', groups', h', fun n hn hne => (hdone n hn hne).resolve_left (by simp)⟩
  · refine (flushTable_returns h'.sound name).mono
      fun _ db'' ⟨pages'', chain'', groups'', h'', hname⟩ => ?_
    refine ⟨pages'', chain'', groups'', h'.trans h'', fun n hn hne => ?_⟩
    rcases hdone n hn hne with hmem | hnone
    · rcases List.mem_cons.mp hmem with rfl | hmem
      · exact .inr (hname (by rwa [h'.schemas]))
      · exact .inl hmem
    · exact .inr (h''.pending n hnone)

/-! ## The statements -/

/-- The catalog is written, and nothing else changes. -/
theorem Sound.writeCatalog (h : Sound db pages chain groups) :
    EStateM.Returns Within persistCatalog db fun _ db' => ∃ pages' chain',
      Sound db' pages' chain' groups ∧ db'.catalog = db.catalog ∧ db'.pending = db.pending ∧
      (db.pool.disk = ⟨pages, []⟩ → db'.pool.disk = ⟨pages', []⟩) := by
  refine (persistCatalog_returns h.serving h.holdings).mono
    fun _ db' ⟨pages', chain', hdb', hserving, hholdings, _, _, _, hdisk⟩ => ?_
  have hcatalog : db'.catalog = db.catalog := by rw [hdb']
  have hpending : db'.pending = db.pending := by rw [hdb']
  refine ⟨pages', chain', ⟨hserving, hholdings, fun n m cols hm hcols => ?_, fun n m hm => ?_⟩,
    hcatalog, hpending, hdisk⟩
  · rw [hcatalog] at hm
    rw [hpending] at hcols
    exact h.pending n m cols hm hcols
  · rw [hcatalog] at hm
    exact h.columns n m hm

/-- The tables depend on the catalog and on what is pending. -/
theorem view_eq {db' : DB} (hcatalog : db'.catalog = db.catalog) (hpending : db'.pending = db.pending) :
    view db' groups = view db groups := by
  refine view_congr (fun n => ?_) fun n => ?_
  · rw [schemaOf, schemaOf, hcatalog]
  · rw [pendingOf_congr hpending]

theorem Sound.persist (h : Sound db pages chain groups) :
    EStateM.Returns Within (do persistCatalog; return ⟨[], []⟩ : EStateM Exc DB ResultSet) db
      fun _ db' => ∃ pages' chain', Sound db' pages' chain' groups ∧
        view db' groups = view db groups :=
  h.writeCatalog.bind (fun _ => EStateM.staysOver_pure _)
    fun _ db' ⟨pages', chain', h', hcatalog, hpending, _⟩ =>
      EStateM.returns_pure ⟨pages', chain', h', view_eq hcatalog hpending⟩

/-- The tables that a plan for this catalog scans can be read. -/
theorem Sound.readable (h : Sound db pages chain groups) {p : Plan}
    (hp : Planner.FromCatalog db.catalog p) : p.Readable chain pages := by
  intro s hs
  obtain ⟨n, hn⟩ := hp s hs
  refine ⟨groups n, h.holdings.stored n _ hn, fun sg hsg ids hids pid hpid => ⟨fun hmem => ?_, ?_⟩⟩
  · exact h.holdings.owned.catalogApart n hmem
      (List.mem_flatten_of_mem (List.mem_flatMap.mpr ⟨sg, hsg, hids⟩) hpid)
  · simp

/-- A table that is created with columns has columns. -/
theorem columns_ofColumns {defs : List ColumnDef} {schema : Schema}
    (h : Schema.ofColumns (columnsOf defs) = .ok schema) (hdefs : defs ≠ []) :
    schema.columns ≠ [] := by
  unfold Schema.ofColumns at h
  split at h
  · rw [← Except.ok.inj h]
    cases defs with
    | nil => exact absurd rfl hdefs
    | cons d defs => simp [columnsOf]
  · cases h

/-- What a statement leaves: a state between two statements again, with the tables `t`. -/
def Leads (t : Tables) (db' : DB) : Prop :=
  ∃ pages' chain' groups', Sound db' pages' chain' groups' ∧ view db' groups' = t

/-- A statement that does nothing. -/
theorem leads_self (h : Sound db pages chain groups) {stmt : Statement}
    (hstep : (view db groups).step stmt = view db groups) :
    Leads ((view db groups).step stmt) db :=
  ⟨pages, chain, groups, h, hstep.symm⟩

theorem view_none (hm : db.catalog.getTable name = none) (groups : Bytes → List StoredGroup) :
    view db groups name = none := by
  rw [view, schemaOf, hm]
  rfl

theorem view_some {m : TableMeta} (hm : db.catalog.getTable name = some m) :
    view db groups name = some (m.schema, rowsOf (groups name) ++ pendingOf db name) := by
  rw [view, schemaOf, hm]
  rfl

theorem createTable_leaves (h : Sound db pages chain groups) (name : Bytes) {defs : List ColumnDef}
    (hdefs : defs ≠ []) : EStateM.Leaves Within (createTable name defs) db
      (Leads ((view db groups).step (.createTable name defs))) := by
  cases hm : db.catalog.getTable name with
  | some m =>
    have hstate : createTable name defs db =
        .error (.runtimeError (Bytes.ofAscii "table already exists: " ++ name)) db := by
      rw [createTable, EStateM.bind_of_ok (EStateM.get_apply db), hm]
      rfl
    rw [EStateM.Leaves, hstate]
    exact fun _ => leads_self h (by rw [Tables.step, view_some hm])
  | none =>
    cases hschema : Schema.ofColumns (columnsOf defs) with
    | error e =>
      have hstate : createTable name defs db = .error e db := by
        rw [createTable, EStateM.bind_of_ok (EStateM.get_apply db), hm, hschema]
        rfl
      rw [EStateM.Leaves, hstate]
      exact fun _ => leads_self h (by rw [Tables.step, view_none hm groups, hschema])
    | ok schema =>
      obtain ⟨catalog, hget, hrun⟩ := createTable_eq hm hschema
      have hsound : Sound (setBuffers name (List.replicate schema.numColumns []) { db with catalog })
          pages chain (Function.update groups name []) := by
        refine ⟨h.serving, h.holdings.clear hget fun m hm => by rw [← Option.some.inj hm],
          fun n m cols hm' hcols => ?_, fun n m hm' => ?_⟩
        · rw [setBuffers, SortedMap.find?_insert] at hcols
          have hm'' := (hget n).symm.trans hm'
          by_cases hn : n = name
          · rw [if_pos hn] at hcols hm''
            rw [← Option.some.inj hcols, ← Option.some.inj hm'']
            exact ⟨0, pendingFits_replicate schema⟩
          · rw [if_neg hn] at hcols hm''
            exact h.pending n m cols hm'' hcols
        · have hm'' := (hget n).symm.trans hm'
          by_cases hn : n = name
          · rw [if_pos hn] at hm''
            rw [← Option.some.inj hm'']
            exact columns_ofColumns hschema hdefs
          · rw [if_neg hn] at hm''
            exact h.columns n m hm''
      rw [EStateM.Leaves, hrun]
      refine hsound.persist.leaves fun _ db' hpersisted => ?_
      obtain ⟨pages', chain', h', hview⟩ := hpersisted
      refine ⟨pages', chain', _, h', hview.trans ?_⟩
      have hempty : pendingOf (setBuffers name (List.replicate schema.numColumns [])
          { db with catalog }) name = [] := by
        rw [pendingOf, setBuffers, SortedMap.find?_insert, if_pos rfl]
        cases schema.numColumns <;> rfl
      have hschemas : ∀ n, schemaOf (setBuffers name (List.replicate schema.numColumns [])
          { db with catalog }) n = if n = name then some schema else schemaOf db n := by
        intro n
        refine (congrArg (Option.map (·.schema)) (hget n)).trans ?_
        split <;> rfl
      rw [view_update groups [] hschemas fun n hn => ?_, hempty, Tables.step, view_none hm groups, hschema]
      · rfl
      · exact pendingOf_eq_of_find? ((SortedMap.find?_insert _ _ _ _).trans (if_neg hn))

theorem dropTable_leaves (h : Sound db pages chain groups) (name : Bytes) :
    EStateM.Leaves Within (dropTable name) db (Leads ((view db groups).step (.dropTable name))) := by
  cases hm : db.catalog.getTable name with
  | none =>
    have hstate : dropTable name db = .error (unknownTable name) db := by
      rw [dropTable, EStateM.bind_of_ok (EStateM.get_apply db), Catalog.dropTable, hm]
      rfl
    rw [EStateM.Leaves, hstate]
    refine fun _ => leads_self h ?_
    rw [Tables.step, ← view_none hm groups, Function.update_eq_self]
  | some m =>
    obtain ⟨catalog, hdrop, hget⟩ := Catalog.dropTable_eq hm
    rw [EStateM.Leaves, dropTable, EStateM.bind_of_ok (EStateM.get_apply db), hdrop]
    have hsound : Sound { db with catalog, pending := db.pending.erase name } pages chain
        (Function.update groups name []) := by
      refine ⟨h.serving, h.holdings.clear hget fun m hm => (by cases hm), fun n m' cols hm' hcols => ?_,
        fun n m' hm' => ?_⟩
      · rw [SortedMap.find?_erase] at hcols
        have hm'' := (hget n).symm.trans hm'
        by_cases hn : n = name
        · rw [if_pos hn] at hcols
          cases hcols
        · rw [if_neg hn] at hcols hm''
          exact h.pending n m' cols hm'' hcols
      · have hm'' := (hget n).symm.trans hm'
        by_cases hn : n = name
        · rw [if_pos hn] at hm''
          cases hm''
        · rw [if_neg hn] at hm''
          exact h.columns n m' hm''
    refine hsound.persist.leaves fun _ db' ⟨pages', chain', h', hview⟩ =>
      ⟨pages', chain', _, h', hview.trans ?_⟩
    have hschemas : ∀ n, schemaOf { db with catalog, pending := db.pending.erase name } n =
        if n = name then none else schemaOf db n := by
      intro n
      refine (congrArg (Option.map (·.schema)) (hget n)).trans ?_
      split <;> rfl
    refine view_update groups [] hschemas fun n hn => ?_
    exact pendingOf_eq_of_find? ((SortedMap.find?_erase _ _ _).trans (if_neg hn))

theorem truncate_leaves (h : Sound db pages chain groups) (name : Bytes) :
    EStateM.Leaves Within (truncate name) db (Leads ((view db groups).step (.truncate name))) := by
  cases hm : db.catalog.getTable name with
  | none =>
    have hstate : truncate name db = .error (unknownTable name) db := by
      rw [truncate, EStateM.bind_of_ok (EStateM.get_apply db), hm]
      rfl
    rw [EStateM.Leaves, hstate]
    refine fun _ => leads_self h ?_
    rw [Tables.step, view_none hm groups, Option.map_none, ← view_none hm groups,
      Function.update_eq_self]
  | some m =>
    obtain ⟨catalog, hclear, hget⟩ := Catalog.clearRowGroups_eq hm
    rw [EStateM.Leaves, truncate, EStateM.bind_of_ok (EStateM.get_apply db), hm]
    simp only [Option.isNone_some, Bool.false_eq_true, if_false]
    rw [EStateM.bind_of_ok (EStateM.get_apply db), hclear,
      EStateM.bind_of_ok (EStateM.ofExcept_ok _ _), EStateM.bind_of_ok (EStateM.modify_apply _ _)]
    have hsound : Sound (clearPending name { db with catalog }) pages chain
        (Function.update groups name []) := by
      refine ⟨by rw [clearPending_pool]; exact h.serving, ?_, fun n m' cols hm' hcols => ?_,
        fun n m' hm' => ?_⟩
      · rw [clearPending_catalog]
        exact h.holdings.clear hget fun m' hm' => by rw [← Option.some.inj hm']
      · rw [clearPending_catalog] at hm'
        rw [find?_clearPending] at hcols
        have hm'' := (hget n).symm.trans hm'
        by_cases hn : n = name
        · rw [if_pos hn] at hcols hm''
          obtain ⟨old, hold, rfl⟩ := Option.map_eq_some_iff.mp hcols
          obtain ⟨total, hfits⟩ := h.pending name m old hm hold
          rw [← Option.some.inj hm'']
          exact ⟨0, hfits.cleared⟩
        · rw [if_neg hn] at hcols hm''
          exact h.pending n m' cols hm'' hcols
      · rw [clearPending_catalog] at hm'
        have hm'' := (hget n).symm.trans hm'
        by_cases hn : n = name
        · rw [if_pos hn] at hm''
          rw [← Option.some.inj hm'']
          exact h.columns name m hm
        · rw [if_neg hn] at hm''
          exact h.columns n m' hm''
    refine hsound.persist.leaves fun _ db' ⟨pages', chain', h', hview⟩ =>
      ⟨pages', chain', _, h', hview.trans ?_⟩
    have hschemas : ∀ n, schemaOf (clearPending name { db with catalog }) n =
        if n = name then some m.schema else schemaOf db n := by
      intro n
      rw [schemaOf, clearPending_catalog]
      refine (congrArg (Option.map (·.schema)) (hget n)).trans ?_
      split <;> rfl
    rw [view_update groups [] hschemas fun n hn => ?_, pendingOf_clearPending, if_pos rfl, Tables.step,
      view_some hm]
    · rfl
    · rw [pendingOf_clearPending, if_neg hn]
      rfl

/-- The columns that `INSERT` begins with are those that it finds. -/
theorem Sound.fitted (h : Sound db pages chain groups) {m : TableMeta}
    (hm : db.catalog.getTable name = some m) :
    ∃ n, PendingFits m.schema (fitted m.schema (buffersOf db name)) n ∧
      rowsAt (DB.fitted m.schema (buffersOf db name)) n = pendingOf db name := by
  unfold buffersOf pendingOf
  cases hcols : db.pending.find? name with
  | none =>
    refine ⟨0, ?_, rfl⟩
    unfold DB.fitted
    have hfits := pendingFits_replicate m.schema
    split
    · exact hfits
    · rename_i hlen
      rwa [← Decidable.not_not.mp hlen] at hfits
  | some cols =>
    obtain ⟨n, hfits⟩ := h.pending name m cols hm hcols
    rw [Option.getD_some, DB.fitted, if_neg (Decidable.not_not.mpr hfits.numColumns)]
    refine ⟨n, hfits, (hfits.pendingRows_eq fun hnil => h.columns name m hm ?_).symm⟩
    rw [hnil] at hfits
    exact List.length_eq_zero_iff.mp hfits.numColumns.symm

theorem insert_leaves (h : Sound db pages chain groups) {rows : List (List Value)}
    (hwhole : ∀ schema, schemaOf db name = some schema → SplitsNoRow schema rows) :
    EStateM.Leaves Within (insert name rows) db (Leads ((view db groups).step (.insert name rows))) := by
  cases hm : db.catalog.getTable name with
  | none =>
    rw [EStateM.Leaves, insert_unknown hm]
    refine fun _ => leads_self h ?_
    rw [Tables.step, view_none hm groups, Option.map_none, ← view_none hm groups,
      Function.update_eq_self]
  | some m =>
    have hschema : schemaOf db name = some m.schema := by rw [schemaOf, hm]; rfl
    obtain ⟨total, hfits, hold⟩ := h.fitted hm
    obtain ⟨hfits', hat⟩ := hfits.pushRows (hwhole _ hschema)
    have hstate : (insert name rows db).state =
        setBuffers name (pushRows m.schema rows (fitted m.schema (buffersOf db name))).1 db := by
      rw [insert_eq hm]
      unfold resultOf
      split <;> rfl
    rw [EStateM.Leaves, hstate]
    generalize (pushRows m.schema rows (fitted m.schema (buffersOf db name))).1 = cols at hfits' hat
    have hne : cols ≠ [] := fun hnil => h.columns name m hm
      (List.length_eq_zero_iff.mp (hfits'.numColumns.symm.trans (by rw [hnil]; rfl)))
    have hpending : pendingOf (setBuffers name cols db) name =
        pendingOf db name ++ storedRows m.schema rows := by
      rw [pendingOf, setBuffers, SortedMap.find?_insert, if_pos rfl]
      exact (hfits'.pendingRows_eq hne).trans (hat.trans (by rw [hold]))
    refine fun _ => ⟨pages, chain, groups, ⟨h.serving, h.holdings, fun n m' cols' hm' hcols => ?_,
      h.columns⟩, ?_⟩
    · rw [setBuffers, SortedMap.find?_insert] at hcols
      by_cases hn : n = name
      · subst hn
        rw [if_pos rfl] at hcols
        rw [← Option.some.inj hcols, ← Option.some.inj (hm.symm.trans hm')]
        exact ⟨_, hfits'⟩
      · rw [if_neg hn] at hcols
        exact h.pending n m' cols' hm' hcols
    · have hschemas : ∀ n, schemaOf (setBuffers name cols db) n =
          if n = name then some m.schema else schemaOf db n := by
        intro n
        split
        · rename_i hn
          rw [hn]
          exact hschema
        · rfl
      have hview := view_update groups (groups name) hschemas fun n hn =>
        pendingOf_eq_of_find? ((SortedMap.find?_insert _ _ _ _).trans (if_neg hn))
      rw [← Function.update_eq_self name groups, hview, hpending, Function.update_eq_self, Tables.step,
        view_some hm, Option.map_some, Option.map_some, List.append_assoc]

/-- A query flushes and reads; whether it returns or throws, the tables stay as they are. -/
theorem select_leaves (mach : Machine) (h : Sound db pages chain groups) (stmt : SelectStmt) :
    EStateM.Leaves Within (select mach stmt) db (Leads ((view db groups).step (.select stmt))) := by
  have hover : ∀ _ : PUnit, EStateM.StaysOver Within (do
      let plan ← EStateM.ofExcept (Planner.planSelect stmt (← get).catalog)
      let stream ← withPool (plan.open mach)
      let rows ← EStateM.ofExcept (stream.forEach (fun rows b => .ok (rows ++ b.rows)) [])
      return ⟨plan.outputNames, rows⟩ : EStateM Exc DB ResultSet) := by
    refine fun _ => EStateM.staysOver_get.bind fun db => (EStateM.staysOver_ofExcept _).bind fun plan => ?_
    refine (staysOver_withPool ((Plan.keeps_open mach plan).staysOver (· < 2 ^ 32))).bind fun stream => ?_
    exact (EStateM.staysOver_ofExcept _).bind fun rows => EStateM.staysOver_pure _
  have hflush := (flushTables_returns h (stmt.tables.map (·.name))).within
  rw [EStateM.forM_map] at hflush
  refine hflush.bind_leaves hover fun _ db₁ ⟨⟨pages₁, chain₁, groups₁, h₁, _⟩, hlim⟩ => ?_
  have hleads : ∀ pool, Serves frames chain₁ pages₁ pool →
      Leads ((view db groups).step (.select stmt)) { db₁ with pool } := fun pool hpool =>
    ⟨pages₁, chain₁, groups₁, ⟨hpool.1, h₁.sound.holdings, h₁.sound.pending, h₁.sound.columns⟩, h₁.same⟩
  refine EStateM.Leaves.get (EStateM.Leaves.ofExcept_bind
    (hleads db₁.pool ⟨h₁.sound.serving, hlim⟩) fun plan hplan => ?_)
  have hopen := Plan.open_ends (pinRoom_frames.mono (by decide)) mach plan
    ⟨h₁.sound.serving, hlim⟩ (h₁.sound.readable (Planner.planSelect_scans hplan))
  refine (hopen.zoom.bind (Q := fun _ db' => Leads ((view db groups).step (.select stmt)) db')
    fun stream db₂ hdb₂ => ?_).leaves (fun _ _ h => h) fun db' hdb' => ?_
  · obtain ⟨pool, rfl, h₂⟩ := hdb₂
    exact (EStateM.ends_ofExcept (Q := fun _ db' => db' = { db₁ with pool }) (fun _ _ => rfl)
      ⟨pool, rfl, h₂⟩).bind fun rows db' hdb' => EStateM.ends_pure (hdb' ▸ hleads pool h₂)
  · obtain ⟨pool, rfl, h'⟩ := hdb'
    exact hleads pool h'

/-- What the parser makes of a statement: a table is created with at least one column. -/
def Parsed : Statement → Prop
  | .createTable _ defs => defs ≠ []
  | _ => True

/-- A statement that splits no row does to the database what it does to the tables. -/
theorem execute_leaves (mach : Machine) (h : Sound db pages chain groups) {stmt : Statement}
    (hparsed : Parsed stmt) (hwhole : InsertsWhole db stmt) :
    EStateM.Leaves Within (execute mach stmt) db (Leads ((view db groups).step stmt)) := by
  cases stmt with
  | createTable name defs => exact createTable_leaves h name hparsed
  | dropTable name => exact dropTable_leaves h name
  | truncate name => exact truncate_leaves h name
  | insert name rows => exact insert_leaves h fun schema hschema => hwhole name rows schema rfl hschema
  | select stmt => exact select_leaves mach h stmt

end

end DB

end LiteOLAP
