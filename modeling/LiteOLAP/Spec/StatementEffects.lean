import LiteOLAP.Spec.FlushCorrect
import LiteOLAP.Spec.InsertCorrect

/-!
# What a statement does, however it ends

The schemas of the tables and the pending columns after a statement, whether it returned or threw:
only four kinds of change are possible, and none of them depends on the file.

## Key results

- `DB.insert_eq`: an `INSERT` in one equation
- `DB.execute_effect`: the changes that a statement may make
-/

namespace LiteOLAP

namespace DB

/-- The schema of a table. -/
def schemaOf (db : DB) (name : Bytes) : Option Schema :=
  (db.catalog.getTable name).map (·.schema)

/-- The pending columns of a table. -/
def buffersOf (db : DB) (name : Bytes) : List (List Value) := (db.pending.find? name).getD []

/-- Other pending columns for a table. -/
def setBuffers (name : Bytes) (cols : List (List Value)) (db : DB) : DB :=
  { db with pending := db.pending.insert name cols }

/-! ## Changes by flushes -/

/-- The tables are the same, and the pending columns of some are cleared. -/
structure Calm (db db' : DB) : Prop where
  schemas : ∀ n, schemaOf db' n = schemaOf db n
  pending : ∀ n, db'.pending.find? n = db.pending.find? n ∨
    db'.pending.find? n = (db.pending.find? n).map (List.map fun _ => [])

instance : Std.Refl Calm := ⟨fun _ => ⟨fun _ => rfl, fun _ => .inl rfl⟩⟩

instance : IsTrans DB Calm where
  trans := by
    intro db db₁ db₂ h h'
    refine ⟨fun n => (h'.schemas n).trans (h.schemas n), fun n => ?_⟩
    rcases h'.pending n with h₂ | h₂
    · rw [h₂]
      exact h.pending n
    · rcases h.pending n with h₁ | h₁
      · rw [h₂, h₁]
        exact .inr rfl
      · refine .inr ?_
        rw [h₂, h₁, Option.map_map]
        congr 1
        exact funext fun cols => by simp

theorem keeps_withPool {α : Type} (x : EStateM Exc BufferPool α) :
    EStateM.Keeps (fun db : DB => (db.catalog, db.pending)) (withPool x) := by
  intro db
  unfold withPool EStateM.zoom
  split <;> rfl

/-- Nothing that runs on the pool touches the tables or what is pending. -/
theorem moves_withPool {α : Type} (x : EStateM Exc BufferPool α) :
    EStateM.Moves Calm (withPool x) := by
  refine (keeps_withPool x).moves fun db db' h => ⟨fun n => ?_, fun n => ?_⟩
  · exact congrArg (fun c : Catalog => (c.getTable n).map (·.schema)) (Prod.ext_iff.mp h).1
  · exact .inl (congrArg (SortedMap.find? · n) (Prod.ext_iff.mp h).2)

theorem keeps_persistCatalog :
    EStateM.Keeps (fun db : DB => (db.catalog, db.pending)) persistCatalog :=
  EStateM.keeps_get.bind fun _ => keeps_withPool _

theorem moves_persistCatalog : EStateM.Moves Calm persistCatalog :=
  EStateM.moves_get.bind fun _ => moves_withPool _

/-- A table keeps its schema when its row groups change. -/
theorem schemaOf_set {db : DB} {catalog : Catalog} {name : Bytes} {m m' : TableMeta}
    (hm : db.catalog.getTable name = some m) (hschema : m'.schema = m.schema)
    (hget : ∀ n, catalog.getTable n = if n = name then some m' else db.catalog.getTable n)
    (n : Bytes) : schemaOf { db with catalog } n = schemaOf db n := by
  unfold schemaOf
  rw [hget]
  split
  · rename_i hn
    rw [hn, hm, Option.map_some, Option.map_some, hschema]
  · rfl

theorem calm_clearPending (name : Bytes) (db : DB) : Calm db (clearPending name db) := by
  refine ⟨fun n => by rw [schemaOf, clearPending_catalog]; rfl, fun n => ?_⟩
  rw [find?_clearPending]
  split
  · rename_i hn
    exact .inr (by rw [hn])
  · exact .inl rfl

theorem moves_flushFrom (name : Bytes) (schema : Schema) (cols : List (List Value))
    (total start : Nat) : EStateM.Moves Calm (flushFrom name schema cols total start) := by
  refine (moves_withPool _).bind fun rg db => ?_
  cases hm : db.catalog.getTable name with
  | none =>
    have hadd : db.catalog.addRowGroup name rg =
        .error (.invalidArgument (Bytes.ofAscii "AddRowGroup: no such table")) := by
      rw [Catalog.addRowGroup, hm]
    rw [EStateM.bind_of_ok (EStateM.get_apply db), hadd,
      EStateM.bind_of_error (EStateM.ofExcept_error _ _)]
    exact Std.Refl.refl db
  | some m =>
    obtain ⟨catalog, hadd, hget⟩ := Catalog.addRowGroup_eq hm rg
    rw [EStateM.bind_of_ok (EStateM.get_apply db), hadd,
      EStateM.bind_of_ok (EStateM.ofExcept_ok _ _)]
    exact ⟨schemaOf_set hm (show ({ m with rowGroups := m.rowGroups ++ [rg] } : TableMeta).schema = _ from rfl) hget,
      fun n => .inl rfl⟩

/-- A flush, even one that fails, changes no schema and pends no value. -/
theorem moves_flushTable (name : Bytes) : EStateM.Moves Calm (flushTable name) := by
  refine EStateM.moves_get.bind fun db => ?_
  split
  · split
    · exact EStateM.moves_pure _
    · refine (EStateM.Moves.forM (fun start => moves_flushFrom _ _ _ _ start) _).bind fun _ => ?_
      refine (EStateM.moves_modify (calm_clearPending name)).bind fun _ => ?_
      exact (moves_withPool _).bind fun _ => moves_persistCatalog
  · exact EStateM.moves_pure _

/-! ## `INSERT` -/

/-- The pending columns that `INSERT` begins with. -/
def fitted (schema : Schema) (cols : List (List Value)) : List (List Value) :=
  if cols.length ≠ schema.numColumns then List.replicate schema.numColumns [] else cols

theorem length_fitted (schema : Schema) (cols : List (List Value)) :
    (fitted schema cols).length = schema.numColumns := by
  unfold fitted
  split
  · exact List.length_replicate
  · rename_i h
    exact Decidable.not_not.mp h

/-- The result of a statement that may have thrown. -/
def resultOf (e : Option Exc) (db : DB) : EStateM.Result Exc DB ResultSet :=
  match e with
  | none => .ok ⟨[], []⟩ db
  | some e => .error e db

/-- `INSERT` into a table that exists. -/
theorem insert_eq {db : DB} {name : Bytes} {m : TableMeta} (hm : db.catalog.getTable name = some m)
    (rows : List (List Value)) :
    insert name rows db =
      resultOf (pushRows m.schema rows (fitted m.schema (buffersOf db name))).2
        (setBuffers name (pushRows m.schema rows (fitted m.schema (buffersOf db name))).1 db) := by
  have hloop := insertRows_eq (length_fitted m.schema (buffersOf db name)) rows
  unfold insert
  rw [EStateM.bind_of_ok (EStateM.get_apply db), hm]
  cases hout : (pushRows m.schema rows (fitted m.schema (buffersOf db name))).2 with
  | none =>
    rw [hout] at hloop
    exact EStateM.bind_of_ok (EStateM.zoom_of_ok ((EStateM.bind_of_ok
      (EStateM.modify_apply _ _)).trans hloop))
  | some e =>
    rw [hout] at hloop
    exact EStateM.bind_of_error (EStateM.zoom_of_error ((EStateM.bind_of_ok
      (EStateM.modify_apply _ _)).trans hloop))

/-- `INSERT` into a table that does not exist. -/
theorem insert_unknown {db : DB} {name : Bytes} (hm : db.catalog.getTable name = none)
    (rows : List (List Value)) : insert name rows db = .error (unknownTable name) db := by
  unfold insert
  rw [EStateM.bind_of_ok (EStateM.get_apply db), hm]
  rfl

/-! ## All statements -/

/-- The changes that a statement may make to the schemas and to the pending columns. -/
inductive Effect (db : DB) : Statement → DB → Prop
  | calm {stmt : Statement} {db' : DB} : Calm db db' → Effect db stmt db'
  | created {name : Bytes} {defs : List ColumnDef} {schema : Schema} {db' : DB} :
      schemaOf db name = none → Schema.ofColumns (columnsOf defs) = .ok schema →
      (∀ n, schemaOf db' n = if n = name then some schema else schemaOf db n) →
      db'.pending = db.pending.insert name (List.replicate schema.numColumns []) →
      Effect db (.createTable name defs) db'
  | dropped {name : Bytes} {db' : DB} :
      (∀ n, schemaOf db' n = if n = name then none else schemaOf db n) →
      db'.pending = db.pending.erase name → Effect db (.dropTable name) db'
  | inserted {name : Bytes} {rows : List (List Value)} {m : TableMeta} :
      db.catalog.getTable name = some m →
      Effect db (.insert name rows)
        (setBuffers name (pushRows m.schema rows (fitted m.schema (buffersOf db name))).1 db)

section

variable {db : DB} {name : Bytes}

/-- `CREATE TABLE`, up to the write of the catalog. -/
theorem createTable_eq {defs : List ColumnDef} {schema : Schema}
    (hm : db.catalog.getTable name = none) (hschema : Schema.ofColumns (columnsOf defs) = .ok schema) :
    ∃ catalog, (∀ n, catalog.getTable n =
        if n = name then some ⟨name, schema, []⟩ else db.catalog.getTable n) ∧
      createTable name defs db = (do persistCatalog; return ⟨[], []⟩ : EStateM Exc DB ResultSet)
        (setBuffers name (List.replicate schema.numColumns []) { db with catalog }) := by
  obtain ⟨catalog, hcreate, hget⟩ := Catalog.createTable_eq hm schema
  refine ⟨catalog, hget, ?_⟩
  unfold createTable
  rw [EStateM.bind_of_ok (EStateM.get_apply db), hm, hschema]
  simp only [Option.isSome_none, Bool.false_eq_true, if_false]
  rw [EStateM.bind_of_ok (EStateM.ofExcept_ok _ _), EStateM.bind_of_ok (EStateM.modify_apply _ _),
    EStateM.bind_of_ok (EStateM.get_apply _), hcreate, EStateM.bind_of_ok (EStateM.ofExcept_ok _ _)]
  rfl

/-- The state a statement leaves when its last step is to write the catalog. -/
private theorem state_persist (db : DB) :
    ∃ pool, ((do persistCatalog; return ⟨[], []⟩ : EStateM Exc DB ResultSet) db).state =
      { db with pool } := by
  have hkeeps := (keeps_persistCatalog.bind fun _ => EStateM.keeps_pure
    (⟨[], []⟩ : ResultSet)) db
  obtain ⟨hcatalog, hpending⟩ := Prod.ext_iff.mp hkeeps
  refine ⟨((do persistCatalog; return ⟨[], []⟩ : EStateM Exc DB ResultSet) db).state.pool, ?_⟩
  generalize ((do persistCatalog; return ⟨[], []⟩ : EStateM Exc DB ResultSet) db).state = db' at *
  cases db'
  dsimp only at hcatalog hpending
  rw [hcatalog, hpending]

/-- The state that `CREATE TABLE` of a new table leaves, even if the catalog cannot be written. -/
theorem createTable_state {defs : List ColumnDef} {schema : Schema}
    (hm : db.catalog.getTable name = none) (hschema : Schema.ofColumns (columnsOf defs) = .ok schema) :
    ∃ pool catalog, (∀ n, catalog.getTable n =
        if n = name then some ⟨name, schema, []⟩ else db.catalog.getTable n) ∧
      (createTable name defs db).state =
        setBuffers name (List.replicate schema.numColumns []) { db with pool, catalog } := by
  obtain ⟨catalog, hget, hrun⟩ := createTable_eq hm hschema
  obtain ⟨pool, hstate⟩ := state_persist
    (setBuffers name (List.replicate schema.numColumns []) { db with catalog })
  exact ⟨pool, catalog, hget, by rw [hrun, hstate]; rfl⟩

theorem createTable_effect (db : DB) (name : Bytes) (defs : List ColumnDef) :
    Effect db (.createTable name defs) (createTable name defs db).state := by
  cases hm : db.catalog.getTable name with
  | some m =>
    refine .calm ?_
    unfold createTable
    rw [EStateM.bind_of_ok (EStateM.get_apply db), hm]
    exact Std.Refl.refl db
  | none =>
    cases hschema : Schema.ofColumns (columnsOf defs) with
    | error e =>
      refine .calm ?_
      unfold createTable
      rw [EStateM.bind_of_ok (EStateM.get_apply db), hm, hschema]
      exact Std.Refl.refl db
    | ok schema =>
      obtain ⟨pool, catalog, hget, hstate⟩ := createTable_state hm hschema
      rw [hstate]
      refine .created (by rw [schemaOf, hm]; rfl) hschema (fun n => ?_) rfl
      refine (congrArg (Option.map (·.schema)) (hget n)).trans ?_
      split <;> rfl

theorem dropTable_effect (db : DB) (name : Bytes) :
    Effect db (.dropTable name) (dropTable name db).state := by
  unfold dropTable
  rw [EStateM.bind_of_ok (EStateM.get_apply db)]
  cases hm : db.catalog.getTable name with
  | none =>
    have hdrop : db.catalog.dropTable name = none := by
      unfold Catalog.dropTable
      rw [hm]
    rw [hdrop]
    exact .calm (Std.Refl.refl db)
  | some m =>
    obtain ⟨catalog, hdrop, hget⟩ := Catalog.dropTable_eq hm
    rw [hdrop]
    dsimp only
    rw [EStateM.bind_of_ok (EStateM.modify_apply _ _)]
    obtain ⟨pool, hstate⟩ := state_persist { db with catalog, pending := db.pending.erase name }
    rw [hstate]
    refine .dropped (fun n => ?_) rfl
    rw [schemaOf, hget]
    split <;> rfl

theorem truncate_effect (db : DB) (name : Bytes) :
    Effect db (.truncate name) (truncate name db).state := by
  refine .calm ?_
  unfold truncate
  rw [EStateM.bind_of_ok (EStateM.get_apply db)]
  cases hm : db.catalog.getTable name with
  | none => exact Std.Refl.refl db
  | some m =>
    obtain ⟨catalog, hclear, hget⟩ := Catalog.clearRowGroups_eq hm
    simp only [Option.isNone_some, Bool.false_eq_true, if_false]
    rw [EStateM.bind_of_ok (EStateM.get_apply db), hclear,
      EStateM.bind_of_ok (EStateM.ofExcept_ok _ _), EStateM.bind_of_ok (EStateM.modify_apply _ _)]
    have hpersist := moves_persistCatalog.bind (fun _ => EStateM.moves_pure (⟨[], []⟩ : ResultSet))
      (clearPending name { db with catalog })
    refine IsTrans.trans db _ _ ?_ (IsTrans.trans _ _ _
      (calm_clearPending name { db with catalog }) hpersist)
    exact ⟨schemaOf_set hm (show ({ m with rowGroups := [] } : TableMeta).schema = _ from rfl) hget, fun n => .inl rfl⟩

theorem insert_effect (db : DB) (name : Bytes) (rows : List (List Value)) :
    Effect db (.insert name rows) (insert name rows db).state := by
  cases hm : db.catalog.getTable name with
  | none =>
    rw [insert_unknown hm]
    exact .calm (Std.Refl.refl db)
  | some m =>
    rw [insert_eq hm]
    unfold resultOf
    split <;> exact .inserted hm

theorem select_effect (mach : Machine) (db : DB) (stmt : SelectStmt) :
    Effect db (.select stmt) (select mach stmt db).state := by
  refine .calm ?_
  unfold select
  refine (EStateM.Moves.forM (fun t : TableRef => moves_flushTable t.name) _).bind (fun _ => ?_) db
  refine EStateM.moves_get.bind fun _ => (EStateM.moves_ofExcept _).bind fun plan => ?_
  refine (moves_withPool _).bind fun stream => (EStateM.moves_ofExcept _).bind fun rows => ?_
  exact EStateM.moves_pure _

/-- What a statement does to the schemas and to what is pending. -/
theorem execute_effect (mach : Machine) (db : DB) (stmt : Statement) :
    Effect db stmt (execute mach stmt db).state := by
  cases stmt with
  | createTable name defs => exact createTable_effect db name defs
  | dropTable name => exact dropTable_effect db name
  | truncate name => exact truncate_effect db name
  | insert name rows => exact insert_effect db name rows
  | select stmt => exact select_effect mach db stmt

end

end DB

end LiteOLAP
