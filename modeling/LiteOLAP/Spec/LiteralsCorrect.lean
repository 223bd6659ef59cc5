import LiteOLAP.Spec.FullFile

/-!
# Literals and what is stored of them

`Coerce` makes a value of the column type out of each literal of an `INSERT`. Two kinds of literals
pass it that the column cannot hold: an integer beyond 32 bits for an `INT` column, which is cut,
and a string longer than the `n` of `VARCHAR(n)`, which is kept at its length.

## Key results

- `DB.coerce_faithful_iff`: the literals of which the right value is stored
- `DB.insert_faithful_iff`: an accepted `INSERT` stores its literals as they are just if each fits
-/

namespace LiteOLAP

open Bytes (ofAscii)

namespace DB

/-- The value is one that the column is declared to hold. -/
def InDomain (col : Column) (v : Value) : Prop :=
  v.hasType col.type = true ∧ ∀ s, v = .string s → s.length ≤ col.varcharLen.toNat

/-- The integer that an integer value is. -/
def integer? : Value → Option Int
  | .int32 x => some x.toInt
  | .int64 x => some x.toInt
  | _ => none

/-- The stored value equals the literal: the same integer, whatever its width, and the nearest
    `double` in a `FLOAT` column; the same string, the same `double`, `NULL` for `NULL`. -/
def Equals (lit v : Value) : Prop :=
  match integer? lit, v with
  | some n, .double d => d = .ofInt n
  | some n, v => integer? v = some n
  | none, v => v = lit

/-- The stored value is what the column should hold for the literal. -/
def Faithful (col : Column) (lit v : Value) : Prop := InDomain col v ∧ Equals lit v

/-- The literal is no integer beyond the 32 bits of an `INT` column, and no string beyond the `n`
    bytes of a `VARCHAR(n)` column. -/
def LiteralFits (col : Column) : Value → Prop
  | .int64 x => col.type = .int → -2 ^ 31 ≤ x.toInt ∧ x.toInt < 2 ^ 31
  | .string s => s.length ≤ col.varcharLen.toNat
  | _ => True

/-! ## One literal -/

/-- Cutting an integer to 32 bits keeps it just if it has no more. -/
theorem toInt_toInt32_eq_iff (x : Int64) :
    x.toInt32.toInt = x.toInt ↔ -2 ^ 31 ≤ x.toInt ∧ x.toInt < 2 ^ 31 := by
  constructor
  · intro h
    have hlo := x.toInt32.le_toInt
    have hhi := x.toInt32.toInt_lt
    omega
  · rintro ⟨hlo, hhi⟩
    rw [Int64.toInt_toInt32]
    exact Int.bmod_eq_of_le (by omega) (by omega)

/-- A literal that is accepted is stored faithfully just if it fits. -/
theorem coerce_faithful_iff {col : Column} {lit v : Value} (h : coerce lit col.type = .ok v) :
    Faithful col lit v ↔ LiteralFits col lit := by
  have htype := coerce_hasType h
  generalize htypeOf : col.type = t at h htype
  unfold Faithful InDomain LiteralFits
  rw [htypeOf]
  -- the accepted pairs of a column type and a literal
  cases t <;> cases lit <;> cases h
  case int.int64 x => simpa [Equals, integer?, htype] using toInt_toInt32_eq_iff x
  all_goals simp [Equals, integer?, htype]

/-! ## One row -/

/-- The stored row is what the columns should hold for the literals of a row. -/
def FaithfulRow (schema : Schema) (row : List Value) (r : Row) : Prop :=
  List.Forall₂ (fun (p : Column × Value) v => Faithful p.1 p.2 v) (schema.columns.zip row) r

/-- Every literal of a row fits its column. -/
def RowFits (schema : Schema) (row : List Value) : Prop :=
  ∀ p ∈ schema.columns.zip row, LiteralFits p.1 p.2

theorem coerced_faithful_iff : ∀ {cols : List Column} {lits vs : List Value},
    coerced cols lits = (vs, none) →
    (List.Forall₂ (fun (p : Column × Value) v => Faithful p.1 p.2 v) (cols.zip lits) vs ↔
      ∀ p ∈ cols.zip lits, LiteralFits p.1 p.2) := by
  intro cols
  induction cols with
  | nil =>
    intro lits vs h
    cases h
    simp
  | cons col cols ih =>
    intro lits vs h
    cases lits with
    | nil =>
      cases h
      simp
    | cons lit lits =>
      unfold coerced at h
      split at h
      · rename_i v hv
        obtain ⟨hvs, hnone⟩ := Prod.ext_iff.mp h
        dsimp only at hvs hnone
        subst hvs
        have hrest := ih (Prod.ext rfl hnone : coerced cols lits = ((coerced cols lits).1, none))
        rw [List.zip_cons_cons, List.forall₂_cons, List.forall_mem_cons, hrest,
          coerce_faithful_iff hv]
      · cases h

/-- A row that is accepted is stored faithfully just if each of its literals fits. -/
theorem storedAs_faithful_iff {schema : Schema} {row : List Value} {r : Row}
    (h : StoredAs schema row r) : FaithfulRow schema row r ↔ RowFits schema row := by
  unfold StoredAs rowOutcome at h
  split at h
  · cases h
  · exact coerced_faithful_iff h

/-! ## All rows -/

/-- Rows that are all accepted are stored faithfully just if all their literals fit. -/
theorem stored_faithful_iff {schema : Schema} {rows : List (List Value)} {stored : List Row}
    (h : List.Forall₂ (StoredAs schema) rows stored) :
    List.Forall₂ (FaithfulRow schema) rows stored ↔ ∀ row ∈ rows, RowFits schema row := by
  induction h with
  | nil => simp
  | cons hrow _ ih =>
    rw [List.forall₂_cons, List.forall_mem_cons, storedAs_faithful_iff hrow, ih]

/-- The columns that rows are pushed onto, one after another. -/
def appendRows (cols : List (List Value)) (stored : List Row) : List (List Value) :=
  stored.foldl (fun cols r => pushValues r cols) cols

theorem pushRows_accepted {schema : Schema} {rows : List (List Value)}
    (h : Accepted schema rows) : ∀ cols,
    (pushRows schema rows cols).1 = appendRows cols (storedRows schema rows) := by
  induction rows with
  | nil => exact fun _ => rfl
  | cons row rows ih =>
    intro cols
    have hrow := h row List.mem_cons_self
    unfold pushRows storedRows
    split
    · exact ih (fun r hr => h r (List.mem_cons_of_mem _ hr)) _
    · rename_i ws e hws
      rw [hws] at hrow
      cases hrow

/-- An `INSERT` that returns was into a table that exists, and all its rows were accepted. -/
theorem insert_returned {db db' : DB} {name : Bytes} {rows : List (List Value)} {rs : ResultSet}
    (h : insert name rows db = .ok rs db') : ∃ m, db.catalog.getTable name = some m ∧
      Accepted m.schema rows ∧
      db' = setBuffers name (appendRows (fitted m.schema (buffersOf db name))
        (storedRows m.schema rows)) db := by
  cases hm : db.catalog.getTable name with
  | none =>
    rw [insert_unknown hm] at h
    cases h
  | some m =>
    rw [insert_eq hm] at h
    cases hout : (pushRows m.schema rows (fitted m.schema (buffersOf db name))).2 with
    | some e =>
      rw [hout] at h
      cases h
    | none =>
      have haccepted := (accepted_iff rows _).mp hout
      rw [hout] at h
      injection h with _ hdb
      exact ⟨m, rfl, haccepted, by rw [← hdb, pushRows_accepted haccepted]⟩

/-- The rows that an `INSERT` has stored are in the row groups after the flush of a query, behind
    the rows that the table had. -/
theorem insert_flushed {db db' : DB} {name : Bytes} {m : TableMeta} {rows : List (List Value)}
    {rs : ResultSet} {pages : List Page} {chain : List PageId} {groups : Bytes → List StoredGroup}
    (hsound : Sound db pages chain groups) (hwithin : Within db)
    (hm : db.catalog.getTable name = some m) (h : insert name rows db = .ok rs db') :
    EStateM.Returns Within (flushTable name) db' fun _ db'' => ∃ pages' chain' groups',
      Sound db'' pages' chain' groups' ∧ rowsOf (groups' name) =
        rowsOf (groups name) ++ pendingOf db name ++ storedRows m.schema rows := by
  obtain ⟨m', hm', haccepted, hdb'⟩ := insert_returned h
  obtain rfl := Option.some.inj (hm.symm.trans hm')
  have hwhole : ∀ schema, schemaOf db name = some schema → SplitsNoRow schema rows := by
    intro schema hschema before row after heq _ hrejected
    rw [schemaOf, hm, Option.map_some, Option.some.injEq] at hschema
    subst hschema
    rw [haccepted row (by rw [heq]; simp)] at hrejected
    cases hrejected
  have hleaves := insert_leaves hsound hwhole
  rw [EStateM.Leaves, h] at hleaves
  have hwithin' : Within db' := hdb' ▸ hwithin
  obtain ⟨pages₁, chain₁, groups₁, hsound₁, hview₁⟩ := hleaves hwithin'
  have hschema : schemaOf db' name = some m.schema := by
    rw [hdb', schemaOf]
    exact congrArg (Option.map (·.schema)) hm
  refine (flushTable_returns hsound₁ name).mono fun _ db'' hleft => ?_
  obtain ⟨pages₂, chain₂, groups₂, hflushed, hnone⟩ := hleft
  refine ⟨pages₂, chain₂, groups₂, hflushed.sound, ?_⟩
  rw [EStateM.Result.state_ok] at hflushed hnone
  have hview₂ := congrFun (hflushed.same.trans hview₁) name
  rw [view, hflushed.schemas, hschema, hnone (by rw [hschema]; exact Option.some_ne_none _),
    Tables.step, Function.update_self, view_some hm] at hview₂
  simpa using hview₂

/-- The literals of an `INSERT` that is accepted are in the pending columns, and in the row groups
    after the next flush, as they are just if each literal fits its column. -/
theorem insert_faithful_iff {mach : Machine} {db db' : DB} {name : Bytes}
    {rows : List (List Value)} {rs : ResultSet}
    (h : execute mach (.insert name rows) db = .ok rs db') :
    ∃ m stored, db.catalog.getTable name = some m ∧
      buffersOf db' name = appendRows (fitted m.schema (buffersOf db name)) stored ∧
      (∀ pages chain groups, Sound db pages chain groups → Within db →
        EStateM.Returns Within (flushTable name) db' fun _ db'' => ∃ pages' chain' groups',
          Sound db'' pages' chain' groups' ∧
          rowsOf (groups' name) = rowsOf (groups name) ++ pendingOf db name ++ stored) ∧
      (List.Forall₂ (FaithfulRow m.schema) rows stored ↔ ∀ row ∈ rows, RowFits m.schema row) := by
  obtain ⟨m, hm, haccepted, hdb'⟩ := insert_returned h
  refine ⟨m, storedRows m.schema rows, hm, ?_, fun pages chain groups hsound hwithin =>
    insert_flushed hsound hwithin hm h, stored_faithful_iff (storedRows_of_accepted haccepted)⟩
  rw [hdb', buffersOf, setBuffers, SortedMap.find?_insert, if_pos rfl]
  rfl

/-- `INSERT INTO t VALUES (2147483648, 2)` stores another integer. -/
theorem not_faithful_beyondInt : ¬ ∀ (mach : Machine) (start db db' : DB) (stmts : List Statement)
    (name : Bytes) (rows : List (List Value)) (rs : ResultSet) (m : TableMeta) (stored : List Row),
    DB.open .create = .ok start → Run mach (fun _ _ => True) start stmts db →
    execute mach (.insert name rows) db = .ok rs db' → db.catalog.getTable name = some m →
    buffersOf db' name = appendRows (fitted m.schema (buffersOf db name)) stored →
    List.Forall₂ (FaithfulRow m.schema) rows stored := by
  intro h
  obtain ⟨start, db, schema, hopen, hrun, hcolumns, hm, hbuffers⟩ :=
    exists_twoInts (fun _ _ => True) fun _ => trivial
  have hfitted : fitted schema [[], []] = [[], []] := by
    simp only [fitted, Schema.numColumns, hcolumns]
    rfl
  have hpush : pushRows schema [[.int64 2147483648, .int32 2]] [[], []] =
      ([[.int32 (-2147483648)], [.int32 2]], none) := by
    simp only [pushRows, rowOutcome, Schema.numColumns, hcolumns]
    rfl
  have hexecute : execute oneThread (.insert (ofAscii "t") [[.int64 2147483648, .int32 2]]) db =
      .ok ⟨[], []⟩ (setBuffers (ofAscii "t") [[.int32 (-2147483648)], [.int32 2]] db) := by
    refine (insert_eq hm _).trans ?_
    rw [hbuffers, hfitted, hpush]
    rfl
  have hbuffers' : buffersOf (setBuffers (ofAscii "t") [[.int32 (-2147483648)], [.int32 2]] db)
      (ofAscii "t") = appendRows (fitted schema (buffersOf db (ofAscii "t")))
        [[.int32 (-2147483648), .int32 2]] := by
    rw [buffersOf, setBuffers, SortedMap.find?_insert, if_pos rfl, hbuffers, hfitted]
    rfl
  have hfaithful := h _ _ _ _ _ _ _ _ _ _ hopen hrun hexecute hm hbuffers'
  rw [List.forall₂_cons, FaithfulRow, hcolumns] at hfaithful
  cases hfaithful.1 with
  | cons hfirst _ =>
    have hsame : some (-2147483648 : Int) = some 2147483648 := hfirst.2
    cases hsame

/-- `INSERT INTO t VALUES (7, 7)` stores sevens. -/
theorem insert_faithful_iff_sevens : ∃ (db db' : DB) (m : TableMeta) (stored : List Row),
    db.catalog.getTable (ofAscii "t") = some m ∧
    execute oneThread (.insert (ofAscii "t") [[.int32 7, .int32 7]]) db = .ok ⟨[], []⟩ db' ∧
    List.Forall₂ (FaithfulRow m.schema) [[.int32 7, .int32 7]] stored ∧
    EStateM.Returns Within (flushTable (ofAscii "t")) db' fun _ db'' =>
      ∃ pages' chain' groups', Sound db'' pages' chain' groups' ∧
        stored <:+ rowsOf (groups' (ofAscii "t")) := by
  obtain ⟨schema, hcolumns, hsteady⟩ := exists_steady
  obtain ⟨db, -, halone, pages, chain, groups, hsound, hlen⟩ := hsteady 0 (by omega)
  obtain ⟨db', hinsert, -, -⟩ := insert_sevens hcolumns halone
  have hwithin : Within db := by
    have hsize := hsound.serving.size
    rw [hlen] at hsize
    show _ < _
    omega
  obtain ⟨m, stored, hm, -, hflush, hfaithful⟩ := insert_faithful_iff hinsert
  obtain rfl := Option.some.inj (halone.table.symm.trans hm)
  refine ⟨db, db', _, stored, hm, hinsert, hfaithful.mpr fun row hrow p hp => ?_,
    (hflush pages chain groups hsound hwithin).mono fun _ db'' ⟨pages', chain', groups', h', hrows⟩ =>
      ⟨pages', chain', groups', h', by rw [hrows]; exact List.suffix_append _ _⟩⟩
  obtain rfl := List.mem_singleton.mp hrow
  rw [hcolumns] at hp
  have hseven : p.2 = .int32 7 := by
    have := (List.of_mem_zip hp).2
    simpa using this
  rw [hseven]
  trivial

end DB

end LiteOLAP
