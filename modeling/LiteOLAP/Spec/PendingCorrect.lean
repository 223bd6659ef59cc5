import LiteOLAP.Spec.StatementEffects

/-!
# Pending rows through runs of statements

The pending columns of a table stay columns of one list of rows as long as no `INSERT` is rejected
in the middle of a row; a statement that is rejected keeps what it pushed before that.

## Key results

- `DB.aligned_run`: pending rows are rows of single `INSERT`s, in every run without split rows
- `DB.allOrNothing_iff`: when an `INSERT` that throws leaves the database as it was
-/

namespace LiteOLAP

open Bytes (ofAscii)

namespace DB

/-- Statements executed one after another, each from the state that the one before it has left,
    whether that returned or threw. `good` is what is known of a statement in the state that it
    finds. -/
inductive Run (mach : Machine) (good : DB → Statement → Prop) (start : DB) :
    List Statement → DB → Prop
  | nil : Run mach good start [] start
  | step {stmts : List Statement} {db : DB} {stmt : Statement} :
      Run mach good start stmts db → good db stmt →
      Run mach good start (stmts ++ [stmt]) (execute mach stmt db).state

/-- A database as `Open` makes it has nothing pending. -/
theorem open_pending {disk : DiskManager} {db : DB} (h : DB.open disk = .ok db) :
    db.pending = .empty := by
  unfold DB.open at h
  split at h
  · obtain ⟨pool, -, h⟩ := Except.bind_eq_ok.mp h
    obtain rfl := Except.ok.inj h
    rfl
  · cases h

/-! ## Columns of one list of rows -/

/-- The row was stored by an `INSERT` of the run. -/
def Inserted (stmts : List Statement) (name : Bytes) (schema : Schema) (r : Row) : Prop :=
  ∃ rows row, .insert name rows ∈ stmts ∧ row ∈ rows ∧ StoredAs schema row r

/-- The pending columns of a table are the columns of inserted rows. -/
def Aligned (stmts : List Statement) (name : Bytes) (schema : Schema) (cols : List (List Value)) :
    Prop :=
  ∃ n, PendingFits schema cols n ∧ ∀ r ∈ rowsAt cols n, Inserted stmts name schema r

/-- All pending columns are. -/
def AllAligned (stmts : List Statement) (db : DB) : Prop :=
  ∀ name schema cols, schemaOf db name = some schema → db.pending.find? name = some cols →
    Aligned stmts name schema cols

section

variable {stmts : List Statement} {name : Bytes} {schema : Schema} {cols : List (List Value)}

theorem Aligned.mono (h : Aligned stmts name schema cols) (stmt : Statement) :
    Aligned (stmts ++ [stmt]) name schema cols := by
  obtain ⟨n, hfits, hrows⟩ := h
  refine ⟨n, hfits, fun r hr => ?_⟩
  obtain ⟨rows, row, hmem, hrow, hstored⟩ := hrows r hr
  exact ⟨rows, row, List.mem_append_left _ hmem, hrow, hstored⟩

theorem aligned_empty (h : PendingFits schema cols 0) : Aligned stmts name schema cols :=
  ⟨0, h, fun r hr => by cases hr⟩

/-- The columns that an `INSERT` begins with are aligned if those it finds are. -/
theorem aligned_fitted {db : DB} (h : AllAligned stmts db) (hschema : schemaOf db name = some schema) :
    Aligned stmts name schema (fitted schema (buffersOf db name)) := by
  unfold buffersOf
  cases hfind : db.pending.find? name with
  | none =>
    refine aligned_empty ?_
    unfold fitted
    split
    · exact pendingFits_replicate schema
    · rename_i hlen
      have hzero : schema.numColumns = 0 := (Decidable.not_not.mp hlen).symm
      have hfits := pendingFits_replicate schema
      rwa [hzero] at hfits
  | some cols =>
    have haligned := h name schema cols hschema hfind
    obtain ⟨n, hfits, -⟩ := id haligned
    rw [Option.getD_some, fitted, if_neg (Decidable.not_not.mpr hfits.numColumns)]
    exact haligned

/-- One statement keeps the columns aligned, if it splits no row. -/
theorem AllAligned.step {db db' : DB} {stmt : Statement} (h : AllAligned stmts db)
    (heffect : Effect db stmt db')
    (hgood : ∀ name rows schema, stmt = .insert name rows → schemaOf db name = some schema →
      SplitsNoRow schema rows) : AllAligned (stmts ++ [stmt]) db' := by
  intro n schema cols hschema hcols
  cases heffect with
  | calm hcalm =>
    rw [hcalm.schemas] at hschema
    rcases hcalm.pending n with heq | heq
    · exact (h n schema cols hschema (heq ▸ hcols)).mono stmt
    · rw [heq] at hcols
      obtain ⟨old, hold, rfl⟩ := Option.map_eq_some_iff.mp hcols
      obtain ⟨total, hfits, -⟩ := h n schema old hschema hold
      exact aligned_empty hfits.cleared
  | @created name defs schema' _ _ _ hschemas hpending =>
    rw [hpending, SortedMap.find?_insert] at hcols
    rw [hschemas] at hschema
    by_cases hn : n = name
    · rw [if_pos hn] at hcols hschema
      obtain rfl := Option.some.inj hcols
      obtain rfl := Option.some.inj hschema
      exact aligned_empty (pendingFits_replicate _)
    · rw [if_neg hn] at hcols hschema
      exact (h n schema cols hschema hcols).mono _
  | @dropped name _ hschemas hpending =>
    rw [hpending, SortedMap.find?_erase] at hcols
    rw [hschemas] at hschema
    by_cases hn : n = name
    · rw [if_pos hn] at hcols
      cases hcols
    · rw [if_neg hn] at hcols hschema
      exact (h n schema cols hschema hcols).mono _
  | @inserted name rows m hm =>
    have hname : schemaOf db name = some m.schema := by rw [schemaOf, hm]; rfl
    rw [setBuffers, SortedMap.find?_insert] at hcols
    by_cases hn : n = name
    · subst hn
      rw [if_pos rfl] at hcols
      obtain rfl := Option.some.inj hcols
      obtain rfl := Option.some.inj (hname.symm.trans hschema)
      obtain ⟨total, hfits, hrows⟩ := aligned_fitted h hname
      obtain ⟨hfits', hat⟩ := hfits.pushRows (hgood n rows _ rfl hname)
      refine ⟨_, hfits', fun r hr => ?_⟩
      rw [hat] at hr
      rcases List.mem_append.mp hr with hr | hr
      · obtain ⟨rows', row, hmem, hrow, hstored⟩ := hrows r hr
        exact ⟨rows', row, List.mem_append_left _ hmem, hrow, hstored⟩
      · obtain ⟨row, hrow, hstored⟩ := mem_storedRows hr
        exact ⟨rows, row, List.mem_append_right _ List.mem_cons_self, hrow, hstored⟩
    · rw [if_neg hn] at hcols
      exact (h n schema cols hschema hcols).mono _

end

/-- No `INSERT` of the run is rejected in the middle of a row. -/
def InsertsWhole (db : DB) (stmt : Statement) : Prop :=
  ∀ name rows schema, stmt = .insert name rows → schemaOf db name = some schema →
    SplitsNoRow schema rows

theorem allAligned_run {mach : Machine} {start db : DB} {stmts : List Statement}
    (hstart : start.pending = .empty) (hrun : Run mach InsertsWhole start stmts db) :
    AllAligned stmts db := by
  induction hrun with
  | nil =>
    intro name schema cols _ hcols
    rw [hstart] at hcols
    cases hcols
  | @step stmts db stmt _ hgood ih => exact ih.step (execute_effect mach db stmt) hgood

/-- What the pending columns of a table have to be: one for each column of the table, all of one
    length, so that `FlushTable` reads in range only, and what it reads as a row is a row of one
    `INSERT`. -/
structure OneLength (stmts : List Statement) (name : Bytes) (schema : Schema)
    (cols : List (List Value)) : Prop where
  columns : cols.length = schema.numColumns
  lengths : ∀ col ∈ cols, ∀ col' ∈ cols, col.length = col'.length
  inRange : ∀ c < schema.numColumns, ∀ r < (cols.headD []).length, ∃ v, pendingAt cols c r = .ok v
  rows : ∀ r ∈ pendingRows cols, Inserted stmts name schema r

theorem Aligned.oneLength {stmts : List Statement} {name : Bytes} {schema : Schema}
    {cols : List (List Value)} (h : Aligned stmts name schema cols) :
    OneLength stmts name schema cols := by
  obtain ⟨n, hfits, hrows⟩ := h
  have hlength : ∀ col ∈ cols, col.length = n := by
    intro col hcol
    obtain ⟨c, hc, rfl⟩ := List.getElem_of_mem hcol
    exact ((List.forall₂_iff_get.mp hfits).2 c hc (hfits.length_eq ▸ hc)).1
  refine ⟨hfits.numColumns, fun col hcol col' hcol' => (hlength col hcol).trans (hlength col' hcol').symm,
    fun c hc r hr => ?_, fun r hr => ?_⟩
  · obtain ⟨vs, hvs, hlen, -, -⟩ := hfits.exists_column (List.getElem?_eq_getElem hc)
    obtain ⟨first, rest, rfl⟩ := List.exists_cons_of_length_pos (hfits.numColumns ▸ Nat.zero_lt_of_lt hc)
    have hlt : r < vs.length := by
      rw [hlen, ← hlength first List.mem_cons_self]
      exact hr
    exact ⟨vs[r], by rw [pendingAt, hvs, Option.bind_some, List.getElem?_eq_getElem hlt]⟩
  · by_cases hne : cols = []
    · subst hne
      cases hr
    · rw [hfits.pendingRows_eq hne] at hr
      exact hrows r hr

/-- In every run in which no `INSERT` is rejected in the middle of a row, the pending columns of
    each table have one length, and pending rows are rows of single `INSERT`s. -/
theorem aligned_run {mach : Machine} {disk : DiskManager} {start db : DB} {stmts : List Statement}
    (hopen : DB.open disk = .ok start) (hrun : Run mach InsertsWhole start stmts db) {name : Bytes}
    {schema : Schema} {cols : List (List Value)} (hschema : schemaOf db name = some schema)
    (hcols : db.pending.find? name = some cols) : OneLength stmts name schema cols :=
  (allAligned_run (open_pending hopen) hrun name schema cols hschema hcols).oneLength

/-! ### A row that is split -/

/-- `a INT, b INT`. -/
def twoInts : List ColumnDef := [⟨ofAscii "a", .int, 0⟩, ⟨ofAscii "b", .int, 0⟩]

/-- One thread. -/
def oneThread : Machine := ⟨1, fun _ => 0⟩

/-- A new file, with the empty table `t (a INT, b INT)`. -/
theorem exists_twoInts (good : DB → Statement → Prop)
    (hgood : ∀ db, good db (.createTable (ofAscii "t") twoInts)) :
    ∃ start db schema, DB.open .create = .ok start ∧
      Run oneThread good start [.createTable (ofAscii "t") twoInts] db ∧
      schema.columns = columnsOf twoInts ∧
      db.catalog.getTable (ofAscii "t") = some ⟨ofAscii "t", schema, []⟩ ∧
      buffersOf db (ofAscii "t") = [[], []] := by
  obtain ⟨start, hopen, hcatalog⟩ :
      ∃ start, DB.open .create = .ok start ∧ start.catalog = .empty := ⟨_, rfl, rfl⟩
  obtain ⟨schema, hschema, hcolumns⟩ : ∃ schema, Schema.ofColumns (columnsOf twoInts) = .ok schema ∧
      schema.columns = columnsOf twoInts := ⟨_, rfl, rfl⟩
  have hnone : start.catalog.getTable (ofAscii "t") = none := by
    rw [hcatalog]
    rfl
  obtain ⟨pool, catalog, hget, hstate⟩ := createTable_state hnone hschema
  refine ⟨start, _, schema, hopen, .step .nil (hgood start), hcolumns, ?_, ?_⟩
  · rw [execute, hstate]
    exact (hget _).trans (if_pos rfl)
  · rw [execute, hstate, buffersOf, setBuffers, SortedMap.find?_insert, if_pos rfl,
      Schema.numColumns, hcolumns]
    rfl

section

variable {db : DB} {schema : Schema}

/-- `INSERT INTO t VALUES (1, 'x')` leaves one value for `a` and none for `b`. -/
theorem split_state (hcolumns : schema.columns = columnsOf twoInts)
    (hm : db.catalog.getTable (ofAscii "t") = some ⟨ofAscii "t", schema, []⟩)
    (hbuffers : buffersOf db (ofAscii "t") = [[], []]) :
    ∃ e, execute oneThread (.insert (ofAscii "t") [[.int32 1, .string (ofAscii "x")]]) db =
      .error e (setBuffers (ofAscii "t") [[.int32 1], []] db) := by
  have hpush : ∃ e, pushRows schema [[.int32 1, .string (ofAscii "x")]]
      (fitted schema [[], []]) = ([[.int32 1], []], some e) := by
    refine ⟨.runtimeError (ofAscii "INSERT: value does not match column type"), ?_⟩
    simp only [pushRows, rowOutcome, fitted, Schema.numColumns, hcolumns]
    rfl
  obtain ⟨e, hpush⟩ := hpush
  refine ⟨e, (insert_eq hm _).trans ?_⟩
  rw [hbuffers, hpush]
  rfl

/-- `INSERT INTO t VALUES (1, 2), (3)` adds one row and throws. -/
theorem shortRow_state (hcolumns : schema.columns = columnsOf twoInts)
    (hm : db.catalog.getTable (ofAscii "t") = some ⟨ofAscii "t", schema, []⟩)
    (hbuffers : buffersOf db (ofAscii "t") = [[], []]) :
    execute oneThread (.insert (ofAscii "t") [[.int32 1, .int32 2], [.int32 3]]) db =
      .error countMismatch (setBuffers (ofAscii "t") [[.int32 1], [.int32 2]] db) := by
  have hpush : pushRows schema [[.int32 1, .int32 2], [.int32 3]] (fitted schema [[], []]) =
      ([[.int32 1], [.int32 2]], some countMismatch) := by
    simp only [pushRows, rowOutcome, fitted, Schema.numColumns, hcolumns]
    rfl
  refine (insert_eq hm _).trans ?_
  rw [hbuffers, hpush]
  rfl

end

/-- After a statement that was rejected in the middle of a row the columns differ in length. -/
theorem not_oneLength_split : ¬ ∀ (mach : Machine) (start db : DB) (stmts : List Statement)
    (name : Bytes) (schema : Schema) (cols : List (List Value)), DB.open .create = .ok start →
    Run mach (fun _ _ => True) start stmts db → schemaOf db name = some schema →
    db.pending.find? name = some cols → OneLength stmts name schema cols := by
  intro h
  obtain ⟨start, db, schema, hopen, hrun, hcolumns, hm, hbuffers⟩ :=
    exists_twoInts (fun _ _ => True) fun _ => trivial
  obtain ⟨e, hsplit⟩ := split_state hcolumns hm hbuffers
  have hlengths := (h _ _ _ _ (ofAscii "t") schema [[.int32 1], []] hopen
    (show Run _ _ _ (_ ++ [.insert (ofAscii "t") [[.int32 1, .string (ofAscii "x")]]]) _ from
      .step hrun trivial)
    (by rw [hsplit]; exact congrArg (Option.map (·.schema)) hm)
    (by rw [hsplit]; exact (SortedMap.find?_insert _ _ _ _).trans (if_pos rfl))).lengths
  cases hlengths [.int32 1] (by simp) [] (by simp)

/-- The columns are aligned after `INSERT INTO t VALUES (1, 2), (3)`, which is rejected at its
    second row. -/
theorem aligned_run_shortRow : ∃ (start db : DB) (schema : Schema) (stmts : List Statement),
    DB.open .create = .ok start ∧ Run oneThread InsertsWhole start stmts db ∧
    OneLength stmts (ofAscii "t") schema [[.int32 1], [.int32 2]] := by
  obtain ⟨start, db, schema, hopen, hrun, hcolumns, hm, hbuffers⟩ :=
    exists_twoInts InsertsWhole fun _ name rows schema h => by cases h
  have hwhole : InsertsWhole db (.insert (ofAscii "t") [[.int32 1, .int32 2], [.int32 3]]) := by
    intro name rows schema' hstmt hschema
    injection hstmt with hname hrows
    subst hname hrows
    have hname : schemaOf db (ofAscii "t") = some schema := by rw [schemaOf, hm]; rfl
    obtain rfl := Option.some.inj (hname.symm.trans hschema)
    intro before row after heq hbefore hrejected
    have hout : ∀ row ∈ [[Value.int32 1, .int32 2], [.int32 3]],
        (rowOutcome schema row).2.isSome → (rowOutcome schema row).1 = [] := by
      simp only [rowOutcome, Schema.numColumns, hcolumns]
      decide
    exact hout row (by rw [heq]; simp) hrejected
  have hstate := shortRow_state hcolumns hm hbuffers
  refine ⟨start, _, schema, _, hopen, .step hrun hwhole, aligned_run hopen (.step hrun hwhole) ?_ ?_⟩
  · rw [hstate]
    exact congrArg (Option.map (·.schema)) hm
  · rw [hstate]
    exact (SortedMap.find?_insert _ _ _ _).trans (if_pos rfl)

/-! ## All or nothing -/

/-- The pending values of a column of a table. -/
def pendingColumn (db : DB) (name : Bytes) (c : Nat) : List Value :=
  (buffersOf db name)[c]?.getD []

/-- If the `INSERT` throws, the catalog is as before, and so are all pending values. -/
def AllOrNothing (mach : Machine) (db : DB) (name : Bytes) (rows : List (List Value)) : Prop :=
  ∀ e db', execute mach (.insert name rows) db = .error e db' → db'.catalog = db.catalog ∧
    ∀ n c, pendingColumn db' n c = pendingColumn db n c

/-- All rows are accepted. -/
def Accepted (schema : Schema) (rows : List (List Value)) : Prop :=
  ∀ row ∈ rows, (rowOutcome schema row).2 = none

instance (schema : Schema) (rows : List (List Value)) : Decidable (Accepted schema rows) :=
  inferInstanceAs (Decidable (∀ row ∈ rows, (rowOutcome schema row).2 = none))

/-- No value is accepted before the first that is rejected, or before the first row with a wrong
    number of values. -/
def RejectedAtOnce (schema : Schema) : List (List Value) → Prop
  | [] => True
  | row :: rows => (rowOutcome schema row).1 = [] ∧
    ((rowOutcome schema row).2 = none → RejectedAtOnce schema rows)

section

variable {schema : Schema}

theorem accepted_iff (rows : List (List Value)) :
    ∀ cols, (pushRows schema rows cols).2 = none ↔ Accepted schema rows := by
  induction rows with
  | nil => exact fun _ => ⟨fun _ row hrow => (by cases hrow), fun _ => rfl⟩
  | cons row rows ih =>
    intro cols
    unfold pushRows
    split
    · rename_i ws hws
      rw [ih, Accepted, Accepted, List.forall_mem_cons, hws]
      simp
    · rename_i ws e hws
      refine ⟨fun h => (by cases h), fun h => ?_⟩
      have := h row List.mem_cons_self
      rw [hws] at this
      cases this

theorem pushRows_rejectedAtOnce {rows : List (List Value)} (h : RejectedAtOnce schema rows)
    (cols : List (List Value)) : (pushRows schema rows cols).1 = cols := by
  induction rows with
  | nil => rfl
  | cons row rows ih =>
    obtain ⟨hnil, hrest⟩ := h
    unfold pushRows
    split
    · rename_i ws hws
      rw [hws] at hnil hrest
      rw [show ws = [] from hnil, pushValues_nil]
      exact ih (hrest rfl)
    · rename_i ws e hws
      rw [hws] at hnil
      rw [show ws = [] from hnil, pushValues_nil]

theorem length_coerced_le (cols : List Column) :
    ∀ vs, (coerced cols vs).1.length ≤ cols.length := by
  induction cols with
  | nil => intro vs; simp [coerced]
  | cons col cols ih =>
    intro vs
    cases vs with
    | nil => simp
    | cons v vs =>
      unfold coerced
      split
      · simpa using ih vs
      · simp

/-- What is pushed first goes onto the first column. -/
theorem head_pushRows (rows : List (List Value)) : ∀ cols : List (List Value),
    cols.length = schema.numColumns → ∃ more,
      (pushRows schema rows cols).1[0]?.getD [] = cols[0]?.getD [] ++ more ∧
      (more = [] → RejectedAtOnce schema rows) := by
  induction rows with
  | nil => exact fun cols _ => ⟨[], by simp [pushRows], fun _ => trivial⟩
  | cons row rows ih =>
    intro cols hcols
    -- the first value of this row, if one is accepted
    have hpush : ∃ first, (pushValues (rowOutcome schema row).1 cols)[0]?.getD [] =
        cols[0]?.getD [] ++ first ∧ (first = [] → (rowOutcome schema row).1 = []) := by
      cases hws : (rowOutcome schema row).1 with
      | nil => exact ⟨[], by simp, fun _ => rfl⟩
      | cons w ws =>
        cases cols with
        | nil =>
          have hlen : (rowOutcome schema row).1.length ≤ schema.numColumns := by
            unfold rowOutcome
            split
            · exact Nat.zero_le _
            · exact length_coerced_le _ _
          rw [hws, ← hcols] at hlen
          cases hlen
        | cons col cols => exact ⟨[w], by simp [pushValues], fun h => by cases h⟩
    obtain ⟨first, hfirst, hnil⟩ := hpush
    unfold pushRows
    split
    · rename_i ws hws
      rw [hws] at hfirst hnil
      obtain ⟨more, hmore, hrest⟩ := ih (pushValues ws cols) (by rw [length_pushValues, hcols])
      refine ⟨first ++ more, by rw [hmore, hfirst, List.append_assoc], fun h => ?_⟩
      obtain ⟨hfirst, hmore⟩ := List.append_eq_nil_iff.mp h
      exact ⟨by rw [hws]; exact hnil hfirst, fun _ => hrest hmore⟩
    · rename_i ws e hws
      rw [hws] at hfirst hnil
      refine ⟨first, hfirst, fun h => ⟨by rw [hws]; exact hnil h, fun hnone => ?_⟩⟩
      rw [hws] at hnone
      cases hnone

end

/-- Pending columns are as many as the table has. -/
def Wide (db : DB) : Prop :=
  ∀ name schema cols, schemaOf db name = some schema → db.pending.find? name = some cols →
    cols.length = schema.numColumns

theorem Wide.step {db db' : DB} {stmt : Statement} (h : Wide db) (heffect : Effect db stmt db') :
    Wide db' := by
  intro n schema cols hschema hcols
  cases heffect with
  | calm hcalm =>
    rw [hcalm.schemas] at hschema
    rcases hcalm.pending n with heq | heq
    · exact h n schema cols hschema (heq ▸ hcols)
    · rw [heq] at hcols
      obtain ⟨old, hold, rfl⟩ := Option.map_eq_some_iff.mp hcols
      rw [List.length_map]
      exact h n schema old hschema hold
  | @created name defs schema' _ _ _ hschemas hpending =>
    rw [hpending, SortedMap.find?_insert] at hcols
    rw [hschemas] at hschema
    by_cases hn : n = name
    · rw [if_pos hn] at hcols hschema
      obtain rfl := Option.some.inj hcols
      obtain rfl := Option.some.inj hschema
      exact List.length_replicate
    · rw [if_neg hn] at hcols hschema
      exact h n schema cols hschema hcols
  | @dropped name _ hschemas hpending =>
    rw [hpending, SortedMap.find?_erase] at hcols
    rw [hschemas] at hschema
    by_cases hn : n = name
    · rw [if_pos hn] at hcols
      cases hcols
    · rw [if_neg hn] at hcols hschema
      exact h n schema cols hschema hcols
  | @inserted name rows m hm =>
    rw [setBuffers, SortedMap.find?_insert] at hcols
    by_cases hn : n = name
    · subst hn
      rw [if_pos rfl] at hcols
      obtain rfl := Option.some.inj hcols
      have hname : schemaOf db n = some m.schema := by rw [schemaOf, hm]; rfl
      obtain rfl := Option.some.inj (hname.symm.trans hschema)
      rw [length_pushRows, length_fitted]
    · rw [if_neg hn] at hcols
      exact h n schema cols hschema hcols

theorem wide_run {mach : Machine} {good : DB → Statement → Prop} {start db : DB}
    {stmts : List Statement} (hstart : start.pending = .empty)
    (hrun : Run mach good start stmts db) : Wide db := by
  induction hrun with
  | nil =>
    intro name schema cols _ hcols
    rw [hstart] at hcols
    cases hcols
  | @step stmts db stmt _ _ ih => exact ih.step (execute_effect mach db stmt)

/-- Where the columns are as many as they should be, `INSERT` begins with the values it finds. -/
theorem Wide.fitted_getD {db : DB} (h : Wide db) {name : Bytes} {m : TableMeta}
    (hm : db.catalog.getTable name = some m) (c : Nat) :
    (fitted m.schema (buffersOf db name))[c]?.getD [] = pendingColumn db name c := by
  unfold pendingColumn buffersOf
  cases hfind : db.pending.find? name with
  | none =>
    unfold fitted
    split
    · rw [List.getElem?_replicate]
      split <;> rfl
    · rfl
  | some cols =>
    have hlen := h name m.schema cols (by rw [schemaOf, hm]; rfl) hfind
    rw [Option.getD_some, fitted, if_neg (Decidable.not_not.mpr hlen)]

theorem pendingColumn_setBuffers (name : Bytes) (cols : List (List Value)) (db : DB) (n : Bytes)
    (c : Nat) : pendingColumn (setBuffers name cols db) n c =
      if n = name then cols[c]?.getD [] else pendingColumn db n c := by
  unfold pendingColumn buffersOf setBuffers
  rw [SortedMap.find?_insert]
  split <;> rfl

/-- In every state that statements lead to: an `INSERT` that throws leaves the database as it was
    just if it is rejected before a value of it has been accepted. -/
theorem allOrNothing_iff {mach : Machine} {disk : DiskManager} {start db : DB}
    {stmts : List Statement} (hopen : DB.open disk = .ok start)
    (hrun : Run mach (fun _ _ => True) start stmts db) (name : Bytes) (rows : List (List Value)) :
    AllOrNothing mach db name rows ↔ ∀ m, db.catalog.getTable name = some m →
      Accepted m.schema rows ∨ RejectedAtOnce m.schema rows := by
  have hwide := wide_run (open_pending hopen) hrun
  cases hm : db.catalog.getTable name with
  | none =>
    refine ⟨fun _ m hm' => (by cases hm'), fun _ e db' hfail => ?_⟩
    have heq := (insert_unknown hm rows).symm.trans hfail
    injection heq with _ hdb
    subst hdb
    exact ⟨rfl, fun _ _ => rfl⟩
  | some m =>
    have hrun' : execute mach (.insert name rows) db = _ := insert_eq hm rows
    rw [AllOrNothing, hrun']
    constructor
    · intro h m' hm'
      obtain rfl := Option.some.inj hm'
      cases hout : (pushRows m.schema rows (fitted m.schema (buffersOf db name))).2 with
      | none => exact .inl ((accepted_iff rows _).mp hout)
      | some e =>
        obtain ⟨more, hmore, hnil⟩ := head_pushRows rows
          (fitted m.schema (buffersOf db name)) (length_fitted m.schema _)
        refine .inr (hnil ?_)
        rw [hout] at h
        have hsame := (h e _ rfl).2 name 0
        rw [pendingColumn_setBuffers, if_pos rfl, hmore, hwide.fitted_getD hm] at hsame
        simpa using hsame
    · intro h e db' hfail
      cases hout : (pushRows m.schema rows (fitted m.schema (buffersOf db name))).2 with
      | none =>
        rw [hout] at hfail
        cases hfail
      | some e' =>
        rw [hout] at hfail
        injection hfail with _ hdb
        subst hdb
        refine ⟨rfl, fun n c => ?_⟩
        rw [pendingColumn_setBuffers]
        split
        · rename_i hn
          rw [hn]
          rcases h m rfl with haccepted | hrejected
          · rw [(accepted_iff rows _).mpr haccepted] at hout
            cases hout
          · rw [pushRows_rejectedAtOnce hrejected, hwide.fitted_getD hm]
        · rfl

/-- `INSERT INTO t VALUES (1, 2), (3)` throws at its second row and keeps the first. -/
theorem not_allOrNothing_shortRow : ¬ ∀ (mach : Machine) (start db : DB) (stmts : List Statement)
    (name : Bytes) (rows : List (List Value)), DB.open .create = .ok start →
    Run mach (fun _ _ => True) start stmts db → AllOrNothing mach db name rows := by
  intro h
  obtain ⟨start, db, schema, hopen, hrun, hcolumns, hm, hbuffers⟩ :=
    exists_twoInts (fun _ _ => True) fun _ => trivial
  have hsame := (h _ _ _ _ _ _ hopen hrun _ _ (shortRow_state hcolumns hm hbuffers)).2 (ofAscii "t") 0
  rw [pendingColumn_setBuffers, if_pos rfl, pendingColumn, hbuffers] at hsame
  cases hsame

/-- `INSERT INTO t VALUES ('x', 2)` is rejected at once. -/
theorem allOrNothing_iff_first : ∃ (start db : DB) (stmts : List Statement),
    DB.open .create = .ok start ∧ Run oneThread (fun _ _ => True) start stmts db ∧
    AllOrNothing oneThread db (ofAscii "t") [[.string (ofAscii "x"), .int32 2]] := by
  obtain ⟨start, db, schema, hopen, hrun, hcolumns, hm, hbuffers⟩ :=
    exists_twoInts (fun _ _ => True) fun _ => trivial
  refine ⟨start, db, _, hopen, hrun, (allOrNothing_iff hopen hrun _ _).mpr fun m hm' => .inr ?_⟩
  obtain rfl := Option.some.inj (hm.symm.trans hm')
  refine ⟨?_, fun hnone => ?_⟩
  · simp only [rowOutcome, Schema.numColumns, hcolumns]
    rfl
  · simp only [rowOutcome, Schema.numColumns, hcolumns] at hnone
    cases hnone

end DB

end LiteOLAP
