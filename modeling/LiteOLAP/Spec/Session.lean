import LiteOLAP.Spec.SelectCorrect
import LiteOLAP.Spec.StatementsWritten

/-!
# Sessions

A database is used by texts. What the parser accepts is all that ever reaches the tables: whatever
texts are executed, their names stay words, and every statement of the grammar finds them.

## Key results

- `DB.Session.lifetime`: the texts of a session as the statements of a life
- `Tables.worded_steps`: the tables that written statements make have the names of identifiers
- `DB.tables_worded`: so have those of a session, in every state
- `DB.select_session`: what a query returns in a session
-/

namespace LiteOLAP

open Lexer (IsIdentifier isIdentCont isIdentStart)

/-! ## Names -/

namespace Parser

/-- There is a way to print the numbers that are read: some text of each. -/
theorem exists_floatsPrinted (stod : Bytes → Option Double) :
    ∃ floatText, FloatsPrinted stod floatText := by
  classical
  refine ⟨fun d => if h : ∃ text, Lexer.IsFloatText text ∧ stod text = some d then h.choose else [],
    fun text d htext hread => ?_⟩
  have hex : ∃ text, Lexer.IsFloatText text ∧ stod text = some d := ⟨text, htext, hread⟩
  dsimp only
  rw [dif_pos hex]
  exact hex.choose_spec

end Parser

section

variable {name : Bytes}

/-- A character that is in no word. -/
theorem not_mem_of_isIdentifier (h : IsIdentifier name) {c : UInt8} (hc : isIdentCont c = false) :
    c ∉ name := fun hmem => by simp [h.2.1 c hmem] at hc

theorem ne_nil_of_isIdentifier (h : IsIdentifier name) : name ≠ [] := by
  rintro rfl
  simpa using h.1

/-- An identifier can stand in a qualified name, and is not the name of an aggregate. -/
theorem nameable_of_isIdentifier (h : IsIdentifier name) :
    Planner.Nameable name ∧ Planner.Parenless name :=
  ⟨⟨ne_nil_of_isIdentifier h, not_mem_of_isIdentifier h rfl⟩, not_mem_of_isIdentifier h rfl⟩

end

/-! ## The tables of written statements -/

/-- The names of a table and its columns are identifiers. It has a column, and the columns with a
    length are those of type `VARCHAR`. -/
structure WordedTable (name : Bytes) (schema : Schema) : Prop where
  name : IsIdentifier name
  columns_ne : schema.columns ≠ []
  columns : ∀ col ∈ schema.columns,
    IsIdentifier col.name ∧ (col.type = .varchar ↔ col.varcharLen ≠ 0)

def Tables.Worded (t : Tables) : Prop := ∀ n e, t n = some e → WordedTable n e.1

section

variable {stod : Bytes → Option Double} {floatText : Double → Bytes} {t : Tables}

/-- A column of a table that is created is one of the definitions. -/
theorem mem_columns_ofColumns {defs : List ColumnDef} {schema : Schema}
    (h : Schema.ofColumns (DB.columnsOf defs) = .ok schema) {col : Column}
    (hcol : col ∈ schema.columns) :
    ∃ d ∈ defs, col.name = d.name ∧ col.type = d.type ∧ col.varcharLen = d.varcharLen := by
  unfold Schema.ofColumns at h
  split at h
  · rw [← Except.ok.inj h] at hcol
    obtain ⟨i, hi, rfl⟩ := List.mem_mapIdx.mp hcol
    have hlt : i < defs.length := by simpa [DB.columnsOf] using hi
    exact ⟨defs[i], List.getElem_mem hlt, by simp [DB.columnsOf], by simp [DB.columnsOf],
      by simp [DB.columnsOf]⟩
  · cases h

/-- The columns of a statement keep their names, types and lengths. -/
theorem wordedTable_of_written {name : Bytes} {defs : List ColumnDef} {schema : Schema}
    (hname : IsIdentifier name) (hdefs : defs ≠ [])
    (hwritten : ∀ col ∈ defs, Parser.ColumnDef.Written col)
    (h : Schema.ofColumns (DB.columnsOf defs) = .ok schema) : WordedTable name schema := by
  refine ⟨hname, DB.columns_ofColumns h hdefs, fun col hcol => ?_⟩
  obtain ⟨d, hd, hcolName, htype, hlen⟩ := mem_columns_ofColumns h hcol
  rw [hcolName, htype, hlen]
  exact hwritten d hd

/-- One statement of the grammar. -/
theorem Tables.Worded.step (h : t.Worded) {stmt : Statement}
    (hstmt : Parser.Statement.Written stod floatText stmt) : (t.step stmt).Worded := by
  -- only one table is not what it was
  have hupdate : ∀ {name : Bytes} {entry : Option (Schema × List Row)},
      (∀ e, entry = some e → WordedTable name e.1) → Tables.Worded (Function.update t name entry) := by
    intro name entry hentry n e hn
    by_cases heq : n = name
    · subst heq
      rw [Function.update_self] at hn
      exact hentry e hn
    · rw [Function.update_of_ne heq] at hn
      exact h n e hn
  cases stmt with
  | select stmt => exact h
  | dropTable name => exact hupdate fun e he => by cases he
  | truncate name =>
    refine hupdate fun e he => ?_
    obtain ⟨e₀, he₀, rfl⟩ := Option.map_eq_some_iff.mp he
    exact h name e₀ he₀
  | insert name rows =>
    refine hupdate fun e he => ?_
    obtain ⟨e₀, he₀, rfl⟩ := Option.map_eq_some_iff.mp he
    exact h name e₀ he₀
  | createTable name defs =>
    obtain ⟨hname, hdefs, hwritten⟩ := hstmt
    cases hentry : t name with
    | some e => simpa only [Tables.step, hentry] using h
    | none =>
      cases hschema : Schema.ofColumns (DB.columnsOf defs) with
      | error e => simpa only [Tables.step, hentry, hschema] using h
      | ok schema =>
        have hcreated : Tables.Worded (Function.update t name (some (schema, []))) := hupdate
          fun e he => Option.some.inj he ▸ wordedTable_of_written hname hdefs hwritten hschema
        simpa only [Tables.step, hentry, hschema] using hcreated

/-- The tables that statements of the grammar make of no tables. -/
theorem Tables.worded_steps {stmts : List Statement}
    (hstmts : ∀ stmt ∈ stmts, Parser.Statement.Written stod floatText stmt) :
    Tables.Worded (stmts.foldl Tables.step fun _ => none) := by
  have hnone : Tables.Worded fun _ => none := fun n e he => by cases he
  revert hnone
  generalize (fun _ => none : Tables) = t
  induction stmts generalizing t with
  | nil => exact fun h => h
  | cons stmt stmts ih =>
    intro h
    rw [List.forall_mem_cons] at hstmts
    exact ih hstmts.2 _ (h.step hstmts.1)

end

/-! ## Sessions -/

namespace DB

/-- The statements of texts: a text that is not parsed is no statement. -/
def stmtsOf (stod : Bytes → Option Double) (sqls : List Bytes) : List Statement :=
  sqls.filterMap fun sql => (parse stod sql).toOption

/-- The states of a database in the course of its life, with the texts so far. -/
inductive Session (stod : Bytes → Option Double) (mach : Machine) (fits : DB → Prop) :
    Bool → List Bytes → DB → Prop
  | create {db : DB} : DB.open .create = .ok db → Session stod mach fits true [] db
  | execute {sqls : List Bytes} {db : DB} {sql : Bytes} :
      Session stod mach fits true sqls db →
      (∀ stmt, parse stod sql = .ok stmt → InsertsSucceed mach db stmt) →
      fits (executeSql stod mach sql db).state →
      Session stod mach fits true (sqls ++ [sql]) (executeSql stod mach sql db).state
  | close {sqls : List Bytes} {db db' : DB} :
      Session stod mach fits true sqls db → close db = .ok () db' → fits db' →
      Session stod mach fits false sqls db'
  | reopen {sqls : List Bytes} {db db' : DB} :
      Session stod mach fits false sqls db → DB.open db.pool.disk = .ok db' →
      db'.catalog = db.catalog → Session stod mach fits true sqls db'

section

variable {stod : Bytes → Option Double} {mach : Machine} {fits : DB → Prop} {opened : Bool}
  {sqls : List Bytes} {sql : Bytes} {db : DB} {stmt : Statement}

/-- A text is executed as its statement. -/
theorem executeSql_of_parsed (h : parse stod sql = .ok stmt) :
    executeSql stod mach sql = execute mach stmt := by
  rw [executeSql, h]
  rfl

/-- A text that is not parsed leaves the database as it is. -/
theorem executeSql_of_error {e : Exc} (h : parse stod sql = .error e) (db : DB) :
    executeSql stod mach sql db = .error e db := by
  rw [executeSql, h]
  rfl

/-- What is parsed creates no table without columns. -/
theorem parsed_of_parse (h : parse stod sql = .ok stmt) : Parsed stmt := by
  obtain ⟨floatText, hfloats⟩ := Parser.exists_floatsPrinted stod
  have hwritten := Parser.parse_written hfloats h
  cases stmt with
  | createTable name defs => exact hwritten.2.1
  | dropTable | truncate | insert | select => trivial

/-- A session is a life of the statements that its texts stand for. -/
theorem Session.lifetime (h : Session stod mach fits opened sqls db) :
    Lifetime mach fits opened (stmtsOf stod sqls) db := by
  induction h with
  | create hopen => exact .create hopen
  | @execute sqls db sql _ hsucceeds hfits ih =>
    rw [stmtsOf, List.filterMap_append, ← stmtsOf]
    cases hparse : parse stod sql with
    | error e =>
      rw [executeSql_of_error hparse] at hfits ⊢
      simpa [hparse, Except.toOption] using ih
    | ok stmt =>
      rw [executeSql_of_parsed hparse] at hfits ⊢
      have hstmt : [sql].filterMap (fun sql => (parse stod sql).toOption) = [stmt] := by
        simp [hparse, Except.toOption]
      rw [hstmt]
      exact ih.execute (parsed_of_parse hparse) (hsucceeds stmt hparse) hfits
  | close _ hclose hfits ih => exact ih.close hclose hfits
  | reopen _ hopen hcatalog ih => exact ih.reopen hopen hcatalog

/-- All statements of a session are of the grammar. -/
theorem written_stmtsOf {floatText : Double → Bytes} (hfloats : Parser.FloatsPrinted stod floatText)
    (sqls : List Bytes) : ∀ stmt ∈ stmtsOf stod sqls, Parser.Statement.Written stod floatText stmt := by
  intro stmt hstmt
  obtain ⟨sql, -, hparse⟩ := List.mem_filterMap.mp hstmt
  cases hsql : parse stod sql with
  | error e =>
    rw [hsql] at hparse
    cases hparse
  | ok stmt' =>
    rw [hsql] at hparse
    obtain rfl := Option.some.inj hparse
    exact Parser.parse_written hfloats hsql

theorem worded_stmtsOf (stod : Bytes → Option Double) (sqls : List Bytes) :
    Tables.Worded ((stmtsOf stod sqls).foldl Tables.step fun _ => none) := by
  obtain ⟨floatText, hfloats⟩ := Parser.exists_floatsPrinted stod
  exact Tables.worded_steps (written_stmtsOf hfloats sqls)

/-- A table of a database is one of the tables it stands for. -/
theorem Session.worded (h : Session stod mach Within opened sqls db) {name : Bytes} {m : TableMeta}
    (hm : db.catalog.getTable name = some m) : WordedTable name m.schema := by
  obtain ⟨pages, chain, groups, -, hview, -, -⟩ := lifetime_sound h.lifetime
  have hworded := worded_stmtsOf stod sqls
  rw [← hview] at hworded
  exact hworded name _ (view_some hm)

/-- The texts of statements of the grammar are read as the statements. -/
theorem stmtsOf_texts {floatText : Double → Bytes} {stmts : List Statement}
    (h : ∀ stmt ∈ stmts, Parser.Statement.Written stod floatText stmt) :
    stmtsOf stod (stmts.map (Parser.statementText floatText)) = stmts := by
  induction stmts with
  | nil => rfl
  | cons stmt stmts ih =>
    rw [List.forall_mem_cons] at h
    rw [List.map_cons, stmtsOf, List.filterMap_cons, Parser.parse_print h.1]
    exact congrArg _ (ih h.2)

/-- A life of statements of the grammar is a session of their texts. -/
theorem session_of_lifetime {floatText : Double → Bytes} {stmts : List Statement}
    (h : Lifetime mach fits opened stmts db)
    (hwritten : ∀ stmt ∈ stmts, Parser.Statement.Written stod floatText stmt) :
    Session stod mach fits opened (stmts.map (Parser.statementText floatText)) db := by
  induction h with
  | create hopen => exact .create hopen
  | @execute stmts db stmt _ _ hsucceeds hfits ih =>
    have hparse := Parser.parse_print (hwritten stmt (by simp))
    have hrun : executeSql stod mach (Parser.statementText floatText stmt) = execute mach stmt :=
      executeSql_of_parsed hparse
    rw [List.map_append, List.map_singleton, ← hrun]
    refine .execute (ih fun stmt hstmt => hwritten stmt (List.mem_append_left _ hstmt))
      (fun stmt' hstmt' => ?_) (hrun ▸ hfits)
    obtain rfl := Except.ok.inj (hparse.symm.trans hstmt')
    exact hsucceeds
  | close _ hclose hfits ih => exact (ih hwritten).close hclose hfits
  | reopen _ hopen hcatalog ih => exact (ih hwritten).reopen hopen hcatalog

/-- The tables that a query of a text names are found under the names of identifiers. -/
theorem Session.wordNamed (h : Session stod mach Within opened sqls db) {stmt : SelectStmt}
    (hsql : parse stod sql = .ok (.select stmt)) : Planner.WordNamed db.catalog stmt := by
  obtain ⟨floatText, hfloats⟩ := Parser.exists_floatsPrinted stod
  have hwritten := Parser.parse_written hfloats hsql
  intro tr htr m hm
  have hworded := h.worded hm
  obtain ⟨-, htrAlias⟩ := hwritten.tables tr htr
  have halias : Planner.aliasOf tr = tr.alias := if_neg (ne_nil_of_isIdentifier htrAlias)
  rw [halias]
  have hcols : ∀ col ∈ m.schema.columns, Planner.Nameable col.name ∧ Planner.Parenless col.name :=
    fun col hcol => nameable_of_isIdentifier (hworded.columns col hcol).1
  exact ⟨⟨(nameable_of_isIdentifier htrAlias).1, fun col hcol => (hcols col hcol).1⟩,
    (nameable_of_isIdentifier htrAlias).2, fun col hcol => (hcols col hcol).2⟩

end

/-! ### A table of one row -/

section

private theorem isIdentifier_letter {c : UInt8} (hstart : isIdentStart c = true)
    (hcont : isIdentCont c = true) (hword : Keyword.ofText (Lexer.toUpper [c]) = none) :
    IsIdentifier [c] := by
  refine ⟨by simpa using hstart, fun d hd => ?_, hword⟩
  obtain rfl := List.mem_singleton.mp hd
  exact hcont

/-- The three statements of the grammar, where no number has a fraction. -/
theorem written_sevens : ∀ stmt ∈ sevens,
    Parser.Statement.Written (fun _ => none) (fun _ => []) stmt := by
  have ht : IsIdentifier (Bytes.ofAscii "t") := isIdentifier_letter rfl rfl rfl
  have ha : IsIdentifier (Bytes.ofAscii "a") := isIdentifier_letter rfl rfl rfl
  have hb : IsIdentifier (Bytes.ofAscii "b") := isIdentifier_letter rfl rfl rfl
  refine List.forall_mem_cons.mpr ⟨⟨ht, List.cons_ne_nil _ _, ?_⟩, List.forall_mem_cons.mpr
    ⟨⟨ht, List.cons_ne_nil _ _, fun row hrow => ?_⟩, List.forall_mem_singleton.mpr ?_⟩⟩
  · exact List.forall_mem_cons.mpr ⟨⟨ha, by simp⟩, List.forall_mem_singleton.mpr ⟨hb, by simp⟩⟩
  · obtain rfl := List.mem_singleton.mp hrow
    refine ⟨List.cons_ne_nil _ _, fun v hv => ?_⟩
    simp only [List.mem_cons, List.not_mem_nil, or_false] at hv
    rcases hv with rfl | rfl <;> exact ⟨trivial, trivial⟩
  · refine ⟨by simp [selectAll], fun _ h => (by cases h), List.cons_ne_nil _ _,
      List.forall_mem_singleton.mpr ⟨ht, ht⟩, fun _ h => (by cases h), fun _ h => (by cases h),
      fun _ h => (by cases h), fun _ h => (by cases h), fun _ h => by cases h⟩

/-- A session of three texts, in which `(7, 7)` is put into a table and selected. -/
theorem exists_session_sevens : ∃ schema db, schema.columns = columnsOf twoInts ∧
    Session (fun _ => none) oneThread Within true
      (sevens.map (Parser.statementText fun _ => [])) db ∧ Alone schema [⟨1, [1, 2]⟩] [[], []] db := by
  obtain ⟨schema, db, hcolumns, hrun, halone⟩ := exists_sevens
  exact ⟨schema, db, hcolumns, session_of_lifetime hrun written_sevens, halone⟩

end

end DB

end LiteOLAP
