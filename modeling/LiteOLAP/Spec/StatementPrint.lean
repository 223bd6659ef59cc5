import LiteOLAP.Spec.PrintCorrect

/-!
# Statements, printed as text and parsed

A statement is printed as its tokens, with every optional word written out: each table has its
alias behind `AS`, and the key of `ORDER BY` its direction. What is printed is read back, clause
by clause, since a clause ends in front of the keyword of a later one.

## Key results

- `Parser.commaList_print`: a list with commas is read back from the tokens of its items
- `Parser.optionalClause_print`: an optional clause is read back, whether it is there or not
- `Parser.parseStatement_print`: a statement is read back from its tokens
- `Parser.parse_print`: and from its text
-/

namespace LiteOLAP

open Bytes (ofAscii)

namespace Parser

open Lexer

/-! ## Statements that can be printed -/

section

variable (stod : Bytes → Option Double) (floatText : Double → Bytes)

/-- An expression that the parser can make, of tokens that the lexer can make. -/
def ExprWritten (e : Expr) : Prop := Typed e ∧ Printable stod floatText e

/-- A literal that the parser can make, of a token that the lexer can make. -/
def LiteralWritten (v : Value) : Prop := LiteralTyped v ∧ LiteralPrintable stod floatText v

/-- A name that may be left out, or an identifier. -/
def OptionalName (name : Bytes) : Prop := name = [] ∨ IsIdentifier name

/-- Only a `VARCHAR` has a length, and it is not zero. -/
def ColumnDef.Written (col : ColumnDef) : Prop :=
  IsIdentifier col.name ∧ (col.type = .varchar ↔ col.varcharLen ≠ 0)

structure SelectItem.Written (item : SelectItem) : Prop where
  expr : ExprWritten stod floatText item.expr
  outputAlias : OptionalName item.outputAlias

def TableRef.Written (t : TableRef) : Prop := IsIdentifier t.name ∧ IsIdentifier t.alias

/-- What the grammar of `SELECT` promises: `*` or items, a table at least, and names that are
    identifiers. -/
structure SelectStmt.Written (stmt : SelectStmt) : Prop where
  star : stmt.selectStar = true ↔ stmt.items = []
  items : ∀ item ∈ stmt.items, SelectItem.Written stod floatText item
  tables_ne : stmt.tables ≠ []
  tables : ∀ t ∈ stmt.tables, TableRef.Written t
  «where» : ∀ e ∈ stmt.where, ExprWritten stod floatText e
  groupBy : ∀ key ∈ stmt.groupBy, OptionalName key.1 ∧ IsIdentifier key.2
  having : ∀ e ∈ stmt.having, ExprWritten stod floatText e
  orderBy : ∀ key ∈ stmt.orderBy, IsIdentifier key.outputName
  limit : ∀ n ∈ stmt.limit, n < 2 ^ 63

/-- What the grammar promises of each statement. -/
def Statement.Written : Statement → Prop
  | .createTable name cols => IsIdentifier name ∧ cols ≠ [] ∧ ∀ col ∈ cols, ColumnDef.Written col
  | .dropTable name | .truncate name => IsIdentifier name
  | .insert name rows =>
    IsIdentifier name ∧ rows ≠ [] ∧
      ∀ row ∈ rows, row ≠ [] ∧ ∀ v ∈ row, LiteralWritten stod floatText v
  | .select stmt => SelectStmt.Written stod floatText stmt

end

/-! ## Printing -/

/-- Items with commas between them. -/
def printList {α : Type} (print : α → List Token) : List α → List Token
  | [] => []
  | x :: xs => print x ++ xs.flatMap fun x => .punct .comma :: print x

/-- A clause that may be absent. -/
def printClause {α : Type} (kw : Keyword) (print : α → List Token) : Option α → List Token
  | none => []
  | some x => .keyword kw :: print x

/-- A number without a sign. -/
def numeralToken (n : Nat) : Token := .integer (ofAscii (toString (n : Int))) (.ofNat n)

def printColumnRef (key : Bytes × Bytes) : List Token :=
  if key.1 = [] then [.identifier key.2] else [.identifier key.1, .punct .dot, .identifier key.2]

def printType : ColumnType → UInt16 → List Token
  | .int, _ => [.keyword .int]
  | .bigInt, _ => [.keyword .bigInt]
  | .float, _ => [.keyword .float]
  | .varchar, len => [.keyword .varchar, .punct .lparen, numeralToken len.toNat, .punct .rparen]

def printColumnDef (col : ColumnDef) : List Token :=
  .identifier col.name :: printType col.type col.varcharLen

def printTableRef (t : TableRef) : List Token :=
  [.identifier t.name, .keyword .as, .identifier t.alias]

def printOrderBy (key : OrderBy) : List Token :=
  [.keyword .by, .identifier key.outputName, .keyword (if key.descending then .desc else .asc)]

section

variable (floatText : Double → Bytes)

/-- An item is a primary: any other expression stands in parentheses. -/
def printSelectItem (item : SelectItem) : List Token :=
  wrap 7 item.expr (printTokens floatText item.expr) ++
    if item.outputAlias = [] then [] else [.keyword .as, .identifier item.outputAlias]

def printRow (row : List Value) : List Token :=
  .punct .lparen :: (printList (fun v => [literalToken floatText v]) row ++ [.punct .rparen])

/-- The list of `GROUP BY`, if it is not empty. -/
def groupClause (groupBy : List (Bytes × Bytes)) : Option (List (Bytes × Bytes)) :=
  if groupBy = [] then none else some groupBy

def printSelect (stmt : SelectStmt) : List Token :=
  .keyword .select ::
    ((if stmt.selectStar then [.punct .star]
      else printList (printSelectItem floatText) stmt.items) ++
    .keyword .from :: (printList printTableRef stmt.tables ++
    (printClause .where (printTokens floatText) stmt.where ++
    (printClause .group (fun keys => .keyword .by :: printList printColumnRef keys)
      (groupClause stmt.groupBy) ++
    (printClause .having (printTokens floatText) stmt.having ++
    (printClause .order printOrderBy stmt.orderBy ++
    printClause .limit (fun n => [numeralToken n]) stmt.limit))))))

/-- The tokens of a statement. -/
def printStatement : Statement → List Token
  | .createTable name cols =>
    .keyword .create :: .keyword .table :: .identifier name :: .punct .lparen ::
      (printList printColumnDef cols ++ [.punct .rparen])
  | .dropTable name => [.keyword .drop, .keyword .table, .identifier name]
  | .truncate name => [.keyword .truncate, .keyword .table, .identifier name]
  | .insert name rows =>
    .keyword .insert :: .keyword .into :: .identifier name :: .keyword .values ::
      printList (printRow floatText) rows
  | .select stmt => printSelect floatText stmt

end

/-! ## Lists with commas -/

section

variable {α : Type} {item : List Token → Except Exc (α × List Token)} {print : α → List Token}
  {ends : Token → Prop} {xs : List α} {t : Token} {rest : List Token}

/-- The item parser reads the item back in front of every token that may follow it. -/
def ReadsBack (item : List Token → Except Exc (α × List Token)) (print : α → List Token)
    (ends : Token → Prop) (x : α) : Prop :=
  ∀ t rest, ends t → item (print x ++ t :: rest) = .ok (x, t :: rest)

theorem length_commas (print : α → List Token) (xs : List α) :
    xs.length ≤ (xs.flatMap fun x => .punct .comma :: print x).length := by
  induction xs with
  | nil => simp
  | cons x xs ih =>
    simp only [List.flatMap_cons, List.length_append, List.length_cons]
    omega

/-- Further items behind commas. -/
theorem commaLoop_print (hcomma : ends (.punct .comma))
    (hitems : ∀ x ∈ xs, ReadsBack item print ends x) (ht : ends t) (hne : t ≠ .punct .comma) :
    ∀ (rounds : Nat) (done : List α), xs.length < rounds →
      commaLoop item rounds done ((xs.flatMap fun x => .punct .comma :: print x) ++ t :: rest) =
        .ok (done ++ xs, t :: rest) := by
  induction xs with
  | nil =>
    intro rounds done hrounds
    obtain ⟨rounds, rfl⟩ : ∃ n, rounds = n + 1 := ⟨rounds - 1, by omega⟩
    show commaLoop item (rounds + 1) done (t :: rest) = _
    rw [commaLoop, matchPunct, matchToken_ne hne, Except.ok_bind, List.append_nil]
    rfl
  | cons x xs ih =>
    intro rounds done hrounds
    obtain ⟨rounds, rfl⟩ : ∃ n, rounds = n + 1 := ⟨rounds - 1, by omega⟩
    rw [List.length_cons] at hrounds
    have hx := hitems x List.mem_cons_self
    have htail := ih (fun y hy => hitems y (List.mem_cons_of_mem _ hy))
    simp only [List.flatMap_cons, List.cons_append, List.append_assoc]
    rw [commaLoop, matchPunct, matchToken_self, Except.ok_bind]
    -- behind the item stands a comma, or what ends the list
    have hnext : item (print x ++ ((xs.flatMap fun x => .punct .comma :: print x) ++ t :: rest)) =
        .ok (x, (xs.flatMap fun x => .punct .comma :: print x) ++ t :: rest) := by
      cases xs with
      | nil => exact hx t rest ht
      | cons y ys => exact hx _ _ hcomma
    simp only [if_true, hnext, Except.ok_bind]
    rw [htail rounds _ (by omega), List.append_assoc, List.singleton_append]

/-- A list is read back from the tokens of its items. -/
theorem commaList_print (hcomma : ends (.punct .comma))
    (hitems : ∀ x ∈ xs, ReadsBack item print ends x) (hxs : xs ≠ []) (ht : ends t)
    (hne : t ≠ .punct .comma) :
    commaList item (printList print xs ++ t :: rest) = .ok (xs, t :: rest) := by
  cases xs with
  | nil => exact absurd rfl hxs
  | cons x xs =>
    have hx := hitems x List.mem_cons_self
    have hnext : item (print x ++ ((xs.flatMap fun x => .punct .comma :: print x) ++ t :: rest)) =
        .ok (x, (xs.flatMap fun x => .punct .comma :: print x) ++ t :: rest) := by
      cases xs with
      | nil => exact hx t rest ht
      | cons y ys => exact hx _ _ hcomma
    rw [commaList, printList, List.append_assoc, hnext, Except.ok_bind]
    refine commaLoop_print hcomma (fun y hy => hitems y (List.mem_cons_of_mem _ hy)) ht hne _ [x] ?_
    have hle := length_commas print xs
    rw [List.length_append, List.length_cons]
    omega

end

/-! ## Clauses -/

section

variable {floatText : Double → Bytes} {ts : List Token}

/-- The tokens begin with one of the keywords, or there are none left. -/
def BeginsWith (kws : List Keyword) (ts : List Token) : Prop :=
  ∃ t rest, ts = t :: rest ∧ (t = .eof ∨ ∃ kw ∈ kws, t = .keyword kw)

/-- The keywords that begin a clause. -/
def clauseKws : List Keyword := [.where, .group, .having, .order, .limit]

theorem beginsWith_eof (kws : List Keyword) : BeginsWith kws [.eof] := ⟨_, _, rfl, .inl rfl⟩

theorem BeginsWith.clause {α : Type} {kws : List Keyword} (h : BeginsWith kws ts) (kw : Keyword)
    (print : α → List Token) (x : Option α) :
    BeginsWith (kw :: kws) (printClause kw print x ++ ts) := by
  cases x with
  | none =>
    obtain ⟨t, rest, rfl, ht⟩ := h
    exact ⟨t, rest, rfl, ht.imp_right fun ⟨k, hk, hkw⟩ => ⟨k, List.mem_cons_of_mem _ hk, hkw⟩⟩
  | some x => exact ⟨_, _, rfl, .inr ⟨kw, List.mem_cons_self, rfl⟩⟩

/-- A clause keyword goes on with no expression. -/
theorem BeginsWith.stops {kws : List Keyword} (h : BeginsWith kws ts) (hkws : kws ⊆ clauseKws) :
    Stops 1 ts := by
  obtain ⟨t, rest, rfl, rfl | ⟨kw, hkw, rfl⟩⟩ := h
  · exact stops_cons (by decide) _
  · have hmem := hkws hkw
    simp only [clauseKws, List.mem_cons, List.not_mem_nil, or_false] at hmem
    rcases hmem with rfl | rfl | rfl | rfl | rfl <;> exact stops_cons (by decide) _

/-- An optional clause is read back in front of the keywords of other clauses. -/
theorem optionalClause_print {α : Type} {kw : Keyword} {kws : List Keyword}
    {clause : List Token → Except Exc (α × List Token)} {print : α → List Token} {x : Option α}
    (hclause : ∀ y ∈ x, clause (print y ++ ts) = .ok (y, ts)) (h : BeginsWith kws ts)
    (hkw : kw ∉ kws) : optionalClause kw clause (printClause kw print x ++ ts) = .ok (x, ts) := by
  cases x with
  | none =>
    obtain ⟨t, rest, rfl, ht⟩ := h
    have hne : t ≠ .keyword kw := by
      rcases ht with rfl | ⟨k, hk, rfl⟩
      · simp
      · rintro heq
        cases heq
        exact hkw hk
    show optionalClause kw clause (t :: rest) = _
    rw [optionalClause, matchKw, matchToken_ne hne, Except.ok_bind]
    rfl
  | some x =>
    show optionalClause kw clause (.keyword kw :: (print x ++ ts)) = _
    rw [optionalClause, matchKw, matchToken_self, Except.ok_bind]
    simp only [if_true, hclause x rfl, Except.ok_bind]
    rfl

end

/-! ## Each kind of item -/

section

variable {stod : Bytes → Option Double} {floatText : Double → Bytes}

/-- A token that is no value's continuation: it ends a primary. -/
def EndsPrimary (t : Token) : Prop := tokenLevel t < 7

theorem readsBack_literal {v : Value} (hv : LiteralTyped v) :
    ReadsBack parseLiteral (fun v => [literalToken floatText v]) (fun _ => True) v :=
  fun t rest _ => parseLiteral_literalToken floatText hv (t :: rest)

theorem readsBack_columnRef (key : Bytes × Bytes) :
    ReadsBack parseColumnRef printColumnRef EndsPrimary key := by
  obtain ⟨tableAlias, col⟩ := key
  intro t rest ht
  have hdot : t ≠ .punct .dot := by
    rintro rfl
    exact absurd ht (by simp [EndsPrimary, tokenLevel])
  rw [printColumnRef]
  split
  · rename_i hnone
    obtain rfl : tableAlias = [] := hnone
    simp [parseColumnRef, expectIdent, matchPunct, matchToken, hdot]
  · simp [parseColumnRef, expectIdent, matchPunct, matchToken]

theorem readsBack_tableRef (t : TableRef) :
    ReadsBack parseTableRef printTableRef (fun _ => True) t :=
  fun _ _ _ => rfl

/-- An item expression is what a primary is, whatever its first token. -/
theorem parseItemExpr_of_primary {ts : List Token} {r : Expr × List Token} (hne : ts ≠ [])
    (h : ∀ fuel, 8 * ts.length + 1 ≤ fuel → parsePrimary fuel ts = .ok r) :
    parseItemExpr ts = .ok r := by
  cases ts with
  | nil => exact absurd rfl hne
  | cons t ts =>
    rw [parseItemExpr, peek_cons, Except.ok_bind]
    split
    · rename_i haggregate
      have hnotParen : t ≠ .punct .lparen := by
        rintro rfl
        cases haggregate
      have hprimary := h (fuelFor (t :: ts) + 1) (by unfold fuelFor; omega)
      rw [parsePrimary, matchPunct, matchToken_ne hnotParen, Except.ok_bind] at hprimary
      simpa [haggregate] using hprimary
    · exact h _ (by unfold fuelFor; omega)

theorem readsBack_selectItem {item : SelectItem} (h : Typed item.expr) :
    ReadsBack parseSelectItem (printSelectItem floatText)
      (fun t => EndsPrimary t ∧ t ≠ .keyword .as) item := by
  obtain ⟨expr, outputAlias⟩ := item
  intro t rest ht
  have hseven : (1 : Nat) ≤ 7 ∧ 7 ≤ 7 := by decide
  have hparse := parsesAs_wrap hseven (parsesAs_printTokens floatText expr h).1
  -- the expression is followed by `AS` or by what follows the item
  have hexpr : ∀ u us, EndsPrimary u →
      parseItemExpr (wrap 7 expr (printTokens floatText expr) ++ u :: us) = .ok (expr, u :: us) :=
    fun u us hu => parseItemExpr_of_primary (by simp)
      fun fuel hfuel => hparse (u :: us) fuel (stops_cons hu us) hfuel
  rw [parseSelectItem, printSelectItem, List.append_assoc]
  dsimp only
  split
  · rename_i hnone
    obtain rfl : outputAlias = [] := hnone
    rw [List.nil_append, hexpr t rest ht.1, Except.ok_bind]
    simp only [matchKw, matchToken_ne ht.2]
    rfl
  · have has : EndsPrimary (.keyword .as) := by simp [EndsPrimary, tokenLevel]
    rw [List.cons_append, hexpr _ _ has, Except.ok_bind]
    simp only [matchKw, matchToken_self]
    rfl

theorem readsBack_row {row : List Value} (hrow : row ≠ [] ∧ ∀ v ∈ row, LiteralTyped v) :
    ReadsBack parseRow (printRow floatText) (fun _ => True) row := by
  intro t rest _
  have hlist : commaList parseLiteral
      (printList (fun v => [literalToken floatText v]) row ++ .punct .rparen :: (t :: rest)) =
        .ok (row, .punct .rparen :: (t :: rest)) :=
    commaList_print trivial (fun v hv => readsBack_literal (hrow.2 v hv)) hrow.1 trivial (by simp)
  show parseRow (.punct .lparen ::
    ((printList (fun v => [literalToken floatText v]) row ++ [.punct .rparen]) ++ t :: rest)) = _
  rw [List.append_assoc, List.singleton_append, parseRow, expectPunct_self, Except.ok_bind, hlist]
  simp only [Except.ok_bind, expectPunct_self]
  rfl

theorem parseLimit_print {n : Nat} (h : n < 2 ^ 63) (rest : List Token) :
    parseLimit (numeralToken n :: rest) = .ok (n, rest) := by
  have hint := Int64.toInt_ofNat_of_lt h
  have hneg : ¬ Int64.ofNat n < 0 := by
    rw [Int64.lt_iff_toInt_lt, hint, Int64.toInt_zero]
    omega
  rw [numeralToken, parseLimit, peek_cons, Except.ok_bind]
  simp only [if_neg hneg, hint]
  rfl

theorem parseVarcharLen_print {len : UInt16} (h : len ≠ 0) (rest : List Token) :
    parseVarcharLen (numeralToken len.toNat :: rest) = .ok (len, rest) := by
  have hlt := len.toNat_lt
  have hpos : 0 < len.toNat := Nat.pos_of_ne_zero fun heq => h (UInt16.toNat_inj.1 heq)
  have hint : (Int64.ofNat len.toNat).toInt = len.toNat :=
    Int64.toInt_ofNat_of_lt (by omega)
  have hbounds : ¬ (Int64.ofNat len.toNat ≤ 0 ∨ 65535 < Int64.ofNat len.toNat) := by
    rw [Int64.le_iff_toInt_le, Int64.lt_iff_toInt_lt, hint, Int64.toInt_zero]
    have hmax : (65535 : Int64).toInt = 65535 := rfl
    omega
  rw [numeralToken, parseVarcharLen, peek_cons, Except.ok_bind]
  simp only [if_neg hbounds, hint, Int.toNat_natCast, UInt16.ofNat_toNat]
  rfl

theorem readsBack_columnDef {col : ColumnDef} (h : ColumnDef.Written col) :
    ReadsBack parseColumnDef printColumnDef (fun _ => True) col := by
  obtain ⟨name, type, len⟩ := col
  intro t rest _
  obtain ⟨-, hlen⟩ := h
  dsimp only at hlen
  cases type with
  | varchar =>
    have hne := hlen.1 rfl
    show parseColumnDef (.identifier name :: .keyword .varchar :: .punct .lparen ::
      numeralToken len.toNat :: .punct .rparen :: t :: rest) = _
    simp only [parseColumnDef, expectIdent, peek_cons, Except.ok_bind, Except.pure_eq_ok,
      List.tail_cons, expectPunct_self, parseVarcharLen_print hne]
  | int | bigInt | float =>
    obtain rfl : len = 0 := Classical.byContradiction fun hne => by simpa using hlen.2 hne
    rfl

/-- The key of `ORDER BY` and its direction. -/
theorem parseOrderBy_print (key : OrderBy) (rest : List Token) :
    parseOrderBy (printOrderBy key ++ rest) = .ok (key, rest) := by
  obtain ⟨name, descending⟩ := key
  cases descending <;> rfl

end

/-! ## Statements -/

section

variable {stod : Bytes → Option Double} {floatText : Double → Bytes}

/-- The first token of a primary is no `*`. -/
theorem head_wrap_primary (floatText : Double → Bytes) (e : Expr) : ∃ t rest,
    wrap 7 e (printTokens floatText e) = t :: rest ∧ t ≠ .punct .star := by
  rw [wrap]
  split
  · exact ⟨_, _, rfl, by simp⟩
  · obtain ⟨t, rest, heq, -, hstar⟩ := head_printTokens floatText e (by omega)
    exact ⟨t, rest, heq, hstar⟩

theorem parseSelectList_print {stmt : SelectStmt} (h : SelectStmt.Written stod floatText stmt)
    (rest : List Token) :
    parseSelectList ((if stmt.selectStar then [.punct .star]
      else printList (printSelectItem floatText) stmt.items) ++ .keyword .from :: rest) =
        .ok ((stmt.selectStar, stmt.items), .keyword .from :: rest) := by
  cases hstar : stmt.selectStar with
  | true =>
    rw [h.star.1 hstar]
    rfl
  | false =>
    have hitems : stmt.items ≠ [] := fun hnil => by simp [h.star.2 hnil] at hstar
    have hlist : commaList parseSelectItem
        (printList (printSelectItem floatText) stmt.items ++ .keyword .from :: rest) =
          .ok (stmt.items, .keyword .from :: rest) :=
      commaList_print ⟨by simp [EndsPrimary, tokenLevel], by simp⟩
        (fun item hitem => readsBack_selectItem (h.items item hitem).expr.1) hitems
        ⟨by simp [EndsPrimary, tokenLevel], by simp⟩ (by simp)
    obtain ⟨t, ts, heq, hne⟩ : ∃ t ts, printList (printSelectItem floatText) stmt.items ++
        .keyword .from :: rest = t :: ts ∧ t ≠ .punct .star := by
      cases hcons : stmt.items with
      | nil => exact absurd hcons hitems
      | cons item items =>
        obtain ⟨t, ts, hhead, hne⟩ := head_wrap_primary floatText item.expr
        rw [printList, printSelectItem, hhead]
        exact ⟨t, _, rfl, hne⟩
    rw [heq] at hlist
    simp only [Bool.false_eq_true, if_false]
    rw [heq, parseSelectList, matchPunct, matchToken_ne hne, Except.ok_bind]
    simp only [Bool.false_eq_true, if_false, hlist, Except.ok_bind]
    rfl

theorem parseGroupBy_print {keys : List (Bytes × Bytes)} (hne : keys ≠ []) {ts : List Token}
    (hts : BeginsWith [.having, .order, .limit] ts) :
    parseGroupBy ((.keyword .by :: printList printColumnRef keys) ++ ts) = .ok (keys, ts) := by
  obtain ⟨t, rest, rfl, ht⟩ := hts
  have hends : EndsPrimary t ∧ t ≠ .punct .comma := by
    rcases ht with rfl | ⟨kw, hkw, rfl⟩
    · exact ⟨by simp [EndsPrimary, tokenLevel], by simp⟩
    · simp only [List.mem_cons, List.not_mem_nil, or_false] at hkw
      rcases hkw with rfl | rfl | rfl <;> exact ⟨by simp [EndsPrimary, tokenLevel], by simp⟩
  have hcomma : EndsPrimary (.punct .comma) := by simp [EndsPrimary, tokenLevel]
  rw [List.cons_append, parseGroupBy, expectKw_self, Except.ok_bind]
  exact commaList_print hcomma (fun key _ => readsBack_columnRef key) hne hends.1 hends.2

/-! ### The clauses of a query, from the last one on -/

/-- What is printed from `LIMIT` on. -/
def fromLimit (stmt : SelectStmt) : List Token :=
  printClause .limit (fun n => [numeralToken n]) stmt.limit ++ [.eof]

def fromOrder (stmt : SelectStmt) : List Token :=
  printClause .order printOrderBy stmt.orderBy ++ fromLimit stmt

def fromHaving (floatText : Double → Bytes) (stmt : SelectStmt) : List Token :=
  printClause .having (printTokens floatText) stmt.having ++ fromOrder stmt

def fromGroup (floatText : Double → Bytes) (stmt : SelectStmt) : List Token :=
  printClause .group (fun keys => .keyword .by :: printList printColumnRef keys)
    (groupClause stmt.groupBy) ++ fromHaving floatText stmt

def fromWhere (floatText : Double → Bytes) (stmt : SelectStmt) : List Token :=
  printClause .where (printTokens floatText) stmt.where ++ fromGroup floatText stmt

section

variable {stmt : SelectStmt}

theorem beginsWith_fromLimit : BeginsWith [.limit] (fromLimit stmt) :=
  (beginsWith_eof []).clause .limit _ _

theorem beginsWith_fromOrder : BeginsWith [.order, .limit] (fromOrder stmt) :=
  beginsWith_fromLimit.clause .order _ _

theorem beginsWith_fromHaving :
    BeginsWith [.having, .order, .limit] (fromHaving floatText stmt) :=
  beginsWith_fromOrder.clause .having _ _

theorem beginsWith_fromGroup :
    BeginsWith [.group, .having, .order, .limit] (fromGroup floatText stmt) :=
  beginsWith_fromHaving.clause .group _ _

theorem beginsWith_fromWhere : BeginsWith clauseKws (fromWhere floatText stmt) :=
  beginsWith_fromGroup.clause .where _ _

theorem groupClause_eq_some {groupBy keys : List (Bytes × Bytes)} :
    groupClause groupBy = some keys ↔ keys = groupBy ∧ keys ≠ [] := by
  rw [groupClause]
  split
  · rename_i hnil
    simp [hnil]
  · rename_i hne
    rw [Option.some.injEq, eq_comm]
    exact ⟨fun heq => ⟨heq, heq ▸ hne⟩, And.left⟩

theorem parseLimit_fromLimit (h : SelectStmt.Written stod floatText stmt) :
    optionalClause .limit parseLimit (fromLimit stmt) = .ok (stmt.limit, [.eof]) :=
  optionalClause_print (fun n hn => parseLimit_print (h.limit n hn) _) (beginsWith_eof [])
    (by simp)

theorem parseOrderBy_fromOrder :
    optionalClause .order parseOrderBy (fromOrder stmt) = .ok (stmt.orderBy, fromLimit stmt) :=
  optionalClause_print (fun key _ => parseOrderBy_print key _) beginsWith_fromLimit (by simp)

theorem parseExpr_fromHaving (h : SelectStmt.Written stod floatText stmt) :
    optionalClause .having parseExpr (fromHaving floatText stmt) =
      .ok (stmt.having, fromOrder stmt) :=
  optionalClause_print
    (fun e he => parseExpr_printTokens (h.having e he).1
      (beginsWith_fromOrder.stops (by simp [clauseKws])))
    beginsWith_fromOrder (by simp)

theorem parseGroupBy_fromGroup :
    optionalClause .group parseGroupBy (fromGroup floatText stmt) =
      .ok (groupClause stmt.groupBy, fromHaving floatText stmt) := by
  refine optionalClause_print (fun keys hkeys => ?_) beginsWith_fromHaving (by simp)
  exact parseGroupBy_print (groupClause_eq_some.1 hkeys).2 beginsWith_fromHaving

theorem parseExpr_fromWhere (h : SelectStmt.Written stod floatText stmt) :
    optionalClause .where parseExpr (fromWhere floatText stmt) =
      .ok (stmt.where, fromGroup floatText stmt) :=
  optionalClause_print
    (fun e he => parseExpr_printTokens (h.where e he).1
      (beginsWith_fromGroup.stops (by simp [clauseKws])))
    beginsWith_fromGroup (by simp)

theorem getD_groupClause (groupBy : List (Bytes × Bytes)) :
    (groupClause groupBy).getD [] = groupBy := by
  rw [groupClause]
  split
  · rename_i hnil
    exact hnil.symm
  · rfl

theorem parseTables_print (h : SelectStmt.Written stod floatText stmt) :
    commaList parseTableRef (printList printTableRef stmt.tables ++ fromWhere floatText stmt) =
      .ok (stmt.tables, fromWhere floatText stmt) := by
  obtain ⟨t, rest, heq, ht⟩ : BeginsWith clauseKws (fromWhere floatText stmt) :=
    beginsWith_fromWhere
  rw [heq]
  refine commaList_print trivial (fun t _ => readsBack_tableRef t) h.tables_ne trivial ?_
  rcases ht with rfl | ⟨kw, -, rfl⟩ <;> simp

/-- A query is read back from its tokens. -/
theorem parseSelect_print (h : SelectStmt.Written stod floatText stmt) :
    parseSelect (printSelect floatText stmt ++ [.eof]) = .ok (.select stmt, [.eof]) := by
  have hsplit : printSelect floatText stmt ++ [.eof] = .keyword .select ::
      ((if stmt.selectStar then [.punct .star]
        else printList (printSelectItem floatText) stmt.items) ++ .keyword .from ::
      (printList printTableRef stmt.tables ++ fromWhere floatText stmt)) := by
    simp only [printSelect, fromWhere, fromGroup, fromHaving, fromOrder, fromLimit,
      List.cons_append, List.append_assoc]
  rw [hsplit, parseSelect, expectKw_self, Except.ok_bind, parseSelectList_print h, Except.ok_bind]
  simp only [expectKw_self, Except.ok_bind, parseTables_print h, parseExpr_fromWhere h,
    parseGroupBy_fromGroup, parseExpr_fromHaving h, parseOrderBy_fromOrder, parseLimit_fromLimit h,
    getD_groupClause]
  rfl

end

/-- A statement is read back from its tokens. -/
theorem parseStatement_print {s : Statement} (h : Statement.Written stod floatText s) :
    parseStatement (printStatement floatText s ++ [.eof]) = .ok (s, [.eof]) := by
  cases s with
  | select stmt => exact parseSelect_print h
  | dropTable name | truncate name => rfl
  | insert name rows =>
    obtain ⟨-, hrows, hwritten⟩ := h
    have hlist : commaList parseRow (printList (printRow floatText) rows ++ [.eof]) =
        .ok (rows, [.eof]) :=
      commaList_print trivial
        (fun row hrow => readsBack_row ⟨(hwritten row hrow).1, fun v hv =>
          ((hwritten row hrow).2 v hv).1⟩) hrows trivial (by simp)
    show parseInsert (.keyword .insert :: .keyword .into :: .identifier name :: .keyword .values ::
      (printList (printRow floatText) rows ++ [.eof])) = _
    simp only [parseInsert, expectKw_self, Except.ok_bind, expectIdent, peek_cons,
      Except.pure_eq_ok, List.tail_cons, hlist]
    rfl
  | createTable name cols =>
    obtain ⟨-, hcols, hwritten⟩ := h
    have hlist : commaList parseColumnDef
        (printList printColumnDef cols ++ .punct .rparen :: [.eof]) =
          .ok (cols, .punct .rparen :: [.eof]) :=
      commaList_print trivial (fun col hcol => readsBack_columnDef (hwritten col hcol)) hcols
        trivial (by simp)
    show parseCreateTable (.keyword .create :: .keyword .table :: .identifier name ::
      .punct .lparen :: ((printList printColumnDef cols ++ [.punct .rparen]) ++ [.eof])) = _
    rw [List.append_assoc, List.singleton_append]
    simp only [parseCreateTable, expectKw_self, expectPunct_self, Except.ok_bind, expectIdent,
      peek_cons, Except.pure_eq_ok, List.tail_cons, hlist]
    rfl

end

/-! ## The text of a statement -/

section

variable {stod : Bytes → Option Double} {floatText : Double → Bytes} {prev : Option Token}
  {ts us : List Token}

/-- Tokens that may stand behind any others follow these. -/
theorem LexesAll.append_any (hts : LexesAll stod prev ts) (hus : ∀ prev, LexesAll stod prev us) :
    LexesAll stod prev (ts ++ us) := by
  induction ts generalizing prev with
  | nil => exact hus prev
  | cons t ts ih => exact ⟨hts.1, hts.2.1, ih hts.2.2⟩

/-- Items behind commas, none of which begins behind a value. -/
theorem lexesAll_printList {α : Type} {print : α → List Token} {xs : List α}
    (h : ∀ x ∈ xs, ∀ prev, prevIsValue prev = false → LexesAll stod prev (print x))
    (hprev : prevIsValue prev = false) : LexesAll stod prev (printList print xs) := by
  have hcommas : ∀ (ys : List α), ys ⊆ xs → ∀ prev,
      LexesAll stod prev (ys.flatMap fun y => .punct .comma :: print y) := by
    intro ys
    induction ys with
    | nil => exact fun _ _ => trivial
    | cons y ys ih =>
      intro hsub prev
      rw [List.cons_subset] at hsub
      rw [List.flatMap_cons]
      exact LexesAll.append_any ⟨trivial, trivial, h y hsub.1 _ rfl⟩ (ih hsub.2)
  cases xs with
  | nil => trivial
  | cons x xs =>
    exact LexesAll.append_any (h x List.mem_cons_self prev hprev)
      (hcommas xs (List.subset_cons_self x xs))

theorem lexesAll_printClause {α : Type} {kw : Keyword} {print : α → List Token} {x : Option α}
    (h : ∀ y ∈ x, ∀ prev, prevIsValue prev = false → LexesAll stod prev (print y))
    (prev : Option Token) : LexesAll stod prev (printClause kw print x) := by
  cases x with
  | none => trivial
  | some x => exact ⟨trivial, trivial, h x rfl _ rfl⟩

theorem lexes_numeralToken {n : Nat} (h : n < 2 ^ 63) : Lexes stod (numeralToken n) := by
  have hvalue := stoll_toString (Int64.ofNat n)
  rw [Int64.toInt_ofNat_of_lt h] at hvalue
  exact ⟨isIntegerText_toString _, hvalue⟩

theorem lexesAll_identifier {name : Bytes} (h : IsIdentifier name) (prev : Option Token) :
    LexesAll stod prev [.identifier name] :=
  ⟨h, trivial, trivial⟩

theorem lexesAll_printColumnRef {key : Bytes × Bytes}
    (h : OptionalName key.1 ∧ IsIdentifier key.2) (prev : Option Token) :
    LexesAll stod prev (printColumnRef key) := by
  rw [printColumnRef]
  split
  · exact lexesAll_identifier h.2 prev
  · rename_i hne
    exact ⟨h.1.resolve_left hne, trivial, trivial, trivial, lexesAll_identifier h.2 _⟩

theorem lexesAll_printColumnDef {col : ColumnDef} (h : ColumnDef.Written col)
    (prev : Option Token) : LexesAll stod prev (printColumnDef col) := by
  obtain ⟨name, type, len⟩ := col
  refine ⟨h.1, trivial, ?_⟩
  cases type with
  | varchar =>
    have hlt : len.toNat < 2 ^ 63 := Nat.lt_trans len.toNat_lt (by decide)
    exact ⟨trivial, trivial, trivial, trivial, lexes_numeralToken hlt, follows_of_prev rfl _,
      trivial, trivial, trivial⟩
  | int | bigInt | float => exact ⟨trivial, trivial, trivial⟩

theorem lexesAll_printSelectItem {item : SelectItem}
    (h : SelectItem.Written stod floatText item) (hprev : prevIsValue prev = false) :
    LexesAll stod prev (printSelectItem floatText item) := by
  have hexpr := lexesAll_wrap (lexesAll_printTokens item.expr h.expr.2) hprev 7
  rw [printSelectItem]
  refine LexesAll.append_any hexpr fun prev => ?_
  split
  · trivial
  · rename_i hne
    exact ⟨trivial, trivial, lexesAll_identifier (h.outputAlias.resolve_left hne) _⟩

theorem lexesAll_printRow {row : List Value} (h : ∀ v ∈ row, LiteralWritten stod floatText v)
    (prev : Option Token) : LexesAll stod prev (printRow floatText row) := by
  refine ⟨trivial, trivial, LexesAll.append_any (lexesAll_printList (fun v hv prev hprev => ?_) rfl)
    fun _ => ⟨trivial, trivial, trivial⟩⟩
  exact ⟨lexes_literalToken (h v hv).2, follows_of_prev hprev _, trivial⟩

theorem lexesAll_printSelect {stmt : SelectStmt} (h : SelectStmt.Written stod floatText stmt) :
    LexesAll stod prev (printSelect floatText stmt) := by
  have hexpr : ∀ e, ExprWritten stod floatText e → ∀ prev, prevIsValue prev = false →
      LexesAll stod prev (printTokens floatText e) :=
    fun e he => lexesAll_printTokens e he.2
  refine ⟨trivial, trivial, LexesAll.append_any ?_ fun prev => ⟨trivial, trivial, ?_⟩⟩
  · split
    · exact ⟨trivial, trivial, trivial⟩
    · exact lexesAll_printList
        (fun item hitem _ hprev => lexesAll_printSelectItem (h.items item hitem) hprev) rfl
  -- every clause begins with its keyword, which may stand behind anything
  refine LexesAll.append_any (lexesAll_printList (fun t ht _ _ => ?_) rfl) fun prev => ?_
  · exact ⟨(h.tables t ht).1, trivial, trivial, trivial, lexesAll_identifier (h.tables t ht).2 _⟩
  refine LexesAll.append_any
    (lexesAll_printClause (fun e he => hexpr e (h.where e he)) prev) fun prev => ?_
  refine LexesAll.append_any (lexesAll_printClause (fun keys hkeys _ _ => ?_) prev) fun prev => ?_
  · obtain ⟨rfl, -⟩ := groupClause_eq_some.1 hkeys
    exact ⟨trivial, trivial, lexesAll_printList
      (fun key hkey prev _ => lexesAll_printColumnRef (h.groupBy key hkey) prev) rfl⟩
  refine LexesAll.append_any
    (lexesAll_printClause (fun e he => hexpr e (h.having e he)) prev) fun prev => ?_
  refine LexesAll.append_any (lexesAll_printClause (fun key hkey _ _ => ?_) prev) fun prev => ?_
  · exact ⟨trivial, trivial, h.orderBy key hkey, trivial, trivial, trivial, trivial⟩
  refine lexesAll_printClause (fun n hn _ hprev => ?_) prev
  exact ⟨lexes_numeralToken (h.limit n hn), follows_of_prev hprev _, trivial⟩

/-- The tokens of a statement are the lexer's. -/
theorem lexesAll_printStatement {s : Statement} (h : Statement.Written stod floatText s) :
    LexesAll stod none (printStatement floatText s) := by
  cases s with
  | select stmt => exact lexesAll_printSelect h
  | dropTable name | truncate name =>
    exact ⟨trivial, trivial, trivial, trivial, lexesAll_identifier h _⟩
  | insert name rows =>
    obtain ⟨hname, -, hrows⟩ := h
    exact ⟨trivial, trivial, trivial, trivial, hname, trivial, trivial, trivial,
      lexesAll_printList (fun row hrow prev _ => lexesAll_printRow (hrows row hrow).2 prev) rfl⟩
  | createTable name cols =>
    obtain ⟨hname, -, hcols⟩ := h
    refine ⟨trivial, trivial, trivial, trivial, hname, trivial, trivial, trivial,
      LexesAll.append_any ?_ fun _ => ⟨trivial, trivial, trivial⟩⟩
    exact lexesAll_printList
      (fun col hcol prev _ => lexesAll_printColumnDef (hcols col hcol) prev) rfl

/-- The text of a statement: its tokens with one space between them. -/
def statementText (floatText : Double → Bytes) (s : Statement) : Bytes :=
  spaced (printStatement floatText s)

/-- A statement is read back from its text. -/
theorem parse_print {s : Statement} (h : Statement.Written stod floatText s) :
    parse stod (statementText floatText s) = .ok s := by
  rw [parse, statementText, tokenize_rendered (rendered_spaced _) (lexesAll_printStatement h),
    Except.ok_bind, parseStatement_print h]
  rfl

end

end Parser

end LiteOLAP
