import LiteOLAP.Spec.LexerCorrect
import LiteOLAP.Spec.ParserCorrect

/-!
# Expressions, printed as text and parsed

An expression is printed as its tokens with one space between them. The lexer reads the tokens
back, since no number stands behind the end of a value, and the parser reads the expression back.

## Key results

- `Parser.lexesAll_printTokens`: the tokens of an expression are the lexer's
- `Parser.parse_where`: an expression in a `WHERE` clause is read back from its text
-/

namespace LiteOLAP

open Bytes (ofAscii)

namespace Lexer

/-! ## One space between tokens -/

/-- A token as it is printed. -/
def tokenText : Token → Bytes
  | .string s => 39 :: (quoteString s ++ [39])
  | t => t.text

/-- The tokens with one space between them. -/
def spaced : List Token → Bytes
  | [] => []
  | t :: ts => tokenText t ++ ts.flatMap fun t => 32 :: tokenText t

theorem writes_tokenText (t : Token) : Writes t (tokenText t) := by
  cases t with
  | keyword k => cases k <;> rfl
  | _ => rfl

theorem rendered_spaced (ts : List Token) : Rendered ts (spaced ts) := by
  cases ts with
  | nil => exact .nil
  | cons t ts =>
    refine .cons (writes_tokenText t) ?_
    induction ts with
    | nil => exact .nil
    | cons u ts ih =>
      have hspace : IsSeparator [32] := ⟨[32], List.cons_ne_nil _ _, by simp [isSpace], .inl rfl⟩
      rw [List.flatMap_cons]
      exact .cons hspace (writes_tokenText u) ih

/-! ## Tokens behind each other -/

section

variable {stod : Bytes → Option Double} {prev : Option Token} {t : Token} {ts xs : List Token}

/-- A token that is no number follows anything. -/
theorem LexesAll.append_cons (hxs : LexesAll stod prev xs) (ht : Lexes stod t)
    (hfollows : ∀ prev, Follows prev t) (hts : LexesAll stod (some t) ts) :
    LexesAll stod prev (xs ++ t :: ts) := by
  induction xs generalizing prev with
  | nil => exact ⟨ht, hfollows _, hts⟩
  | cons x xs ih => exact ⟨hxs.1, hxs.2.1, ih hxs.2.2⟩

end

end Lexer

namespace Parser

open Lexer

section

variable {stod : Bytes → Option Double} {floatText : Double → Bytes} {prev : Option Token}
  {p : Nat} {e : Expr}

/-- A float is read back from what `floatText` prints for it. -/
def LiteralPrintable (stod : Bytes → Option Double) (floatText : Double → Bytes) : Value → Prop
  | .double d => IsFloatText (floatText d) ∧ stod (floatText d) = some d
  | _ => True

/-- The names in the expression are identifiers, and its floats are read back from their text. -/
def Printable (stod : Bytes → Option Double) (floatText : Double → Bytes) : Expr → Prop
  | .columnRef tableAlias col => (tableAlias = [] ∨ IsIdentifier tableAlias) ∧ IsIdentifier col
  | .literal v => LiteralPrintable stod floatText v
  | .binary _ l r => Printable stod floatText l ∧ Printable stod floatText r
  | .not e => Printable stod floatText e
  | .inList column values =>
    Printable stod floatText column ∧ ∀ v ∈ values, LiteralPrintable stod floatText v
  | .aggregate _ none => True
  | .aggregate _ (some e) => Printable stod floatText e

theorem lexes_literalToken {v : Value} (hv : LiteralPrintable stod floatText v) :
    Lexes stod (literalToken floatText v) := by
  cases v with
  | null => trivial
  | int32 v =>
    have hvalue := stoll_toString v.toInt64
    rw [Int32.toInt_toInt64] at hvalue
    exact ⟨isIntegerText_toString _, hvalue⟩
  | int64 v => exact ⟨isIntegerText_toString _, stoll_toString v⟩
  | double d => exact hv
  | string s => trivial

theorem follows_of_prev (h : prevIsValue prev = false) (t : Token) : Follows prev t := by
  cases t <;> first | exact fun _ => h | trivial

/-- Further literals behind commas, up to the closing parenthesis. -/
theorem lexesAll_commaTokens {vs : List Value}
    (hvs : ∀ v ∈ vs, LiteralPrintable stod floatText v) :
    LexesAll stod prev (commaTokens floatText vs ++ [.punct .rparen]) := by
  induction vs generalizing prev with
  | nil => exact ⟨trivial, trivial, trivial⟩
  | cons v vs ih =>
    rw [commaTokens, List.flatMap_cons, ← commaTokens]
    exact ⟨trivial, trivial, lexes_literalToken (hvs v List.mem_cons_self), follows_of_prev rfl _,
      ih fun v hv => hvs v (List.mem_cons_of_mem _ hv)⟩

theorem lexesAll_wrap (h : ∀ prev, prevIsValue prev = false →
      LexesAll stod prev (printTokens floatText e)) (hprev : prevIsValue prev = false) (p : Nat) :
    LexesAll stod prev (wrap p e (printTokens floatText e)) := by
  rw [wrap]
  split
  · exact ⟨trivial, trivial, (h _ rfl).append_cons trivial (fun _ => trivial) trivial⟩
  · exact h prev hprev

/-- The tokens of an expression are the lexer's, in a place where no value is on the left. -/
theorem lexesAll_printTokens : ∀ (e : Expr), Printable stod floatText e →
    ∀ prev, prevIsValue prev = false → LexesAll stod prev (printTokens floatText e)
  | .columnRef tableAlias col, h, prev, _ => by
    rw [printTokens]
    split
    · exact ⟨h.2, trivial, trivial⟩
    · rename_i hne
      exact ⟨h.1.resolve_left hne, trivial, trivial, trivial, h.2, trivial, trivial⟩
  | .literal v, h, prev, hprev => ⟨lexes_literalToken h, follows_of_prev hprev _, trivial⟩
  | .binary op l r, h, prev, hprev => by
    have hl := lexesAll_wrap (lexesAll_printTokens l h.1) hprev (leftLevel op)
    have hvalue : prevIsValue (some (opToken op)) = false := by
      cases op <;> rfl
    have hr := lexesAll_wrap (lexesAll_printTokens r h.2) hvalue (opLevel op + 1)
    rw [printTokens]
    exact hl.append_cons (by cases op <;> trivial) (fun _ => by cases op <;> trivial) hr
  | .not e, h, prev, _ => ⟨trivial, trivial, lexesAll_wrap (lexesAll_printTokens e h) rfl 3⟩
  | .inList column values, h, prev, hprev => by
    have hcolumn := lexesAll_wrap (lexesAll_printTokens column h.1) hprev 5
    rw [printTokens]
    refine hcolumn.append_cons trivial (fun _ => trivial) ⟨trivial, trivial, ?_⟩
    cases values with
    | nil => exact ⟨trivial, trivial, trivial⟩
    | cons v vs =>
      rw [listTokens, List.cons_append]
      exact ⟨lexes_literalToken (h.2 v List.mem_cons_self), follows_of_prev rfl _,
        lexesAll_commaTokens fun v hv => h.2 v (List.mem_cons_of_mem _ hv)⟩
  | .aggregate kind none, _, prev, _ => by
    rw [printTokens]
    exact ⟨trivial, trivial, trivial, trivial, trivial, trivial, trivial, trivial, trivial⟩
  | .aggregate kind (some e), h, prev, _ => by
    rw [printTokens]
    exact ⟨trivial, trivial, trivial, trivial,
      (lexesAll_wrap (lexesAll_printTokens e h) rfl 5).append_cons trivial (fun _ => trivial)
        trivial⟩

/-! ## A `WHERE` clause -/

/-- `SELECT * FROM table WHERE e`. -/
def whereTokens (floatText : Double → Bytes) (table : Bytes) (e : Expr) : List Token :=
  .keyword .select :: .punct .star :: .keyword .from :: .identifier table :: .keyword .where ::
    printTokens floatText e

/-- The statement it stands for. -/
def whereStmt (table : Bytes) (e : Expr) : Statement :=
  .select {
    selectStar := true, items := [], tables := [⟨table, table⟩], «where» := some e, groupBy := [],
    having := none, orderBy := none, limit := none }

/-- The statement is read from its tokens, all but the last of which are consumed. -/
theorem parseStatement_where (table : Bytes) (he : Typed e) :
    parseStatement (whereTokens floatText table e ++ [.eof]) =
      .ok (whereStmt table e, [.eof]) := by
  have hexpr : parseExpr (printTokens floatText e ++ [.eof]) = .ok (e, [.eof]) :=
    parseExpr_printTokens he ⟨.eof, [], rfl, by decide⟩
  have htables : commaList parseTableRef
      (.identifier table :: .keyword .where :: (printTokens floatText e ++ [.eof])) =
        .ok ([⟨table, table⟩], .keyword .where :: (printTokens floatText e ++ [.eof])) := rfl
  have hwhere : optionalClause .where parseExpr
      (.keyword .where :: (printTokens floatText e ++ [.eof])) = .ok (some e, [.eof]) := by
    rw [optionalClause, matchKw, matchToken_self, Except.ok_bind]
    simp [hexpr]
  show parseSelect (whereTokens floatText table e ++ [.eof]) = _
  simp only [whereTokens, List.cons_append, parseSelect, expectKw_self, Except.ok_bind,
    parseSelectList, matchPunct, matchToken_self, if_true, Except.pure_eq_ok, htables, hwhere]
  rfl

/-- An expression that is printed with spaces between its tokens is read back from a `WHERE`
    clause. -/
theorem parse_where (stod : Bytes → Option Double) (floatText : Double → Bytes) {table : Bytes}
    (htable : IsIdentifier table) {e : Expr} (htyped : Typed e)
    (hprintable : Printable stod floatText e) :
    parse stod (spaced (whereTokens floatText table e)) = .ok (whereStmt table e) := by
  have hall : LexesAll stod none (whereTokens floatText table e) :=
    ⟨trivial, trivial, trivial, trivial, trivial, trivial, htable, trivial, trivial, trivial,
      lexesAll_printTokens e hprintable _ rfl⟩
  rw [parse, tokenize_rendered (rendered_spaced _) hall, Except.ok_bind,
    parseStatement_where table htyped]
  rfl

/-- `a . b = -7 AND NOT x IN ( 'it''s' , 1.5 )`. -/
def mixedExpr : Expr :=
  .binary .and
    (.binary .eq (.columnRef (ofAscii "a") (ofAscii "b")) (.literal (.int32 (-7))))
    (.not (.inList (.columnRef [] (ofAscii "x"))
      [.string (ofAscii "it's"), .double ⟨0x3FF8000000000000⟩]))

theorem parse_where_mixed :
    parse (fun text => if text = ofAscii "1.5" then some ⟨0x3FF8000000000000⟩ else none)
        (ofAscii "SELECT * FROM t WHERE a . b = -7 AND NOT x IN ( 'it''s' , 1.5 )") =
      .ok (whereStmt (ofAscii "t") mixedExpr) := by
  have htext : ofAscii "SELECT * FROM t WHERE a . b = -7 AND NOT x IN ( 'it''s' , 1.5 )" =
      spaced (whereTokens (fun _ => ofAscii "1.5") (ofAscii "t") mixedExpr) := by
    decide +kernel
  have hfloat : IsFloatText (ofAscii "1.5") :=
    ⟨[49], [53], by decide, by simp [isDigit], by simp [isDigit], .inl rfl⟩
  have hname : ∀ c, isAlpha c → Keyword.ofText (toUpper [c]) = none →
      IsIdentifier [c] := by
    intro c halpha hkeyword
    refine ⟨by simpa [isIdentStart] using .inl halpha, fun d hd => ?_, hkeyword⟩
    obtain rfl := List.mem_singleton.1 hd
    exact isIdentCont_iff.2 (.inl halpha)
  rw [htext]
  refine parse_where _ _ (hname 116 rfl rfl) ?_ ?_
  · exact ⟨⟨trivial, trivial⟩, trivial, List.cons_ne_nil _ _, fun v hv => by
      simp only [List.mem_cons, List.not_mem_nil, or_false] at hv
      rcases hv with rfl | rfl <;> trivial⟩
  · refine ⟨⟨⟨.inr (hname 97 rfl rfl), hname 98 rfl rfl⟩, trivial⟩,
      ⟨.inl rfl, hname 120 rfl rfl⟩, fun v hv => ?_⟩
    simp only [List.mem_cons, List.not_mem_nil, or_false] at hv
    rcases hv with rfl | rfl
    · trivial
    · exact ⟨hfloat, if_pos rfl⟩

end

end Parser

end LiteOLAP
