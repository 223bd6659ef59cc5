import LiteOLAP.Native.Parser

/-!
# Expressions, printed and parsed

An expression is printed as tokens with the parentheses that the levels of its operators require,
and the parser reads it back. Seven levels bind ever more tightly, from `OR` to the primaries; a
token behind an expression ends it at every level that is tighter than the token's own.

## Key results

- `Parser.Begins.operator`: one more operator and operand of a left-associative level
- `Parser.parseExpr_printTokens`: an expression is read back from its tokens
-/

namespace LiteOLAP

namespace Parser

open Bytes (ofAscii)

/-! ## Levels -/

/-- The level of an operator. -/
def opLevel : BinOp → Nat
  | .or => 1
  | .and => 2
  | .eq | .ne | .lt | .le | .gt | .ge => 4
  | .add | .sub => 5
  | .mul | .div => 6

/-- The level of the production that makes an expression. -/
def exprLevel : Expr → Nat
  | .binary op _ _ => opLevel op
  | .not _ => 3
  | .inList _ _ => 4
  | .columnRef _ _ | .literal _ | .aggregate _ _ => 7

/-- The production of a level. -/
def parseAt : (p : Nat) → (fuel : Nat) → List Token → Except Exc (Expr × List Token)
  | 1 => parseOr
  | 2 => parseAnd
  | 3 => parseNot
  | 4 => parseComparison
  | 5 => parseAddSub
  | 6 => parseMulDiv
  | _ => parsePrimary

/-- The level at which a token goes on with an expression in front of it; 0 if it never does. -/
def tokenLevel : Token → Nat
  | .keyword .or => 1
  | .keyword .and => 2
  | .keyword .between | .keyword .in => 4
  | .punct .eq | .punct .ne | .punct .lt | .punct .le | .punct .gt | .punct .ge => 4
  | .punct .plus | .punct .minus => 5
  | .punct .star | .punct .slash => 6
  | .punct .dot => 7
  | _ => 0

/-- The first of the tokens ends an expression of level `p`. -/
def Stops (p : Nat) (ts : List Token) : Prop := ∃ t rest, ts = t :: rest ∧ tokenLevel t < p

/-- The operators of a level, where the level is a loop. -/
def loopOp : (p : Nat) → Token → Option BinOp
  | 1 => orOp
  | 2 => andOp
  | 5 => addSubOp
  | 6 => mulDivOp
  | _ => fun _ => none

/-- The level is a loop over operators. -/
def IsLoop (p : Nat) : Prop := p = 1 ∨ p = 2 ∨ p = 5 ∨ p = 6

/-! ## Printing -/

def opToken : BinOp → Token
  | .or => .keyword .or
  | .and => .keyword .and
  | .eq => .punct .eq
  | .ne => .punct .ne
  | .lt => .punct .lt
  | .le => .punct .le
  | .gt => .punct .gt
  | .ge => .punct .ge
  | .add => .punct .plus
  | .sub => .punct .minus
  | .mul => .punct .star
  | .div => .punct .slash

/-- The name of an aggregate function. -/
def aggregateName : AggKind → Keyword
  | .countStar | .count => .count
  | .sum => .sum
  | .avg => .avg
  | .min => .min
  | .max => .max

/-- The token of a literal; `floatText` prints a `double`. -/
def literalToken (floatText : Double → Bytes) : Value → Token
  | .null => .keyword .null
  | .int32 v => .integer (ofAscii (toString v.toInt)) v.toInt64
  | .int64 v => .integer (ofAscii (toString v.toInt)) v
  | .double d => .float (floatText d) d
  | .string s => .string s

/-- The tokens of an expression where the grammar asks for level `p`. -/
def wrap (p : Nat) (e : Expr) (ts : List Token) : List Token :=
  if exprLevel e < p then .punct .lparen :: (ts ++ [.punct .rparen]) else ts

/-- The level that the left operand needs. Comparisons do not chain. -/
def leftLevel (op : BinOp) : Nat := if opLevel op = 4 then 5 else opLevel op

/-- Further literals of a list. -/
def commaTokens (floatText : Double → Bytes) (vs : List Value) : List Token :=
  vs.flatMap fun v => [.punct .comma, literalToken floatText v]

/-- The literals of a list. -/
def listTokens (floatText : Double → Bytes) : List Value → List Token
  | [] => []
  | v :: vs => literalToken floatText v :: commaTokens floatText vs

/-- The tokens of an expression, with the parentheses that the levels require. -/
def printTokens (floatText : Double → Bytes) : Expr → List Token
  | .columnRef tableAlias col =>
    if tableAlias = [] then [.identifier col]
    else [.identifier tableAlias, .punct .dot, .identifier col]
  | .literal v => [literalToken floatText v]
  | .binary op l r =>
    wrap (leftLevel op) l (printTokens floatText l) ++
      opToken op :: wrap (opLevel op + 1) r (printTokens floatText r)
  | .not e => .keyword .not :: wrap 3 e (printTokens floatText e)
  | .inList column values =>
    wrap 5 column (printTokens floatText column) ++
      .keyword .in :: .punct .lparen :: (listTokens floatText values ++ [.punct .rparen])
  | .aggregate kind none =>
    [.keyword (aggregateName kind), .punct .lparen, .punct .star, .punct .rparen]
  | .aggregate kind (some e) =>
    .keyword (aggregateName kind) :: .punct .lparen ::
      (wrap 5 e (printTokens floatText e) ++ [.punct .rparen])

/-- The value is as `ParseLiteral` makes it of its token: an integer has 64 bits only if it needs
    them. -/
def LiteralTyped : Value → Prop
  | .int64 v => ¬ (-2 ^ 31 ≤ v.toInt ∧ v.toInt ≤ 2 ^ 31 - 1)
  | _ => True

/-- What the parser can make of an expression: literals have the type of their token, the list of
    an `IN` is not empty, and `COUNT(*)` is the one aggregate without an argument. -/
def Typed : Expr → Prop
  | .columnRef _ _ => True
  | .literal v => LiteralTyped v
  | .binary _ l r => Typed l ∧ Typed r
  | .not e => Typed e
  | .inList column values => Typed column ∧ values ≠ [] ∧ ∀ v ∈ values, LiteralTyped v
  | .aggregate kind none => kind = .countStar
  | .aggregate kind (some e) => kind ≠ .countStar ∧ Typed e

/-! ## Single tokens -/

section

variable {t : Token} {ts rest : List Token}

@[simp] theorem peek_cons (t : Token) (ts : List Token) : peek (t :: ts) = .ok t := rfl

theorem matchToken_self (t : Token) (ts : List Token) :
    matchToken t (t :: ts) = .ok (true, ts) := by
  simp [matchToken]

theorem matchToken_ne {t u : Token} (h : u ≠ t) (ts : List Token) :
    matchToken t (u :: ts) = .ok (false, u :: ts) := by
  simp [matchToken, h]

theorem expectPunct_self (p : Punct) (ts : List Token) :
    expectPunct p (.punct p :: ts) = .ok ts := by
  rw [expectPunct, matchPunct, matchToken_self]
  rfl

theorem expectKw_self (kw : Keyword) (ts : List Token) :
    expectKw kw (.keyword kw :: ts) = .ok ts := by
  rw [expectKw, matchKw, matchToken_self]
  rfl

theorem Stops.mono {p q : Nat} (h : Stops p ts) (hle : p ≤ q) : Stops q ts := by
  obtain ⟨t, rest, heq, hlt⟩ := h
  exact ⟨t, rest, heq, Nat.lt_of_lt_of_le hlt hle⟩

theorem stops_cons {p : Nat} (h : tokenLevel t < p) (ts : List Token) : Stops p (t :: ts) :=
  ⟨t, ts, rfl, h⟩

theorem loopOp_level {p : Nat} {op : BinOp} (h : loopOp p t = some op) : tokenLevel t = p := by
  unfold loopOp at h
  split at h
  · unfold orOp at h
    split at h
    · rfl
    · cases h
  · unfold andOp at h
    split at h
    · rfl
    · cases h
  · unfold addSubOp at h
    split at h
    · rfl
    · rfl
    · cases h
  · unfold mulDivOp at h
    split at h
    · rfl
    · rfl
    · cases h
  · cases h

/-- The operator of a loop level is read there. -/
theorem loopOp_opToken {op : BinOp} (h : IsLoop (opLevel op)) :
    loopOp (opLevel op) (opToken op) = some op := by
  cases op <;> first | rfl | (rcases h with h | h | h | h <;> cases h)

/-- Any other operator is a comparison. -/
theorem comparisonOp_opToken {op : BinOp} (h : opLevel op = 4) :
    comparisonOp (opToken op) = some op := by
  cases op <;> first | rfl | cases h

@[simp] theorem tokenLevel_opToken (op : BinOp) : tokenLevel (opToken op) = opLevel op := by
  cases op <;> rfl

theorem isLoop_or_four (op : BinOp) : IsLoop (opLevel op) ∨ opLevel op = 4 := by
  unfold IsLoop
  cases op <;> simp [opLevel]

theorem comparisonOp_level {op : BinOp} (h : comparisonOp t = some op) : tokenLevel t = 4 := by
  unfold comparisonOp at h
  split at h <;> first | rfl | cases h

end

/-! ## Levels of the grammar -/

/-- The tokens are read as the expression at level `p`, whatever ends it. -/
def ParsesAs (p : Nat) (ts : List Token) (e : Expr) : Prop :=
  ∀ rest fuel, Stops p rest → 8 * (ts ++ rest).length + (8 - p) ≤ fuel →
    parseAt p fuel (ts ++ rest) = .ok (e, rest)

/-- The tokens are read as the expression at the loop of level `p`, which goes on behind them. -/
def Begins (p : Nat) (ts : List Token) (e : Expr) : Prop :=
  ∀ rest fuel, Stops (p + 1) rest → 8 * (ts ++ rest).length + (8 - p) ≤ fuel + 1 →
    ∃ rounds, rest.length < rounds ∧ parseAt p (fuel + 1) (ts ++ rest) =
      binaryLoop (loopOp p) (parseAt (p + 1) fuel) rounds e rest

/-- The first token is not `NOT`. -/
def StartsPlain (ts : List Token) : Prop := ∃ t rest, ts = t :: rest ∧ t ≠ .keyword .not

section

variable {p : Nat} {ts ts' : List Token} {e l r : Expr}

theorem StartsPlain.append (h : StartsPlain ts) (rest : List Token) : StartsPlain (ts ++ rest) := by
  obtain ⟨t, tail, rfl, ht⟩ := h
  exact ⟨t, tail ++ rest, rfl, ht⟩

/-- One call of a loop level: an operand, and the loop. -/
theorem parseAt_loop (hp : IsLoop p) (fuel : Nat) (ts : List Token) : parseAt p (fuel + 1) ts = (do
    let (l, ts) ← parseAt (p + 1) fuel ts
    binaryLoop (loopOp p) (parseAt (p + 1) fuel) (ts.length + 1) l ts) := by
  rcases hp with rfl | rfl | rfl | rfl <;> rfl

/-- An operand alone is the beginning of the loop. -/
theorem ParsesAs.begins (hp : IsLoop p) (h : ParsesAs (p + 1) ts e) : Begins p ts e := by
  intro rest fuel hstops hfuel
  have hlt : p < 8 := by
    unfold IsLoop at hp
    omega
  refine ⟨rest.length + 1, Nat.lt_succ_self _, ?_⟩
  rw [parseAt_loop hp, h rest fuel hstops (by omega)]
  rfl

/-- An operator and an operand more. -/
theorem Begins.operator (hp : IsLoop p) (hl : Begins p ts l) (hr : ParsesAs (p + 1) ts' r)
    {t : Token} {op : BinOp} (hop : loopOp p t = some op) :
    Begins p (ts ++ t :: ts') (.binary op l r) := by
  intro rest fuel hstops hfuel
  have hlt : p < 8 := by
    unfold IsLoop at hp
    omega
  have hlevel := loopOp_level hop
  rw [List.append_assoc, List.cons_append] at hfuel ⊢
  obtain ⟨rounds, hrounds, hparse⟩ := hl (t :: (ts' ++ rest)) fuel
    (stops_cons (by omega) _) hfuel
  obtain ⟨rounds, rfl⟩ : ∃ n, rounds = n + 1 := ⟨rounds - 1, by omega⟩
  simp only [List.length_append, List.length_cons] at hfuel hrounds
  refine ⟨rounds, by omega, ?_⟩
  rw [hparse, binaryLoop, peek_cons, Except.ok_bind, hop]
  dsimp only
  rw [List.tail_cons, hr rest fuel hstops (by rw [List.length_append]; omega)]
  rfl

/-- The loop ends. -/
theorem Begins.parsesAs (hp : IsLoop p) (h : Begins p ts e) : ParsesAs p ts e := by
  intro rest fuel hstops hfuel
  have hlt : p < 8 := by
    unfold IsLoop at hp
    omega
  obtain ⟨fuel, rfl⟩ : ∃ n, fuel = n + 1 := ⟨fuel - 1, by omega⟩
  obtain ⟨rounds, hrounds, hparse⟩ := h rest fuel (hstops.mono (Nat.le_succ p)) hfuel
  obtain ⟨rounds, rfl⟩ : ∃ n, rounds = n + 1 := ⟨rounds - 1, by omega⟩
  obtain ⟨t, tail, rfl, ht⟩ := hstops
  have hnone : loopOp p t = none := by
    cases hop : loopOp p t with
    | none => rfl
    | some op => exact absurd (loopOp_level hop) (Nat.ne_of_lt ht)
  rw [hparse, binaryLoop, peek_cons, Except.ok_bind, hnone]
  rfl

/-- A sum without a comparison behind it. -/
theorem ParsesAs.comparison (h : ParsesAs 5 ts e) : ParsesAs 4 ts e := by
  intro rest fuel hstops hfuel
  obtain ⟨fuel, rfl⟩ : ∃ n, fuel = n + 1 := ⟨fuel - 1, by omega⟩
  have hparse : parseAddSub fuel (ts ++ rest) = .ok (e, rest) :=
    h rest fuel (hstops.mono (by decide)) (by omega)
  obtain ⟨t, tail, rfl, ht⟩ := hstops
  have hnone : comparisonOp t = none := by
    cases hop : comparisonOp t with
    | none => rfl
    | some op => exact absurd (comparisonOp_level hop) (Nat.ne_of_lt ht)
  have hbetween : t ≠ .keyword .between := by
    rintro rfl
    exact absurd ht (by decide)
  have hin : t ≠ .keyword .in := by
    rintro rfl
    exact absurd ht (by decide)
  show parseComparison (fuel + 1) (ts ++ t :: tail) = _
  rw [parseComparison, hparse]
  simp [hnone, hbetween, hin]

/-- A comparison without a `NOT` before it. -/
theorem ParsesAs.not (h : ParsesAs 4 ts e) (hplain : StartsPlain ts) : ParsesAs 3 ts e := by
  intro rest fuel hstops hfuel
  obtain ⟨fuel, rfl⟩ : ∃ n, fuel = n + 1 := ⟨fuel - 1, by omega⟩
  have hparse : parseComparison fuel (ts ++ rest) = .ok (e, rest) :=
    h rest fuel (hstops.mono (by decide)) (by omega)
  obtain ⟨t, tail, rfl, ht⟩ := hplain
  show parseNot (fuel + 1) (t :: (tail ++ rest)) = _
  rw [parseNot, matchKw, matchToken_ne ht, Except.ok_bind]
  exact hparse

/-- What is read at a level is read at the next looser one. -/
theorem ParsesAs.loosen (hp : 1 ≤ p ∧ p ≤ 6) (h : ParsesAs (p + 1) ts e)
    (hplain : p = 3 → StartsPlain ts) : ParsesAs p ts e := by
  by_cases hloop : IsLoop p
  · exact (h.begins hloop).parsesAs hloop
  · obtain rfl | rfl : p = 3 ∨ p = 4 := by
      unfold IsLoop at hloop
      omega
    · exact h.not (hplain rfl)
    · exact h.comparison

/-- What is read at a level is read at every looser one. -/
theorem ParsesAs.loosen_all {q : Nat} (h : ParsesAs q ts e) (hq : q ≤ 7) (hp : 1 ≤ p) (hle : p ≤ q)
    (hplain : 4 ≤ q → StartsPlain ts) : ParsesAs p ts e := by
  induction q, hle using Nat.le_induction with
  | base => exact h
  | succ q hle ih =>
    refine ih (h.loosen ⟨by omega, by omega⟩ fun heq => hplain (by omega)) (by omega)
      fun h4 => hplain (by omega)

/-- An expression in parentheses is a primary. -/
theorem ParsesAs.paren (h : ParsesAs 1 ts e) :
    ParsesAs 7 (.punct .lparen :: (ts ++ [.punct .rparen])) e := by
  intro rest fuel hstops hfuel
  obtain ⟨fuel, rfl⟩ : ∃ n, fuel = n + 1 := ⟨fuel - 1, by omega⟩
  simp only [List.cons_append, List.append_assoc, List.nil_append, List.length_cons,
    List.length_append] at hfuel ⊢
  have hparse : parseOr fuel (ts ++ .punct .rparen :: rest) = .ok (e, .punct .rparen :: rest) :=
    h (.punct .rparen :: rest) fuel (stops_cons (by decide) _) (by
      simp only [List.length_append, List.length_cons]
      omega)
  show parsePrimary (fuel + 1) _ = _
  rw [parsePrimary, matchPunct, matchToken_self, Except.ok_bind]
  simp only [if_true, hparse, Except.ok_bind, expectPunct_self]
  rfl

end

/-! ## Each kind of expression -/

section

variable {floatText : Double → Bytes} {p : Nat} {ts ts' : List Token} {e l r : Expr}

/-- A literal is read back from its token. -/
theorem parseLiteral_literalToken (floatText : Double → Bytes) {v : Value} (hv : LiteralTyped v)
    (rest : List Token) :
    parseLiteral (literalToken floatText v :: rest) = .ok (v, rest) := by
  cases v with
  | int32 v =>
    have hlo := v.le_toInt
    have hhi := v.toInt_lt
    have hint : integerValue v.toInt64 = .int32 v := by
      rw [integerValue, Int32.toInt_toInt64, if_pos (by omega), Int32.toInt32_toInt64]
    show Except.ok (integerValue v.toInt64, rest) = _
    rw [hint]
  | int64 v =>
    show Except.ok (integerValue v, rest) = _
    rw [integerValue, if_neg hv]
  | null | double d | string s => rfl

/-- The tokens of literals are not those that open something else. -/
theorem literalToken_ne (floatText : Double → Bytes) (v : Value) :
    literalToken floatText v ≠ .punct .lparen ∧
    literalToken floatText v ≠ .keyword .not ∧ aggregateKw (literalToken floatText v) = none := by
  cases v <;> exact ⟨by simp [literalToken], by simp [literalToken], rfl⟩

theorem parsesAs_literal {v : Value} (hv : LiteralTyped v) :
    ParsesAs 7 [literalToken floatText v] (.literal v) := by
  intro rest fuel _ hfuel
  obtain ⟨fuel, rfl⟩ : ∃ n, fuel = n + 1 := ⟨fuel - 1, by omega⟩
  have hparse := parseLiteral_literalToken floatText hv rest
  obtain ⟨hparen, -, haggregate⟩ := literalToken_ne floatText v
  show parsePrimary (fuel + 1) (literalToken floatText v :: rest) = _
  rw [parsePrimary, matchPunct, matchToken_ne hparen, Except.ok_bind]
  simp only [Bool.false_eq_true, if_false, peek_cons, Except.ok_bind, haggregate,
    Option.isSome_none]
  cases v <;> simp only [literalToken] at hparse ⊢ <;> rw [hparse] <;> rfl

/-- A column reference ends where no dot follows. -/
theorem parsesAs_columnRef (tableAlias col : Bytes) :
    ParsesAs 7 (printTokens floatText (.columnRef tableAlias col)) (.columnRef tableAlias col) := by
  intro rest fuel hstops hfuel
  obtain ⟨fuel, rfl⟩ : ∃ n, fuel = n + 1 := ⟨fuel - 1, by omega⟩
  obtain ⟨t, tail, rfl, ht⟩ := hstops
  have hdot : t ≠ .punct .dot := by
    rintro rfl
    exact absurd ht (by decide)
  show parsePrimary (fuel + 1) _ = _
  rw [printTokens]
  split
  · rename_i hnone
    subst hnone
    simp [parsePrimary, matchPunct, matchToken, aggregateKw, parseColumnRef, expectIdent, hdot]
  · simp [parsePrimary, matchPunct, matchToken, aggregateKw, parseColumnRef, expectIdent]

theorem parsesAs_compare {op : BinOp} (hop : opLevel op = 4) (hl : ParsesAs 5 ts l)
    (hr : ParsesAs 5 ts' r) : ParsesAs 4 (ts ++ opToken op :: ts') (.binary op l r) := by
  intro rest fuel hstops hfuel
  obtain ⟨fuel, rfl⟩ : ∃ n, fuel = n + 1 := ⟨fuel - 1, by omega⟩
  simp only [List.append_assoc, List.cons_append, List.length_append, List.length_cons] at hfuel ⊢
  have hleft : parseAddSub fuel (ts ++ opToken op :: (ts' ++ rest)) =
      .ok (l, opToken op :: (ts' ++ rest)) :=
    hl _ fuel (stops_cons (by rw [tokenLevel_opToken, hop]; decide) _) (by
      simp only [List.length_append, List.length_cons]
      omega)
  have hright : parseAddSub fuel (ts' ++ rest) = .ok (r, rest) :=
    hr rest fuel (hstops.mono (by decide)) (by
      rw [List.length_append]
      omega)
  show parseComparison (fuel + 1) _ = _
  rw [parseComparison, hleft, Except.ok_bind]
  simp only [peek_cons, Except.ok_bind, comparisonOp_opToken hop, List.tail_cons, hright]
  rfl

theorem parsesAs_not (h : ParsesAs 3 ts e) : ParsesAs 3 (.keyword .not :: ts) (.not e) := by
  intro rest fuel hstops hfuel
  obtain ⟨fuel, rfl⟩ : ∃ n, fuel = n + 1 := ⟨fuel - 1, by omega⟩
  rw [List.cons_append, List.length_cons] at hfuel
  have hchild : parseNot fuel (ts ++ rest) = .ok (e, rest) := h rest fuel hstops (by omega)
  show parseNot (fuel + 1) (.keyword .not :: (ts ++ rest)) = _
  rw [parseNot, matchKw, matchToken_self, Except.ok_bind]
  simp only [if_true, hchild]
  rfl

/-- The list of an `IN` is read back, up to its closing parenthesis. -/
theorem commaLoop_literals {vs : List Value} (hvs : ∀ v ∈ vs, LiteralTyped v) (rest : List Token) :
    ∀ (rounds : Nat) (done : List Value), vs.length < rounds →
    commaLoop parseLiteral rounds done (commaTokens floatText vs ++ .punct .rparen :: rest) =
      .ok (done ++ vs, .punct .rparen :: rest) := by
  induction vs with
  | nil =>
    intro rounds done hrounds
    obtain ⟨rounds, rfl⟩ : ∃ n, rounds = n + 1 := ⟨rounds - 1, by omega⟩
    have hcomma : Token.punct .rparen ≠ .punct .comma := by decide
    show commaLoop parseLiteral (rounds + 1) done (.punct .rparen :: rest) = _
    rw [commaLoop, matchPunct, matchToken_ne hcomma, Except.ok_bind, List.append_nil]
    rfl
  | cons v vs ih =>
    intro rounds done hrounds
    obtain ⟨rounds, rfl⟩ : ∃ n, rounds = n + 1 := ⟨rounds - 1, by omega⟩
    rw [List.length_cons] at hrounds
    have hv := parseLiteral_literalToken floatText (hvs v List.mem_cons_self)
      (commaTokens floatText vs ++ .punct .rparen :: rest)
    show commaLoop parseLiteral (rounds + 1) done (.punct .comma :: literalToken floatText v ::
      (commaTokens floatText vs ++ .punct .rparen :: rest)) = _
    rw [commaLoop, matchPunct, matchToken_self, Except.ok_bind]
    simp only [if_true, hv, Except.ok_bind]
    rw [ih (fun w hw => hvs w (List.mem_cons_of_mem _ hw)) rounds _ (by omega), List.append_assoc,
      List.singleton_append]

theorem length_commaTokens (vs : List Value) :
    (commaTokens floatText vs).length = 2 * vs.length := by
  induction vs with
  | nil => rfl
  | cons v vs ih =>
    rw [commaTokens, List.flatMap_cons, List.length_append, ← commaTokens, ih]
    simp only [List.length_cons, List.length_nil]
    omega

theorem commaList_literals {vs : List Value} (hne : vs ≠ []) (hvs : ∀ v ∈ vs, LiteralTyped v)
    (rest : List Token) :
    commaList parseLiteral (listTokens floatText vs ++ .punct .rparen :: rest) =
      .ok (vs, .punct .rparen :: rest) := by
  cases vs with
  | nil => exact absurd rfl hne
  | cons v vs =>
    have hv := parseLiteral_literalToken floatText (hvs v List.mem_cons_self)
      (commaTokens floatText vs ++ .punct .rparen :: rest)
    show commaList parseLiteral (literalToken floatText v ::
      (commaTokens floatText vs ++ .punct .rparen :: rest)) = _
    rw [commaList, hv, Except.ok_bind]
    refine commaLoop_literals (fun w hw => hvs w (List.mem_cons_of_mem _ hw)) rest _ [v] ?_
    rw [List.length_append, length_commaTokens]
    omega

theorem parsesAs_inList {values : List Value} (h : ParsesAs 5 ts e) (hne : values ≠ [])
    (hvalues : ∀ v ∈ values, LiteralTyped v) :
    ParsesAs 4 (ts ++ .keyword .in :: .punct .lparen ::
      (listTokens floatText values ++ [.punct .rparen])) (.inList e values) := by
  intro rest fuel hstops hfuel
  obtain ⟨fuel, rfl⟩ : ∃ n, fuel = n + 1 := ⟨fuel - 1, by omega⟩
  simp only [List.append_assoc, List.cons_append, List.nil_append] at hfuel ⊢
  have hleft : parseAddSub fuel (ts ++ .keyword .in :: .punct .lparen ::
      (listTokens floatText values ++ .punct .rparen :: rest)) = .ok (e, .keyword .in ::
        .punct .lparen :: (listTokens floatText values ++ .punct .rparen :: rest)) :=
    h _ fuel (stops_cons (by decide) _) (by omega)
  have hin : comparisonOp (.keyword .in) = none := rfl
  have hbetween : Token.keyword .in ≠ .keyword .between := by decide
  show parseComparison (fuel + 1) _ = _
  rw [parseComparison, hleft, Except.ok_bind]
  simp only [peek_cons, Except.ok_bind, hin, List.tail_cons, expectPunct_self,
    commaList_literals hne hvalues, if_neg hbetween, if_true]
  rfl

theorem parsesAs_countStar : ParsesAs 7 (printTokens floatText (.aggregate .countStar none))
    (.aggregate .countStar none) := by
  intro rest fuel _ hfuel
  simp only [printTokens, List.cons_append, List.nil_append, List.length_cons] at hfuel ⊢
  obtain ⟨fuel, rfl⟩ : ∃ n, fuel = n + 2 := ⟨fuel - 2, by omega⟩
  show parsePrimary (fuel + 2) _ = _
  simp [parsePrimary, parseAggregate, aggregateName, aggregateKw, matchPunct, matchToken, matchStar,
    expectPunct]

/-- The first token of what is printed at level 4 or tighter is neither `NOT` nor `*`. -/
theorem head_printTokens (floatText : Double → Bytes) : ∀ (e : Expr), 4 ≤ exprLevel e → ∃ t rest,
    printTokens floatText e = t :: rest ∧ t ≠ .keyword .not ∧ t ≠ .punct .star
  | .columnRef tableAlias col, _ => by
    rw [printTokens]
    split <;> exact ⟨_, _, rfl, by simp, by simp⟩
  | .literal v, _ => by
    obtain ⟨-, hnot, -⟩ := literalToken_ne floatText v
    exact ⟨_, _, rfl, hnot, by cases v <;> simp [literalToken]⟩
  | .binary op l r, h => by
    rw [printTokens, wrap]
    split
    · exact ⟨_, _, rfl, by simp, by simp⟩
    · rename_i hlevel
      have hop : 4 ≤ leftLevel op := by
        unfold leftLevel
        rw [exprLevel] at h
        split <;> omega
      obtain ⟨t, rest, hl, hnot, hstar⟩ := head_printTokens floatText l (by omega)
      exact ⟨t, _, by rw [hl]; rfl, hnot, hstar⟩
  | .not e, h => by
    rw [exprLevel] at h
    omega
  | .inList column values, _ => by
    rw [printTokens, wrap]
    split
    · exact ⟨_, _, rfl, by simp, by simp⟩
    · obtain ⟨t, rest, hcolumn, hnot, hstar⟩ := head_printTokens floatText column (by omega)
      exact ⟨t, _, by rw [hcolumn]; rfl, hnot, hstar⟩
  | .aggregate kind none, _ => ⟨_, _, rfl, by cases kind <;> simp [aggregateName], by simp⟩
  | .aggregate kind (some e), _ => ⟨_, _, rfl, by cases kind <;> simp [aggregateName], by simp⟩

theorem startsPlain_printTokens (h : 4 ≤ exprLevel e) : StartsPlain (printTokens floatText e) := by
  obtain ⟨t, rest, heq, hnot, -⟩ := head_printTokens floatText e h
  exact ⟨t, rest, heq, hnot⟩

theorem head_wrap (floatText : Double → Bytes) (e : Expr) : ∃ t rest,
    wrap 5 e (printTokens floatText e) = t :: rest ∧ t ≠ .punct .star := by
  rw [wrap]
  split
  · exact ⟨_, _, rfl, by simp⟩
  · obtain ⟨t, rest, heq, -, hstar⟩ := head_printTokens floatText e (by omega)
    exact ⟨t, rest, heq, hstar⟩

theorem parsesAs_aggregate {kind : AggKind} (hkind : kind ≠ .countStar)
    (h : ParsesAs 5 (wrap 5 e (printTokens floatText e)) e) :
    ParsesAs 7 (printTokens floatText (.aggregate kind (some e))) (.aggregate kind (some e)) := by
  intro rest fuel _ hfuel
  simp only [printTokens, List.cons_append, List.append_assoc, List.nil_append,
    List.length_cons] at hfuel ⊢
  obtain ⟨fuel, rfl⟩ : ∃ n, fuel = n + 2 := ⟨fuel - 2, by omega⟩
  have hargument : parseAddSub fuel (wrap 5 e (printTokens floatText e) ++ .punct .rparen :: rest) =
      .ok (e, .punct .rparen :: rest) := h _ fuel (stops_cons (by decide) _) (by omega)
  obtain ⟨t, tail, hhead, hstar⟩ := head_wrap floatText e
  have hnostar : matchPunct .star (wrap 5 e (printTokens floatText e) ++ .punct .rparen :: rest) =
      .ok (false, wrap 5 e (printTokens floatText e) ++ .punct .rparen :: rest) := by
    rw [hhead]
    exact matchToken_ne hstar _
  show parsePrimary (fuel + 2) _ = _
  have hparen : Token.keyword (aggregateName kind) ≠ .punct .lparen := by simp
  have hname : (aggregateKw (.keyword (aggregateName kind))).isSome = true := by
    cases kind <;> rfl
  rw [parsePrimary, matchPunct, matchToken_ne hparen, Except.ok_bind]
  simp only [Bool.false_eq_true, if_false, peek_cons, Except.ok_bind, hname, if_true]
  rw [parseAggregate, peek_cons, Except.ok_bind, List.tail_cons, expectPunct_self, Except.ok_bind]
  cases kind <;> simp [aggregateName, aggregateKind, matchStar, hnostar, hargument, expectPunct_self] at hkind ⊢

/-! ## All expressions -/

theorem exprLevel_bounds (e : Expr) : 1 ≤ exprLevel e ∧ exprLevel e ≤ 7 := by
  cases e with
  | binary op l r => cases op <;> simp [exprLevel, opLevel]
  | _ => simp [exprLevel]

/-- An expression that is read at its own level is read, with parentheses where they are required,
    at every level. -/
theorem parsesAs_wrap (hp : 1 ≤ p ∧ p ≤ 7)
    (h : ParsesAs (exprLevel e) (printTokens floatText e) e) :
    ParsesAs p (wrap p e (printTokens floatText e)) e := by
  have hlevel := exprLevel_bounds e
  rw [wrap]
  split
  · exact (h.loosen_all hlevel.2 (Nat.le_refl 1) hlevel.1 startsPlain_printTokens).paren.loosen_all
      (Nat.le_refl 7) hp.1 hp.2 fun _ => ⟨_, _, rfl, by simp⟩
  · rename_i hle
    exact h.loosen_all hlevel.2 hp.1 (Nat.le_of_not_lt hle) startsPlain_printTokens

/-- So it begins every loop. -/
theorem begins_wrap (hp : IsLoop p) (h : ParsesAs (exprLevel e) (printTokens floatText e) e)
    (hown : exprLevel e = p → Begins p (printTokens floatText e) e) :
    Begins p (wrap p e (printTokens floatText e)) e := by
  by_cases heq : exprLevel e = p
  · rw [wrap, if_neg (by omega)]
    exact hown heq
  · have hle : 1 ≤ p + 1 ∧ p + 1 ≤ 7 := by
      unfold IsLoop at hp
      omega
    have hsame : wrap p e (printTokens floatText e) = wrap (p + 1) e (printTokens floatText e) := by
      unfold wrap
      split
      · rw [if_pos (by omega)]
      · rw [if_neg (by omega)]
    rw [hsame]
    exact (parsesAs_wrap hle h).begins hp

/-- Every expression is read back at its own level. -/
theorem parsesAs_printTokens (floatText : Double → Bytes) : ∀ (e : Expr), Typed e →
    ParsesAs (exprLevel e) (printTokens floatText e) e ∧
      (IsLoop (exprLevel e) → Begins (exprLevel e) (printTokens floatText e) e)
  | .columnRef tableAlias col, _ =>
    ⟨parsesAs_columnRef tableAlias col, fun h => absurd h (by simp [IsLoop, exprLevel])⟩
  | .literal v, h => ⟨parsesAs_literal h, fun h => absurd h (by simp [IsLoop, exprLevel])⟩
  | .binary op l r, h => by
    obtain ⟨hl, hlown⟩ := parsesAs_printTokens floatText l h.1
    obtain ⟨hr, -⟩ := parsesAs_printTokens floatText r h.2
    rw [exprLevel, printTokens, leftLevel]
    rcases isLoop_or_four op with hloop | hfour
    · have hne : opLevel op ≠ 4 := by
        unfold IsLoop at hloop
        omega
      have hlevel : 1 ≤ opLevel op + 1 ∧ opLevel op + 1 ≤ 7 := by
        unfold IsLoop at hloop
        omega
      rw [if_neg hne]
      have hbegins := (begins_wrap hloop hl fun heq => heq ▸ hlown (heq ▸ hloop)).operator hloop
        (parsesAs_wrap hlevel hr) (loopOp_opToken hloop)
      exact ⟨hbegins.parsesAs hloop, fun _ => hbegins⟩
    · rw [if_pos hfour]
      have hfive : (1 : Nat) ≤ 5 ∧ 5 ≤ 7 := by decide
      have hcompare := parsesAs_compare hfour (parsesAs_wrap hfive hl) (parsesAs_wrap hfive hr)
      rw [hfour]
      exact ⟨hcompare, fun h => absurd h (by simp [IsLoop])⟩
  | .not e, h => by
    obtain ⟨he, -⟩ := parsesAs_printTokens floatText e h
    exact ⟨parsesAs_not (parsesAs_wrap (by decide) he),
      fun h => absurd h (by simp [IsLoop, exprLevel])⟩
  | .inList column values, h => by
    obtain ⟨hcolumn, -⟩ := parsesAs_printTokens floatText column h.1
    exact ⟨parsesAs_inList (parsesAs_wrap (by decide) hcolumn) h.2.1 h.2.2,
      fun h => absurd h (by simp [IsLoop, exprLevel])⟩
  | .aggregate kind none, h => by
    obtain rfl : kind = .countStar := h
    exact ⟨parsesAs_countStar, fun h => absurd h (by simp [IsLoop, exprLevel])⟩
  | .aggregate kind (some e), h => by
    obtain ⟨he, -⟩ := parsesAs_printTokens floatText e h.2
    exact ⟨parsesAs_aggregate h.1 (parsesAs_wrap (by decide) he),
      fun h => absurd h (by simp [IsLoop, exprLevel])⟩

/-- An expression is read back from its tokens, up to a token that goes on with no expression. -/
theorem parseExpr_printTokens (he : Typed e) {rest : List Token} (hstops : Stops 1 rest) :
    parseExpr (printTokens floatText e ++ rest) = .ok (e, rest) := by
  have hone : (1 : Nat) ≤ 1 ∧ 1 ≤ 7 := by decide
  have hparse := parsesAs_wrap hone (parsesAs_printTokens floatText e he).1
  have hnone : wrap 1 e (printTokens floatText e) = printTokens floatText e := by
    have hlevel := (exprLevel_bounds e).1
    rw [wrap, if_neg (by omega)]
  rw [hnone] at hparse
  exact hparse rest _ hstops (by unfold fuelFor; omega)

end

end Parser

end LiteOLAP
