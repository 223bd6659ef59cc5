import LiteOLAP.Spec.LexerCorrect
import LiteOLAP.Spec.ParserCorrect

/-!
# Parsing ends, within the tokens

The tokens end with one EOF token, and no production reads behind it: each stops in front of it,
having consumed a token at least, or throws. A call of a production either has fewer tokens left
or stands at a tighter level, so that eight calls for each token are enough; a round of a loop
consumes a token.

## Key results

- `Parser.parseAt_returns`: every production of expressions returns in front of the EOF token or
  throws
- `Parser.parseStatement_returns`: so does every statement, which leaves the EOF token alone
- `Lexer.tokenize_returns`: the lexer returns or throws
- `parse_returns`: the parser returns or throws for every text
-/

namespace LiteOLAP

open Bytes (ofAscii)

/-! ## Runs that return or throw -/

/-- The run gives a result with the property, or throws a `std::runtime_error`. -/
def Returns {α : Type} (r : Except Exc α) (post : α → Prop) : Prop :=
  match r with
  | .ok a => post a
  | .error e => ∃ what, e = .runtimeError what

section

variable {α β : Type} {r : Except Exc α} {f : α → Except Exc β} {mid post' : α → Prop}
  {post : β → Prop}

theorem Returns.bind (h : Returns r mid) (hf : ∀ a, mid a → Returns (f a) post) :
    Returns (r >>= f) post := by
  cases r with
  | error e => exact h
  | ok a => exact hf a h

theorem Returns.mono (h : Returns r mid) (hpost : ∀ a, mid a → post' a) : Returns r post' := by
  cases r with
  | error e => exact h
  | ok a => exact hpost a h

theorem returns_throw (what : Bytes) : Returns (.error (.runtimeError what)) post' := ⟨what, rfl⟩

end

namespace Parser

/-! ## Single tokens -/

/-- The tokens end with their one EOF token. -/
def EndsWithEof (ts : List Token) : Prop := ∃ body, ts = body ++ [.eof] ∧ Token.eof ∉ body

/-- What is left of the tokens `ts`: their EOF token at least, and no more than there were. -/
def Left (ts rest : List Token) : Prop := EndsWithEof rest ∧ rest.length ≤ ts.length

/-- What is left behind a token at least. -/
def Consumed (ts rest : List Token) : Prop := EndsWithEof rest ∧ rest.length < ts.length

section

variable {ts rest us : List Token} {t : Token}

theorem EndsWithEof.cases (h : EndsWithEof ts) :
    ts = [.eof] ∨ ∃ t rest, ts = t :: rest ∧ t ≠ .eof ∧ EndsWithEof rest := by
  obtain ⟨body, rfl, hbody⟩ := h
  cases body with
  | nil => exact .inl rfl
  | cons t body =>
    rw [List.mem_cons, not_or] at hbody
    exact .inr ⟨t, body ++ [.eof], rfl, Ne.symm hbody.1, body, rfl, hbody.2⟩

theorem EndsWithEof.left (h : EndsWithEof ts) : Left ts ts := ⟨h, Nat.le_refl _⟩

theorem Consumed.left (h : Consumed ts rest) : Left ts rest := ⟨h.1, Nat.le_of_lt h.2⟩

theorem Left.trans (h : Left ts rest) (h' : Left rest us) : Left ts us :=
  ⟨h'.1, Nat.le_trans h'.2 h.2⟩

theorem Left.consumed (h : Left ts rest) (h' : Consumed rest us) : Consumed ts us :=
  ⟨h'.1, Nat.lt_of_lt_of_le h'.2 h.2⟩

theorem Consumed.trans (h : Consumed ts rest) (h' : Left rest us) : Consumed ts us :=
  ⟨h'.1, Nat.lt_of_le_of_lt h'.2 h.2⟩

/-- Reading the next token: there is one, and if it is not the EOF token there are more. -/
theorem peek_returns (h : EndsWithEof ts) :
    Returns (peek ts) fun t => ts.head? = some t ∧ (t ≠ .eof → Consumed ts ts.tail) := by
  rcases h.cases with rfl | ⟨t, rest, rfl, -, hrest⟩
  · exact ⟨rfl, fun hne => absurd rfl hne⟩
  · exact ⟨rfl, fun _ => ⟨hrest, Nat.lt_succ_self _⟩⟩

theorem matchToken_returns (h : EndsWithEof ts) (ht : t ≠ .eof) :
    Returns (matchToken t ts) fun r =>
      Left ts r.2 ∧ (r.1 = true → Consumed ts r.2) ∧ (r.1 = false → r.2 = ts) := by
  refine (peek_returns h).bind fun next hnext => ?_
  split
  · rename_i heq
    have hconsumed := hnext.2 (heq ▸ ht)
    exact ⟨hconsumed.left, fun _ => hconsumed, fun hfound => absurd hfound.symm Bool.false_ne_true⟩
  · exact ⟨h.left, fun hfound => absurd hfound Bool.false_ne_true, fun _ => rfl⟩

theorem matchKw_returns (kw : Keyword) (h : EndsWithEof ts) :
    Returns (matchKw kw ts) fun r =>
      Left ts r.2 ∧ (r.1 = true → Consumed ts r.2) ∧ (r.1 = false → r.2 = ts) :=
  matchToken_returns h (by simp)

theorem matchPunct_returns (p : Punct) (h : EndsWithEof ts) :
    Returns (matchPunct p ts) fun r =>
      Left ts r.2 ∧ (r.1 = true → Consumed ts r.2) ∧ (r.1 = false → r.2 = ts) :=
  matchToken_returns h (by simp)

theorem expectKw_returns (kw : Keyword) (h : EndsWithEof ts) :
    Returns (expectKw kw ts) fun rest => Consumed ts rest := by
  refine (matchKw_returns kw h).bind fun r hr => ?_
  obtain ⟨found, rest⟩ := r
  cases found with
  | true => exact hr.2.1 rfl
  | false => exact (peek_returns hr.1.1).bind fun _ _ => returns_throw _

theorem expectPunct_returns (p : Punct) (h : EndsWithEof ts) :
    Returns (expectPunct p ts) fun rest => Consumed ts rest := by
  refine (matchPunct_returns p h).bind fun r hr => ?_
  obtain ⟨found, rest⟩ := r
  cases found with
  | true => exact hr.2.1 rfl
  | false => exact (peek_returns hr.1.1).bind fun _ _ => returns_throw _

theorem expectIdent_returns (h : EndsWithEof ts) :
    Returns (expectIdent ts) fun r => Consumed ts r.2 := by
  refine (peek_returns h).bind fun next hnext => ?_
  cases next with
  | identifier text => exact hnext.2 (by simp)
  | _ => exact returns_throw _

theorem parseLiteral_returns (h : EndsWithEof ts) :
    Returns (parseLiteral ts) fun r => Consumed ts r.2 := by
  refine (peek_returns h).bind fun next hnext => ?_
  split
  · exact hnext.2 (by simp)
  · exact hnext.2 (by simp)
  · exact hnext.2 (by simp)
  · exact hnext.2 (by simp)
  · exact returns_throw _

/-- `ExpectEnd` leaves the EOF token and nothing else. -/
theorem expectEnd_returns (h : EndsWithEof ts) :
    Returns (expectEnd ts) fun rest => rest = [.eof] := by
  refine (matchPunct_returns .semicolon h).bind fun r hr => ?_
  obtain ⟨found, rest⟩ := r
  refine (peek_returns hr.1.1).bind fun next hnext => ?_
  dsimp only at hnext ⊢
  split
  · rename_i heq
    rcases hr.1.1.cases with hrest | ⟨t, rest', hrest, ht, -⟩
    · exact hrest
    · dsimp only at hrest
      rw [hrest] at hnext
      exact absurd ((Option.some.inj hnext.1).trans heq) ht
  · exact returns_throw _

end

/-! ## Repetition -/

section

variable {α : Type} {item : List Token → Except Exc (α × List Token)} {ts : List Token}

theorem commaLoop_returns (hitem : ∀ ts, EndsWithEof ts → Returns (item ts) fun r => Consumed ts r.2)
    {fuel : Nat} (h : EndsWithEof ts) (hfuel : ts.length < fuel) (xs : List α) :
    Returns (commaLoop item fuel xs ts) fun r => Left ts r.2 := by
  induction fuel generalizing xs ts with
  | zero => exact absurd hfuel (Nat.not_lt_zero _)
  | succ fuel ih =>
    refine (matchPunct_returns .comma h).bind fun r hr => ?_
    obtain ⟨comma, rest⟩ := r
    cases comma with
    | false => exact hr.1
    | true =>
      have hcomma := hr.2.1 rfl
      refine (hitem _ hcomma.1).bind fun r hr' => ?_
      have hlt := (hcomma.trans hr'.left).2
      exact (ih hr'.1 (by omega) _).mono fun r hr'' => (hcomma.trans (hr'.left.trans hr'')).left

theorem commaList_returns (hitem : ∀ ts, EndsWithEof ts → Returns (item ts) fun r => Consumed ts r.2)
    (h : EndsWithEof ts) : Returns (commaList item ts) fun r => Consumed ts r.2 := by
  refine (hitem ts h).bind fun r hr => ?_
  exact (commaLoop_returns hitem hr.1 (Nat.lt_succ_self _) _).mono fun r' hr' => hr.trans hr'

theorem binaryLoop_returns {op? : Token → Option BinOp}
    {operand : List Token → Except Exc (Expr × List Token)} {n : Nat} (hop : op? .eof = none)
    (hoperand : ∀ ts, EndsWithEof ts → ts.length < n → Returns (operand ts) fun r => Consumed ts r.2)
    {fuel : Nat} (h : EndsWithEof ts) (hn : ts.length ≤ n) (hfuel : ts.length < fuel) (l : Expr) :
    Returns (binaryLoop op? operand fuel l ts) fun r => Left ts r.2 := by
  induction fuel generalizing l ts with
  | zero => exact absurd hfuel (Nat.not_lt_zero _)
  | succ fuel ih =>
    refine (peek_returns h).bind fun next hnext => ?_
    split
    · rename_i op heq
      have hne : next ≠ .eof := by
        rintro rfl
        rw [hop] at heq
        cases heq
      have htail := hnext.2 hne
      refine (hoperand _ htail.1 (Nat.lt_of_lt_of_le htail.2 hn)).bind fun r hr => ?_
      have hlt := (htail.trans hr.left).2
      exact (ih hr.1 (by omega) (by omega) _).mono fun r' hr' =>
        (htail.trans (hr.left.trans hr')).left
    · exact h.left

end

/-! ## Expressions -/

/-- With this much fuel, every production of expressions returns in front of the EOF token or
    throws. A looser level needs more of it, and every token eight times one. -/
def Ready (fuel : Nat) : Prop :=
  ∀ p ts, 1 ≤ p → p ≤ 7 → EndsWithEof ts → 8 * ts.length + (9 - p) ≤ fuel →
    Returns (parseAt p fuel ts) fun r => Consumed ts r.2

/-- So does an aggregate, whose first token has been looked at. -/
def AggregateReady (fuel : Nat) : Prop :=
  ∀ ts, EndsWithEof ts → ts.head? ≠ some .eof → 8 * ts.length + 1 ≤ fuel →
    Returns (parseAggregate fuel ts) fun r => Consumed ts r.2

section

variable {fuel p : Nat} {ts : List Token}

theorem parseColumnRef_returns (h : EndsWithEof ts) :
    Returns (parseColumnRef ts) fun r => Consumed ts r.2 := by
  refine (expectIdent_returns h).bind fun r hr => ?_
  obtain ⟨first, rest⟩ := r
  refine (matchPunct_returns .dot hr.1).bind fun r hr' => ?_
  obtain ⟨dot, rest'⟩ := r
  cases dot with
  | false => exact hr.trans hr'.1
  | true => exact (expectIdent_returns hr'.1.1).bind fun r hr'' => hr.trans (hr'.1.trans hr''.left)

/-- A level that is a loop over operators. -/
theorem Ready.loop (hready : Ready fuel) (hp : IsLoop p) (h : EndsWithEof ts)
    (hfuel : 8 * ts.length + (9 - p) ≤ fuel + 1) :
    Returns (parseAt p (fuel + 1) ts) fun r => Consumed ts r.2 := by
  have hlevel : 1 ≤ p + 1 ∧ p + 1 ≤ 7 := by
    unfold IsLoop at hp
    omega
  have heof : loopOp p .eof = none := by
    rcases hp with rfl | rfl | rfl | rfl <;> rfl
  rw [parseAt_loop hp]
  -- the operands stand one level tighter, the first one at the same tokens
  refine (hready (p + 1) ts hlevel.1 hlevel.2 h (by omega)).bind fun r hr => ?_
  have hlt := hr.2
  have hloop := binaryLoop_returns (n := ts.length) heof
    (fun us hus hn => hready (p + 1) us hlevel.1 hlevel.2 hus (by omega)) hr.1 (by omega)
    (Nat.lt_succ_self _) r.1
  exact hloop.mono fun r' hr' => hr.trans hr'

theorem Ready.not (hready : Ready fuel) (h : EndsWithEof ts)
    (hfuel : 8 * ts.length + 6 ≤ fuel + 1) :
    Returns (parseNot (fuel + 1) ts) fun r => Consumed ts r.2 := by
  rw [parseNot]
  refine (matchKw_returns .not h).bind fun r hr => ?_
  obtain ⟨found, rest⟩ := r
  cases found with
  | false =>
    obtain rfl : rest = ts := hr.2.2 rfl
    exact hready 4 _ (by decide) (by decide) h (by omega)
  | true =>
    have hnot : Consumed ts rest := hr.2.1 rfl
    have hlt := hnot.2
    exact (hready 3 _ (by decide) (by decide) hnot.1 (by omega)).bind fun r hr' =>
      hnot.trans hr'.left

theorem betweenExpr_returns (l lo hi : Expr) : Returns (betweenExpr l lo hi) fun _ => True := by
  unfold betweenExpr
  split
  · trivial
  · exact returns_throw _

theorem Ready.comparison (hready : Ready fuel) (h : EndsWithEof ts)
    (hfuel : 8 * ts.length + 5 ≤ fuel + 1) :
    Returns (parseComparison (fuel + 1) ts) fun r => Consumed ts r.2 := by
  have hoperand : ∀ us, Left ts us → Returns (parseAddSub fuel us) fun r => Consumed us r.2 :=
    fun us hus => hready 5 us (by decide) (by decide) hus.1 (by have := hus.2; omega)
  rw [parseComparison]
  refine (hoperand ts h.left).bind fun r hr => ?_
  obtain ⟨l, rest⟩ := r
  refine (peek_returns hr.1).bind fun next hnext => ?_
  split
  · rename_i op hop
    have htail : Consumed rest rest.tail := hnext.2 (by
      rintro rfl
      cases hop)
    refine (hoperand _ (hr.trans htail.left).left).bind fun r hr' => ?_
    exact hr.trans (htail.trans hr'.left).left
  · split
    · rename_i hbetween
      have htail : Consumed rest rest.tail := hnext.2 (by simp [hbetween])
      have hlo := hr.trans htail.left
      refine (hoperand _ hlo.left).bind fun r hr' => ?_
      have hlo := hlo.trans hr'.left
      refine (expectKw_returns .and hr'.1).bind fun us hus => ?_
      have hhi := hlo.trans hus.left
      refine (hoperand _ hhi.left).bind fun r hr' => ?_
      have hend := hhi.trans hr'.left
      exact (betweenExpr_returns l _ _).bind fun _ _ => hend
    · split
      · rename_i hin
        have htail : Consumed rest rest.tail := hnext.2 (by simp [hin])
        refine (expectPunct_returns .lparen htail.1).bind fun us hus => ?_
        refine (commaList_returns (fun ts h => parseLiteral_returns h) hus.1).bind fun r hr' => ?_
        refine (expectPunct_returns .rparen hr'.1).bind fun vs hvs => ?_
        exact hr.trans (htail.left.trans (hus.left.trans (hr'.left.trans hvs.left)))
      · exact hr

theorem Ready.primary (hready : Ready fuel) (haggregate : AggregateReady fuel) (h : EndsWithEof ts)
    (hfuel : 8 * ts.length + 2 ≤ fuel + 1) :
    Returns (parsePrimary (fuel + 1) ts) fun r => Consumed ts r.2 := by
  rw [parsePrimary]
  refine (matchPunct_returns .lparen h).bind fun r hr => ?_
  obtain ⟨paren, rest⟩ := r
  cases paren with
  | true =>
    -- the levels begin again inside parentheses, behind one token
    have hparen : Consumed ts rest := hr.2.1 rfl
    have hlt := hparen.2
    refine (hready 1 _ (by decide) (by decide) hparen.1 (by omega)).bind fun r hr' => ?_
    refine (expectPunct_returns .rparen hr'.1).bind fun us hus => ?_
    exact hparen.trans (hr'.left.trans hus.left)
  | false =>
    obtain rfl : rest = ts := hr.2.2 rfl
    dsimp only
    refine (peek_returns h).bind fun next hnext => ?_
    split
    · rename_i hkeyword
      refine haggregate _ h (fun heof => ?_) (by omega)
      obtain rfl : next = .eof := Option.some.inj (hnext.1.symm.trans heof)
      cases hkeyword
    · split
      · exact (parseLiteral_returns h).bind fun r hr' => hr'
      · exact (parseLiteral_returns h).bind fun r hr' => hr'
      · exact (parseLiteral_returns h).bind fun r hr' => hr'
      · exact (parseLiteral_returns h).bind fun r hr' => hr'
      · exact (parseColumnRef_returns h).bind fun r hr' => hr'
      · exact returns_throw _

theorem Ready.aggregate (hready : Ready fuel) : AggregateReady (fuel + 1) := by
  intro ts h hhead hfuel
  rw [parseAggregate]
  refine (peek_returns h).bind fun fn hfn => ?_
  have hname : Consumed ts ts.tail := hfn.2 fun heof => hhead (heof ▸ hfn.1)
  refine (expectPunct_returns .lparen hname.1).bind fun us hus => ?_
  have hstar : Returns (matchStar fn us) fun r => Left us r.2 := by
    unfold matchStar
    split
    · exact (matchPunct_returns .star hus.1).mono fun r hr => hr.1
    · exact hus.1.left
  refine hstar.bind fun r hr => ?_
  obtain ⟨star, rest⟩ := r
  have hrest : Consumed ts rest := hname.trans (hus.left.trans hr)
  have hlt := hrest.2
  cases star with
  | true => exact (expectPunct_returns .rparen hr.1).bind fun vs hvs => hrest.trans hvs.left
  | false =>
    refine (hready 5 rest (by decide) (by decide) hr.1 (by omega)).bind fun r hr' => ?_
    refine (expectPunct_returns .rparen hr'.1).bind fun vs hvs => ?_
    exact hrest.trans (hr'.left.trans hvs.left)

theorem ready (fuel : Nat) : Ready fuel ∧ AggregateReady fuel := by
  induction fuel with
  | zero => exact ⟨fun p ts hp hp' h hfuel => by omega, fun ts h hhead hfuel => by omega⟩
  | succ fuel ih =>
    obtain ⟨hready, haggregate⟩ := ih
    refine ⟨fun p ts hp hp' h hfuel => ?_, hready.aggregate⟩
    match p, hp, hp', hfuel with
    | 1, _, _, hfuel => exact hready.loop (.inl rfl) h hfuel
    | 2, _, _, hfuel => exact hready.loop (.inr (.inl rfl)) h hfuel
    | 3, _, _, hfuel => exact hready.not h hfuel
    | 4, _, _, hfuel => exact hready.comparison h hfuel
    | 5, _, _, hfuel => exact hready.loop (.inr (.inr (.inl rfl))) h hfuel
    | 6, _, _, hfuel => exact hready.loop (.inr (.inr (.inr rfl))) h hfuel
    | 7, _, _, hfuel => exact hready.primary haggregate h hfuel

theorem parseExpr_returns (h : EndsWithEof ts) :
    Returns (parseExpr ts) fun r => Consumed ts r.2 :=
  (ready _).1 1 ts (by decide) (by decide) h (Nat.le_refl _)

end

/-! ## Statements -/

section

variable {ts : List Token}

theorem parseItemExpr_returns (h : EndsWithEof ts) :
    Returns (parseItemExpr ts) fun r => Consumed ts r.2 := by
  refine (peek_returns h).bind fun next hnext => ?_
  split
  · rename_i hkeyword
    refine (ready (fuelFor ts)).2 ts h (fun heof => ?_) (by unfold fuelFor; omega)
    obtain rfl : next = .eof := Option.some.inj (hnext.1.symm.trans heof)
    cases hkeyword
  · exact (ready (fuelFor ts)).1 7 ts (by decide) (by decide) h (by unfold fuelFor; omega)

theorem parseSelectItem_returns (h : EndsWithEof ts) :
    Returns (parseSelectItem ts) fun r => Consumed ts r.2 := by
  refine (parseItemExpr_returns h).bind fun r hr => ?_
  refine (matchKw_returns .as hr.1).bind fun r' hr' => ?_
  obtain ⟨named, rest⟩ := r'
  cases named with
  | false => exact hr.trans hr'.1
  | true => exact (expectIdent_returns hr'.1.1).bind fun r hr'' => hr.trans (hr'.1.trans hr''.left)

theorem parseTableRef_returns (h : EndsWithEof ts) :
    Returns (parseTableRef ts) fun r => Consumed ts r.2 := by
  refine (expectIdent_returns h).bind fun r hr => ?_
  refine (peek_returns hr.1).bind fun next hnext => ?_
  split
  · have htail := hnext.2 (by simp)
    exact (expectIdent_returns htail.1).bind fun r' hr' => hr.trans (htail.left.trans hr'.left)
  · exact (expectIdent_returns hr.1).bind fun r' hr' => hr.trans hr'.left
  · exact hr

theorem optionalClause_returns {α : Type} (kw : Keyword)
    {clause : List Token → Except Exc (α × List Token)}
    (hclause : ∀ ts, EndsWithEof ts → Returns (clause ts) fun r => Consumed ts r.2)
    (h : EndsWithEof ts) : Returns (optionalClause kw clause ts) fun r => Left ts r.2 := by
  refine (matchKw_returns kw h).bind fun r hr => ?_
  obtain ⟨found, rest⟩ := r
  cases found with
  | false => exact hr.1
  | true => exact (hclause _ hr.1.1).bind fun r hr' => hr.1.trans hr'.left

theorem parseSelectList_returns (h : EndsWithEof ts) :
    Returns (parseSelectList ts) fun r => Consumed ts r.2 := by
  refine (matchPunct_returns .star h).bind fun r hr => ?_
  obtain ⟨star, rest⟩ := r
  cases star with
  | true => exact hr.2.1 rfl
  | false =>
    exact (commaList_returns (fun ts h => parseSelectItem_returns h) hr.1.1).bind fun r hr' =>
      hr.1.consumed hr'

theorem parseGroupBy_returns (h : EndsWithEof ts) :
    Returns (parseGroupBy ts) fun r => Consumed ts r.2 := by
  refine (expectKw_returns .by h).bind fun rest hrest => ?_
  exact (commaList_returns (fun ts h => parseColumnRef_returns h) hrest.1).mono fun r hr =>
    hrest.trans hr.left

theorem parseOrderKey_returns (h : EndsWithEof ts) :
    Returns (parseOrderKey ts) fun r => Consumed ts r.2 := by
  refine (expectIdent_returns h).bind fun r hr => ?_
  refine (matchPunct_returns .dot hr.1).bind fun r' hr' => ?_
  obtain ⟨dot, rest⟩ := r'
  cases dot with
  | false => exact hr.trans hr'.1
  | true => exact (expectIdent_returns hr'.1.1).mono fun r hr'' => hr.trans (hr'.1.trans hr''.left)

theorem parseOrderBy_returns (h : EndsWithEof ts) :
    Returns (parseOrderBy ts) fun r => Consumed ts r.2 := by
  refine (expectKw_returns .by h).bind fun rest hrest => ?_
  refine (parseOrderKey_returns hrest.1).bind fun r hr => ?_
  refine (matchKw_returns .desc hr.1).bind fun r' hr' => ?_
  obtain ⟨desc, rest'⟩ := r'
  have hkey := hrest.trans hr.left
  cases desc with
  | true => exact hkey.trans hr'.1
  | false => exact (matchKw_returns .asc hr'.1.1).bind fun r hr'' => hkey.trans (hr'.1.trans hr''.1)

theorem parseLimit_returns (h : EndsWithEof ts) :
    Returns (parseLimit ts) fun r => Consumed ts r.2 := by
  refine (peek_returns h).bind fun next hnext => ?_
  split
  · split
    · exact returns_throw _
    · exact hnext.2 (by simp)
  · exact returns_throw _

theorem parseSelect_returns (h : EndsWithEof ts) :
    Returns (parseSelect ts) fun r => r.2 = [.eof] := by
  refine (expectKw_returns .select h).bind fun ts hts => ?_
  refine (parseSelectList_returns hts.1).bind fun r hr => ?_
  refine (expectKw_returns .from hr.1).bind fun ts hts => ?_
  refine (commaList_returns (fun ts h => parseTableRef_returns h) hts.1).bind fun r hr => ?_
  refine (optionalClause_returns .where (fun ts h => parseExpr_returns h) hr.1).bind fun r hr => ?_
  refine (optionalClause_returns .group (fun ts h => parseGroupBy_returns h) hr.1).bind
    fun r hr => ?_
  refine (optionalClause_returns .having (fun ts h => parseExpr_returns h) hr.1).bind
    fun r hr => ?_
  refine (optionalClause_returns .order (fun ts h => parseOrderBy_returns h) hr.1).bind
    fun r hr => ?_
  refine (optionalClause_returns .limit (fun ts h => parseLimit_returns h) hr.1).bind
    fun r hr => ?_
  exact (expectEnd_returns hr.1).bind fun rest hrest => hrest

theorem parseRow_returns (h : EndsWithEof ts) : Returns (parseRow ts) fun r => Consumed ts r.2 := by
  refine (expectPunct_returns .lparen h).bind fun us hus => ?_
  refine (commaList_returns (fun ts h => parseLiteral_returns h) hus.1).bind fun r hr => ?_
  refine (expectPunct_returns .rparen hr.1).bind fun vs hvs => ?_
  exact hus.trans (hr.left.trans hvs.left)

theorem parseInsert_returns (h : EndsWithEof ts) :
    Returns (parseInsert ts) fun r => r.2 = [.eof] := by
  refine (expectKw_returns .insert h).bind fun ts hts => ?_
  refine (expectKw_returns .into hts.1).bind fun ts hts => ?_
  refine (expectIdent_returns hts.1).bind fun r hr => ?_
  refine (expectKw_returns .values hr.1).bind fun ts hts => ?_
  refine (commaList_returns (fun ts h => parseRow_returns h) hts.1).bind fun r hr => ?_
  exact (expectEnd_returns hr.1).bind fun rest hrest => hrest

theorem parseVarcharLen_returns (h : EndsWithEof ts) :
    Returns (parseVarcharLen ts) fun r => Consumed ts r.2 := by
  refine (peek_returns h).bind fun next hnext => ?_
  split
  · split
    · exact returns_throw _
    · exact hnext.2 (by simp)
  · exact returns_throw _

theorem parseColumnDef_returns (h : EndsWithEof ts) :
    Returns (parseColumnDef ts) fun r => Consumed ts r.2 := by
  refine (expectIdent_returns h).bind fun r hr => ?_
  refine (peek_returns hr.1).bind fun next hnext => ?_
  split
  · exact hr.trans (hnext.2 (by simp)).left
  · exact hr.trans (hnext.2 (by simp)).left
  · exact hr.trans (hnext.2 (by simp)).left
  · have htail := hnext.2 (by simp)
    refine (expectPunct_returns .lparen htail.1).bind fun us hus => ?_
    refine (parseVarcharLen_returns hus.1).bind fun r' hr' => ?_
    refine (expectPunct_returns .rparen hr'.1).bind fun vs hvs => ?_
    exact hr.trans (htail.left.trans (hus.left.trans (hr'.left.trans hvs.left)))
  · exact returns_throw _
  · exact returns_throw _

theorem parseCreateTable_returns (h : EndsWithEof ts) :
    Returns (parseCreateTable ts) fun r => r.2 = [.eof] := by
  refine (expectKw_returns .create h).bind fun ts hts => ?_
  refine (expectKw_returns .table hts.1).bind fun ts hts => ?_
  refine (expectIdent_returns hts.1).bind fun r hr => ?_
  refine (expectPunct_returns .lparen hr.1).bind fun ts hts => ?_
  refine (commaList_returns (fun ts h => parseColumnDef_returns h) hts.1).bind fun r hr => ?_
  refine (expectPunct_returns .rparen hr.1).bind fun ts hts => ?_
  exact (expectEnd_returns hts.1).bind fun rest hrest => hrest

theorem parseDrop_returns (h : EndsWithEof ts) :
    Returns (parseDrop ts) fun r => r.2 = [.eof] := by
  refine (expectKw_returns .drop h).bind fun ts hts => ?_
  refine (expectKw_returns .table hts.1).bind fun ts hts => ?_
  refine (expectIdent_returns hts.1).bind fun r hr => ?_
  exact (expectEnd_returns hr.1).bind fun rest hrest => hrest

theorem parseTruncate_returns (h : EndsWithEof ts) :
    Returns (parseTruncate ts) fun r => r.2 = [.eof] := by
  refine (expectKw_returns .truncate h).bind fun ts hts => ?_
  refine (expectKw_returns .table hts.1).bind fun ts hts => ?_
  refine (expectIdent_returns hts.1).bind fun r hr => ?_
  exact (expectEnd_returns hr.1).bind fun rest hrest => hrest

/-- A statement is returned only when all tokens but the EOF token have been consumed. -/
theorem parseStatement_returns (h : EndsWithEof ts) :
    Returns (parseStatement ts) fun r => r.2 = [.eof] := by
  refine (peek_returns h).bind fun next _ => ?_
  split
  · exact parseSelect_returns h
  · exact parseInsert_returns h
  · exact parseCreateTable_returns h
  · exact parseDrop_returns h
  · exact parseTruncate_returns h
  · exact returns_throw _
  · exact returns_throw _

end

end Parser

namespace Lexer

/-! ## The lexer -/

section

variable {stod : Bytes → Option Double} {s rest : Bytes}

theorem scanString_length {text : Bytes} (h : scanString s = some (text, rest)) :
    rest.length ≤ s.length := by
  induction s using scanString.induct generalizing text with
  | case1 => cases h
  | case2 s ih =>
    rw [scanString] at h
    obtain ⟨⟨text', rest'⟩, hs, heq⟩ := Option.map_eq_some_iff.1 h
    cases heq
    have hle := ih hs
    simp only [List.length_cons]
    omega
  | case3 s hne =>
    rw [scanString.eq_3 s hne] at h
    cases h
    exact Nat.le_succ _
  | case4 c s hne hquote ih =>
    rw [scanString.eq_4 c s hne hquote] at h
    obtain ⟨⟨text', rest'⟩, hs, heq⟩ := Option.map_eq_some_iff.1 h
    cases heq
    have hle := ih hs
    simp only [List.length_cons]
    omega

theorem length_dropWhile_le (p : UInt8 → Bool) (s : Bytes) : (s.dropWhile p).length ≤ s.length :=
  (List.dropWhile_sublist p).length_le

theorem scanNumber_length (s : Bytes) :
    (scanNumber s).2.2.length ≤ (s.dropWhile isDigit).length := by
  rw [scanNumber, scanDigits]
  dsimp only
  split
  · rename_i rest heq
    have hle := length_dropWhile_le isDigit rest
    rw [heq, List.length_cons]
    exact Nat.le_succ_of_le hle
  · exact Nat.le_refl _

theorem scanPunct_length {c : UInt8} {p : Punct} (h : scanPunct c s = some (p, rest)) :
    rest.length ≤ s.length := by
  unfold scanPunct at h
  split at h
  · cases h
    exact Nat.le_succ _
  · cases h
    exact Nat.le_succ _
  · cases h
    exact Nat.le_succ _
  · cases h
    exact Nat.le_succ _
  · obtain ⟨q, -, heq⟩ := Option.map_eq_some_iff.1 h
    cases heq
    exact Nat.le_refl _

theorem numberToken_returns (stod : Bytes → Option Double) (text : Bytes) (isFloat : Bool) :
    Returns (numberToken stod text isFloat) fun _ => True := by
  unfold numberToken
  dsimp only
  split
  · trivial
  · exact returns_throw _

/-- A round consumes a character at least. -/
theorem scanToken_returns (stod : Bytes → Option Double) (prev : Option Token) (c : UInt8)
    (cs : Bytes) : Returns (scanToken stod prev c cs) fun r => r.2.length ≤ cs.length := by
  unfold scanToken
  split
  · exact Nat.le_refl _
  split
  · exact length_dropWhile_le _ _
  split
  · split
    · rename_i hstring
      exact scanString_length hstring
    · exact returns_throw _
  split
  · rename_i hdigit
    refine (numberToken_returns stod _ _).bind fun t _ => ?_
    have hle := scanNumber_length (c :: cs)
    rw [List.dropWhile_cons, if_pos hdigit] at hle
    exact Nat.le_trans hle (length_dropWhile_le _ _)
  split
  · refine (numberToken_returns stod _ _).bind fun t _ => ?_
    exact Nat.le_trans (scanNumber_length cs) (length_dropWhile_le _ _)
  split
  · rename_i hstart
    have hcont : isIdentCont c := isIdentCont_iff.2 <| (isIdentStart_iff.1 hstart).imp_right .inr
    show ((c :: cs).dropWhile isIdentCont).length ≤ cs.length
    rw [List.dropWhile_cons, if_pos hcont]
    exact length_dropWhile_le _ _
  · split
    · rename_i hpunct
      exact scanPunct_length hpunct
    · exact returns_throw _

theorem tokenizeLoop_returns {fuel : Nat} {out : List Token} (hfuel : s.length ≤ fuel) :
    Returns (tokenizeLoop stod fuel s out) fun _ => True := by
  induction fuel generalizing s out with
  | zero =>
    obtain rfl := List.length_eq_zero_iff.1 (Nat.le_zero.1 hfuel)
    trivial
  | succ fuel ih =>
    cases s with
    | nil => trivial
    | cons c cs =>
      refine (scanToken_returns stod out.getLast? c cs).bind fun r hr => ih ?_
      simp only [List.length_cons] at hfuel
      omega

/-- Every text gives tokens that end with their one EOF token, or an exception. -/
theorem tokenize_returns (stod : Bytes → Option Double) (sql : Bytes) :
    Returns (tokenize stod sql) Parser.EndsWithEof := by
  have hloop : Returns (tokenize stod sql) fun _ => True := tokenizeLoop_returns (Nat.le_refl _)
  cases hrun : tokenize stod sql with
  | error e =>
    rw [hrun] at hloop
    exact hloop
  | ok all =>
    obtain ⟨ts, rfl, hts⟩ := tokenize_sound hrun
    refine ⟨ts, rfl, fun heof => ?_⟩
    exact hts.not_mem_eof heof

end

end Lexer

end LiteOLAP
