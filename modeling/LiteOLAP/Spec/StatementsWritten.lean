import LiteOLAP.ForStd.Ensures
import LiteOLAP.Spec.StatementPrint

/-!
# What the parser accepts

Every statement that is parsed from a text keeps what the grammar promises: its names are
identifiers, no list of it is empty, its literals have the types of their tokens. So it can be
printed, and the printed text is parsed to the same statement: the statements that can be printed
are exactly those that some text stands for.

## Key results

- `Parser.parseAt_written`: every production of expressions makes expressions that can be printed
- `Parser.parseStatement_written`: so does the parser with statements
- `Parser.parse_iff`: a statement is parsed from some text if and only if it can be printed
-/

namespace LiteOLAP

open Bytes (ofAscii)

namespace Parser

open Lexer

/-- Every number that `std::stod` reads of a literal is read back from its printed text. -/
def FloatsPrinted (stod : Bytes → Option Double) (floatText : Double → Bytes) : Prop :=
  ∀ text d, IsFloatText text → stod text = some d →
    IsFloatText (floatText d) ∧ stod (floatText d) = some d

/-- All tokens but the EOF token are tokens of texts. -/
def Lexed (stod : Bytes → Option Double) (ts : List Token) : Prop :=
  ∀ t ∈ ts, t ≠ .eof → Lexes stod t

/-- What a production returns: something with the property, and tokens of texts. -/
def Made {α : Type} (stod : Bytes → Option Double) (P : α → Prop) (r : α × List Token) : Prop :=
  P r.1 ∧ Lexed stod r.2

/-! ## Single tokens -/

section

variable {stod : Bytes → Option Double} {floatText : Double → Bytes} {ts : List Token}

theorem Lexed.tail (h : Lexed stod ts) : Lexed stod ts.tail :=
  fun t ht => h t (List.mem_of_mem_tail ht)

theorem peek_written (h : Lexed stod ts) :
    (peek ts).Ensures fun t => t ≠ .eof → Lexes stod t := by
  cases ts with
  | nil => exact Except.ensures_error _
  | cons t ts => exact Except.ensures_ok (h t List.mem_cons_self)

theorem matchToken_written (t : Token) (h : Lexed stod ts) :
    (matchToken t ts).Ensures fun r => Lexed stod r.2 := by
  refine (peek_written h).bind fun next _ => Except.ensures_ok ?_
  split
  · exact h.tail
  · exact h

theorem matchKw_written (kw : Keyword) (h : Lexed stod ts) :
    (matchKw kw ts).Ensures fun r => Lexed stod r.2 :=
  matchToken_written _ h

theorem matchPunct_written (p : Punct) (h : Lexed stod ts) :
    (matchPunct p ts).Ensures fun r => Lexed stod r.2 :=
  matchToken_written _ h

theorem expectKw_written (kw : Keyword) (h : Lexed stod ts) :
    (expectKw kw ts).Ensures (Lexed stod) := by
  refine (matchKw_written kw h).bind fun r hr => ?_
  obtain ⟨found, rest⟩ := r
  cases found with
  | true => exact Except.ensures_ok hr
  | false => exact (peek_written hr).bind fun _ _ => Except.ensures_error _

theorem expectPunct_written (p : Punct) (h : Lexed stod ts) :
    (expectPunct p ts).Ensures (Lexed stod) := by
  refine (matchPunct_written p h).bind fun r hr => ?_
  obtain ⟨found, rest⟩ := r
  cases found with
  | true => exact Except.ensures_ok hr
  | false => exact (peek_written hr).bind fun _ _ => Except.ensures_error _

theorem expectIdent_written (h : Lexed stod ts) :
    (expectIdent ts).Ensures (Made stod IsIdentifier) := by
  refine (peek_written h).bind fun next hnext => ?_
  cases next with
  | identifier text => exact Except.ensures_ok ⟨hnext (by simp), h.tail⟩
  | _ => exact Except.ensures_error _

theorem literalTyped_integerValue (v : Int64) : LiteralTyped (integerValue v) := by
  rw [integerValue]
  split
  · trivial
  · assumption

theorem parseLiteral_written (hfloats : FloatsPrinted stod floatText) (h : Lexed stod ts) :
    (parseLiteral ts).Ensures (Made stod (LiteralWritten stod floatText)) := by
  refine (peek_written h).bind fun next hnext => ?_
  split
  · rename_i text v
    refine Except.ensures_ok ⟨⟨literalTyped_integerValue v, ?_⟩, h.tail⟩
    dsimp only
    rw [integerValue]
    split <;> trivial
  · rename_i text d
    have hlexes : IsFloatText text ∧ stod text = some d := hnext (by simp)
    exact Except.ensures_ok ⟨⟨trivial, hfloats text d hlexes.1 hlexes.2⟩, h.tail⟩
  · exact Except.ensures_ok ⟨⟨trivial, trivial⟩, h.tail⟩
  · exact Except.ensures_ok ⟨⟨trivial, trivial⟩, h.tail⟩
  · exact Except.ensures_error _

end

/-! ## Repetition -/

section

variable {stod : Bytes → Option Double} {floatText : Double → Bytes} {ts : List Token} {α : Type}
  {item : List Token → Except Exc (α × List Token)} {P : α → Prop}

theorem commaLoop_written (hitem : ∀ ts, Lexed stod ts → (item ts).Ensures (Made stod P))
    {fuel : Nat} {xs : List α} (hxs : xs ≠ [] ∧ ∀ x ∈ xs, P x) (h : Lexed stod ts) :
    (commaLoop item fuel xs ts).Ensures (Made stod fun ys => ys ≠ [] ∧ ∀ y ∈ ys, P y) := by
  induction fuel generalizing xs ts with
  | zero => exact Except.ensures_error _
  | succ fuel ih =>
    refine (matchPunct_written .comma h).bind fun r hr => ?_
    obtain ⟨comma, rest⟩ := r
    cases comma with
    | false => exact Except.ensures_ok ⟨hxs, hr⟩
    | true =>
      refine (hitem _ hr).bind fun r hr => ih ⟨by simp, fun x hx => ?_⟩ hr.2
      rw [List.mem_append, List.mem_singleton] at hx
      rcases hx with hx | rfl
      · exact hxs.2 x hx
      · exact hr.1

/-- A list is not empty, and all its items are made by the item parser. -/
theorem commaList_written (hitem : ∀ ts, Lexed stod ts → (item ts).Ensures (Made stod P))
    (h : Lexed stod ts) :
    (commaList item ts).Ensures (Made stod fun ys => ys ≠ [] ∧ ∀ y ∈ ys, P y) := by
  refine (hitem ts h).bind fun r hr => ?_
  refine commaLoop_written hitem ⟨List.cons_ne_nil _ _, fun x hx => ?_⟩ hr.2
  rw [List.mem_singleton] at hx
  exact hx ▸ hr.1

theorem binaryLoop_written {op? : Token → Option BinOp}
    {operand : List Token → Except Exc (Expr × List Token)}
    (hoperand : ∀ ts, Lexed stod ts →
      (operand ts).Ensures (Made stod (ExprWritten stod floatText)))
    {fuel : Nat} {l : Expr} (hl : ExprWritten stod floatText l) (h : Lexed stod ts) :
    (binaryLoop op? operand fuel l ts).Ensures (Made stod (ExprWritten stod floatText)) := by
  induction fuel generalizing l ts with
  | zero => exact Except.ensures_error _
  | succ fuel ih =>
    refine (peek_written h).bind fun next _ => ?_
    split
    · exact (hoperand _ h.tail).bind fun r hr =>
        ih ⟨⟨hl.1, hr.1.1⟩, hl.2, hr.1.2⟩ hr.2
    · exact Except.ensures_ok ⟨hl, h⟩

end

/-! ## Expressions -/

section

variable {stod : Bytes → Option Double} {floatText : Double → Bytes} {ts : List Token} {fuel : Nat}

variable (stod floatText) in
/-- With this much fuel, every production makes expressions that can be printed. -/
def Writes (fuel : Nat) : Prop :=
  ∀ p ts, Lexed stod ts → (parseAt p fuel ts).Ensures (Made stod (ExprWritten stod floatText))

variable (stod floatText) in
def AggregateWrites (fuel : Nat) : Prop :=
  ∀ ts, Lexed stod ts →
    (parseAggregate fuel ts).Ensures (Made stod (ExprWritten stod floatText))

theorem parseColumnRef_written (h : Lexed stod ts) :
    (parseColumnRef ts).Ensures
      (Made stod fun key => OptionalName key.1 ∧ IsIdentifier key.2) := by
  refine (expectIdent_written h).bind fun r hr => ?_
  refine (matchPunct_written .dot hr.2).bind fun r' hr' => ?_
  obtain ⟨dot, rest⟩ := r'
  cases dot with
  | false => exact Except.ensures_ok ⟨⟨.inl rfl, hr.1⟩, hr'⟩
  | true =>
    exact (expectIdent_written hr').bind fun r'' hr'' =>
      Except.ensures_ok ⟨⟨.inr hr.1, hr''.1⟩, hr''.2⟩

theorem Writes.loop {p : Nat} (hwrites : Writes stod floatText fuel) (hp : IsLoop p)
    (h : Lexed stod ts) :
    (parseAt p (fuel + 1) ts).Ensures (Made stod (ExprWritten stod floatText)) := by
  rw [parseAt_loop hp]
  exact (hwrites (p + 1) ts h).bind fun r hr =>
    binaryLoop_written (hwrites (p + 1)) hr.1 hr.2

theorem Writes.not (hwrites : Writes stod floatText fuel) (h : Lexed stod ts) :
    (parseNot (fuel + 1) ts).Ensures (Made stod (ExprWritten stod floatText)) := by
  rw [parseNot]
  refine (matchKw_written .not h).bind fun r hr => ?_
  obtain ⟨found, rest⟩ := r
  cases found with
  | false => exact hwrites 4 rest hr
  | true => exact (hwrites 3 rest hr).bind fun r hr => Except.ensures_ok hr

/-- `BETWEEN` is printed as the two comparisons it stands for. -/
theorem betweenExpr_written {l lo hi : Expr} (hl : ExprWritten stod floatText l)
    (hlo : ExprWritten stod floatText lo) (hhi : ExprWritten stod floatText hi) :
    (betweenExpr l lo hi).Ensures (ExprWritten stod floatText) := by
  unfold betweenExpr
  split
  · exact Except.ensures_ok ⟨⟨⟨trivial, hlo.1⟩, trivial, hhi.1⟩, ⟨hl.2, hlo.2⟩, hl.2, hhi.2⟩
  · exact Except.ensures_error _

theorem Writes.comparison (hfloats : FloatsPrinted stod floatText)
    (hwrites : Writes stod floatText fuel) (h : Lexed stod ts) :
    (parseComparison (fuel + 1) ts).Ensures (Made stod (ExprWritten stod floatText)) := by
  rw [parseComparison]
  refine (hwrites 5 ts h).bind fun r hl => ?_
  obtain ⟨l, rest⟩ := r
  refine (peek_written hl.2).bind fun next _ => ?_
  split
  · exact (hwrites 5 _ hl.2.tail).bind fun r hr =>
      Except.ensures_ok ⟨⟨⟨hl.1.1, hr.1.1⟩, hl.1.2, hr.1.2⟩, hr.2⟩
  split
  · refine (hwrites 5 _ hl.2.tail).bind fun r hlo => ?_
    refine (expectKw_written .and hlo.2).bind fun us hus => ?_
    refine (hwrites 5 us hus).bind fun r hhi => ?_
    exact (betweenExpr_written hl.1 hlo.1 hhi.1).bind fun both hboth =>
      Except.ensures_ok ⟨hboth, hhi.2⟩
  split
  · refine (expectPunct_written .lparen hl.2.tail).bind fun us hus => ?_
    refine (commaList_written (fun ts h => parseLiteral_written hfloats h) hus).bind
      fun r hvalues => ?_
    refine (expectPunct_written .rparen hvalues.2).bind fun vs hvs => Except.ensures_ok ⟨?_, hvs⟩
    exact ⟨⟨hl.1.1, hvalues.1.1, fun v hv => (hvalues.1.2 v hv).1⟩, hl.1.2,
      fun v hv => (hvalues.1.2 v hv).2⟩
  · exact Except.ensures_ok hl

theorem Writes.primary (hfloats : FloatsPrinted stod floatText)
    (hwrites : Writes stod floatText fuel) (haggregate : AggregateWrites stod floatText fuel)
    (h : Lexed stod ts) :
    (parsePrimary (fuel + 1) ts).Ensures (Made stod (ExprWritten stod floatText)) := by
  rw [parsePrimary]
  refine (matchPunct_written .lparen h).bind fun r hr => ?_
  obtain ⟨paren, rest⟩ := r
  cases paren with
  | true =>
    exact (hwrites 1 rest hr).bind fun r he =>
      (expectPunct_written .rparen he.2).bind fun us hus => Except.ensures_ok ⟨he.1, hus⟩
  | false =>
    have hliteral : (parseLiteral rest >>= fun r => pure (Expr.literal r.1, r.2)).Ensures
        (Made stod (ExprWritten stod floatText)) :=
      (parseLiteral_written hfloats hr).bind fun r hv => Except.ensures_ok hv
    dsimp only
    refine (peek_written hr).bind fun next _ => ?_
    split
    · exact haggregate rest hr
    split
    · exact hliteral
    · exact hliteral
    · exact hliteral
    · exact hliteral
    · refine (parseColumnRef_written hr).bind fun r hkey => ?_
      exact Except.ensures_ok ⟨⟨trivial, hkey.1⟩, hkey.2⟩
    · exact Except.ensures_error _

/-- Any function but `COUNT` has a kind of its own. -/
theorem aggregateKind_ne (kw : Keyword) : aggregateKind kw ≠ .countStar := by
  cases kw <;> simp [aggregateKind]

theorem Writes.aggregate (hwrites : Writes stod floatText fuel) :
    AggregateWrites stod floatText (fuel + 1) := by
  intro ts h
  rw [parseAggregate]
  refine (peek_written h).bind fun fn _ => ?_
  refine (expectPunct_written .lparen h.tail).bind fun us hus => ?_
  have hstar : (matchStar fn us).Ensures fun r => Lexed stod r.2 := by
    unfold matchStar
    split
    · exact matchPunct_written .star hus
    · exact Except.ensures_ok hus
  refine hstar.bind fun r hr => ?_
  obtain ⟨star, rest⟩ := r
  cases star with
  | true =>
    exact (expectPunct_written .rparen hr).bind fun vs hvs =>
      Except.ensures_ok ⟨⟨rfl, trivial⟩, hvs⟩
  | false =>
    refine (hwrites 5 rest hr).bind fun r he => ?_
    refine (expectPunct_written .rparen he.2).bind fun vs hvs => Except.ensures_ok ⟨?_, hvs⟩
    refine ⟨⟨?_, he.1.1⟩, he.1.2⟩
    split
    · simp
    · exact aggregateKind_ne _
    · simp

/-- Every production of expressions makes expressions that can be printed. -/
theorem parseAt_written (hfloats : FloatsPrinted stod floatText) (fuel : Nat) :
    Writes stod floatText fuel ∧ AggregateWrites stod floatText fuel := by
  induction fuel with
  | zero =>
    refine ⟨fun p ts h => ?_, fun ts h => Except.ensures_error _⟩
    match p with
    | 1 | 2 | 3 | 4 | 5 | 6 | 0 | _ + 7 => exact Except.ensures_error _
  | succ fuel ih =>
    obtain ⟨hwrites, haggregate⟩ := ih
    refine ⟨fun p ts h => ?_, hwrites.aggregate⟩
    match p with
    | 1 => exact hwrites.loop (.inl rfl) h
    | 2 => exact hwrites.loop (.inr (.inl rfl)) h
    | 3 => exact hwrites.not h
    | 4 => exact hwrites.comparison hfloats h
    | 5 => exact hwrites.loop (.inr (.inr (.inl rfl))) h
    | 6 => exact hwrites.loop (.inr (.inr (.inr rfl))) h
    | 0 | _ + 7 => exact hwrites.primary hfloats haggregate h

theorem parseExpr_written (hfloats : FloatsPrinted stod floatText) (h : Lexed stod ts) :
    (parseExpr ts).Ensures (Made stod (ExprWritten stod floatText)) :=
  (parseAt_written hfloats _).1 1 ts h

end

/-! ## Statements -/

section

variable {stod : Bytes → Option Double} {floatText : Double → Bytes} {ts : List Token}

theorem parseSelectItem_written (hfloats : FloatsPrinted stod floatText) (h : Lexed stod ts) :
    (parseSelectItem ts).Ensures (Made stod (SelectItem.Written stod floatText)) := by
  have hexpr : (parseItemExpr ts).Ensures (Made stod (ExprWritten stod floatText)) := by
    refine (peek_written h).bind fun next _ => ?_
    split
    · exact (parseAt_written hfloats _).2 ts h
    · exact (parseAt_written hfloats (fuelFor ts)).1 7 ts h
  refine hexpr.bind fun r hr => ?_
  refine (matchKw_written .as hr.2).bind fun r' hr' => ?_
  obtain ⟨named, rest⟩ := r'
  cases named with
  | false => exact Except.ensures_ok ⟨⟨hr.1, .inl rfl⟩, hr'⟩
  | true =>
    exact (expectIdent_written hr').bind fun r'' hr'' =>
      Except.ensures_ok ⟨⟨hr.1, .inr hr''.1⟩, hr''.2⟩

theorem parseTableRef_written (h : Lexed stod ts) :
    (parseTableRef ts).Ensures (Made stod TableRef.Written) := by
  refine (expectIdent_written h).bind fun r hr => ?_
  refine (peek_written hr.2).bind fun next _ => ?_
  split
  · exact (expectIdent_written hr.2.tail).bind fun r' hr' =>
      Except.ensures_ok ⟨⟨hr.1, hr'.1⟩, hr'.2⟩
  · exact (expectIdent_written hr.2).bind fun r' hr' =>
      Except.ensures_ok ⟨⟨hr.1, hr'.1⟩, hr'.2⟩
  · exact Except.ensures_ok ⟨⟨hr.1, hr.1⟩, hr.2⟩

theorem optionalClause_written {α : Type} {P : α → Prop} (kw : Keyword)
    {clause : List Token → Except Exc (α × List Token)}
    (hclause : ∀ ts, Lexed stod ts → (clause ts).Ensures (Made stod P)) (h : Lexed stod ts) :
    (optionalClause kw clause ts).Ensures (Made stod fun x => ∀ y ∈ x, P y) := by
  refine (matchKw_written kw h).bind fun r hr => ?_
  obtain ⟨found, rest⟩ := r
  cases found with
  | false => exact Except.ensures_ok ⟨by simp, hr⟩
  | true =>
    refine (hclause _ hr).bind fun r hr => Except.ensures_ok ⟨fun y hy => ?_, hr.2⟩
    obtain rfl := Option.some.inj hy
    exact hr.1

theorem parseSelectList_written (hfloats : FloatsPrinted stod floatText) (h : Lexed stod ts) :
    (parseSelectList ts).Ensures (Made stod fun r =>
      (r.1 = true ↔ r.2 = []) ∧ ∀ item ∈ r.2, SelectItem.Written stod floatText item) := by
  refine (matchPunct_written .star h).bind fun r hr => ?_
  obtain ⟨star, rest⟩ := r
  cases star with
  | true => exact Except.ensures_ok ⟨⟨by simp, by simp⟩, hr⟩
  | false =>
    refine (commaList_written (fun ts h => parseSelectItem_written hfloats h) hr).bind
      fun r hitems => Except.ensures_ok ⟨⟨?_, hitems.1.2⟩, hitems.2⟩
    simpa using hitems.1.1

theorem parseGroupBy_written (h : Lexed stod ts) :
    (parseGroupBy ts).Ensures (Made stod fun keys =>
      ∀ key ∈ keys, OptionalName key.1 ∧ IsIdentifier key.2) := by
  refine (expectKw_written .by h).bind fun rest hrest => ?_
  exact (commaList_written (fun ts h => parseColumnRef_written h) hrest).mono
    fun r hr => ⟨hr.1.2, hr.2⟩

theorem parseOrderKey_written (h : Lexed stod ts) :
    (parseOrderKey ts).Ensures (Made stod IsIdentifier) := by
  refine (expectIdent_written h).bind fun r hr => ?_
  refine (matchPunct_written .dot hr.2).bind fun r' hr' => ?_
  obtain ⟨dot, rest⟩ := r'
  cases dot with
  | false => exact Except.ensures_ok ⟨hr.1, hr'⟩
  | true => exact expectIdent_written hr'

theorem parseOrderBy_written (h : Lexed stod ts) :
    (parseOrderBy ts).Ensures (Made stod fun key => IsIdentifier key.outputName) := by
  refine (expectKw_written .by h).bind fun rest hrest => ?_
  refine (parseOrderKey_written hrest).bind fun r hr => ?_
  refine (matchKw_written .desc hr.2).bind fun r' hr' => ?_
  obtain ⟨desc, rest'⟩ := r'
  cases desc with
  | true => exact Except.ensures_ok ⟨hr.1, hr'⟩
  | false =>
    exact (matchKw_written .asc hr').bind fun r'' hr'' => Except.ensures_ok ⟨hr.1, hr''⟩

/-- A limit is a 64-bit number that is not negative. -/
theorem parseLimit_written (h : Lexed stod ts) :
    (parseLimit ts).Ensures (Made stod fun n => n < 2 ^ 63) := by
  refine (peek_written h).bind fun next _ => ?_
  split
  · rename_i v _
    split
    · exact Except.ensures_error _
    · have hlt := v.toInt_lt
      exact Except.ensures_ok ⟨by dsimp only; omega, h.tail⟩
  · exact Except.ensures_error _

theorem expectEnd_written (h : Lexed stod ts) : (expectEnd ts).Ensures (Lexed stod) := by
  refine (matchPunct_written .semicolon h).bind fun r hr => ?_
  refine (peek_written hr).bind fun next _ => ?_
  split
  · exact Except.ensures_ok hr
  · exact Except.ensures_error _

theorem parseSelect_written (hfloats : FloatsPrinted stod floatText) (h : Lexed stod ts) :
    (parseSelect ts).Ensures (Made stod (Statement.Written stod floatText)) := by
  have hexpr : ∀ ts, Lexed stod ts →
      (parseExpr ts).Ensures (Made stod (ExprWritten stod floatText)) :=
    fun ts h => parseExpr_written hfloats h
  refine (expectKw_written .select h).bind fun ts hts => ?_
  refine (parseSelectList_written hfloats hts).bind fun list hlist => ?_
  refine (expectKw_written .from hlist.2).bind fun ts hts => ?_
  refine (commaList_written (fun ts h => parseTableRef_written h) hts).bind fun tables htables => ?_
  refine (optionalClause_written .where hexpr htables.2).bind fun cond hwhere => ?_
  refine (optionalClause_written .group (fun ts h => parseGroupBy_written h) hwhere.2).bind
    fun groupBy hgroup => ?_
  refine (optionalClause_written .having hexpr hgroup.2).bind fun having hhaving => ?_
  refine (optionalClause_written .order (fun ts h => parseOrderBy_written h) hhaving.2).bind
    fun orderBy horder => ?_
  refine (optionalClause_written .limit (fun ts h => parseLimit_written h) horder.2).bind
    fun limit hlimit => ?_
  refine (expectEnd_written hlimit.2).bind fun rest hrest => Except.ensures_ok ⟨?_, hrest⟩
  refine ⟨hlist.1.1, hlist.1.2, htables.1.1, htables.1.2, hwhere.1, fun key hkey => ?_, hhaving.1,
    horder.1, hlimit.1⟩
  cases hkeys : groupBy.1 with
  | none => simp [hkeys] at hkey
  | some keys =>
    rw [hkeys] at hkey
    exact hgroup.1 keys hkeys key hkey

theorem parseRow_written (hfloats : FloatsPrinted stod floatText) (h : Lexed stod ts) :
    (parseRow ts).Ensures (Made stod fun row =>
      row ≠ [] ∧ ∀ v ∈ row, LiteralWritten stod floatText v) := by
  refine (expectPunct_written .lparen h).bind fun us hus => ?_
  refine (commaList_written (fun ts h => parseLiteral_written hfloats h) hus).bind fun r hr => ?_
  exact (expectPunct_written .rparen hr.2).bind fun vs hvs => Except.ensures_ok ⟨hr.1, hvs⟩

theorem parseInsert_written (hfloats : FloatsPrinted stod floatText) (h : Lexed stod ts) :
    (parseInsert ts).Ensures (Made stod (Statement.Written stod floatText)) := by
  refine (expectKw_written .insert h).bind fun ts hts => ?_
  refine (expectKw_written .into hts).bind fun ts hts => ?_
  refine (expectIdent_written hts).bind fun name hname => ?_
  refine (expectKw_written .values hname.2).bind fun ts hts => ?_
  refine (commaList_written (fun ts h => parseRow_written hfloats h) hts).bind fun rows hrows => ?_
  exact (expectEnd_written hrows.2).bind fun rest hrest =>
    Except.ensures_ok ⟨⟨hname.1, hrows.1⟩, hrest⟩

/-- The length of a `VARCHAR` is not zero as a 16-bit number either. -/
theorem parseVarcharLen_written (h : Lexed stod ts) :
    (parseVarcharLen ts).Ensures (Made stod fun len => len ≠ 0) := by
  refine (peek_written h).bind fun next _ => ?_
  split
  · rename_i v _
    split
    · exact Except.ensures_error _
    · rename_i hbounds
      rw [Int64.le_iff_toInt_le, Int64.lt_iff_toInt_lt, Int64.toInt_zero] at hbounds
      have hmax : (65535 : Int64).toInt = 65535 := rfl
      have hlt : v.toInt.toNat < UInt16.size := by
        rw [UInt16.size]
        omega
      refine Except.ensures_ok ⟨fun hzero => ?_, h.tail⟩
      have hnat : (UInt16.ofNat v.toInt.toNat).toNat = (0 : UInt16).toNat :=
        congrArg UInt16.toNat hzero
      rw [UInt16.toNat_ofNat_of_lt' hlt, UInt16.toNat_zero] at hnat
      omega
  · exact Except.ensures_error _

theorem parseColumnDef_written (h : Lexed stod ts) :
    (parseColumnDef ts).Ensures (Made stod ColumnDef.Written) := by
  refine (expectIdent_written h).bind fun r hr => ?_
  refine (peek_written hr.2).bind fun next _ => ?_
  split
  · exact Except.ensures_ok ⟨⟨hr.1, by simp⟩, hr.2.tail⟩
  · exact Except.ensures_ok ⟨⟨hr.1, by simp⟩, hr.2.tail⟩
  · exact Except.ensures_ok ⟨⟨hr.1, by simp⟩, hr.2.tail⟩
  · refine (expectPunct_written .lparen hr.2.tail).bind fun us hus => ?_
    refine (parseVarcharLen_written hus).bind fun len hlen => ?_
    exact (expectPunct_written .rparen hlen.2).bind fun vs hvs =>
      Except.ensures_ok ⟨⟨hr.1, by simpa using hlen.1⟩, hvs⟩
  · exact Except.ensures_error _
  · exact Except.ensures_error _

theorem parseCreateTable_written (h : Lexed stod ts) :
    (parseCreateTable ts).Ensures (Made stod (Statement.Written stod floatText)) := by
  refine (expectKw_written .create h).bind fun ts hts => ?_
  refine (expectKw_written .table hts).bind fun ts hts => ?_
  refine (expectIdent_written hts).bind fun name hname => ?_
  refine (expectPunct_written .lparen hname.2).bind fun ts hts => ?_
  refine (commaList_written (fun ts h => parseColumnDef_written h) hts).bind fun cols hcols => ?_
  refine (expectPunct_written .rparen hcols.2).bind fun ts hts => ?_
  exact (expectEnd_written hts).bind fun rest hrest =>
    Except.ensures_ok ⟨⟨hname.1, hcols.1⟩, hrest⟩

theorem parseDrop_written (h : Lexed stod ts) :
    (parseDrop ts).Ensures (Made stod (Statement.Written stod floatText)) := by
  refine (expectKw_written .drop h).bind fun ts hts => ?_
  refine (expectKw_written .table hts).bind fun ts hts => ?_
  refine (expectIdent_written hts).bind fun name hname => ?_
  exact (expectEnd_written hname.2).bind fun rest hrest => Except.ensures_ok ⟨hname.1, hrest⟩

theorem parseTruncate_written (h : Lexed stod ts) :
    (parseTruncate ts).Ensures (Made stod (Statement.Written stod floatText)) := by
  refine (expectKw_written .truncate h).bind fun ts hts => ?_
  refine (expectKw_written .table hts).bind fun ts hts => ?_
  refine (expectIdent_written hts).bind fun name hname => ?_
  exact (expectEnd_written hname.2).bind fun rest hrest => Except.ensures_ok ⟨hname.1, hrest⟩

/-- Every statement that is read of tokens of texts can be printed. -/
theorem parseStatement_written (hfloats : FloatsPrinted stod floatText) (h : Lexed stod ts) :
    (parseStatement ts).Ensures (Made stod (Statement.Written stod floatText)) := by
  refine (peek_written h).bind fun next _ => ?_
  split
  · exact parseSelect_written hfloats h
  · exact parseInsert_written hfloats h
  · exact parseCreateTable_written h
  · exact parseDrop_written h
  · exact parseTruncate_written h
  · exact Except.ensures_error _
  · exact Except.ensures_error _

theorem lexes_of_mem {prev : Option Token} (h : LexesAll stod prev ts) :
    ∀ t ∈ ts, Lexes stod t := by
  induction ts generalizing prev with
  | nil => simp
  | cons t ts ih => exact List.forall_mem_cons.2 ⟨h.1, ih h.2.2⟩

/-- The tokens of a text. -/
theorem lexed_tokenize {sql : Bytes} (h : tokenize stod sql = .ok ts) : Lexed stod ts := by
  obtain ⟨us, rfl, hus⟩ := tokenize_sound h
  intro t ht hne
  rw [List.mem_append, List.mem_singleton] at ht
  exact lexes_of_mem hus t (ht.resolve_right hne)

theorem parse_written (hfloats : FloatsPrinted stod floatText) {sql : Bytes} {s : Statement}
    (h : parse stod sql = .ok s) : Statement.Written stod floatText s := by
  obtain ⟨tokens, htokens, h⟩ := Except.bind_eq_ok.1 h
  obtain ⟨r, hr, h⟩ := Except.bind_eq_ok.1 h
  obtain rfl := Except.ok.inj h
  exact (parseStatement_written hfloats (lexed_tokenize htokens) r hr).1

/-- A statement is parsed from some text if and only if it can be printed, and then it is parsed
    from its printed text. -/
theorem parse_iff (hfloats : FloatsPrinted stod floatText) (s : Statement) :
    ((∃ sql, parse stod sql = .ok s) ↔ Statement.Written stod floatText s) ∧
    ((∃ sql, parse stod sql = .ok s) ↔ parse stod (statementText floatText s) = .ok s) := by
  have hwritten : (∃ sql, parse stod sql = .ok s) ↔ Statement.Written stod floatText s :=
    ⟨fun h => h.elim fun _ hsql => parse_written hfloats hsql, fun h => ⟨_, parse_print h⟩⟩
  exact ⟨hwritten, fun h => parse_print (hwritten.1 h), fun h => ⟨_, h⟩⟩

/-- `INSERT INTO t VALUES ( 7 , 1.5 )`, with a `std::stod` that knows one number only. -/
theorem parse_iff_insert :
    ∃ sql, parse (fun text => if text = ofAscii "1.5" then some ⟨0x3FF8000000000000⟩ else none) sql =
      .ok (.insert (ofAscii "t") [[.int32 7, .double ⟨0x3FF8000000000000⟩]]) := by
  have hhalf : IsFloatText (ofAscii "1.5") :=
    ⟨[49], [53], by decide, by simp [isDigit], by simp [isDigit], .inl rfl⟩
  have hname : IsIdentifier (ofAscii "t") := by
    refine ⟨rfl, fun c hc => ?_, rfl⟩
    obtain rfl : c = 116 := List.mem_singleton.1 hc
    rfl
  refine (parse_iff (fun text d _ htext => ?_) _).1.2
    (show Statement.Written _ (fun _ => ofAscii "1.5") _ from ⟨hname, by simp, fun row hrow => ?_⟩)
  · rw [Option.ite_none_right_eq_some, Option.some.injEq] at htext
    exact ⟨hhalf, by simp [htext.2]⟩
  · obtain rfl := List.mem_singleton.1 hrow
    refine ⟨by simp, fun v hv => ?_⟩
    simp only [List.mem_cons, List.not_mem_nil, or_false] at hv
    rcases hv with rfl | rfl
    · exact ⟨trivial, trivial⟩
    · exact ⟨trivial, hhalf, by simp⟩

end

end Parser

end LiteOLAP
