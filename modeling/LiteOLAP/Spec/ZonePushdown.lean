import LiteOLAP.Spec.ConjunctsCorrect
import LiteOLAP.Spec.JoinKeyCorrect
import LiteOLAP.Spec.PlanMeaning
import LiteOLAP.Spec.ScanNames

/-!
# Zone-map pushdown

A conjunct `column OP literal` on an integer column gives the scan below a range, and chunks whose
zone map lies outside of the range are skipped. Every row that the predicate keeps has its value
in the range, also where the bounds of a strict comparison have wrapped around.

## Key results

- `Planner.zoneRange_covers`: the range has all integers that the comparison holds for
- `Planner.findZone_covers`: the zone filter of a query lets all rows pass that are kept
-/

namespace LiteOLAP

namespace Planner

/-! ## Ranges -/

private theorem toInt_add_one {v x : Int64} (h : v.toInt < x.toInt) : (v + 1).toInt = v.toInt + 1 := by
  have hx := x.toInt_lt
  have hv := v.le_toInt
  have hone : (1 : Int64).toInt = 1 := rfl
  rw [Int64.toInt_add, hone, Int.bmod_eq_of_le] <;> omega

private theorem toInt_sub_one {v x : Int64} (h : x.toInt < v.toInt) : (v - 1).toInt = v.toInt - 1 := by
  have hx := x.le_toInt
  have hv := v.toInt_lt
  have hone : (1 : Int64).toInt = 1 := rfl
  rw [Int64.toInt_sub, hone, Int.bmod_eq_of_le] <;> omega

/-- The integers that a comparison holds for are in its range. The bounds of a strict comparison do
    not wrap where there is such an integer. -/
theorem zoneRange_covers {op : BinOp} {v lo hi x : Int64} (h : zoneRange op v = some (lo, hi))
    (hx : (toBoundOp op).holds (compare x.toInt v.toInt) = some true) : lo ≤ x ∧ x ≤ hi := by
  cases op with
  | eq =>
    obtain ⟨rfl, rfl⟩ := Prod.mk.inj (Option.some.inj h)
    have heq : x.toInt = v.toInt := by simpa [toBoundOp, BoundOp.holds] using hx
    rw [Int64.le_iff_toInt_le, Int64.le_iff_toInt_le, heq]
    exact ⟨le_refl _, le_refl _⟩
  | ge =>
    obtain ⟨rfl, rfl⟩ := Prod.mk.inj (Option.some.inj h)
    have hge : v.toInt ≤ x.toInt := by
      rw [← not_lt, ← compare_lt_iff_lt]
      simpa [toBoundOp, BoundOp.holds] using hx
    exact ⟨Int64.le_iff_toInt_le.mpr hge, x.le_maxValue⟩
  | gt =>
    obtain ⟨rfl, rfl⟩ := Prod.mk.inj (Option.some.inj h)
    have hgt : v.toInt < x.toInt := by
      refine compare_gt_iff_gt.mp ?_
      simpa [toBoundOp, BoundOp.holds] using hx
    refine ⟨Int64.le_iff_toInt_le.mpr ?_, x.le_maxValue⟩
    rw [toInt_add_one hgt]
    omega
  | le =>
    obtain ⟨rfl, rfl⟩ := Prod.mk.inj (Option.some.inj h)
    have hle : x.toInt ≤ v.toInt := by
      refine not_lt.mp fun h => ?_
      rw [compare_gt_iff_gt.mpr h] at hx
      cases hx
    exact ⟨Int64.minValue_le x, Int64.le_iff_toInt_le.mpr hle⟩
  | lt =>
    obtain ⟨rfl, rfl⟩ := Prod.mk.inj (Option.some.inj h)
    have hlt : x.toInt < v.toInt := by
      rw [← compare_lt_iff_lt]
      simpa [toBoundOp, BoundOp.holds] using hx
    refine ⟨Int64.minValue_le x, Int64.le_iff_toInt_le.mpr ?_⟩
    rw [toInt_sub_one hlt]
    omega
  | ne | and | or | add | sub | mul | div => cases h

/-- `CompareValues` on two integers of any width. -/
private theorem compareValues_integers {v lit : Value} {y : Int64}
    (hv : v.hasType .int = true ∨ v.hasType .bigInt = true) (hvn : v ≠ .null)
    (hlit : literalInt lit = some y) : lit ≠ .null ∧ ∃ x, getI64 v = .ok x ∧
      compareValues v lit = .ok (compare x.toInt y.toInt) := by
  cases v with
  | null => exact absurd rfl hvn
  | double x | string x => rcases hv with hv | hv <;> cases hv
  | int32 x =>
    cases lit with
    | null | double y | string y => cases hlit
    | int32 w =>
      obtain rfl := Option.some.inj hlit
      refine ⟨by simp, _, rfl, ?_⟩
      rw [Int32.toInt_toInt64, Int32.toInt_toInt64]
      exact congrArg Except.ok (ordersAs_int32 x w).compareBy_eq
    | int64 w =>
      obtain rfl := Option.some.inj hlit
      refine ⟨by simp, _, rfl, ?_⟩
      rw [Int32.toInt_toInt64]
      exact congrArg Except.ok (compareMixed_int32_int64 x w)
  | int64 x =>
    cases lit with
    | null | double y | string y => cases hlit
    | int32 w =>
      obtain rfl := Option.some.inj hlit
      refine ⟨by simp, _, rfl, ?_⟩
      rw [Int32.toInt_toInt64]
      exact congrArg Except.ok (compareMixed_int64_int32 x w)
    | int64 w =>
      obtain rfl := Option.some.inj hlit
      exact ⟨by simp, _, rfl, congrArg Except.ok (ordersAs_int64 x w).compareBy_eq⟩

/-- A value that a comparison with an integer literal keeps is in the range of the comparison. -/
private theorem inZone_of_rowAnswer {op : BinOp} {v lit : Value} {y lo hi : Int64} {pos : Nat}
    (hv : v.hasType .int = true ∨ v.hasType .bigInt = true) (hlit : literalInt lit = some y)
    (hrange : zoneRange op y = some (lo, hi)) (h : rowAnswer (toBoundOp op) lit v = .ok true) :
    ColumnScan.InZone ⟨pos, lo, hi⟩ v := by
  have hvn : v ≠ .null := by
    rintro rfl
    cases h
  obtain ⟨hln, x, hx, hcompare⟩ := compareValues_integers hv hvn hlit
  have hop : (toBoundOp op).isComparison = true := by
    cases op with
    | eq | ge | gt | le | lt => rfl
    | ne | and | or | add | sub | mul | div => cases hrange
  obtain ⟨b, hb⟩ := holds_isSome hop (compare x.toInt y.toInt)
  rw [rowAnswer_of_compareValues hvn hln hcompare hb] at h
  obtain rfl := Except.ok.inj h
  exact ⟨x, hx, zoneRange_covers hrange hb⟩

/-! ## Conjuncts -/

section

variable {names : List Bytes} {types : List ColumnType}

private theorem allTruthy_mem {bs : List BoundExpr} {r : Row} (h : allTruthy bs r = .ok true) :
    ∀ b ∈ bs, truthyRow b r = .ok true := by
  induction bs with
  | nil => exact fun b hb => by cases hb
  | cons c cs ih =>
    obtain ⟨t, ht, h⟩ := Except.bind_eq_ok.mp h
    cases t with
    | false => cases h
    | true =>
      intro b hb
      rcases List.mem_cons.mp hb with rfl | hb
      · exact ht
      · exact ih h b hb

/-- Every conjunct of a clause that keeps a row is truthy there, unless it is the whole clause and
    meets a NaN. -/
theorem conjunct_truthy {e c : Expr} {b : BoundExpr} (hb : bind names types e = .ok b)
    (hc : c ∈ flatten e) {r : Row} {ts : List ColumnType} (htyped : rowTyped ts r = true)
    (hkeep : decideRow b ts r = .ok true) : ∃ b', bind names types c = .ok b' ∧
      (predicateFlips b' r = false → truthyRow b' r = .ok true) := by
  obtain ⟨v, hv, hdecided⟩ := decideRow_eq_ok htyped hkeep
  cases hflips : predicateFlips b r with
  | false =>
    have htruthy : truthyRow b r = .ok true := by
      rw [hflips, Bool.xor_false] at hdecided
      rw [truthyRow, hv, hdecided]
      rfl
    obtain ⟨bs, hbs, hall⟩ := truthyRow_flatten hb
    rw [hall] at htruthy
    obtain ⟨i, hi, rfl⟩ := List.getElem_of_mem hc
    obtain ⟨b', hb', hget⟩ := List.getElem?_of_mapM_eq_ok hbs (List.getElem?_eq_getElem hi)
    exact ⟨b', hb', fun _ => allTruthy_mem htruthy b' (List.mem_of_getElem? hget)⟩
  | true =>
    have hsame : c = e := by
      induction e using flatten.induct with
      | case1 l r' _ _ =>
        -- an `AND` meets no NaN
        obtain ⟨x, -, hb⟩ := Except.bind_eq_ok.mp hb
        obtain ⟨y, -, hb⟩ := Except.bind_eq_ok.mp hb
        obtain rfl := Except.ok.inj hb
        rw [show toBoundOp .and = .and from rfl, predicateFlips_eq_false rfl] at hflips
        cases hflips
      | case2 e hne =>
        rw [flatten] at hc
        · exact List.mem_singleton.mp hc
        · exact hne
    subst hsame
    exact ⟨b, hb, fun h => by rw [hflips] at h; cases h⟩

end

/-! ## The zone filter of a query -/

/-- The conjunct that a zone filter comes from. -/
theorem zoneOf_cases {s : ScanInfo} {c : Expr} {z : ZoneFilter} (h : zoneOf s c = .ok (some z)) :
    ∃ op q col lit v idx column, c = .binary op (.columnRef q col) (.literal lit) ∧
      s.scanPos col = some z.pos ∧ s.table.schema.findColumn col = some idx ∧
      s.table.schema.columns[idx]? = some column ∧ (column.type = .int ∨ column.type = .bigInt) ∧
      literalInt lit = some v ∧ zoneRange op v = some (z.lo, z.hi) := by
  unfold zoneOf at h
  split at h
  · rename_i op q col lit
    split at h
    · cases h
    · rename_i pos hpos
      obtain ⟨idx, hidx, h⟩ := Except.bind_eq_ok.mp h
      obtain ⟨column, hcolumn, h⟩ := Except.bind_eq_ok.mp h
      dsimp only at h
      split at h
      · cases h
      · rename_i htype
        split at h
        · cases h
        · rename_i v hv
          obtain ⟨range, hrange, hz⟩ := Option.map_eq_some_iff.mp (Except.ok.inj h)
          obtain rfl := hz
          refine ⟨op, q, col, lit, v, idx, column, rfl, hpos, needIndex_eq_ok.mp hidx,
            getColumn_eq_ok.mp hcolumn, ?_, hv, hrange⟩
          by_contra hnot
          exact htype (not_or.mp hnot)
  · cases h

theorem findZone_cases {s : ScanInfo} {cs : List Expr} {z : ZoneFilter}
    (h : findZone s cs = .ok (some z)) : ∃ c ∈ cs, zoneOf s c = .ok (some z) := by
  induction cs with
  | nil => cases h
  | cons c cs ih =>
    obtain ⟨found, hfound, h⟩ := Except.bind_eq_ok.mp h
    cases found with
    | some z' =>
      obtain rfl := Option.some.inj (Except.ok.inj h)
      exact ⟨c, List.mem_cons_self, hfound⟩
    | none =>
      obtain ⟨c', hc', hz⟩ := ih h
      exact ⟨c', List.mem_cons_of_mem _ hc', hz⟩

/-- A comparison of a column with a literal, bound. -/
theorem bind_columnLiteral {names : List Bytes} {types : List ColumnType} {op : BinOp}
    {q col : Bytes} {lit : Value} {b : BoundExpr}
    (h : bind names types (.binary op (.columnRef q col) (.literal lit)) = .ok b) :
    ∃ i t, resolve names q col = .ok i ∧ types[i]? = some t ∧
      b = .binary (toBoundOp op) (.column i t) (.literal lit) := by
  obtain ⟨x, hx, h⟩ := Except.bind_eq_ok.mp h
  obtain rfl := Except.ok.inj h
  obtain ⟨i, hi, hx⟩ := Except.bind_eq_ok.mp hx
  cases ht : types[i]? with
  | none =>
    rw [ht] at hx
    cases hx
  | some t =>
    rw [ht] at hx
    obtain rfl := Except.ok.inj hx
    exact ⟨i, t, hi, ht, rfl⟩

/-- No integer is a NaN. -/
private theorem predicateFlips_integer {op : BoundOp} {i : Nat} {t : ColumnType} {lit : Value}
    {r : Row} (hv : (r.getD i .null).hasType .int = true ∨ (r.getD i .null).hasType .bigInt = true) :
    predicateFlips (.binary op (.column i t) (.literal lit)) r = false := by
  have hflips : nanFlips op lit (r.getD i .null) = false := by
    cases hr : r.getD i .null with
    | null | int32 x | int64 x | string x => rfl
    | double x =>
      rw [hr] at hv
      rcases hv with hv | hv <;> cases hv
  rw [predicateFlips, hflips, Bool.and_false]

/-- The zone filter of a query lets all rows pass that its predicate keeps. -/
theorem findZone_covers {stmt : SelectStmt} {s : ScanInfo} {scan : ColumnScan} {z : ZoneFilter}
    {pred : BoundExpr} (hs : s.Resolved) (ha : s.alias ≠ []) (hdot : Dotless s.alias)
    (hnames : ∀ n ∈ s.colNames, Dotless n) (hscan : scanOp s = .ok scan)
    (hzone : findZone s (conjunctsOf stmt) = .ok (some z))
    (hpred : bindConjuncts scan.outputNames scan.outputTypes none (conjunctsOf stmt) =
      .ok (some pred)) : Plan.ZoneCovers z pred scan.outputTypes := by
  obtain ⟨c, hc, hzone⟩ := findZone_cases hzone
  obtain ⟨op, q, col, lit, v, idx, column, rfl, hpos, hidx, hcolumn, htype, hlit, hrange⟩ :=
    zoneOf_cases hzone
  obtain ⟨hlt, hname⟩ := ScanInfo.scanPos_some hpos
  obtain ⟨-, -, -, hfull, htypes⟩ := hs.scanOp_eq hscan
  intro r htyped hkeep
  have hdecide : decideRow pred scan.outputTypes r = .ok true := by
    unfold keeps at hkeep
    split at hkeep
    · rename_i b hb
      rw [hb, hkeep]
    · cases hkeep
  -- the clause, the conjunct and its column
  unfold conjunctsOf at hc hpred
  split at hc
  · rename_i e he
    rw [he] at hpred
    obtain ⟨clause, hclause, hsame, -⟩ := decideRow_rechain hpred
    rw [hsame] at hdecide
    obtain ⟨b, hb, htruthy⟩ := conjunct_truthy hclause hc htyped hdecide
    obtain ⟨i, t, hi, ht, rfl⟩ := bind_columnLiteral hb
    rw [hfull] at hi
    have hcol : Dotless col := by
      rw [← hname, List.getD_eq_getElem _ _ hlt]
      exact hnames _ (List.getElem_mem hlt)
    obtain ⟨-, hilt, hiname⟩ := ScanInfo.column_of_resolve ha hdot hnames (fun _ => hcol) hi
    obtain rfl : i = z.pos := hs.pos_unique hilt hlt (hiname.trans hname.symm)
    -- its values are integers
    obtain ⟨column', hcolumn', hat⟩ := hs.type_at htypes hlt
    have hidx' : s.colIndices.getD z.pos 0 = idx := by
      have hfind := hs.at_ hlt
      rw [hname, hidx] at hfind
      exact (Option.some.inj hfind).symm
    obtain rfl : column' = column := by
      rw [hidx', hcolumn] at hcolumn'
      exact (Option.some.inj hcolumn').symm
    have hint : (r.getD z.pos .null).hasType .int = true ∨
        (r.getD z.pos .null).hasType .bigInt = true := by
      have hv := rowTyped_getD htyped hat
      rcases htype with htype | htype
      · exact .inl (htype ▸ hv)
      · exact .inr (htype ▸ hv)
    have hanswer := htruthy (predicateFlips_integer hint)
    have hop : (toBoundOp op).isComparison = true := by
      cases op with
      | eq | ge | gt | le | lt => rfl
      | ne | and | or | add | sub | mul | div => cases hrange
    have hbound : z.pos < r.length := by
      rw [rowTyped_length htyped]
      exact (List.getElem?_eq_some_iff.mp hat).1
    rw [truthyRow_column hop t lit hbound] at hanswer
    exact inZone_of_rowAnswer hint hlit hrange hanswer
  · cases hc

end Planner

end LiteOLAP
