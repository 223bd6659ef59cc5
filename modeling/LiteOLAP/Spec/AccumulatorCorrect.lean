import LiteOLAP.Native.HashAggregate

/-!
# Accumulators

What an aggregate means for a list of argument values, and that the accumulators compute it:
by one update after another, by merging the accumulators of two parts, and in any order. This
covers `COUNT(*)`, `COUNT`, integer `SUM`, and `MIN` and `MAX` over `INT`, `BIGINT` and
`VARCHAR`. Floating sums are left out, since rounding makes them depend on the order.

## Key results

- `updateAcc_spec`, `mergeAcc_spec`: an update adds one value, a merge adds a list
- `AccFor.perm`: the order of the values does not matter
- `finalize_spec`: the accumulator yields the aggregate
-/

namespace LiteOLAP

/-! ## The order of values -/

section Compare

variable {α : Type} [LT α] [LE α] [DecidableLT α] [Std.IsLinearOrder α] [Std.LawfulOrderLT α]

private theorem compareBy_swap (a b : α) :
    compareBy (fun x y => decide (x < y)) b a =
      (compareBy (fun x y => decide (x < y)) a b).swap := by
  unfold compareBy
  by_cases hab : a < b
  · have hba : ¬ b < a := Std.not_lt.mpr (Std.le_of_lt hab)
    simp [hab, hba]
  · by_cases hba : b < a <;> simp [hab, hba]

private theorem eq_of_compareBy {a b : α}
    (h : compareBy (fun x y => decide (x < y)) a b = .eq) : a = b := by
  unfold compareBy at h
  by_cases hab : a < b
  · simp [hab] at h
  · by_cases hba : b < a
    · simp [hab, hba] at h
    · exact Std.le_antisymm (Std.not_lt.mp hba) (Std.not_lt.mp hab)

private theorem compareBy_lt_trans {a b c : α}
    (hab : compareBy (fun x y => decide (x < y)) a b = .lt)
    (hbc : compareBy (fun x y => decide (x < y)) b c = .lt) :
    compareBy (fun x y => decide (x < y)) a c = .lt := by
  have hlt : ∀ {x y : α}, compareBy (fun x y => decide (x < y)) x y = .lt ↔ x < y := by
    intro x y
    unfold compareBy
    by_cases hxy : x < y
    · simp [hxy]
    · by_cases hyx : y < x <;> simp [hxy, hyx]
  exact hlt.mpr (Std.lt_trans (hlt.mp hab) (hlt.mp hbc))

end Compare

/-- A non-NULL value of a column type that `CompareValues` orders totally. -/
structure Comparable (t : ColumnType) (v : Value) : Prop where
  ordered : t ≠ .float
  typed : v.hasType t = true
  nonnull : v ≠ .null

namespace Comparable

variable {t : ColumnType} {u v w : Value}

/-- Two such values can be compared, either way round; only equal ones tie. -/
theorem compare_spec (hv : Comparable t v) (hw : Comparable t w) :
    ∃ c, compareValues v w = .ok c ∧ compareValues w v = .ok c.swap ∧ (c = .eq → v = w) := by
  cases t with
  | float => exact absurd rfl hv.ordered
  | int =>
    obtain ⟨x, rfl⟩ := Value.exists_int32 hv.typed hv.nonnull
    obtain ⟨y, rfl⟩ := Value.exists_int32 hw.typed hw.nonnull
    exact ⟨_, rfl, congrArg Except.ok (compareBy_swap x y), fun h => congrArg _ (eq_of_compareBy h)⟩
  | bigInt =>
    obtain ⟨x, rfl⟩ := Value.exists_int64 hv.typed hv.nonnull
    obtain ⟨y, rfl⟩ := Value.exists_int64 hw.typed hw.nonnull
    exact ⟨_, rfl, congrArg Except.ok (compareBy_swap x y), fun h => congrArg _ (eq_of_compareBy h)⟩
  | varchar =>
    obtain ⟨x, rfl⟩ := Value.exists_string hv.typed hv.nonnull
    obtain ⟨y, rfl⟩ := Value.exists_string hw.typed hw.nonnull
    exact ⟨_, rfl, congrArg Except.ok (compareBy_swap x y), fun h => congrArg _ (eq_of_compareBy h)⟩

/-- `kLess` is transitive. -/
theorem less_trans (hu : Comparable t u) (hv : Comparable t v) (hw : Comparable t w)
    (huv : compareValues u v = .ok .lt) (hvw : compareValues v w = .ok .lt) :
    compareValues u w = .ok .lt := by
  cases t with
  | float => exact absurd rfl hv.ordered
  | int =>
    obtain ⟨x, rfl⟩ := Value.exists_int32 hu.typed hu.nonnull
    obtain ⟨y, rfl⟩ := Value.exists_int32 hv.typed hv.nonnull
    obtain ⟨z, rfl⟩ := Value.exists_int32 hw.typed hw.nonnull
    exact congrArg Except.ok (compareBy_lt_trans (Except.ok.inj huv) (Except.ok.inj hvw))
  | bigInt =>
    obtain ⟨x, rfl⟩ := Value.exists_int64 hu.typed hu.nonnull
    obtain ⟨y, rfl⟩ := Value.exists_int64 hv.typed hv.nonnull
    obtain ⟨z, rfl⟩ := Value.exists_int64 hw.typed hw.nonnull
    exact congrArg Except.ok (compareBy_lt_trans (Except.ok.inj huv) (Except.ok.inj hvw))
  | varchar =>
    obtain ⟨x, rfl⟩ := Value.exists_string hu.typed hu.nonnull
    obtain ⟨y, rfl⟩ := Value.exists_string hv.typed hv.nonnull
    obtain ⟨z, rfl⟩ := Value.exists_string hw.typed hw.nonnull
    exact congrArg Except.ok (compareBy_lt_trans (Except.ok.inj huv) (Except.ok.inj hvw))

/-- `u` comes before `v` where `v` does not come after: in the direction `wanted`, a value that
    comes before another comes before everything that does not. -/
theorem wanted_trans {wanted : Ordering} (hwanted : wanted ≠ .eq) (hu : Comparable t u)
    (hv : Comparable t v) (hw : Comparable t w) (huv : compareValues u v = .ok wanted)
    (hvw : compareValues v w = .ok wanted) : compareValues u w = .ok wanted := by
  cases wanted with
  | eq => exact absurd rfl hwanted
  | lt => exact less_trans hu hv hw huv hvw
  | gt =>
    have hflip : ∀ {x y : Value}, Comparable t x → Comparable t y →
        (compareValues x y = .ok .gt ↔ compareValues y x = .ok .lt) := by
      intro x y hx hy
      obtain ⟨c, hc, hc', -⟩ := hx.compare_spec hy
      rw [hc, hc']
      cases c <;> simp
    rw [hflip hu hw]
    exact less_trans hw hv hu ((hflip hv hw).mp hvw) ((hflip hu hv).mp huv)

/-- Two values neither of which comes before the other are equal. -/
theorem eq_of_not_wanted {wanted : Ordering} (hwanted : wanted ≠ .eq) (hv : Comparable t v)
    (hw : Comparable t w) (hvw : compareValues v w ≠ .ok wanted)
    (hwv : compareValues w v ≠ .ok wanted) : v = w := by
  obtain ⟨c, hc, hc', heq⟩ := hv.compare_spec hw
  rw [hc] at hvw
  rw [hc'] at hwv
  apply heq
  cases c <;> cases wanted <;> simp at hvw hwv hwanted ⊢

end Comparable

/-! ## MIN and MAX -/

open HashAggregate

/-- `r` is the extreme of `vs` in the direction `wanted`: NULL if there are no values, else one
    of them that none comes before. -/
def IsBest (wanted : Ordering) (vs : List Value) (r : Value) : Prop :=
  vs = [] ∧ r = .null ∨ r ∈ vs ∧ ∀ v ∈ vs, compareValues v r ≠ .ok wanted

section Best

variable {wanted : Ordering} {t : ColumnType} {vs ws : List Value} {d r r' s : Value}

/-- The extreme depends on the values only, not on their order. -/
theorem IsBest.unique (hwanted : wanted ≠ .eq) (hvs : ∀ v ∈ vs, Comparable t v)
    (h : IsBest wanted vs r) (h' : IsBest wanted ws r') (hperm : vs.Perm ws) : r = r' := by
  rcases h with ⟨rfl, rfl⟩ | ⟨hr, hbest⟩
  · obtain rfl := hperm.nil_eq
    rcases h' with ⟨-, rfl⟩ | ⟨hr', -⟩
    · rfl
    · simp at hr'
  · rcases h' with ⟨rfl, -⟩ | ⟨hr', hbest'⟩
    · exact absurd (hperm.mem_iff.mp hr) (by simp)
    · have hr'' := hperm.mem_iff.mpr hr'
      exact Comparable.eq_of_not_wanted hwanted (hvs r hr) (hvs r' hr'')
        (hbest' r (hperm.mem_iff.mp hr)) (hbest r' hr'')

theorem IsBest.perm (h : IsBest wanted vs r) (hperm : vs.Perm ws) : IsBest wanted ws r := by
  rcases h with ⟨rfl, rfl⟩ | ⟨hr, hbest⟩
  · exact .inl ⟨hperm.nil_eq.symm, rfl⟩
  · exact .inr ⟨hperm.mem_iff.mp hr, fun v hv => hbest v (hperm.mem_iff.mpr hv)⟩

/-- Merging the extremes of two parts. -/
theorem mergeBest_spec (hwanted : wanted ≠ .eq) (hvs : ∀ v ∈ vs, Comparable t v)
    (hws : ∀ v ∈ ws, Comparable t v) (hd : IsBest wanted vs d) (hs : IsBest wanted ws s) :
    ∃ r, mergeBest wanted d s = .ok r ∧ IsBest wanted (vs ++ ws) r := by
  rcases hs with ⟨rfl, rfl⟩ | ⟨hs, hsbest⟩
  · exact ⟨d, rfl, by rwa [List.append_nil]⟩
  have hsn : s.isNull = false := by simpa using (hws s hs).nonnull
  rcases hd with ⟨rfl, rfl⟩ | ⟨hd, hdbest⟩
  · exact ⟨s, by simp [mergeBest, keepBest, hsn], .inr ⟨by simpa using hs, by
      simpa using hsbest⟩⟩
  have hdn : d.isNull = false := by simpa using (hvs d hd).nonnull
  obtain ⟨c, hc, hc', -⟩ := (hws s hs).compare_spec (hvs d hd)
  refine ⟨if c == wanted then s else d, by simp [mergeBest, keepBest, hsn, hdn, hc], .inr ?_⟩
  by_cases hcw : c = wanted
  · -- `s` comes before `d`, hence before all of `vs`
    subst hcw
    simp only [beq_self_eq_true, if_true]
    refine ⟨List.mem_append_right _ hs, fun v hv => ?_⟩
    rcases List.mem_append.mp hv with hv | hv
    · intro hvs'
      exact hdbest v hv (Comparable.wanted_trans hwanted (hvs v hv) (hws s hs) (hvs d hd) hvs' hc)
    · exact hsbest v hv
  · have hbeq : (c == wanted) = false := by simpa using hcw
    simp only [hbeq, Bool.false_eq_true, if_false]
    refine ⟨List.mem_append_left _ hd, fun v hv => ?_⟩
    rcases List.mem_append.mp hv with hv | hv
    · exact hdbest v hv
    · -- were `v` before `d`, then `s` would be too: it is `v` or `v` does not come before it
      intro hvd
      obtain ⟨c₂, hc₂, hc₂', heq⟩ := (hws s hs).compare_spec (hws v hv)
      by_cases hc₂w : c₂ = wanted
      · have hsd := Comparable.wanted_trans hwanted (hws s hs) (hws v hv) (hvs d hd)
          (hc₂w ▸ hc₂) hvd
        rw [hc] at hsd
        exact hcw (Except.ok.inj hsd)
      · have hsv : s = v := Comparable.eq_of_not_wanted hwanted (hws s hs) (hws v hv)
          (by rw [hc₂]; simpa using hc₂w) (hsbest v hv)
        rw [← hsv, hc] at hvd
        exact hcw (Except.ok.inj hvd)

/-- One more value. -/
theorem keepBest_spec (hwanted : wanted ≠ .eq) (hvs : ∀ v ∈ vs, Comparable t v)
    (hs : Comparable t s) (hd : IsBest wanted vs d) :
    ∃ r, keepBest wanted d s = .ok r ∧ IsBest wanted (vs ++ [s]) r := by
  have hself : IsBest wanted [s] s := by
    refine .inr ⟨by simp, fun v hv => ?_⟩
    obtain rfl := List.mem_singleton.mp hv
    obtain ⟨c, hc, hc', -⟩ := hs.compare_spec hs
    rw [hc] at hc' ⊢
    cases c <;> simp at hc' ⊢
    exact hwanted.symm
  have hsn : s.isNull = false := by simpa using hs.nonnull
  obtain ⟨r, hr, hbest⟩ := mergeBest_spec hwanted hvs (by simpa using hs) hd hself
  exact ⟨r, by simpa [mergeBest, hsn] using hr, hbest⟩

end Best

/-! ## Aggregates of a list of values -/

/-- The values that are not NULL. -/
def nonNulls (args : List Value) : List Value := args.filter fun v => !v.isNull

/-- The integer a value holds. -/
def toI64 : Value → Int64
  | .int64 v => v
  | .int32 v => v.toInt64
  | _ => 0

/-- The double a value is promoted to. -/
def toDouble : Value → Double
  | .double v => v
  | .int64 v => .ofInt v.toInt
  | .int32 v => .ofInt v.toInt
  | _ => .zero

/-- The wrapping sum of the integers. -/
def intSum (args : List Value) : Int64 := (nonNulls args).foldl (fun s v => s + toI64 v) 0

/-- The sum of the doubles, from the left. -/
def doubleSum (args : List Value) : Double :=
  (nonNulls args).foldl (fun s v => s + toDouble v) .zero

/-- The extreme of the values in the direction `wanted`, the first of equal ones. -/
def bestOf (wanted : Ordering) (args : List Value) : Value :=
  (nonNulls args).foldl
    (fun b v => if b.isNull || compareValues v b = .ok wanted then v else b) .null

/-- The sequential definition of an aggregate over its argument values, one for each row. -/
def aggValue (spec : AggSpec) (args : List Value) : Value :=
  match spec.kind with
  | .countStar => .int64 (Int64.ofNat args.length)
  | .count => .int64 (Int64.ofNat (nonNulls args).length)
  | .sum =>
    if Int64.ofNat (nonNulls args).length == 0 then .null
    else if spec.inputType = .float then .double (doubleSum args)
    else .int64 (intSum args)
  | .avg =>
    if Int64.ofNat (nonNulls args).length == 0 then .null
    else .double (doubleSum args / .ofInt (Int64.ofNat (nonNulls args).length).toInt)
  | .min => bestOf .lt args
  | .max => bestOf .gt args

/-- `COUNT(*)`, `COUNT`, integer `SUM`, and `MIN` and `MAX` over `INT`, `BIGINT` and
    `VARCHAR`. -/
def AggSpec.Exact (spec : AggSpec) : Prop :=
  match spec.kind with
  | .countStar | .count => True
  | .sum => spec.inputType = .int ∨ spec.inputType = .bigInt
  | .avg => False
  | .min | .max => spec.inputType ≠ .float

/-- The field that only the aggregate `kind` uses: the extreme of `args`, or NULL. -/
def ExtremeFor (kind : AggKind) (wanted : Ordering) (spec : AggSpec) (args : List Value)
    (r : Value) : Prop :=
  (spec.kind = kind → IsBest wanted (nonNulls args) r) ∧ (spec.kind ≠ kind → r = .null)

/-- The accumulator holds the aggregate of `args`. The floating sum is not looked at. -/
structure AccFor (spec : AggSpec) (args : List Value) (acc : Acc) : Prop where
  count : acc.count = if spec.kind = .countStar then Int64.ofNat args.length else 0
  nonnull : acc.nonnull =
    if spec.kind = .countStar then 0 else Int64.ofNat (nonNulls args).length
  isum : spec.kind = .sum → acc.isum = intSum args
  minv : ExtremeFor .min .lt spec args acc.minv
  maxv : ExtremeFor .max .gt spec args acc.maxv

section Acc

variable {spec : AggSpec} {args args' : List Value} {acc acc' : Acc} {v : Value}

@[simp] theorem nonNulls_append (args args' : List Value) :
    nonNulls (args ++ args') = nonNulls args ++ nonNulls args' := by
  simp [nonNulls]

theorem nonNulls_null : nonNulls [.null] = [] := rfl

theorem nonNulls_singleton (hv : v ≠ .null) : nonNulls [v] = [v] := by
  simp [nonNulls, hv]

private theorem ofNat_add (m n : Nat) : Int64.ofNat (m + n) = Int64.ofNat m + Int64.ofNat n := by
  rw [← Int64.toBitVec_inj]
  simp

private theorem intSum_foldl (vs : List Value) (s : Int64) :
    vs.foldl (fun s v => s + toI64 v) s = s + vs.foldl (fun s v => s + toI64 v) 0 := by
  induction vs generalizing s with
  | nil => simp
  | cons v vs ih =>
    rw [List.foldl_cons, List.foldl_cons, ih, ih (0 + toI64 v)]
    simp [Int64.add_assoc]

theorem intSum_append (args args' : List Value) :
    intSum (args ++ args') = intSum args + intSum args' := by
  rw [intSum, nonNulls_append, List.foldl_append, intSum_foldl]
  rfl

theorem intSum_perm (h : args.Perm args') : intSum args = intSum args' := by
  unfold intSum
  have : RightCommutative fun (s : Int64) (v : Value) => s + toI64 v :=
    ⟨fun a b c => by rw [Int64.add_assoc, Int64.add_comm (toI64 b), ← Int64.add_assoc]⟩
  exact (h.filter _).foldl_eq 0

/-- The order of the values does not matter. -/
theorem AccFor.perm (h : AccFor spec args acc) (hperm : args.Perm args') :
    AccFor spec args' acc := by
  have hnn : (nonNulls args).Perm (nonNulls args') := hperm.filter _
  constructor
  · rw [h.count, hperm.length_eq]
  · rw [h.nonnull, hnn.length_eq]
  · exact fun hk => (h.isum hk).trans (intSum_perm hperm)
  · exact ⟨fun hk => (h.minv.1 hk).perm hnn, h.minv.2⟩
  · exact ⟨fun hk => (h.maxv.1 hk).perm hnn, h.maxv.2⟩

/-- The accumulator of no values. -/
theorem AccFor.nil (spec : AggSpec) : AccFor spec [] {} := by
  constructor
  · simp
  · simp [nonNulls]
  · exact fun _ => rfl
  · exact ⟨fun _ => .inl ⟨rfl, rfl⟩, fun _ => rfl⟩
  · exact ⟨fun _ => .inl ⟨rfl, rfl⟩, fun _ => rfl⟩

/-- The arguments of an extreme can be compared. -/
private theorem comparable_nonNulls {t : ColumnType} (ht : t ≠ .float)
    (hargs : ∀ v ∈ args, v.hasType t = true) : ∀ v ∈ nonNulls args, Comparable t v := by
  intro v hv
  obtain ⟨hv, hvn⟩ := List.mem_filter.mp hv
  exact ⟨ht, hargs v hv, by simpa using hvn⟩

/-- The types of an exact aggregate's arguments. -/
def ArgsTyped (spec : AggSpec) (args : List Value) : Prop :=
  spec.kind ≠ .countStar → spec.kind ≠ .count → ∀ v ∈ args, v.hasType spec.inputType = true

private theorem extremeFor_merge {kind : AggKind} {wanted : Ordering} {d s : Value}
    (hwanted : wanted ≠ .eq)
    (hcmp : spec.kind = kind → ∃ t, (∀ v ∈ nonNulls args, Comparable t v) ∧
      ∀ v ∈ nonNulls args', Comparable t v)
    (hd : ExtremeFor kind wanted spec args d) (hs : ExtremeFor kind wanted spec args' s) :
    ∃ r, mergeBest wanted d s = .ok r ∧ ExtremeFor kind wanted spec (args ++ args') r := by
  by_cases hk : spec.kind = kind
  · obtain ⟨t, hcd, hcs⟩ := hcmp hk
    obtain ⟨r, hr, hbest⟩ := mergeBest_spec hwanted hcd hcs (hd.1 hk) (hs.1 hk)
    exact ⟨r, hr, fun _ => by rwa [nonNulls_append], fun h => absurd hk h⟩
  · refine ⟨.null, by rw [hd.2 hk, hs.2 hk]; rfl, fun h => absurd h hk, fun _ => rfl⟩

/-- Merging adds the values of the other part. -/
theorem mergeAcc_spec (hexact : spec.Exact) (hargs : ArgsTyped spec args)
    (hargs' : ArgsTyped spec args') (h : AccFor spec args acc) (h' : AccFor spec args' acc') :
    ∃ r, mergeAcc acc acc' = .ok r ∧ AccFor spec (args ++ args') r := by
  have hcmp : spec.kind = .min ∨ spec.kind = .max →
      ∃ t, (∀ v ∈ nonNulls args, Comparable t v) ∧ ∀ v ∈ nonNulls args', Comparable t v := by
    intro hk
    have ht : spec.inputType ≠ .float := by
      rcases hk with hk | hk <;> simpa only [AggSpec.Exact, hk] using hexact
    have hne : spec.kind ≠ .countStar ∧ spec.kind ≠ .count := by
      rcases hk with hk | hk <;> simp [hk]
    exact ⟨spec.inputType, comparable_nonNulls ht (hargs hne.1 hne.2),
      comparable_nonNulls ht (hargs' hne.1 hne.2)⟩
  obtain ⟨m, hm, hmin⟩ := extremeFor_merge (by decide) (fun hk => hcmp (.inl hk)) h.minv h'.minv
  obtain ⟨x, hx, hmax⟩ := extremeFor_merge (by decide) (fun hk => hcmp (.inr hk)) h.maxv h'.maxv
  refine ⟨_, by simp only [mergeAcc, hm, hx, Except.ok_bind]; rfl, ?_, ?_, ?_, hmin, hmax⟩
  · rw [h.count, h'.count, List.length_append, ofNat_add]
    split <;> simp
  · rw [h.nonnull, h'.nonnull, nonNulls_append, List.length_append, ofNat_add]
    split <;> simp
  · intro hk
    rw [h.isum hk, h'.isum hk, intSum_append]

/-- The argument of the aggregate for a row: a value that its expression evaluates to. -/
def Evaluates (spec : AggSpec) (chunk : DataChunk) (row : Nat) (v : Value) : Prop :=
  spec.kind = .countStar ∨ ∃ e, spec.inputExpr = some e ∧ evalExprRow e chunk row = .ok v

private theorem ExtremeFor.other {kind : AggKind} {wanted : Ordering} {r : Value}
    (hk : spec.kind ≠ kind) (h : ExtremeFor kind wanted spec args r) :
    ExtremeFor kind wanted spec args' r :=
  ⟨fun h' => absurd h' hk, fun _ => h.2 hk⟩

/-- What every update with a non-NULL argument has in common. -/
private theorem AccFor.add (h : AccFor spec args acc) (hk : spec.kind ≠ .countStar)
    (hv : v ≠ .null) (hcount : acc'.count = acc.count) (hnonnull : acc'.nonnull = acc.nonnull + 1)
    (hisum : spec.kind = .sum → acc'.isum = acc.isum + toI64 v)
    (hmin : ExtremeFor .min .lt spec (args ++ [v]) acc'.minv)
    (hmax : ExtremeFor .max .gt spec (args ++ [v]) acc'.maxv) :
    AccFor spec (args ++ [v]) acc' := by
  refine ⟨?_, ?_, fun hsum => ?_, hmin, hmax⟩
  · rw [hcount, h.count, if_neg hk, if_neg hk]
  · rw [hnonnull, h.nonnull, if_neg hk, if_neg hk, nonNulls_append, List.length_append, ofNat_add,
      nonNulls_singleton hv]
    rfl
  · rw [hisum hsum, h.isum hsum, intSum_append]
    simp [intSum, nonNulls_singleton hv]

private theorem AccFor.addNull (h : AccFor spec args acc) (hk : spec.kind ≠ .countStar) :
    AccFor spec (args ++ [.null]) acc := by
  have hnn : nonNulls (args ++ [.null]) = nonNulls args := by
    rw [nonNulls_append, nonNulls_null, List.append_nil]
  constructor
  · rw [h.count, if_neg hk, if_neg hk]
  · rw [h.nonnull, hnn]
  · intro hsum
    rw [h.isum hsum, intSum, intSum, hnn]
  · rw [ExtremeFor, hnn]
    exact h.minv
  · rw [ExtremeFor, hnn]
    exact h.maxv

/-- An update adds the value of the row. -/
theorem updateAcc_spec (hexact : spec.Exact) {chunk : DataChunk} {row : Nat}
    (heval : Evaluates spec chunk row v) (hargs : ArgsTyped spec args)
    (hv : ArgsTyped spec [v]) (h : AccFor spec args acc) :
    ∃ r, updateAcc spec acc chunk row = .ok r ∧ AccFor spec (args ++ [v]) r := by
  by_cases hstar : spec.kind = .countStar
  · refine ⟨{ acc with count := acc.count + 1 }, by simp [updateAcc, hstar], ?_, ?_, ?_,
      h.minv.other ?_, h.maxv.other ?_⟩
    · simp only [h.count, hstar, if_true, List.length_append, ofNat_add]
      rfl
    · simp only [h.nonnull, hstar, if_true]
    · simp [hstar]
    · simp [hstar]
    · simp [hstar]
  obtain ⟨e, he, hrow⟩ := heval.resolve_left hstar
  by_cases hvn : v = .null
  · subst hvn
    exact ⟨acc, by simp [updateAcc, hstar, he, hrow], h.addNull hstar⟩
  have hcmp : spec.kind = .min ∨ spec.kind = .max → Comparable spec.inputType v ∧
      ∀ w ∈ nonNulls args, Comparable spec.inputType w := by
    intro hk
    have ht : spec.inputType ≠ .float := by
      rcases hk with hk | hk <;> simpa only [AggSpec.Exact, hk] using hexact
    have hcount : spec.kind ≠ .count := by rcases hk with hk | hk <;> simp [hk]
    exact ⟨⟨ht, hv hstar hcount v (by simp), hvn⟩, comparable_nonNulls ht (hargs hstar hcount)⟩
  cases hk : spec.kind with
  | countStar => exact absurd hk hstar
  | avg => simp [AggSpec.Exact, hk] at hexact
  | count =>
    refine ⟨{ acc with nonnull := acc.nonnull + 1 }, by simp [updateAcc, hk, he, hrow, hvn],
      h.add hstar hvn rfl rfl ?_ (h.minv.other ?_) (h.maxv.other ?_)⟩ <;> simp [hk]
  | sum =>
    have hint : spec.inputType = .int ∨ spec.inputType = .bigInt := by
      simpa only [AggSpec.Exact, hk] using hexact
    have htyped := hv hstar (by simp [hk]) v (by simp)
    have hne : spec.inputType ≠ .float := by rcases hint with ht | ht <;> simp [ht]
    have hi : asI64Val v = .ok (toI64 v) := by
      cases v with
      | null => exact absurd rfl hvn
      | int32 x | int64 x => rfl
      | double x | string x =>
        rcases hint with ht | ht <;> rw [ht] at htyped <;> cases htyped
    refine ⟨{ acc with nonnull := acc.nonnull + 1, isum := acc.isum + toI64 v },
      by simp [updateAcc, hk, he, hrow, hvn, hne, hi],
      h.add hstar hvn rfl rfl ?_ (h.minv.other ?_) (h.maxv.other ?_)⟩
    · exact fun _ => rfl
    · simp [hk]
    · simp [hk]
  | min =>
    obtain ⟨hcv, hcargs⟩ := hcmp (.inl hk)
    obtain ⟨r, hr, hbest⟩ := keepBest_spec (by decide) hcargs hcv (h.minv.1 hk)
    refine ⟨{ acc with nonnull := acc.nonnull + 1, minv := r },
      by simp [updateAcc, hk, he, hrow, hvn, hr],
      h.add hstar hvn rfl rfl ?_ ?_ (h.maxv.other ?_)⟩
    · simp [hk]
    · exact ⟨fun _ => by rwa [nonNulls_append, nonNulls_singleton hvn], fun h => absurd hk h⟩
    · simp [hk]
  | max =>
    obtain ⟨hcv, hcargs⟩ := hcmp (.inr hk)
    obtain ⟨r, hr, hbest⟩ := keepBest_spec (by decide) hcargs hcv (h.maxv.1 hk)
    refine ⟨{ acc with nonnull := acc.nonnull + 1, maxv := r },
      by simp [updateAcc, hk, he, hrow, hvn, hr],
      h.add hstar hvn rfl rfl ?_ (h.minv.other ?_) ?_⟩
    · simp [hk]
    · simp [hk]
    · exact ⟨fun _ => by rwa [nonNulls_append, nonNulls_singleton hvn], fun h => absurd hk h⟩

/-- The sequential extreme is the extreme. -/
private theorem isBest_bestOf {wanted : Ordering} {t : ColumnType} (hwanted : wanted ≠ .eq)
    (hcmp : ∀ v ∈ nonNulls args, Comparable t v) :
    IsBest wanted (nonNulls args) (bestOf wanted args) := by
  have hfold : ∀ (done vs : List Value) (b : Value), (∀ v ∈ done ++ vs, Comparable t v) →
      IsBest wanted done b → IsBest wanted (done ++ vs) (vs.foldl
        (fun b v => if b.isNull || compareValues v b = .ok wanted then v else b) b) := by
    intro done vs
    induction vs generalizing done with
    | nil => exact fun b _ hb => by simpa using hb
    | cons v vs ih =>
      intro b hall hb
      obtain ⟨r, hr, hbest⟩ := keepBest_spec hwanted (fun w hw => hall w (by simp [hw]))
        (hall v (by simp)) hb
      have hstep : (if b.isNull || compareValues v b = .ok wanted then v else b) = r := by
        by_cases hbn : b.isNull = true
        · simpa [keepBest, hbn] using hr
        · simp only [keepBest, hbn, Bool.false_eq_true, if_false] at hr
          obtain ⟨c, hc, hrc⟩ := Except.bind_eq_ok.mp hr
          have hrc' : (if c == wanted then v else b) = r := Except.ok.inj hrc
          simpa [hbn, hc] using hrc'
      rw [List.foldl_cons, hstep]
      have hrest := ih (done ++ [v]) r (by simpa using hall) hbest
      simpa using hrest
  exact hfold [] (nonNulls args) .null (by simpa using hcmp) (.inl ⟨rfl, rfl⟩)

/-- The accumulator yields the aggregate. -/
theorem finalize_spec (hexact : spec.Exact) (hargs : ArgsTyped spec args)
    (h : AccFor spec args acc) : finalize spec acc = aggValue spec args := by
  cases hk : spec.kind with
  | avg => simp [AggSpec.Exact, hk] at hexact
  | countStar => simp [finalize, aggValue, hk, h.count]
  | count => simp [finalize, aggValue, hk, h.nonnull]
  | sum =>
    have hne : spec.inputType ≠ .float := by
      have hint : spec.inputType = .int ∨ spec.inputType = .bigInt := by
        simpa only [AggSpec.Exact, hk] using hexact
      rcases hint with ht | ht <;> simp [ht]
    simp [finalize, aggValue, hk, h.nonnull, hne, h.isum hk]
  | min =>
    have hcmp := comparable_nonNulls (by simpa only [AggSpec.Exact, hk] using hexact)
      (hargs (by simp [hk]) (by simp [hk]))
    simp only [finalize, aggValue, hk]
    exact (h.minv.1 hk).unique (by decide) hcmp (isBest_bestOf (by decide) hcmp) (List.Perm.refl _)
  | max =>
    have hcmp := comparable_nonNulls (by simpa only [AggSpec.Exact, hk] using hexact)
      (hargs (by simp [hk]) (by simp [hk]))
    simp only [finalize, aggValue, hk]
    exact (h.maxv.1 hk).unique (by decide) hcmp (isBest_bestOf (by decide) hcmp) (List.Perm.refl _)

/-- The type of the aggregate's result. -/
def AggSpec.resultType (spec : AggSpec) : ColumnType :=
  match spec.kind with
  | .countStar | .count => .bigInt
  | .sum => if spec.inputType = .float then .float else .bigInt
  | .avg => .float
  | .min | .max => spec.inputType

theorem aggValue_hasType (hexact : spec.Exact) (hargs : ArgsTyped spec args) :
    (aggValue spec args).hasType spec.resultType = true := by
  have hbest : ∀ {wanted : Ordering}, wanted ≠ .eq → spec.kind = .min ∨ spec.kind = .max →
      (bestOf wanted args).hasType spec.inputType = true := by
    intro wanted hwanted hk
    have ht : spec.inputType ≠ .float := by
      rcases hk with hk | hk <;> simpa only [AggSpec.Exact, hk] using hexact
    have htyped : ∀ v ∈ args, v.hasType spec.inputType = true := by
      rcases hk with hk | hk <;> exact hargs (by simp [hk]) (by simp [hk])
    rcases isBest_bestOf hwanted (comparable_nonNulls ht htyped) with ⟨-, hnull⟩ | ⟨hmem, -⟩
    · rw [hnull, Value.hasType_null]
    · exact htyped _ (List.mem_filter.mp hmem).1
  cases hk : spec.kind with
  | avg => simp [AggSpec.Exact, hk] at hexact
  | countStar | count => simp [aggValue, AggSpec.resultType, hk, Value.hasType]
  | sum =>
    have hne : spec.inputType ≠ .float := by
      have hint : spec.inputType = .int ∨ spec.inputType = .bigInt := by
        simpa only [AggSpec.Exact, hk] using hexact
      rcases hint with ht | ht <;> simp [ht]
    simp only [aggValue, AggSpec.resultType, hk, hne, if_false]
    split <;> rfl
  | min =>
    simp only [aggValue, AggSpec.resultType, hk]
    exact hbest (by decide) (.inl hk)
  | max =>
    simp only [aggValue, AggSpec.resultType, hk]
    exact hbest (by decide) (.inr hk)

end Acc

end LiteOLAP
