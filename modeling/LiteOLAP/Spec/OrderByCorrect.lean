import LiteOLAP.ForStd.StableSort
import LiteOLAP.Native.RowOperators
import LiteOLAP.Spec.FastPathCorrect
import LiteOLAP.Spec.OperatorCorrect

/-!
# OrderBy sorts

The comparison of `OrderBy` ranks the rows: by the value of the key in the order of its type, with
NULL below all values, and the other way round for `DESC`. So it is a strict weak ordering, and what
`std::stable_sort` makes of the rows is handed out in batches.

## Key results

- `exists_rank`: `CompareValues` ranks the values of a column type that are not NaN
- `batches_of_step`: the batches of an operator that takes the first rows that remain
- `orderBy_sorts`: the rows that `OrderBy` delivers
-/

namespace LiteOLAP

/-! ## The order of a column type -/

/-- A value of the column type or NULL, and not NaN. -/
structure SortKey (t : ColumnType) (v : Value) : Prop where
  typed : v.hasType t = true
  number : ∀ d, v = .double d → d.isNaN = false

private theorem compareBy_eq_compare {β : Type} [LinearOrder β] {lt : β → β → Bool}
    (h : ∀ x y, lt x y = true ↔ x < y) (x y : β) : compareBy lt x y = compare x y := by
  have hnot : ∀ {x y}, ¬ x < y → lt x y = false := fun hxy =>
    Bool.eq_false_iff.mpr (hxy ∘ (h _ _).mp)
  unfold compareBy
  rcases lt_trichotomy x y with hlt | rfl | hgt
  · rw [compare_lt_iff_lt.mpr hlt, (h x y).mpr hlt, if_pos rfl]
  · rw [compare_eq_iff_eq.mpr rfl, hnot (lt_irrefl x), if_neg Bool.false_ne_true,
      if_neg Bool.false_ne_true]
  · rw [compare_gt_iff_gt.mpr hgt, hnot (lt_asymm hgt), (h y x).mpr hgt,
      if_neg Bool.false_ne_true, if_pos rfl]

/-- The rank of an `INT`. -/
private def int32Rank : Value → Int
  | .int32 x => x.toInt
  | _ => 0

/-- The rank of a `BIGINT`. -/
private def int64Rank : Value → Int
  | .int64 x => x.toInt
  | _ => 0

/-- The rank of a `FLOAT`: its sign, exponent and mantissa. -/
private def doubleRank : Value → Int ×ₗ Int ×ₗ Int
  | .double x => x.toModel.unpack.rank
  | _ => toLex (0, toLex (0, 0))

/-- The rank of a `VARCHAR`. -/
private def stringRank : Value → Bytes
  | .string x => x
  | _ => []

/-- `CompareValues` ranks the values of a column in a linear order. -/
theorem exists_rank (t : ColumnType) :
    ∃ (β : Type) (_ : LinearOrder β) (rank : Value → β), ∀ v w, SortKey t v → SortKey t w →
      v ≠ .null → w ≠ .null → compareValues v w = .ok (compare (rank v) (rank w)) := by
  cases t with
  | int =>
    refine ⟨Int, inferInstance, int32Rank, ?_⟩
    intro v w hv hw hvn hwn
    obtain ⟨x, rfl⟩ := Value.exists_int32 hv.typed hvn
    obtain ⟨y, rfl⟩ := Value.exists_int32 hw.typed hwn
    exact congrArg Except.ok (ordersAs_int32 x y).compareBy_eq
  | bigInt =>
    refine ⟨Int, inferInstance, int64Rank, ?_⟩
    intro v w hv hw hvn hwn
    obtain ⟨x, rfl⟩ := Value.exists_int64 hv.typed hvn
    obtain ⟨y, rfl⟩ := Value.exists_int64 hw.typed hwn
    exact congrArg Except.ok (ordersAs_int64 x y).compareBy_eq
  | float =>
    refine ⟨Int ×ₗ Int ×ₗ Int, inferInstance, doubleRank, ?_⟩
    intro v w hv hw hvn hwn
    obtain ⟨x, rfl⟩ := Value.exists_double hv.typed hvn
    obtain ⟨y, rfl⟩ := Value.exists_double hw.typed hwn
    have hcmp := Float.Model.compare_eq_rank (hv.number x rfl) (hw.number y rfl)
    exact congrArg Except.ok (Double.ordersAs hcmp).compareBy_eq
  | varchar =>
    refine ⟨Bytes, linearOrderOfStd Bytes, stringRank, ?_⟩
    intro v w hv hw hvn hwn
    obtain ⟨x, rfl⟩ := Value.exists_string hv.typed hvn
    obtain ⟨y, rfl⟩ := Value.exists_string hw.typed hwn
    let := linearOrderOfStd Bytes
    exact congrArg Except.ok (compareBy_eq_compare (fun _ _ => decide_eq_true_iff) x y)

/-! ## Rows -/

/-- The keys do not decrease: NULL comes first. -/
def KeyLe (v w : Value) : Prop :=
  v = .null ∨ (w ≠ .null ∧ ∃ c, compareValues v w = .ok c ∧ c ≠ .gt)

/-- The keys are equal, or both NULL. -/
def keyTies (v w : Value) : Bool :=
  v.isNull && w.isNull || match compareValues v w with
    | .ok .eq => true
    | _ => false

/-- The key of a row. -/
def orderKey (key : Nat) (r : Row) : Value := r.getD key .null

/-- The keys of rows ranked, NULL at the bottom. -/
private structure Ranks {β : Type} [LinearOrder β] (t : ColumnType) (rank : Value → WithBot β) :
    Prop where
  bot : ∀ v, SortKey t v → (rank v = ⊥ ↔ v = .null)
  ranked : ∀ v w, SortKey t v → SortKey t w → v ≠ .null → w ≠ .null →
    compareValues v w = .ok (compare (rank v) (rank w))

private theorem exists_ranks (t : ColumnType) :
    ∃ (β : Type) (_ : LinearOrder β) (rank : Value → WithBot β), Ranks t rank := by
  obtain ⟨β, inst, rank, hrank⟩ := exists_rank t
  refine ⟨β, inst, fun v => if v = .null then ⊥ else rank v, fun v _ => ?_,
    fun v w hv hw hvn hwn => ?_⟩
  · by_cases hnull : v = .null <;> simp [hnull]
  · rw [hrank v w hv hw hvn hwn, if_neg hvn, if_neg hwn]
    congr 1
    rcases lt_trichotomy (rank v) (rank w) with h | h | h
    · rw [compare_lt_iff_lt.mpr h, compare_lt_iff_lt.mpr (WithBot.coe_lt_coe.mpr h)]
    · rw [compare_eq_iff_eq.mpr h, compare_eq_iff_eq.mpr (congrArg _ h)]
    · rw [compare_gt_iff_gt.mpr h, compare_gt_iff_gt.mpr (WithBot.coe_lt_coe.mpr h)]

section Ranks

variable {β : Type} [LinearOrder β] {t : ColumnType} {rank : Value → WithBot β} {v w : Value}

private theorem Ranks.lt_iff (h : Ranks t rank) (hv : SortKey t v) (hw : SortKey t w)
    (hvn : v ≠ .null) (hwn : w ≠ .null) :
    compareValues v w = .ok .lt ↔ rank v < rank w := by
  rw [h.ranked v w hv hw hvn hwn, ← compare_lt_iff_lt]
  exact ⟨Except.ok.inj, congrArg Except.ok⟩

private theorem Ranks.gt_iff (h : Ranks t rank) (hv : SortKey t v) (hw : SortKey t w)
    (hvn : v ≠ .null) (hwn : w ≠ .null) :
    compareValues v w = .ok .gt ↔ rank w < rank v := by
  rw [h.ranked v w hv hw hvn hwn, ← compare_gt_iff_gt]
  exact ⟨Except.ok.inj, congrArg Except.ok⟩

private theorem Ranks.keyLe_iff (h : Ranks t rank) (hv : SortKey t v) (hw : SortKey t w) :
    KeyLe v w ↔ rank v ≤ rank w := by
  by_cases hvn : v = .null
  · rw [(h.bot v hv).mpr hvn]
    exact iff_of_true (.inl hvn) bot_le
  by_cases hwn : w = .null
  · rw [(h.bot w hw).mpr hwn, le_bot_iff, h.bot v hv]
    exact ⟨fun hle => hle.resolve_right fun hne => hne.1 hwn, .inl⟩
  · rw [← not_lt, ← h.gt_iff hv hw hvn hwn]
    have hcmp := h.ranked v w hv hw hvn hwn
    constructor
    · intro hle hgt
      obtain ⟨-, c, hc, hne⟩ := hle.resolve_left hvn
      exact hne (Except.ok.inj (hc.symm.trans hgt))
    · intro hgt
      exact .inr ⟨hwn, _, hcmp, fun heq => hgt (heq ▸ hcmp)⟩

private theorem Ranks.keyTies_iff (h : Ranks t rank) (hv : SortKey t v) (hw : SortKey t w) :
    keyTies v w = true ↔ rank v = rank w := by
  by_cases hvn : v = .null
  · subst hvn
    rw [(h.bot .null hv).mpr rfl, @eq_comm _ ⊥, h.bot w hw, keyTies]
    cases w <;> simp [Value.isNull, compareValues]
  by_cases hwn : w = .null
  · subst hwn
    rw [(h.bot .null hw).mpr rfl, h.bot v hv, keyTies]
    cases v <;> simp [Value.isNull, compareValues]
  · rw [keyTies, Value.isNull_eq_false.mpr hvn, Bool.false_and, Bool.false_or,
      h.ranked v w hv hw hvn hwn, ← compare_eq_iff_eq (a := rank v)]
    generalize compare (rank v) (rank w) = c
    cases c <;> simp

/-- The comparison of rows compares ranks, the other way round for `DESC`. -/
private theorem Ranks.rowLess_iff (h : Ranks t rank) {key : Nat} {a b : Row}
    (ha : SortKey t (orderKey key a)) (hb : SortKey t (orderKey key b)) (desc : Bool) :
    OrderByOp.rowLess key desc a b = true ↔
      if desc then rank (orderKey key b) < rank (orderKey key a)
      else rank (orderKey key a) < rank (orderKey key b) := by
  unfold OrderByOp.rowLess
  unfold orderKey at *
  dsimp only
  generalize a.getD key .null = v at *
  generalize b.getD key .null = w at *
  by_cases hvn : v = .null
  · rw [Value.isNull_eq_true.mpr hvn, (h.bot v ha).mpr hvn, Bool.true_or, if_pos rfl,
      Bool.true_and]
    by_cases hwn : w = .null
    · rw [Value.isNull_eq_true.mpr hwn, (h.bot w hb).mpr hwn]
      cases desc <;> simp
    · have hpos : (⊥ : WithBot β) < rank w := bot_lt_iff_ne_bot.mpr (mt (h.bot w hb).mp hwn)
      rw [Value.isNull_eq_false.mpr hwn]
      cases desc <;> simp [hpos]
  by_cases hwn : w = .null
  · have hpos : (⊥ : WithBot β) < rank v := bot_lt_iff_ne_bot.mpr (mt (h.bot v ha).mp hvn)
    rw [Value.isNull_eq_true.mpr hwn, (h.bot w hb).mpr hwn, Value.isNull_eq_false.mpr hvn]
    cases desc <;> simp [hpos]
  · rw [Value.isNull_eq_false.mpr hvn, Value.isNull_eq_false.mpr hwn, Bool.false_or,
      if_neg Bool.false_ne_true, h.ranked v w ha hb hvn hwn,
      ← compare_lt_iff_lt (a := rank v), ← compare_gt_iff_gt (a := rank v)]
    generalize compare (rank v) (rank w) = c
    cases c <;> cases desc <;> simp

end Ranks

/-! ## Batches -/

section Drain

variable {σ : Type} {next : σ → Except Exc (DataChunk × σ)}

/-- The batches of the stream are the rows, cut after every `kVectorSize` of them. -/
structure Batches (rows : List Row) (s : BatchStream) : Prop where
  ends : s.fail = none
  rows : s.rows = rows
  nonempty : ∀ b ∈ s.batches, 0 < b.cardinality
  full : ∀ b ∈ s.batches.dropLast, b.cardinality = kVectorSize

/-- An operator every call of which returns the first `kVectorSize` rows that remain. -/
theorem batches_of_step (types : List ColumnType) (Inv : σ → Prop) (remaining : σ → List Row)
    (hstep : ∀ st, Inv st → ∃ c st', next st = .ok (c, st') ∧
      c.rows = (remaining st).take kVectorSize ∧ remaining st' = (remaining st).drop kVectorSize ∧
      Inv st') :
    ∀ (n : Nat) (st : σ), Inv st → (remaining st).length < n →
      Batches (remaining st) (.ofNext types next n st) := by
  intro n
  induction n with
  | zero =>
    intro st _ hlen
    exact absurd hlen (Nat.not_lt_zero _)
  | succ n ih =>
    intro st hinv hlen
    obtain ⟨c, st', hnext, hrows, hremaining, hinv'⟩ := hstep st hinv
    have hcard : c.cardinality = min kVectorSize (remaining st).length := by
      rw [← DataChunk.length_rows, hrows, List.length_take]
    have hsize : kVectorSize = 2048 := rfl
    unfold BatchStream.ofNext BatchStream.drain
    simp only [hnext]
    by_cases hzero : c.cardinality = 0
    · have hnil : remaining st = [] := List.length_eq_zero_iff.mp (by omega)
      rw [if_pos hzero, hnil]
      exact ⟨rfl, rfl, by simp, by simp⟩
    · rw [if_neg hzero]
      have hrest := ih st' hinv' (by rw [hremaining, List.length_drop]; omega)
      unfold BatchStream.ofNext at hrest
      revert hrest
      rcases BatchStream.drain next n st' with ⟨cs, fail⟩
      rintro ⟨hends, hall, hne, hfull⟩
      refine ⟨hends, ?_, ?_, ?_⟩
      · have hcs : cs.flatMap DataChunk.rows = (remaining st).drop kVectorSize :=
          hall.trans hremaining
        simp only [BatchStream.rows, List.flatMap_cons, hcs, hrows, List.take_append_drop]
      · exact List.forall_mem_cons.mpr ⟨Nat.pos_of_ne_zero hzero, hne⟩
      · cases cs with
        | nil => simp
        | cons d ds =>
          -- rows are left after this batch, so that it is full
          have hd : 0 < ((remaining st).drop kVectorSize).length := by
            have hpos := hne d (by simp)
            rw [← hremaining, ← hall]
            simp only [BatchStream.rows, List.flatMap_cons, List.length_append,
              DataChunk.length_rows]
            omega
          rw [List.length_drop] at hd
          exact List.forall_mem_cons.mpr ⟨by rw [hcard]; omega, hfull⟩

end Drain

namespace OrderByOp

/-- One `Next` returns the first rows that are left. -/
theorem next_spec {o : OrderByOp} (htyped : ∀ r ∈ o.rows, rowTyped o.types r = true) :
    ∃ c o', o.next = .ok (c, o') ∧ c.rows = (o.rows.drop o.cursor).take kVectorSize ∧
      o'.rows.drop o'.cursor = (o.rows.drop o.cursor).drop kVectorSize ∧
      ∀ r ∈ o'.rows, rowTyped o'.types r = true := by
  unfold next
  split
  · rename_i hend
    rw [List.drop_eq_nil_of_le hend]
    exact ⟨_, o, rfl, rfl, List.drop_eq_nil_of_le hend, htyped⟩
  · have hslice : ∀ r ∈ (o.rows.drop o.cursor).take (min kVectorSize (o.rows.length - o.cursor)),
        rowTyped (DataChunk.init o.types).types r = true := fun r hr => by
      rw [DataChunk.init_types]
      exact htyped r (List.mem_of_mem_drop (List.mem_of_mem_take hr))
    obtain ⟨c, hc, hrows, -⟩ := DataChunk.appendRows_ok hslice
    refine ⟨c, { o with cursor := o.cursor + min kVectorSize (o.rows.length - o.cursor) }, ?_, ?_,
      drop_cursor_add _ _ _, htyped⟩
    · simp only [hc, Except.ok_bind, Except.pure_eq_ok]
    · rw [hrows, DataChunk.init_rows, List.nil_append, take_drop_cursor]

/-- What `Open` materializes from a regular child, sorted. -/
theorem open_eq {child : BatchStream} (hchild : child.Regular) {key : Nat}
    (hkey : key < child.types.length) (desc : Bool) :
    OrderByOp.open child key desc = .ok ⟨child.types, sortRows key desc child.rows, 0⟩ := by
  have hrows : child.forEach (fun rows b => .ok (rows ++ b.rows)) [] =
      (.ok child.rows : Except Exc (List Row)) := by
    rw [BatchStream.forEach_eq hchild]
    obtain ⟨rows, hrun, hall⟩ := Except.foldlM_ok
      (f := fun rows b => (.ok (rows ++ b.rows) : Except Exc (List Row)))
      (l := child.batches) (s := []) (fun done rows => rows = done.flatMap DataChunk.rows)
      (fun done b rows _ hrows => ⟨_, rfl, by simp [hrows]⟩) rfl
    rw [hrun, hall]
    rfl
  unfold OrderByOp.open
  rw [hrows, Except.ok_bind, decide_eq_false (by omega), Bool.false_and]
  rfl

end OrderByOp

/-- A sorted list of rows: the rows, their keys ascending with NULL first or descending with NULL
    last, and rows with equal keys in the order they had. -/
structure SortedBy (key : Nat) (desc : Bool) (rows sorted : List Row) : Prop where
  perm : sorted.Perm rows
  ascending : desc = false → sorted.Pairwise fun a b => KeyLe (orderKey key a) (orderKey key b)
  descending : desc = true → sorted.Pairwise fun a b => KeyLe (orderKey key b) (orderKey key a)
  stable : ∀ r ∈ rows, sorted.filter (fun a => keyTies (orderKey key a) (orderKey key r)) =
    rows.filter fun a => keyTies (orderKey key a) (orderKey key r)

/-- The rows are sorted when the comparison ranks them. -/
private theorem sortedBy_of_rank {γ : Type} [LinearOrder γ] {key : Nat} {desc : Bool}
    {rows : List Row} {f : Row → γ}
    (hless : ∀ a ∈ rows, ∀ b ∈ rows, OrderByOp.rowLess key desc a b = true ↔ f a < f b)
    (hle : ∀ a ∈ rows, ∀ b ∈ rows, f a ≤ f b ↔
      if desc then KeyLe (orderKey key b) (orderKey key a) else KeyLe (orderKey key a) (orderKey key b))
    (hties : ∀ a ∈ rows, ∀ b ∈ rows, keyTies (orderKey key a) (orderKey key b) = true ↔ f a = f b) :
    SortedBy key desc rows (OrderByOp.sortRows key desc rows) := by
  have hrank : ∀ a ∈ rows, ∀ b ∈ rows,
      (!OrderByOp.rowLess key desc b a) = decide (f a ≤ f b) := by
    intro a ha b hb
    rw [Bool.eq_iff_iff, Bool.not_eq_true', decide_eq_true_eq, ← not_lt, ← hless b hb a ha,
      Bool.not_eq_true]
  have hperm : (OrderByOp.sortRows key desc rows).Perm rows := List.mergeSort_perm _ _
  have hsorted : (OrderByOp.sortRows key desc rows).Pairwise fun a b => f a ≤ f b :=
    List.pairwise_mergeSort_rank hrank
  refine ⟨hperm, ?_, ?_, fun r hr => ?_⟩
  · rintro rfl
    exact hsorted.imp_of_mem fun ha hb hab => by
      simpa using (hle _ (hperm.mem_iff.mp ha) _ (hperm.mem_iff.mp hb)).mp hab
  · rintro rfl
    exact hsorted.imp_of_mem fun ha hb hab => by
      simpa using (hle _ (hperm.mem_iff.mp ha) _ (hperm.mem_iff.mp hb)).mp hab
  · have htie : ∀ a ∈ rows, keyTies (orderKey key a) (orderKey key r) = decide (f a = f r) :=
      fun a ha => by rw [Bool.eq_iff_iff, decide_eq_true_eq, hties a ha r hr]
    rw [List.filter_congr htie, List.filter_congr fun a ha => htie a (hperm.mem_iff.mp ha)]
    exact List.filter_mergeSort_rank hrank (f r)

/-- For every column type and both directions the comparison is a strict weak ordering of the rows
    whose key is of that type or NULL, and not NaN; and for every child whose rows are such, the
    batches that `OrderBy` returns are its rows, sorted, `kVectorSize` of them in every batch but the
    last. -/
theorem orderBy_sorts (t : ColumnType) (desc : Bool) (key : Nat) :
    IsStrictWeakOrder {r : Row // SortKey t (orderKey key r)}
        (fun a b => OrderByOp.rowLess key desc a b = true) ∧
      ∀ child : BatchStream, child.Regular → key < child.types.length →
        (∀ r ∈ child.rows, SortKey t (orderKey key r)) →
        ∃ o sorted, OrderByOp.open child key desc = .ok o ∧ SortedBy key desc child.rows sorted ∧
          Batches sorted o.stream := by
  obtain ⟨β, inst, rank, h⟩ := exists_ranks t
  refine ⟨?_, fun child hchild hkey hkeys => ?_⟩
  · cases desc with
    | false =>
      exact isStrictWeakOrder_of_rank (f := fun r => rank (orderKey key r)) fun a b => by
        simpa using h.rowLess_iff a.2 b.2 false
    | true =>
      exact isStrictWeakOrder_of_rank (f := fun r => OrderDual.toDual (rank (orderKey key r)))
        fun a b => by simpa using h.rowLess_iff a.2 b.2 true
  · have hsorted : SortedBy key desc child.rows (OrderByOp.sortRows key desc child.rows) := by
      have hties : ∀ a ∈ child.rows, ∀ b ∈ child.rows,
          keyTies (orderKey key a) (orderKey key b) = true ↔ rank (orderKey key a) = rank (orderKey key b) :=
        fun a ha b hb => h.keyTies_iff (hkeys a ha) (hkeys b hb)
      cases desc with
      | false =>
        refine sortedBy_of_rank (f := fun r => rank (orderKey key r)) (fun a ha b hb => ?_)
          (fun a ha b hb => ?_) hties
        · simpa using h.rowLess_iff (hkeys a ha) (hkeys b hb) false
        · simpa using (h.keyLe_iff (hkeys a ha) (hkeys b hb)).symm
      | true =>
        refine sortedBy_of_rank (f := fun r => OrderDual.toDual (rank (orderKey key r)))
          (fun a ha b hb => ?_) (fun a ha b hb => ?_) hties
        · simpa using h.rowLess_iff (hkeys a ha) (hkeys b hb) true
        · simpa using (h.keyLe_iff (hkeys b hb) (hkeys a ha)).symm
    refine ⟨_, _, OrderByOp.open_eq hchild hkey desc, hsorted, ?_⟩
    exact batches_of_step child.types
      (fun o : OrderByOp => ∀ r ∈ o.rows, rowTyped o.types r = true)
      (fun o => o.rows.drop o.cursor) (fun _ ho => OrderByOp.next_spec ho) _
      ⟨child.types, OrderByOp.sortRows key desc child.rows, 0⟩
      (fun r hr => hchild.rows_typed (hsorted.perm.mem_iff.mp hr)) (Nat.lt_succ_self _)

/-- One batch of one column, with a NULL. -/
def threeKeys : DataChunk where
  columns := [⟨.int, [.int32 4, .null, .int32 9], by decide⟩]
  cardinality := 3
  rect := by decide

/-- Two numbers and a NULL between them, descending. -/
theorem orderBy_sorts_three :
    ∃ o sorted, OrderByOp.open ⟨[.int], [threeKeys], none⟩ 0 true = .ok o ∧
      SortedBy 0 true [[.int32 4], [.null], [.int32 9]] sorted ∧ Batches sorted o.stream :=
  (orderBy_sorts .int true 0).2 ⟨[.int], [threeKeys], none⟩
    ⟨by decide, by decide, rfl⟩ (by decide) fun r hr => by
      have hrows : BatchStream.rows ⟨[.int], [threeKeys], none⟩ =
        [[.int32 4], [.null], [.int32 9]] := rfl
      rw [hrows] at hr
      constructor
      · revert r
        decide
      · intro d hd
        fin_cases hr <;> cases hd

end LiteOLAP
