import LiteOLAP.Native.RowOperators
import LiteOLAP.Spec.ColumnScanCorrect
import LiteOLAP.Spec.HashAggregateCorrect
import LiteOLAP.Spec.HashJoinCorrect
import LiteOLAP.Spec.OrderByCorrect
import LiteOLAP.Spec.RowEvalCorrect
import LiteOLAP.Spec.WorkerFaults

/-!
# Operators on rows

An operator gets its rows in batches and hands them on in batches. This file says what it does to the
rows, for every child that delivers some: where the batches are cut makes no difference.

## Key results

- `Filter.delivers`, `Projection.delivers`, `Limit.delivers`: the operators that pass batches on
- `OrderByOp.delivers`, `HashJoin.delivers`, `HashAggregate.delivers`: those that page rows of their
  own
-/

namespace LiteOLAP

namespace BatchStream

/-- The stream ends without an exception, and its batches are made of these rows. -/
structure Delivers (s : BatchStream) (types : List ColumnType) (rows : List Row) : Prop where
  regular : s.Regular
  types : s.types = types
  rows : s.rows = rows

variable {σ : Type} {next : σ → Except Exc (DataChunk × σ)}

/-- An operator each call of which delivers the next one of its batches. -/
theorem ofNext_of_step (types : List ColumnType) (Inv : σ → Prop) (out : σ → List DataChunk)
    (hstep : ∀ st, Inv st → ∃ c st', next st = .ok (c, st') ∧
      ((out st = [] ∧ c.cardinality = 0) ∨ (out st = c :: out st' ∧ 0 < c.cardinality ∧ Inv st'))) :
    ∀ (n : Nat) (st : σ), Inv st → (out st).length < n →
      ofNext types next n st = ⟨types, out st, none⟩ := by
  intro n
  induction n with
  | zero =>
    intro st _ hlen
    exact absurd hlen (Nat.not_lt_zero _)
  | succ n ih =>
    intro st hinv hlen
    obtain ⟨c, st', hnext, ⟨hout, hzero⟩ | ⟨hout, hpos, hinv'⟩⟩ := hstep st hinv
    · rw [hout]
      unfold ofNext drain
      simp only [hnext, hzero, if_true]
    · rw [hout, List.length_cons] at hlen
      have hrest := ih st' hinv' (by omega)
      rw [hout]
      unfold ofNext drain
      unfold ofNext at hrest
      simp only [hnext, if_neg (Nat.pos_iff_ne_zero.mp hpos)]
      revert hrest
      rcases drain next n st' with ⟨cs, fail⟩
      intro hrest
      obtain ⟨-, rfl, rfl⟩ := BatchStream.mk.inj hrest
      rfl

end BatchStream

/-! ## Filter -/

/-- The row is decided, and kept. -/
def keeps (predicate : BoundExpr) (types : List ColumnType) (r : Row) : Bool :=
  match decideRow predicate types r with
  | .ok b => b
  | .error _ => false

namespace Filter

variable {child : BatchStream} {predicate : BoundExpr} {b : DataChunk}

/-- What is left of a batch. -/
def sieve (predicate : BoundExpr) (b : DataChunk) : DataChunk :=
  b.gather (kept (b.rows.map (keeps predicate b.types)))

/-- The rows that are kept, found by their positions. -/
private theorem filterMap_positions {α : Type} (p : α → Bool) (l : List α) (d : α) :
    ((List.range (l.map p).length).filter fun i => (l.map p).getD i false).map (fun i => l.getD i d) =
      l.filter p := by
  rw [List.length_map, List.filter_eq_map_range p l d]
  refine congrArg _ (List.filter_congr fun i hi => ?_)
  have hlt : i < l.length := List.mem_range.mp hi
  rw [List.getD_eq_getElem _ _ (by simpa using hlt), List.getElem_map, List.getD_eq_getElem _ _ hlt]

theorem rows_sieve (predicate : BoundExpr) (b : DataChunk) :
    (sieve predicate b).rows = b.rows.filter (keeps predicate b.types) := by
  rw [sieve, DataChunk.rows_gather, ← filterMap_positions (keeps predicate b.types) b.rows []]
  refine List.map_congr_left fun i hi => ?_
  have hlt : i < b.rows.length := by
    simpa using List.mem_range.mp (List.mem_filter.mp hi).1
  rw [List.getD_eq_getElem _ _ hlt, DataChunk.getElem_rows]

/-- The mask of a batch whose rows can all be decided. -/
theorem mask_eq (hne : 0 < b.cardinality)
    (hdecide : ∀ r ∈ b.rows, ∃ a, decideRow predicate b.types r = .ok a) :
    evalPredicate predicate b = .ok (b.rows.map (keeps predicate b.types)) := by
  rw [evalPredicate_eq_mapM predicate hne]
  refine List.mapM_eq_ok fun r hr => ?_
  obtain ⟨a, ha⟩ := hdecide r hr
  rw [keeps, ha]

/-- The batches that `Next` has still to deliver: what is left of each, if there is anything. -/
def sifted (predicate : BoundExpr) (batches : List DataChunk) : List DataChunk :=
  (batches.map (sieve predicate)).filter fun b => decide (0 < b.cardinality)

theorem sifted_cons (predicate : BoundExpr) (b : DataChunk) (bs : List DataChunk) :
    sifted predicate (b :: bs) =
      if 0 < (sieve predicate b).cardinality then sieve predicate b :: sifted predicate bs
      else sifted predicate bs := by
  rw [sifted, List.map_cons, List.filter_cons]
  simp only [decide_eq_true_eq]
  rfl

/-- Every batch has rows, and all of them can be decided. -/
def Decidable (predicate : BoundExpr) (batches : List DataChunk) : Prop :=
  ∀ b ∈ batches, 0 < b.cardinality ∧ ∀ r ∈ b.rows, ∃ a, decideRow predicate b.types r = .ok a

/-- One `Next`: batches of which nothing is left are passed over. -/
private theorem nextLoop_spec {f : Filter} (hends : f.child.fail = none) {bs : List DataChunk}
    (h : Decidable f.predicate bs) : ∃ c f', f.nextLoop bs = .ok (c, f') ∧
      ((sifted f.predicate bs = [] ∧ c.cardinality = 0) ∨
        (sifted f.predicate bs = c :: sifted f'.predicate f'.child.batches ∧ 0 < c.cardinality ∧
          f'.child.fail = none ∧ Decidable f'.predicate f'.child.batches)) := by
  induction bs with
  | nil =>
    refine ⟨DataChunk.init f.child.types, { f with child := { f.child with batches := [] } }, ?_,
      .inl ⟨rfl, rfl⟩⟩
    rw [nextLoop, hends]
  | cons b bs ih =>
    have hrest : Decidable f.predicate bs := fun c hc => h c (List.mem_cons_of_mem _ hc)
    obtain ⟨hpos, hdecide⟩ := h b (by simp)
    rw [nextLoop, if_neg (Nat.pos_iff_ne_zero.mp hpos), mask_eq hpos hdecide, Except.ok_bind,
      sifted_cons]
    by_cases hkept : kept (b.rows.map (keeps f.predicate b.types)) = []
    · have hzero : ¬ 0 < (sieve f.predicate b).cardinality := by
        rw [sieve, hkept]
        exact lt_irrefl 0
      rw [if_pos hkept, if_neg hzero]
      exact ih hrest
    · have hlen : 0 < (sieve f.predicate b).cardinality := List.length_pos_of_ne_nil hkept
      rw [if_neg hkept, if_pos hlen]
      exact ⟨_, _, rfl, .inr ⟨rfl, hlen, hends, hrest⟩⟩

/-- Where every row can be decided, a filter delivers the rows that it keeps. -/
theorem delivers {types : List ColumnType} {rows : List Row} (h : child.Delivers types rows)
    (hdecide : ∀ r ∈ rows, ∃ a, decideRow predicate types r = .ok a) :
    (stream child predicate).Delivers types (rows.filter (keeps predicate types)) := by
  have hbatch : ∀ b ∈ child.batches, b.types = types ∧ ∀ r ∈ b.rows, r ∈ rows := fun b hb =>
    ⟨(h.regular.typed b hb).trans h.types, fun r hr => h.rows ▸ List.mem_flatMap.mpr ⟨b, hb, hr⟩⟩
  have hall : Decidable predicate child.batches := fun b hb => by
    obtain ⟨htypes, hrows⟩ := hbatch b hb
    exact ⟨h.regular.nonempty b hb, fun r hr => htypes ▸ hdecide r (hrows r hr)⟩
  have hlen : (sifted predicate child.batches).length < child.batches.length + 1 :=
    Nat.lt_succ_of_le ((List.length_filter_le _ _).trans (List.length_map _).le)
  have hstream : stream child predicate = ⟨child.types, sifted predicate child.batches, none⟩ :=
    BatchStream.ofNext_of_step child.types
      (fun f : Filter => f.child.fail = none ∧ Decidable f.predicate f.child.batches)
      (fun f => sifted f.predicate f.child.batches) (fun f hf => nextLoop_spec hf.1 hf.2) _
      ⟨child, predicate⟩ ⟨h.regular.ends, hall⟩ hlen
  rw [hstream]
  refine ⟨⟨fun b hb => ?_, fun b hb => ?_, rfl⟩, h.types, ?_⟩
  · simpa using (List.mem_filter.mp hb).2
  · obtain ⟨b', hb', rfl⟩ := List.mem_map.mp (List.mem_filter.mp hb).1
    exact (DataChunk.gather_types _ _).trans (h.regular.typed b' hb')
  · -- a batch of which nothing is left has no rows
    rw [BatchStream.rows, ← h.rows, BatchStream.rows]
    have htypes : ∀ b ∈ child.batches, b.types = types := fun b hb => (hbatch b hb).1
    dsimp only
    generalize child.batches = bs at htypes
    induction bs with
    | nil => rfl
    | cons b bs ih =>
      rw [List.flatMap_cons, List.filter_append, ← ih fun c hc => htypes c (List.mem_cons_of_mem _ hc),
        sifted_cons, ← htypes b (by simp), ← rows_sieve]
      split
      · rw [List.flatMap_cons]
      · rename_i hzero
        have hnil : (sieve predicate b).rows = [] := by
          rw [← List.length_eq_zero_iff, DataChunk.length_rows]
          omega
        rw [hnil, List.nil_append]

end Filter

/-! ## Projection -/

namespace Projection

variable {child : BatchStream} {sources : List Nat}

/-- Selecting columns of a batch picks the values of each row. -/
theorem select_spec {b : DataChunk} (h : ∀ s ∈ sources, s < b.columns.length) :
    ∃ c, b.select sources = .ok c ∧ c.rows = b.rows.map (project sources) ∧
      c.types = outputTypes b.types sources ∧ c.cardinality = b.cardinality := by
  refine ⟨_, dif_pos h, ?_, ?_, rfl⟩
  · rw [DataChunk.rows, DataChunk.rows, List.map_map]
    refine List.map_congr_left fun i _ => ?_
    rw [Function.comp_apply, DataChunk.row, DataChunk.row, project, List.map_pmap]
    refine (List.pmap_congr_left _ fun s hs hlt _ => ?_).trans (List.pmap_eq_map h)
    have hlen : s < (List.map (fun v => v.values.getD i Value.null) b.columns).length := by simpa using hlt
    rw [List.getD_eq_getElem _ _ hlen, List.getElem_map]
  · rw [DataChunk.types, outputTypes, List.map_pmap]
    refine (List.pmap_congr_left _ fun s hs hlt _ => ?_).trans (List.pmap_eq_map h)
    have hlen : s < b.types.length := by simpa using hlt
    rw [List.getD_eq_getElem _ _ hlen]
    simp [DataChunk.types]

/-- The batches that `Next` has still to deliver. -/
def selected (sources : List Nat) (batches : List DataChunk) : List DataChunk :=
  batches.filterMap fun b => (b.select sources).toOption

/-- The columns are there in every batch, and every batch has rows. -/
def Selectable (sources : List Nat) (batches : List DataChunk) : Prop :=
  ∀ b ∈ batches, 0 < b.cardinality ∧ ∀ s ∈ sources, s < b.columns.length

private theorem next_spec {p : Projection} (hends : p.child.fail = none)
    (h : Selectable p.sources p.child.batches) : ∃ c p', p.next = .ok (c, p') ∧
      ((selected p.sources p.child.batches = [] ∧ c.cardinality = 0) ∨
        (selected p.sources p.child.batches = c :: selected p'.sources p'.child.batches ∧
          0 < c.cardinality ∧ p'.child.fail = none ∧ Selectable p'.sources p'.child.batches)) := by
  obtain ⟨⟨types, batches, fail⟩, sources⟩ := p
  obtain rfl : fail = none := hends
  cases batches with
  | nil => exact ⟨_, _, rfl, .inl ⟨rfl, rfl⟩⟩
  | cons b bs =>
    obtain ⟨hpos, hcols⟩ := h b (by simp)
    obtain ⟨c, hc, -, -, hcard⟩ := select_spec hcols
    refine ⟨c, ⟨⟨types, bs, none⟩, sources⟩, ?_, .inr ⟨?_, hcard ▸ hpos, rfl, fun d hd =>
      h d (List.mem_cons_of_mem _ hd)⟩⟩
    · unfold next BatchStream.next
      dsimp only
      rw [Except.ok_bind]
      dsimp only
      rw [if_neg (Nat.pos_iff_ne_zero.mp hpos), hc]
      rfl
    · rw [selected, List.filterMap_cons, hc]
      rfl

/-- A projection on columns that there are picks these of each row. -/
theorem delivers {types : List ColumnType} {rows : List Row} (h : child.Delivers types rows)
    (hsources : ∀ s ∈ sources, s < types.length) :
    (stream child sources).Delivers (outputTypes types sources) (rows.map (project sources)) := by
  have hbatch : ∀ b ∈ child.batches, b.types = types := fun b hb =>
    (h.regular.typed b hb).trans h.types
  have hcols : ∀ b ∈ child.batches, ∀ s ∈ sources, s < b.columns.length := fun b hb s hs => by
    rw [← DataChunk.length_types, hbatch b hb]
    exact hsources s hs
  have hall : Selectable sources child.batches := fun b hb =>
    ⟨h.regular.nonempty b hb, hcols b hb⟩
  have hstream : stream child sources =
      ⟨outputTypes child.types sources, selected sources child.batches, none⟩ :=
    BatchStream.ofNext_of_step _
      (fun p : Projection => p.child.fail = none ∧ Selectable p.sources p.child.batches)
      (fun p => selected p.sources p.child.batches) (fun p hp => next_spec hp.1 hp.2) _
      ⟨child, sources⟩ ⟨h.regular.ends, hall⟩ (Nat.lt_succ_of_le (List.length_filterMap_le _ _))
  have hmem : ∀ c ∈ selected sources child.batches, ∃ b ∈ child.batches, b.select sources = .ok c := by
    intro c hc
    obtain ⟨b, hb, hc⟩ := List.mem_filterMap.mp hc
    obtain ⟨c', hc', -⟩ := select_spec (hcols b hb)
    rw [hc'] at hc
    exact ⟨b, hb, Option.some.inj hc ▸ hc'⟩
  rw [hstream, ← h.types]
  refine ⟨⟨fun c hc => ?_, fun c hc => ?_, rfl⟩, rfl, ?_⟩
  · obtain ⟨b, hb, hc⟩ := hmem c hc
    obtain ⟨c', hc', -, -, hcard⟩ := select_spec (hcols b hb)
    obtain rfl := Except.ok.inj (hc.symm.trans hc')
    exact hcard ▸ h.regular.nonempty b hb
  · obtain ⟨b, hb, hc⟩ := hmem c hc
    obtain ⟨c', hc', -, htypes, -⟩ := select_spec (hcols b hb)
    obtain rfl := Except.ok.inj (hc.symm.trans hc')
    rw [htypes, h.regular.typed b hb]
  · rw [BatchStream.rows, ← h.rows, BatchStream.rows]
    dsimp only
    generalize child.batches = bs at hcols
    induction bs with
    | nil => rfl
    | cons b bs ih =>
      obtain ⟨c, hc, hrows, -, -⟩ := select_spec (hcols b (by simp))
      rw [List.flatMap_cons, List.map_append, ← ih fun d hd => hcols d (List.mem_cons_of_mem _ hd),
        selected, List.filterMap_cons, hc]
      exact (List.flatMap_cons ..).trans (by rw [hrows]; rfl)

end Projection

/-! ## Limit -/

namespace Limit

variable {child : BatchStream}

/-- The batches that `Next` has still to deliver, with room for `n` rows. -/
def limited : (n : Nat) → List DataChunk → List DataChunk
  | _, [] => []
  | n, b :: bs =>
    if n = 0 then []
    else b.gather (List.range (min b.cardinality n)) :: limited (n - min b.cardinality n) bs

theorem rows_gather_range (b : DataChunk) (n : Nat) :
    (b.gather (List.range (min b.cardinality n))).rows = b.rows.take n := by
  rw [DataChunk.rows_gather, DataChunk.rows, ← List.map_take, List.take_range, Nat.min_comm]

private theorem next_spec {l : Limit} (hends : l.child.fail = none)
    (h : ∀ b ∈ l.child.batches, 0 < b.cardinality) : ∃ c l', l.next = .ok (c, l') ∧
      ((limited l.remaining l.child.batches = [] ∧ c.cardinality = 0) ∨
        (limited l.remaining l.child.batches = c :: limited l'.remaining l'.child.batches ∧
          0 < c.cardinality ∧ l'.child.fail = none ∧ ∀ b ∈ l'.child.batches, 0 < b.cardinality)) := by
  obtain ⟨⟨types, batches, fail⟩, n⟩ := l
  obtain rfl : fail = none := hends
  by_cases hn : n = 0
  · subst hn
    refine ⟨DataChunk.init types, _, rfl, .inl ⟨?_, rfl⟩⟩
    cases batches <;> rfl
  · cases batches with
    | nil =>
      refine ⟨DataChunk.init types, ⟨⟨types, [], none⟩, n⟩, ?_, .inl ⟨rfl, rfl⟩⟩
      simp [next, hn, BatchStream.next]
    | cons b bs =>
      have hpos := h b (by simp)
      refine ⟨b.gather (List.range (min b.cardinality n)),
        ⟨⟨types, bs, none⟩, n - min b.cardinality n⟩, ?_, .inr ⟨if_neg hn, ?_, rfl, fun d hd =>
          h d (List.mem_cons_of_mem _ hd)⟩⟩
      · simp [next, hn, BatchStream.next, Nat.pos_iff_ne_zero.mp hpos]
      · rw [DataChunk.gather_cardinality, List.length_range]
        omega

/-- A limit delivers the first rows. -/
theorem delivers {types : List ColumnType} {rows : List Row} (h : child.Delivers types rows) (n : Nat) :
    (stream child n).Delivers types (rows.take n) := by
  have hlen : ∀ (n : Nat) (bs : List DataChunk), (limited n bs).length ≤ bs.length := by
    intro n bs
    induction bs generalizing n with
    | nil => exact le_refl _
    | cons b bs ih =>
      rw [limited]
      split
      · exact Nat.zero_le _
      · exact Nat.succ_le_succ (ih _)
  have hstream : stream child n = ⟨child.types, limited n child.batches, none⟩ :=
    BatchStream.ofNext_of_step _
      (fun l : Limit => l.child.fail = none ∧ ∀ b ∈ l.child.batches, 0 < b.cardinality)
      (fun l => limited l.remaining l.child.batches) (fun l hl => next_spec hl.1 hl.2) _
      ⟨child, n⟩ ⟨h.regular.ends, h.regular.nonempty⟩ (Nat.lt_succ_of_le (hlen n _))
  have hmem : ∀ (n : Nat) (bs : List DataChunk), (∀ b ∈ bs, 0 < b.cardinality ∧ b.types = child.types) →
      (∀ c ∈ limited n bs, 0 < c.cardinality ∧ c.types = child.types) ∧
        (limited n bs).flatMap DataChunk.rows = (bs.flatMap DataChunk.rows).take n := by
    intro n bs
    induction bs generalizing n with
    | nil =>
      intro _
      exact ⟨fun c hc => (by cases hc), (by simp [limited])⟩
    | cons b bs ih =>
      intro hbs
      obtain ⟨hpos, htypes⟩ := hbs b (by simp)
      rw [limited]
      by_cases hn : n = 0
      · rw [if_pos hn, hn]
        exact ⟨fun c hc => (by cases hc), (by simp)⟩
      · obtain ⟨hall, hrows⟩ := ih (n - min b.cardinality n) fun d hd => hbs d (List.mem_cons_of_mem _ hd)
        rw [if_neg hn]
        refine ⟨List.forall_mem_cons.mpr ⟨⟨?_, (DataChunk.gather_types _ _).trans htypes⟩, hall⟩, ?_⟩
        · rw [DataChunk.gather_cardinality, List.length_range]
          omega
        · rw [List.flatMap_cons, List.flatMap_cons, rows_gather_range, hrows, List.take_append,
            DataChunk.length_rows]
          congr 2
          omega
  obtain ⟨hall, hrows⟩ := hmem n child.batches fun b hb =>
    ⟨h.regular.nonempty b hb, h.regular.typed b hb⟩
  rw [hstream]
  exact ⟨⟨fun c hc => (hall c hc).1, fun c hc => (hall c hc).2, rfl⟩, h.types,
    hrows.trans (by rw [← h.rows]; rfl)⟩

end Limit

/-! ## Operators that page rows of their own -/

namespace DataChunk

variable {c c' : DataChunk}

/-- A row is only appended if it has the types of the batch. -/
theorem appendRow_frame {r : Row} (h : c.appendRow r = .ok c') :
    c'.types = c.types ∧ c'.cardinality = c.cardinality + 1 := by
  have htyped : rowTyped c.types r = true := by
    unfold appendRow at h
    split at h
    · cases h
    · split at h
      · assumption
      · cases h
  obtain ⟨d, hd, -, htypes, hcard⟩ := appendRow_ok htyped
  rw [Except.ok.inj (h.symm.trans hd)]
  exact ⟨htypes, hcard⟩

theorem appendRows_frame {rs : List Row} (h : c.appendRows rs = .ok c') :
    c'.types = c.types ∧ c'.cardinality = c.cardinality + rs.length := by
  unfold appendRows at h
  induction rs generalizing c with
  | nil =>
    obtain rfl := Except.ok.inj h
    exact ⟨rfl, rfl⟩
  | cons r rs ih =>
    rw [List.foldlM_cons] at h
    obtain ⟨c₁, hc₁, h⟩ := Except.bind_eq_ok.mp h
    obtain ⟨htypes, hcard⟩ := ih h
    obtain ⟨htypes₁, hcard₁⟩ := appendRow_frame hc₁
    refine ⟨htypes.trans htypes₁, ?_⟩
    rw [hcard, hcard₁, List.length_cons]
    omega

end DataChunk

namespace DeliversPages

variable {σ : Type} {next : σ → Except Exc (DataChunk × σ)} {st : σ} {rows : List Row}

/-- The first call returns the first page, and the others page what is left. -/
theorem step (h : DeliversPages next st rows) : ∃ c st', next st = .ok (c, st') ∧
    c.rows = rows.take kVectorSize ∧ DeliversPages next st' (rows.drop kVectorSize) := by
  obtain ⟨cs, hcs, hpages⟩ := h 1
  obtain ⟨⟨c, st'⟩, hnext, hrest⟩ := Except.bind_eq_ok.mp hcs
  obtain rfl := Except.ok.inj hrest
  refine ⟨c, st', hnext, by simpa [page] using hpages, fun n => ?_⟩
  obtain ⟨cs, hcs, hpages⟩ := h (n + 1)
  obtain ⟨⟨c', st''⟩, hnext', hrest⟩ := Except.bind_eq_ok.mp hcs
  obtain ⟨rfl, rfl⟩ := Prod.mk.inj (Except.ok.inj (hnext.symm.trans hnext'))
  obtain ⟨ds, hds, hrest⟩ := Except.bind_eq_ok.mp hrest
  obtain rfl := Except.ok.inj hrest
  refine ⟨ds, hds, ?_⟩
  rw [List.map_cons, List.range_succ_eq_map, List.map_cons, List.map_map] at hpages
  rw [(List.cons.inj hpages).2]
  refine List.map_congr_left fun i _ => ?_
  simp [page, List.drop_drop, Nat.mul_add, Nat.add_comm]

/-- As a stream, when all calls return batches of the same types. -/
theorem delivers {types : List ColumnType} (Inv : σ → Prop)
    (htyped : ∀ st, Inv st → ∀ c st', next st = .ok (c, st') → c.types = types ∧ Inv st') :
    ∀ (n : Nat) {st : σ} {rows : List Row}, Inv st → DeliversPages next st rows → rows.length < n →
      (BatchStream.ofNext types next n st).Delivers types rows := by
  intro n
  induction n with
  | zero =>
    intro st rows _ _ hlen
    exact absurd hlen (Nat.not_lt_zero _)
  | succ n ih =>
    intro st rows hinv hpages hlen
    obtain ⟨c, st', hnext, hrows, hrest⟩ := hpages.step
    obtain ⟨htypes, hinv'⟩ := htyped st hinv c st' hnext
    have hcard : c.cardinality = min kVectorSize rows.length := by
      rw [← DataChunk.length_rows, hrows, List.length_take]
    have hsize : kVectorSize = 2048 := rfl
    unfold BatchStream.ofNext BatchStream.drain
    simp only [hnext]
    by_cases hzero : c.cardinality = 0
    · have hnil : rows = [] := List.length_eq_zero_iff.mp (by omega)
      rw [if_pos hzero, hnil]
      exact ⟨⟨fun b hb => (by cases hb), fun b hb => (by cases hb), rfl⟩, rfl, rfl⟩
    · rw [if_neg hzero]
      have hdelivers := ih hinv' hrest (by rw [List.length_drop]; omega)
      unfold BatchStream.ofNext at hdelivers
      revert hdelivers
      rcases BatchStream.drain next n st' with ⟨cs, fail⟩
      rintro ⟨⟨hne, hall, hends⟩, -, hcs⟩
      refine ⟨⟨List.forall_mem_cons.mpr ⟨Nat.pos_of_ne_zero hzero, hne⟩,
        List.forall_mem_cons.mpr ⟨htypes, hall⟩, hends⟩, rfl, ?_⟩
      have hcs' : cs.flatMap DataChunk.rows = rows.drop kVectorSize := hcs
      rw [BatchStream.rows, List.flatMap_cons, hcs', hrows, List.take_append_drop]

end DeliversPages

/-! ## OrderBy -/

namespace OrderByOp

variable {child : BatchStream} {types : List ColumnType} {rows : List Row} {key : Nat}

private theorem next_types {o o' : OrderByOp} {c : DataChunk} (hnext : o.next = .ok (c, o')) :
    c.types = o.types ∧ o'.types = o.types ∧ o'.rows = o.rows := by
  unfold next at hnext
  split at hnext
  · obtain ⟨rfl, rfl⟩ := Prod.mk.inj (Except.ok.inj hnext)
    exact ⟨DataChunk.init_types _, rfl, rfl⟩
  · obtain ⟨out, hout, hrest⟩ := Except.bind_eq_ok.mp hnext
    obtain ⟨rfl, rfl⟩ := Prod.mk.inj (Except.ok.inj hrest)
    exact ⟨(DataChunk.appendRows_frame hout).1.trans (DataChunk.init_types _), rfl, rfl⟩

/-- A sort by a column that there is delivers the sorted rows. -/
theorem delivers (h : child.Delivers types rows) (hkey : key < types.length) (desc : Bool) :
    ∃ o, OrderByOp.open child key desc = .ok o ∧ o.stream.Delivers types (sortRows key desc rows) := by
  have hopen := open_eq h.regular (h.types.symm ▸ hkey) desc
  rw [h.types, h.rows] at hopen
  have htyped : ∀ r ∈ sortRows key desc rows, rowTyped types r = true := fun r hr => by
    have hmem : r ∈ child.rows := h.rows.symm ▸ (List.mergeSort_perm _ _).mem_iff.mp hr
    exact h.types ▸ h.regular.rows_typed hmem
  have hpages : DeliversPages next ⟨types, sortRows key desc rows, 0⟩ (sortRows key desc rows) :=
    deliversPages_of_step (fun o : OrderByOp => ∀ r ∈ o.rows, rowTyped o.types r = true)
      (fun o => o.rows.drop o.cursor) (fun _ ho => next_spec ho) htyped
  refine ⟨_, hopen, hpages.delivers
    (fun o : OrderByOp => o.types = types ∧ ∀ r ∈ o.rows, rowTyped o.types r = true)
    (fun o ho c o' hnext => ?_) _ ⟨rfl, htyped⟩ (Nat.lt_succ_self _)⟩
  obtain ⟨hc, htypes', hrows'⟩ := next_types hnext
  refine ⟨hc.trans ho.1, htypes'.trans ho.1, fun r hr => ?_⟩
  rw [htypes']
  exact ho.2 r (hrows' ▸ hr)

end OrderByOp

/-! ## HashJoin -/

namespace HashJoin

/-- What no step of the join changes. -/
private def SameTypes (j j' : HashJoin) : Prop :=
  j'.left.types = j.left.types ∧ j'.rightTypes = j.rightTypes

private theorem advanceLoop_types {j j' : HashJoin} {batches : List DataChunk} {more : Bool}
    (h : j.advanceLoop batches = .ok (more, j')) : SameTypes j j' := by
  induction batches generalizing j with
  | nil =>
    rw [advanceLoop] at h
    obtain ⟨found, -, h⟩ := Except.bind_eq_ok.mp h
    cases found with
    | some f =>
      obtain ⟨-, rfl⟩ := Prod.mk.inj (Except.ok.inj h)
      exact ⟨rfl, rfl⟩
    | none =>
      dsimp only at h
      split at h
      · obtain ⟨-, rfl⟩ := Prod.mk.inj (Except.ok.inj h)
        exact ⟨rfl, rfl⟩
      · split at h
        · cases h
        · obtain ⟨-, rfl⟩ := Prod.mk.inj (Except.ok.inj h)
          exact ⟨rfl, rfl⟩
  | cons b bs ih =>
    rw [advanceLoop] at h
    obtain ⟨found, -, h⟩ := Except.bind_eq_ok.mp h
    cases found with
    | some f =>
      obtain ⟨-, rfl⟩ := Prod.mk.inj (Except.ok.inj h)
      exact ⟨rfl, rfl⟩
    | none =>
      dsimp only at h
      split at h
      · obtain ⟨-, rfl⟩ := Prod.mk.inj (Except.ok.inj h)
        exact ⟨rfl, rfl⟩
      · split at h
        · obtain ⟨-, rfl⟩ := Prod.mk.inj (Except.ok.inj h)
          exact ⟨rfl, rfl⟩
        · exact ih (j := { j with left := { j.left with batches := bs }, lchunk := b, lpos := 0 }) h

private theorem nextMatch_types {j j' : HashJoin} {more : Bool} (h : j.nextMatch = .ok (more, j')) :
    SameTypes j j' := by
  unfold nextMatch at h
  split at h
  · split at h
    · exact advanceLoop_types (j := { j with lpos := j.lpos + 1, matches_ := none }) h
    · obtain ⟨-, rfl⟩ := Prod.mk.inj (Except.ok.inj h)
      exact ⟨rfl, rfl⟩
  · exact advanceLoop_types h

private theorem fill_types {room : Nat} {j j' : HashJoin} {out out' : DataChunk}
    (h : fill room j out = .ok (out', j')) : out'.types = out.types ∧ SameTypes j j' := by
  induction room generalizing j out with
  | zero =>
    obtain ⟨rfl, rfl⟩ := Prod.mk.inj (Except.ok.inj h)
    exact ⟨rfl, rfl, rfl⟩
  | succ room ih =>
    obtain ⟨⟨more, j₁⟩, hmatch, h⟩ := Except.bind_eq_ok.mp h
    obtain ⟨hleft, hright⟩ := nextMatch_types hmatch
    dsimp only at h
    split at h
    · obtain ⟨rfl, rfl⟩ := Prod.mk.inj (Except.ok.inj h)
      exact ⟨rfl, hleft, hright⟩
    · split at h
      · cases h
      · split at h
        · cases h
        · obtain ⟨out₁, happend, h⟩ := Except.bind_eq_ok.mp h
          obtain ⟨htypes, hleft', hright'⟩ := ih h
          exact ⟨htypes.trans (DataChunk.appendRow_frame happend).1, hleft'.trans hleft, hright'.trans hright⟩

private theorem length_nestedLoop_le (leftKey rightKey : Nat) (ls rs : List Row) :
    (nestedLoop leftKey rightKey ls rs).length ≤ ls.length * rs.length := by
  unfold nestedLoop
  induction ls with
  | nil => exact Nat.zero_le _
  | cons l ls ih =>
    have hfilter := List.length_filter_le (joins leftKey rightKey l) rs
    rw [List.flatMap_cons, List.length_append, List.length_map, List.length_cons, Nat.succ_mul]
    omega

/-- The build side is opened before the probe side is there. -/
private theorem open_with_left {types : List ColumnType} {left right : BatchStream} {leftKey rightKey : Nat}
    {built : HashJoin} (hbuilt : HashJoin.open ⟨types, [], none⟩ right leftKey rightKey = .ok built)
    (htypes : left.types = types) :
    HashJoin.open left right leftKey rightKey = .ok { built with left } := by
  subst htypes
  obtain ⟨table, htable, h⟩ := Except.bind_eq_ok.mp hbuilt
  rw [HashJoin.open, htable, ← Except.ok.inj h]
  rfl

variable {right : BatchStream} {leftTypes rightTypes : List ColumnType} {rs : List Row}
  {leftKey rightKey : Nat}

/-- A join on columns that there are delivers the nested-loop join, as long as the positions of the
    build rows can be told apart. -/
theorem delivers (hright : right.Delivers rightTypes rs) (hl : leftKey < leftTypes.length)
    (hr : rightKey < rightTypes.length) (hrows : rs.length ≤ 2 ^ 32) :
    ∃ built, HashJoin.open ⟨leftTypes, [], none⟩ right leftKey rightKey = .ok built ∧
      ∀ (left : BatchStream) (ls : List Row), left.Delivers leftTypes ls →
        (BatchStream.ofNext (left.types ++ right.types) next
          ({ built with left } : HashJoin).maxBatches { built with left }).Delivers
          (leftTypes ++ rightTypes) (nestedLoop leftKey rightKey ls rs) := by
  obtain ⟨t, hbuild, ht⟩ := build_spec hright.regular (hright.types.symm ▸ hr)
  obtain ⟨built, hbuilt, htable⟩ : ∃ built,
      HashJoin.open ⟨leftTypes, [], none⟩ right leftKey rightKey = .ok built ∧ built.table = t :=
    ⟨_, by simp only [HashJoin.open, hbuild]; rfl, rfl⟩
  refine ⟨built, hbuilt, fun left ls hleft => ?_⟩
  have hopen := open_with_left hbuilt hleft.types
  obtain ⟨j, hj, hpages⟩ : ∃ j, HashJoin.open left right leftKey rightKey = .ok j ∧
      DeliversPages HashJoin.next j (indexedLoop leftKey rightKey left.rows right.rows) :=
    open_deliversPages hleft.regular hright.regular (hleft.types.symm ▸ hl) (hright.types.symm ▸ hr)
  obtain rfl := Except.ok.inj (hj.symm.trans hopen)
  -- no position wraps
  have hloop : indexedLoop leftKey rightKey ls rs = nestedLoop leftKey rightKey ls rs :=
    (indexedLoop_eq_iff leftKey rightKey ls rs).mpr fun l _ r hlt _ => by
      rw [Nat.mod_eq_of_lt (Nat.lt_of_lt_of_le hlt hrows)]
  rw [hleft.rows, hright.rows, hloop] at hpages
  have htypes : built.rightTypes = rightTypes := by
    obtain ⟨table, -, h⟩ := Except.bind_eq_ok.mp hbuilt
    rw [← Except.ok.inj h]
    exact hright.types
  rw [hleft.types, hright.types]
  refine hpages.delivers
    (fun j : HashJoin => j.left.types = leftTypes ∧ j.rightTypes = rightTypes)
    (fun j hj c j' hnext => ?_) _ ⟨hleft.types, htypes⟩ ?_
  · obtain ⟨hc, hleft', hright'⟩ := fill_types hnext
    rw [DataChunk.init_types, hj.1, hj.2] at hc
    exact ⟨hc, hleft'.trans hj.1, hright'.trans hj.2⟩
  · have hlen := length_nestedLoop_le leftKey rightKey ls rs
    rw [maxBatches, htable, ht.rows, hright.rows, hleft.rows]
    omega

end HashJoin

/-! ## HashAggregate -/

namespace HashAggregate

/-- The value of an aggregate's argument in a row. -/
def argumentIn (spec : AggSpec) (r : Row) : Value :=
  match spec.inputExpr with
  | none => .null
  | some e => valueIn e r

/-- The row of a group: its key, then each aggregate over the rows that have it. -/
def groupRow (groupIndices : List Nat) (aggs : List AggSpec) (rows : List Row) (key : List Value) :
    Row :=
  key ++ aggs.map fun spec =>
    aggValue spec ((rows.filter fun r => project groupIndices r = key).map (argumentIn spec))

/-- The keys of the groups. Without `GROUP BY` there is one group, of whatever rows there are. -/
def keysOf (groupIndices : List Nat) (rows : List Row) : List (List Value) :=
  if groupIndices = [] then [[]] else (rows.map (project groupIndices)).dedup

/-- A row for each group. -/
def grouped (groupIndices : List Nat) (aggs : List AggSpec) (rows : List Row) : List Row :=
  (keysOf groupIndices rows).map (groupRow groupIndices aggs rows)

/-- The argument has a value in the row, of the type it was inferred to have. -/
def Computes (spec : AggSpec) (r : Row) : Prop :=
  spec.kind = .countStar ∨ ∃ e v, spec.inputExpr = some e ∧ evalRow e r = .ok v ∧
    v.hasType spec.inputType = true

/-- What the aggregation needs of the rows: the aggregates can be computed exactly, and groups are
    not taken for one another. -/
structure Groupable (groupIndices : List Nat) (aggs : List AggSpec) (rows : List Row) : Prop where
  exact : ∀ spec ∈ aggs, spec.Exact
  output : ∀ spec ∈ aggs, spec.outputType = spec.resultType
  computes : ∀ r ∈ rows, ∀ spec ∈ aggs, Computes spec r
  keys : ∀ r ∈ rows, ∀ r' ∈ rows,
    keyString (project groupIndices r) = keyString (project groupIndices r') →
      project groupIndices r = project groupIndices r'

section

variable {groupIndices : List Nat} {aggs : List AggSpec} {types groupTypes : List ColumnType}
  {inputs : List DataChunk}

private theorem mem_inputRows {p : InputRow} :
    p ∈ inputRows inputs ↔ p.1 ∈ inputs ∧ p.2 < p.1.cardinality := by
  constructor
  · intro h
    obtain ⟨chunk, hchunk, h⟩ := List.mem_flatMap.mp h
    obtain ⟨row, hrow, rfl⟩ := List.mem_map.mp h
    exact ⟨hchunk, List.mem_range.mp hrow⟩
  · intro h
    exact List.mem_flatMap.mpr ⟨p.1, h.1, List.mem_map.mpr ⟨p.2, List.mem_range.mpr h.2, rfl⟩⟩

/-- The rows of all batches by themselves. -/
private theorem map_inputRows (inputs : List DataChunk) :
    (inputRows inputs).map (fun p => p.1.row p.2) = inputs.flatMap DataChunk.rows := by
  unfold inputRows
  induction inputs with
  | nil => rfl
  | cons c cs ih =>
    rw [List.flatMap_cons, List.map_append, ih, List.flatMap_cons, chunkRows, List.map_map]
    rfl

private theorem argument_eq {spec : AggSpec} {p : InputRow} (h : p.2 < p.1.cardinality) :
    argument spec p = argumentIn spec (p.1.row p.2) := by
  unfold argument argumentIn valueIn
  cases spec.inputExpr with
  | none => rfl
  | some e =>
    have heval := evalExprRow_eq h e
    dsimp only
    generalize evalExprRow e p.1 p.2 = x at heval
    subst heval
    rfl

private theorem map_filter_argument {rows : List InputRow} (hrows : ∀ p ∈ rows, p.2 < p.1.cardinality)
    (spec : AggSpec) (key : List Value) :
    (rows.filter fun p => groupKey groupIndices p = key).map (argument spec) =
      ((rows.map fun p => p.1.row p.2).filter fun r => project groupIndices r = key).map
        (argumentIn spec) := by
  rw [List.filter_map, List.map_map]
  exact List.map_congr_left fun p hp => argument_eq (hrows p (List.mem_filter.mp hp).1)

/-- The groups of the rows of some batches. -/
private theorem map_specRow (inputs : List DataChunk) :
    (groupKeys groupIndices (inputRows inputs)).map (specRow groupIndices aggs (inputRows inputs)) =
      grouped groupIndices aggs (inputs.flatMap DataChunk.rows) := by
  have hkeys : groupKeys groupIndices (inputRows inputs) =
      keysOf groupIndices (inputs.flatMap DataChunk.rows) := by
    rw [groupKeys, keysOf, ← map_inputRows, List.map_map]
    rfl
  rw [grouped, hkeys]
  refine List.map_congr_left fun key _ => ?_
  rw [specRow, groupRow]
  refine congrArg (key ++ ·) (List.map_congr_left fun spec _ => ?_)
  rw [map_filter_argument (fun p hp => (mem_inputRows.mp hp).2), map_inputRows]

private theorem usable_of_groupable {rows : List Row} (h : Groupable groupIndices aggs rows)
    (hidx : ∀ gi ∈ groupIndices, gi < types.length) (htypes : ∀ c ∈ inputs, c.types = types)
    (hrows : inputs.flatMap DataChunk.rows = rows) :
    ∀ p ∈ inputRows inputs, Usable groupIndices aggs p := by
  intro p hp
  obtain ⟨hchunk, hlt⟩ := mem_inputRows.mp hp
  have hmem : p.1.row p.2 ∈ rows := by
    rw [← hrows, ← map_inputRows]
    exact List.mem_map_of_mem hp
  refine ⟨hlt, fun gi hgi => ?_, fun spec hspec => ?_, fun spec hspec hstar _ => ?_⟩
  · rw [← DataChunk.length_types, htypes p.1 hchunk]
    exact hidx gi hgi
  · rcases h.computes _ hmem spec hspec with hstar | ⟨e, v, he, hv, -⟩
    · exact .inl hstar
    · refine .inr ⟨e, he, ?_⟩
      rw [argument_eq hlt, evalExprRow_eq hlt, argumentIn, he, hv]
      exact congrArg Except.ok (valueIn_eq hv).symm
  · obtain ⟨e, v, he, hv, htyped⟩ := (h.computes _ hmem spec hspec).resolve_left hstar
    rw [argument_eq hlt, argumentIn, he]
    dsimp only
    rwa [valueIn_eq hv]

/-- `Open` under a schedule, once the groups of each worker are known. -/
private theorem open_eq_openMerged {child : BatchStream} (hchild : child.Regular) {hw : Nat}
    {assign : Nat → Nat} {partials : List Groups}
    (hpartials : (List.range (numWorkers hw child.batches)).mapM (fun w =>
      inThread (WorkPool.runWorker (processChunk groupIndices aggs) child.batches
        (fun i => assign i % numWorkers hw child.batches) .empty w)) = .ok partials) :
    HashAggregate.open child groupIndices groupTypes aggs hw assign =
      openMerged groupIndices groupTypes aggs partials := by
  rw [HashAggregate.open, drainChild_eq hchild, Except.ok_bind]
  dsimp only
  rw [hpartials]
  rfl

/-- What one `Next` does to the operator. -/
private theorem next_frame {h h' : HashAggregate} {c : DataChunk} (hnext : h.next = .ok (c, h')) :
    c.types = h.outputTypes ∧ h'.outputTypes = h.outputTypes ∧ h'.groups = h.groups ∧
      c.cardinality = min kVectorSize (h.groups.length - h.cursor) ∧
      h'.cursor = h.cursor + c.cardinality := by
  unfold next at hnext
  split at hnext
  · obtain ⟨rfl, rfl⟩ := Prod.mk.inj (Except.ok.inj hnext)
    refine ⟨DataChunk.init_types _, rfl, rfl, ?_, rfl⟩
    rw [DataChunk.init_cardinality]
    omega
  · obtain ⟨out, hout, hrest⟩ := Except.bind_eq_ok.mp hnext
    obtain ⟨rfl, rfl⟩ := Prod.mk.inj (Except.ok.inj hrest)
    obtain ⟨htypes, hcard⟩ := DataChunk.appendRows_frame hout
    have hlen : out.cardinality = min kVectorSize (h.groups.length - h.cursor) := by
      rw [hcard, DataChunk.init_cardinality, List.length_map, List.length_take, List.length_drop]
      omega
    refine ⟨htypes.trans (DataChunk.init_types _), rfl, rfl, hlen, ?_⟩
    rw [hlen]

/-- The calls of `Next` hand out as many rows as there are groups. -/
private theorem length_of_nextCalls {n : Nat} {h : HashAggregate} {cs : List DataChunk}
    (hcs : nextCalls HashAggregate.next n h = .ok cs) :
    (cs.flatMap DataChunk.rows).length = min (kVectorSize * n) (h.groups.length - h.cursor) := by
  induction n generalizing h cs with
  | zero =>
    obtain rfl := Except.ok.inj hcs
    simp
  | succ n ih =>
    obtain ⟨⟨c, h'⟩, hnext, hcs⟩ := Except.bind_eq_ok.mp hcs
    obtain ⟨ds, hds, hcs⟩ := Except.bind_eq_ok.mp hcs
    obtain rfl := Except.ok.inj hcs
    obtain ⟨-, -, hgroups, hcard, hcursor⟩ := next_frame hnext
    rw [List.flatMap_cons, List.length_append, DataChunk.length_rows, ih hds, hgroups, hcursor,
      hcard, Nat.mul_succ]
    omega

/-- The rows that the aggregation pages, as a stream. -/
private theorem delivers_of_pages {h : HashAggregate} {out : List Row} (hcursor : h.cursor = 0)
    (hpages : DeliversPages HashAggregate.next h out) :
    (BatchStream.ofNext h.outputTypes HashAggregate.next (h.groups.length + 1) h).Delivers
      h.outputTypes out := by
  have hlen : out.length = h.groups.length := by
    obtain ⟨cs, hcs, hrows⟩ := hpages.flatMap_rows (out.length + h.groups.length)
    have hcount := length_of_nextCalls hcs
    have hsize : kVectorSize = 2048 := rfl
    rw [hrows, List.length_take, hcursor, hsize] at hcount
    omega
  refine hpages.delivers (fun h' : HashAggregate => h'.outputTypes = h.outputTypes)
    (fun h' hinv c h'' hnext => ?_) _ rfl (by omega)
  obtain ⟨htypes, houtput, -⟩ := next_frame hnext
  exact ⟨htypes.trans hinv, houtput.trans hinv⟩

private theorem openMerged_frame {partials : List Groups} {h : HashAggregate}
    (hopen : openMerged groupIndices groupTypes aggs partials = .ok h) :
    h.outputTypes = groupTypes ++ aggs.map (·.outputType) ∧ h.cursor = 0 := by
  obtain ⟨merged, -, hopen⟩ := Except.bind_eq_ok.mp hopen
  rw [← Except.ok.inj hopen]
  exact ⟨rfl, rfl⟩

/-- The workers of a schedule return the groups of their shares. -/
private theorem workers_ok (hexact : ∀ spec ∈ aggs, spec.Exact)
    (husable : ∀ p ∈ inputRows inputs, Usable groupIndices aggs p) (n : Nat) (assign : Nat → Nat) :
    ∃ partials, (List.range n).mapM (fun w => inThread
        (WorkPool.runWorker (processChunk groupIndices aggs) inputs assign .empty w)) = .ok partials ∧
      List.Forall₂ (fun w => GroupsFor groupIndices aggs
        ((WorkPool.taken assign w inputs.length).flatMap (rowsAt inputs))) (List.range n) partials :=
  List.exists_mapM_forall₂ fun w _ => by
    obtain ⟨m, hrun, hm⟩ := runWorker_spec hexact husable assign w
    exact ⟨m, by rw [hrun, inThread], hm⟩

/-- An aggregation delivers one row for each group, in an order that depends on the schedule. -/
theorem delivers {child : BatchStream} {rows : List Row} (hchild : child.Delivers types rows)
    (hgroup : List.Forall₂ (fun gi t => types[gi]? = some t) groupIndices groupTypes)
    (h : Groupable groupIndices aggs rows) (hw : Nat) (assign : Nat → Nat) :
    ∃ agg out, HashAggregate.open child groupIndices groupTypes aggs hw assign = .ok agg ∧
      out.Perm (grouped groupIndices aggs rows) ∧
      (BatchStream.ofNext agg.outputTypes HashAggregate.next (agg.groups.length + 1) agg).Delivers
        (groupTypes ++ aggs.map (·.outputType)) out := by
  have hbatch : ∀ c ∈ child.batches, c.types = types := fun c hc =>
    (hchild.regular.typed c hc).trans hchild.types
  have hidx : ∀ gi ∈ groupIndices, gi < types.length := fun gi hgi => by
    obtain ⟨t, -, ht⟩ := List.exists_of_forall₂_mem (List.Forall₂.flip hgroup) hgi
    exact (List.getElem?_eq_some_iff.mp ht).1
  have husable := usable_of_groupable h hidx hbatch hchild.rows
  obtain ⟨partials, hpartials, hgroups⟩ := workers_ok h.exact husable
    (numWorkers hw child.batches) (fun i => assign i % numWorkers hw child.batches)
  have hshares : ((List.range (numWorkers hw child.batches)).map fun w =>
      (WorkPool.taken (fun i => assign i % numWorkers hw child.batches) w
        child.batches.length).flatMap (rowsAt child.batches)).flatten.Perm
      (inputRows child.batches) := by
    rw [← List.flatMap_def]
    refine shares_perm fun i hi => Nat.mod_lt _ ?_
    -- a batch has a worker
    rw [numWorkers]
    split <;> omega
  have hrow : ∀ p ∈ inputRows child.batches, p.1.row p.2 ∈ rows := fun p hp => by
    rw [← hchild.rows, BatchStream.rows, ← map_inputRows]
    exact List.mem_map_of_mem hp
  obtain ⟨agg, out, hopen, hpages, hperm⟩ := openMerged_deliversPages h.exact h.output hgroup
    (fun p hp => hbatch p.1 (mem_inputRows.mp hp).1) husable
    (fun p hp q hq => h.keys _ (hrow p hp) _ (hrow q hq)) hshares
    (List.forall₂_map_left_iff.mpr hgroups)
  obtain ⟨htypes, hcursor⟩ := openMerged_frame hopen
  refine ⟨agg, out, (open_eq_openMerged hchild.regular hpartials).trans hopen, ?_, ?_⟩
  · rw [← hchild.rows, BatchStream.rows, ← map_specRow]
    exact hperm
  · rw [← htypes]
    exact delivers_of_pages hcursor hpages

end

end HashAggregate

end LiteOLAP
