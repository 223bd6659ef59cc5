import LiteOLAP.Native.Operator

/-!
# Operators that page a list

`HashJoin`, `HashAggregate` and `OrderBy` hand out one list of rows in batches of
`kVectorSize`. This file says what that means for every number of `Next` calls, and gives the
rule by which each operator's `Next` is shown to do it.

## Key results

- `deliversPages_of_step`: a step that takes the first `kVectorSize` remaining rows pages them
- `DeliversPages.flatMap_rows`: the first calls together return a prefix of the list
- `DeliversPages.unique`: an operator pages at most one list
-/

namespace LiteOLAP

/-- For every `n`, the first `n` calls of `next` do not throw, and the `i`-th of them returns
    the rows from `kVectorSize * i` on, up to `kVectorSize` of them. -/
def DeliversPages {σ : Type} (next : σ → Except Exc (DataChunk × σ)) (st : σ)
    (rows : List Row) : Prop :=
  ∀ n, ∃ cs, nextCalls next n st = .ok cs ∧ cs.map DataChunk.rows = (List.range n).map (page rows)

private theorem page_zero (rows : List Row) : page rows 0 = rows.take kVectorSize := by
  simp [page]

private theorem page_succ (rows : List Row) (i : Nat) :
    page rows (i + 1) = page (rows.drop kVectorSize) i := by
  simp [page, List.drop_drop, Nat.mul_add, Nat.add_comm]

section Step

variable {σ : Type} {next : σ → Except Exc (DataChunk × σ)}

/-- If every call returns the first `kVectorSize` rows that remain and leaves the others, the
    calls page the rows that remain at first. -/
theorem deliversPages_of_step (Inv : σ → Prop) (remaining : σ → List Row)
    (hstep : ∀ st, Inv st → ∃ c st', next st = .ok (c, st') ∧
      c.rows = (remaining st).take kVectorSize ∧ remaining st' = (remaining st).drop kVectorSize ∧
      Inv st')
    {st : σ} (hinv : Inv st) : DeliversPages next st (remaining st) := by
  intro n
  induction n generalizing st with
  | zero => exact ⟨[], rfl, rfl⟩
  | succ n ih =>
    obtain ⟨c, st', hnext, hrows, hrem, hinv'⟩ := hstep st hinv
    obtain ⟨cs, hcs, hpages⟩ := ih hinv'
    refine ⟨c :: cs, by simp [nextCalls, hnext, hcs], ?_⟩
    rw [List.map_cons, hpages, hrows, List.range_succ_eq_map, List.map_cons, List.map_map,
      page_zero]
    congr 1
    apply List.map_congr_left
    intro i _
    rw [Function.comp_apply, page_succ, hrem]

end Step

/-- The first `n` pages make up the first `kVectorSize * n` rows. -/
theorem flatMap_page (rows : List Row) (n : Nat) :
    (List.range n).flatMap (page rows) = rows.take (kVectorSize * n) := by
  induction n with
  | zero => simp
  | succ n ih =>
    rw [List.range_succ, List.flatMap_append, ih, List.flatMap_singleton, Nat.mul_succ,
      List.take_add, page]

section Cursor

variable {α : Type} (l : List α) (cursor k : Nat)

/-- What a cursor into a list hands out: `k` entries, or those that are left. -/
theorem take_drop_cursor :
    (l.drop cursor).take (min k (l.length - cursor)) = (l.drop cursor).take k := by
  rw [List.take_eq_take_iff, List.length_drop, Nat.min_assoc, Nat.min_self]

/-- What is left when the cursor has moved on. -/
theorem drop_cursor_add :
    l.drop (cursor + min k (l.length - cursor)) = (l.drop cursor).drop k := by
  rw [List.drop_drop]
  rcases Nat.le_total k (l.length - cursor) with h | h
  · rw [Nat.min_eq_left h]
  · rw [Nat.min_eq_right h, List.drop_eq_nil_of_le (by omega), List.drop_eq_nil_of_le (by omega)]

end Cursor

namespace DeliversPages

variable {σ : Type} {next : σ → Except Exc (DataChunk × σ)} {st : σ} {rows : List Row}

/-- The batches of the first `n` calls together are the first `kVectorSize * n` rows. -/
theorem flatMap_rows (h : DeliversPages next st rows) (n : Nat) :
    ∃ cs, nextCalls next n st = .ok cs ∧
      cs.flatMap DataChunk.rows = rows.take (kVectorSize * n) := by
  obtain ⟨cs, hcs, hpages⟩ := h n
  refine ⟨cs, hcs, ?_⟩
  rw [← flatMap_page, List.flatMap_def, hpages, ← List.flatMap_def]

/-- An operator pages at most one list. -/
theorem unique {rows' : List Row} (h : DeliversPages next st rows)
    (h' : DeliversPages next st rows') : rows = rows' := by
  have htake : ∀ n, rows.take (kVectorSize * n) = rows'.take (kVectorSize * n) := by
    intro n
    obtain ⟨cs, hcs, hrows⟩ := h.flatMap_rows n
    obtain ⟨cs', hcs', hrows'⟩ := h'.flatMap_rows n
    rw [hcs] at hcs'
    rw [← hrows, ← hrows', Except.ok.inj hcs']
  have hall := htake (rows.length + rows'.length)
  have hsize : kVectorSize = 2048 := rfl
  rw [hsize] at hall
  rwa [List.take_of_length_le (by omega), List.take_of_length_le (by omega)] at hall

end DeliversPages

end LiteOLAP
