import Mathlib

/-!
# Sorting by a rank

`List.mergeSort` with a comparison that ranks the entries of the list in a linear order. Such a
comparison need not be antisymmetric: entries of one rank tie, and the sort keeps them in order.

## Key results

- `pairwise_mergeSort_rank`: the ranks of the sorted list do not decrease
- `filter_mergeSort_rank`: the entries of one rank keep their order
- `isStrictWeakOrder_of_rank`: comparing ranks is a strict weak ordering
-/

/-- The linear order of a type whose `<` and `≤` make one. -/
@[reducible] def linearOrderOfStd (α : Type) [LE α] [LT α] [DecidableLT α] [Std.IsLinearOrder α]
    [Std.LawfulOrderLT α] : LinearOrder α where
  le_refl := Std.le_refl
  le_trans _ _ _ := Std.le_trans
  lt_iff_le_not_ge := Std.LawfulOrderLT.lt_iff
  le_antisymm _ _ := Std.le_antisymm
  le_total _ _ := Std.le_total
  toDecidableLE a b := decidable_of_iff (¬ b < a) Std.not_lt

/-- `<` of ranks in a linear order, or of nothing else that agrees with it, is a strict weak
    ordering. -/
theorem isStrictWeakOrder_of_rank {α β : Type} [LinearOrder β] {lt : α → α → Prop} {f : α → β}
    (h : ∀ a b, lt a b ↔ f a < f b) : IsStrictWeakOrder α lt where
  irrefl a := by
    rw [h]
    exact lt_irrefl _
  trans a b c := by
    rw [h, h, h]
    exact lt_trans
  incomp_trans a b c hab hbc := by
    simp only [h, not_lt] at hab hbc ⊢
    exact ⟨le_trans hbc.1 hab.1, le_trans hab.2 hbc.2⟩

namespace List

variable {α β : Type} [LinearOrder β] {f : α → β} {le : α → α → Bool} {l : List α}

/-- Only how the entries of the list compare matters. -/
private theorem mergeSort_eq_rank (h : ∀ a ∈ l, ∀ b ∈ l, le a b = decide (f a ≤ f b)) :
    l.mergeSort le = l.mergeSort fun a b => decide (f a ≤ f b) := by
  simpa using map_mergeSort (f := id) h

private theorem rank_trans (a b c : α) (hab : decide (f a ≤ f b) = true)
    (hbc : decide (f b ≤ f c) = true) : decide (f a ≤ f c) = true := by
  rw [decide_eq_true_eq] at hab hbc ⊢
  exact le_trans hab hbc

private theorem rank_total (a b : α) : (decide (f a ≤ f b) || decide (f b ≤ f a)) = true := by
  rw [Bool.or_eq_true, decide_eq_true_eq, decide_eq_true_eq]
  exact le_total _ _

/-- The sorted list does not decrease. -/
theorem pairwise_mergeSort_rank (h : ∀ a ∈ l, ∀ b ∈ l, le a b = decide (f a ≤ f b)) :
    (l.mergeSort le).Pairwise fun a b => f a ≤ f b := by
  rw [mergeSort_eq_rank h]
  exact (pairwise_mergeSort rank_trans rank_total l).imp fun hab => of_decide_eq_true hab

/-- The sort is stable: the entries of one rank keep their order. -/
theorem filter_mergeSort_rank (h : ∀ a ∈ l, ∀ b ∈ l, le a b = decide (f a ≤ f b)) (k : β) :
    (l.mergeSort le).filter (fun a => decide (f a = k)) = l.filter fun a => decide (f a = k) := by
  rw [mergeSort_eq_rank h]
  have hties : (l.filter fun a => decide (f a = k)).Pairwise fun a b =>
      decide (f a ≤ f b) = true := by
    refine List.pairwise_of_forall_mem_list fun a ha b hb => ?_
    have hka := of_decide_eq_true (List.mem_filter.mp ha).2
    have hkb := of_decide_eq_true (List.mem_filter.mp hb).2
    exact decide_eq_true (le_of_eq (hka.trans hkb.symm))
  have hsub := (sublist_mergeSort rank_trans rank_total hties filter_sublist).filter
    fun a => decide (f a = k)
  rw [filter_filter] at hsub
  simp only [Bool.and_self] at hsub
  have hlen := ((mergeSort_perm l fun a b => decide (f a ≤ f b)).filter
    fun a => decide (f a = k)).length_eq
  exact (hsub.eq_of_length hlen.symm).symm

end List
