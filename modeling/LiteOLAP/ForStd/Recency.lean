import Mathlib

/-!
# Lists in order of recency

`Recent history l` says that `l` lists some of the accesses recorded in `history` (the last one
first) in the order in which they last occurred. It is what an eviction list has to keep.

## Key results

- `Recent.miss`, `Recent.push`, `Recent.again`: what an access does to the order
- `Recent.idxOf_le`: an element further back was accessed longer ago
-/

variable {α : Type} [DecidableEq α]

/-- `l` is in the order of the last accesses to its elements, the most recent first. -/
structure Recent (history l : List α) : Prop where
  mem : ∀ a ∈ l, a ∈ history
  sorted : l.Pairwise fun a b => history.idxOf a < history.idxOf b

namespace Recent

variable {history l : List α} {a : α}

theorem nil (history : List α) : Recent history [] := ⟨by simp, .nil⟩

theorem sublist (h : Recent history l) {l' : List α} (hsub : l'.Sublist l) : Recent history l' :=
  ⟨fun a ha => h.mem a (hsub.subset ha), h.sorted.sublist hsub⟩

/-- An access to something else makes all elements one access older. -/
theorem miss (h : Recent history l) (ha : a ∉ l) : Recent (a :: history) l := by
  have hne : ∀ b ∈ l, b ≠ a := fun b hb hba => ha (hba ▸ hb)
  refine ⟨fun b hb => List.mem_cons_of_mem a (h.mem b hb), h.sorted.imp_of_mem ?_⟩
  intro b c hb hc hlt
  rw [List.idxOf_cons_ne _ (hne b hb).symm, List.idxOf_cons_ne _ (hne c hc).symm]
  omega

/-- A new element goes to the front. -/
theorem push (h : Recent history l) (ha : a ∉ l) : Recent (a :: history) (a :: l) := by
  obtain ⟨hmem, hsorted⟩ := h.miss ha
  refine ⟨fun b hb => ?_, List.pairwise_cons.mpr ⟨fun b hb => ?_, hsorted⟩⟩
  · rcases List.mem_cons.mp hb with rfl | hb
    · exact List.mem_cons_self
    · exact hmem b hb
  · have hne : a ≠ b := fun hab => ha (hab ▸ hb)
    rw [List.idxOf_cons_self, List.idxOf_cons_ne _ hne]
    omega

/-- Another access to the front element changes nothing. -/
theorem again (h : Recent history (a :: l)) : Recent (a :: history) (a :: l) := by
  have ha : a ∉ l := by
    intro ha
    exact Nat.lt_irrefl _ ((List.pairwise_cons.mp h.sorted).1 a ha)
  exact (h.sublist (List.sublist_cons_self a l)).push ha

/-- An element further back was accessed longer ago. -/
theorem idxOf_le {newer older : List α} (h : Recent history (newer ++ a :: older)) {b : α}
    (hb : b ∈ newer ∨ b = a) : history.idxOf b ≤ history.idxOf a := by
  rcases hb with hb | rfl
  · exact Nat.le_of_lt ((List.pairwise_append.mp h.sorted).2.2 b hb a List.mem_cons_self)
  · exact Nat.le_refl _

end Recent
