import Mathlib

/-!
# Linked chains in a store

A store finds a cell under an address; a cell names the address of the next one, and one
address ends every chain. `Chain cell next stop i l` says that the walk from address `i` visits
the addresses `l` and then arrives at `stop`.

## Key results

- `Chain.unique`: an address starts at most one chain
- `Chain.nodup`: a chain that ends visits no address twice
- `Chain.congr`: a chain depends on the cells it visits only
- `Chain.link`: each cell of a chain names the next one
- `chain_of_links`: a row of cells, each naming the next, is a chain
-/

section

variable {ι α : Type} (cell : ι → Option α) (next : α → ι) (stop : ι)

/-- The walk from an address visits the given addresses, then ends. -/
def Chain : ι → List ι → Prop
  | i, [] => i = stop
  | i, j :: l => i = j ∧ i ≠ stop ∧ ∃ a, cell i = some a ∧ Chain (next a) l

end

namespace Chain

variable {ι α : Type} {cell cell' : ι → Option α} {next : α → ι} {stop i : ι} {l l' : List ι}

/-- An address starts at most one chain. -/
theorem unique (h : Chain cell next stop i l) (h' : Chain cell next stop i l') : l = l' := by
  induction l generalizing i l' with
  | nil =>
    cases l' with
    | nil => rfl
    | cons j l' => exact absurd h h'.2.1
  | cons j l ih =>
    cases l' with
    | nil => exact absurd h' h.2.1
    | cons j' l' =>
      obtain ⟨rfl, -, a, ha, hl⟩ := h
      obtain ⟨rfl, -, a', ha', hl'⟩ := h'
      obtain rfl : a = a' := by rw [ha] at ha'; exact Option.some.inj ha'
      rw [ih hl hl']

/-- Every part of a chain is the chain of the address it begins with. -/
theorem of_append {j : ι} {front back : List ι} (h : Chain cell next stop i (front ++ j :: back)) :
    Chain cell next stop j (j :: back) := by
  induction front generalizing i with
  | nil => exact h.1 ▸ h
  | cons k front ih =>
    obtain ⟨-, -, a, -, hl⟩ := h
    exact ih hl

/-- A chain that ends visits no address twice. -/
theorem nodup (h : Chain cell next stop i l) : l.Nodup := by
  induction l generalizing i with
  | nil => exact List.nodup_nil
  | cons j l ih =>
    have hj : Chain cell next stop j (j :: l) := h.1 ▸ h
    obtain ⟨-, -, a, -, hl⟩ := h
    refine List.nodup_cons.mpr ⟨fun hmem => ?_, ih hl⟩
    -- a second visit would start a shorter chain from the same address
    obtain ⟨front, back, rfl⟩ := List.append_of_mem hmem
    have hback := hj.unique (of_append hl)
    have hlen := congrArg List.length hback
    simp only [List.length_cons, List.length_append] at hlen
    omega

/-- The chain visits cells that exist, at addresses other than the end. -/
theorem mem {j : ι} (h : Chain cell next stop i l) (hj : j ∈ l) :
    j ≠ stop ∧ ∃ a, cell j = some a := by
  induction l generalizing i with
  | nil => simp at hj
  | cons k l ih =>
    obtain ⟨rfl, hi, a, ha, hl⟩ := h
    rcases List.mem_cons.mp hj with rfl | hj
    · exact ⟨hi, a, ha⟩
    · exact ih hl hj

/-- Each cell of a chain names the next one, and the last one names the end. -/
theorem link (h : Chain cell next stop i l) {k : ℕ} (hk : k < l.length) :
    ∃ a, cell l[k] = some a ∧ next a = l.getD (k + 1) stop := by
  induction l generalizing i k with
  | nil => exact absurd hk (Nat.not_lt_zero k)
  | cons j l ih =>
    obtain ⟨rfl, -, a, ha, hl⟩ := h
    cases k with
    | zero =>
      refine ⟨a, ha, ?_⟩
      cases l with
      | nil => exact hl
      | cons k l => exact hl.1
    | succ k => exact ih hl (by simpa using hk)

/-- A chain depends on the cells it visits only. -/
theorem congr (h : Chain cell next stop i l) (hcell : ∀ j ∈ l, cell' j = cell j) :
    Chain cell' next stop i l := by
  induction l generalizing i with
  | nil => exact h
  | cons j l ih =>
    obtain ⟨rfl, hi, a, ha, hl⟩ := h
    exact ⟨rfl, hi, a, (hcell i List.mem_cons_self).trans ha,
      ih hl fun k hk => hcell k (List.mem_cons_of_mem _ hk)⟩

end Chain

/-- A row of cells, each naming the next and the last one naming the end, is a chain. -/
theorem chain_of_links {ι α : Type} {cell : ι → Option α} {next : α → ι} {stop : ι} {l : List ι}
    (hstop : stop ∉ l)
    (hlinks : ∀ k (hk : k < l.length), ∃ a, cell l[k] = some a ∧ next a = l.getD (k + 1) stop) :
    Chain cell next stop (l.getD 0 stop) l := by
  induction l with
  | nil => rfl
  | cons i l ih =>
    have htail : Chain cell next stop (l.getD 0 stop) l := by
      refine ih (fun h => hstop (List.mem_cons_of_mem _ h)) fun k hk => ?_
      have hlink := hlinks (k + 1) (by simpa using hk)
      simp only [List.getElem_cons_succ, List.getD_cons_succ] at hlink
      exact hlink
    obtain ⟨a, ha, hnext⟩ := hlinks 0 (by simp)
    refine ⟨rfl, fun h => hstop ?_, a, ha, ?_⟩
    · exact List.mem_cons.mpr (.inl h.symm)
    · rw [hnext]
      exact htail
