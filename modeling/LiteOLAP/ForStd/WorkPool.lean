import LiteOLAP.ForStd.Except

/-!
# Workers that share a cursor

`n` workers take the items of a list off a shared atomic cursor. Each worker folds the items
it has taken into an accumulator of its own with a step that may throw. `Step` is one action
of one worker, so a run of it is an interleaving.

A run decides which worker gets which item and nothing else: at the end every worker has
folded exactly the items assigned to it, in increasing order.

## Key results

- `exists_assignment`: the accumulators of a finished run, from the assignment it made
- `acc_preserved`, `not_crashes`: a property that the step keeps, and on which it never throws
- `foldlM_of_never_crashes`: without a crash, the items can be folded one after another
-/

/-- One worker: its accumulator, the item it is working on and whether it has left its loop. -/
structure PoolWorker (σ : Type) where
  acc : σ
  job : Option Nat
  finished : Bool

/-- The shared cursor and the workers. -/
structure WorkPool (n : Nat) (σ : Type) where
  cursor : Nat
  workers : Fin n → PoolWorker σ

namespace WorkPool

variable {n : Nat} {σ α ε : Type}

/-- No item taken, every worker with the accumulator `s`. -/
def init (s : σ) : WorkPool n σ := ⟨0, fun _ => ⟨s, none, false⟩⟩

/-- One action of one worker. -/
inductive Step (f : σ → α → Except ε σ) (items : List α) : WorkPool n σ → WorkPool n σ → Prop
  /-- `fetch_add(1)` returns the position of an item. -/
  | fetch (p : WorkPool n σ) (w : Fin n) (idle : (p.workers w).job = none)
      (running : (p.workers w).finished = false) (more : p.cursor < items.length) :
      Step f items p ⟨p.cursor + 1,
        Function.update p.workers w { p.workers w with job := some p.cursor }⟩
  /-- `fetch_add(1)` returns a position past the end, and the worker leaves its loop. -/
  | stop (p : WorkPool n σ) (w : Fin n) (idle : (p.workers w).job = none)
      (running : (p.workers w).finished = false) (none_left : items.length ≤ p.cursor) :
      Step f items p ⟨p.cursor + 1,
        Function.update p.workers w { p.workers w with finished := true }⟩
  /-- The worker folds in the item it has taken. -/
  | work (p : WorkPool n σ) (w : Fin n) {i : Nat} {x : α} {acc : σ}
      (busy : (p.workers w).job = some i) (item : items[i]? = some x)
      (ok : f (p.workers w).acc x = .ok acc) :
      Step f items p ⟨p.cursor, Function.update p.workers w { p.workers w with acc, job := none }⟩

/-- Some worker's step throws, which ends the process. -/
def Crashes (f : σ → α → Except ε σ) (items : List α) (p : WorkPool n σ) : Prop :=
  ∃ (w : Fin n) (i : Nat) (x : α) (e : ε), (p.workers w).job = some i ∧ items[i]? = some x ∧
    f (p.workers w).acc x = .error e

/-- Every worker has left its loop. -/
def Finished (p : WorkPool n σ) : Prop := ∀ w, (p.workers w).finished = true

/-- A run of any length from the start. -/
def Reaches (f : σ → α → Except ε σ) (items : List α) (s : σ) (p : WorkPool n σ) : Prop :=
  Relation.ReflTransGen (Step f items) (init s) p

/-- The step on the item at position `i`. -/
def stepAt (f : σ → α → Except ε σ) (items : List α) (s : σ) (i : Nat) : Except ε σ :=
  match items[i]? with
  | some x => f s x
  | none => .ok s

/-- The positions below `c` that are assigned to worker `w`, in increasing order. -/
def taken (assign : Nat → Nat) (w c : Nat) : List Nat :=
  (List.range c).filter fun i => assign i = w

/-- What worker `w` makes of the items assigned to it. -/
def runWorker (f : σ → α → Except ε σ) (items : List α) (assign : Nat → Nat) (s : σ) (w : Nat) :
    Except ε σ :=
  (taken assign w items.length).foldlM (stepAt f items) s

private theorem taken_succ (assign : Nat → Nat) (w c : Nat) :
    taken assign w (c + 1) = taken assign w c ++ if assign c = w then [c] else [] := by
  simp [taken, List.range_succ, List.filter_append, List.filter_singleton, Bool.cond_eq_ite]

private theorem taken_update_of_le {assign : Nat → Nat} {w c k j : Nat} (h : c ≤ k) :
    taken (Function.update assign k j) w c = taken assign w c := by
  apply List.filter_congr
  intro i hi
  have hne : i ≠ k := by have := List.mem_range.mp hi; omega
  rw [Function.update_of_ne hne]

/-- What a worker has done with the items taken so far, under an assignment of these. -/
def Consistent (f : σ → α → Except ε σ) (items : List α) (s : σ) (assign : Nat → Nat)
    (p : WorkPool n σ) (w : Fin n) : Prop :=
  match (p.workers w).job with
  | none => (taken assign w (min p.cursor items.length)).foldlM (stepAt f items) s =
      .ok (p.workers w).acc
  | some i => ∃ before, taken assign w (min p.cursor items.length) = before ++ [i] ∧
      before.foldlM (stepAt f items) s = .ok (p.workers w).acc

/-- The assignment made so far explains every accumulator. -/
structure Explains (f : σ → α → Except ε σ) (items : List α) (s : σ) (assign : Nat → Nat)
    (p : WorkPool n σ) : Prop where
  assigned : ∀ i < min p.cursor items.length, assign i < n
  consistent : ∀ w, Consistent f items s assign p w
  finished : ∀ w, (p.workers w).finished = true →
    items.length ≤ p.cursor ∧ (p.workers w).job = none

private theorem explains_step {f : σ → α → Except ε σ} {items : List α} {s : σ}
    {assign : Nat → Nat} {p p' : WorkPool n σ} (h : Explains f items s assign p)
    (hstep : Step f items p p') : ∃ assign', Explains f items s assign' p' := by
  cases hstep with
  | fetch w idle running more =>
    -- the item at the cursor goes to `w`
    refine ⟨Function.update assign p.cursor w, ?_, ?_, ?_⟩
    · intro i hi
      by_cases hc : i = p.cursor
      · subst hc
        rw [Function.update_self]
        exact w.isLt
      · rw [Function.update_of_ne hc]
        exact h.assigned i (by simp only at hi; omega)
    · intro v
      have hmin : min (p.cursor + 1) items.length = p.cursor + 1 := by omega
      have hmin' : min p.cursor items.length = p.cursor := by omega
      have hv := h.consistent v
      simp only [Consistent, hmin'] at hv
      simp only [Consistent, hmin, taken_succ, Function.update_self,
        taken_update_of_le (le_refl p.cursor)]
      by_cases hw : v = w
      · subst hw
        simp only [idle] at hv
        simp only [Function.update_self, if_true]
        exact ⟨_, rfl, hv⟩
      · have hne : (w : Nat) ≠ v := fun hc => hw (Fin.ext hc.symm)
        simpa only [Function.update_of_ne hw, hne, if_false, List.append_nil] using hv
    · intro v hv
      by_cases hw : v = w
      · subst hw
        simp only [Function.update_self, running] at hv
        cases hv
      · simp only [Function.update_of_ne hw] at hv ⊢
        obtain ⟨hlen, -⟩ := h.finished v hv
        omega
  | stop w idle running none_left =>
    have hmin : min (p.cursor + 1) items.length = min p.cursor items.length := by omega
    refine ⟨assign, ?_, ?_, ?_⟩
    · intro i hi
      exact h.assigned i (by rwa [← hmin])
    · intro v
      have hv := h.consistent v
      simp only [Consistent, hmin] at hv ⊢
      by_cases hw : v = w
      · subst hw
        simpa only [Function.update_self] using hv
      · simpa only [Function.update_of_ne hw] using hv
    · intro v hv
      by_cases hw : v = w
      · subst hw
        exact ⟨by simp only; omega, by simpa only [Function.update_self] using idle⟩
      · simp only [Function.update_of_ne hw] at hv ⊢
        exact ⟨by omega, (h.finished v hv).2⟩
  | @work w i x acc busy item ok =>
    refine ⟨assign, h.assigned, ?_, ?_⟩
    · intro v
      have hv := h.consistent v
      simp only [Consistent] at hv ⊢
      by_cases hw : v = w
      · subst hw
        simp only [busy] at hv
        obtain ⟨before, htaken, hrun⟩ := hv
        simp only [Function.update_self]
        rw [htaken, List.foldlM_append, hrun]
        simp [stepAt, item, ok]
      · simpa only [Function.update_of_ne hw] using hv
    · intro v hv
      by_cases hw : v = w
      · subst hw
        simp only [Function.update_self] at hv ⊢
        exact ⟨(h.finished v hv).1, trivial⟩
      · simp only [Function.update_of_ne hw] at hv ⊢
        exact h.finished v hv

private theorem explains_reaches {f : σ → α → Except ε σ} {items : List α} {s : σ}
    {p : WorkPool n σ} (hreach : Reaches f items s p) :
    ∃ assign, Explains f items s assign p := by
  induction hreach with
  | refl =>
    refine ⟨fun _ => 0, ?_, ?_, ?_⟩
    · intro i hi
      simp [init] at hi
    · intro w
      simp [Consistent, init, taken]
    · intro w hw
      simp [init] at hw
  | tail _ hstep ih =>
    obtain ⟨assign, h⟩ := ih
    exact explains_step h hstep

/-- At the end of a run every item has been assigned to one worker, and each worker has folded
    its items in increasing order. -/
theorem exists_assignment {f : σ → α → Except ε σ} {items : List α} {s : σ} {p : WorkPool n σ}
    (hn : 0 < n) (hreach : Reaches f items s p) (hfinished : p.Finished) :
    ∃ assign : Nat → Nat, (∀ i < items.length, assign i < n) ∧
      ∀ w : Fin n, runWorker f items assign s w = .ok (p.workers w).acc := by
  obtain ⟨assign, h⟩ := explains_reaches hreach
  have hlen : items.length ≤ p.cursor := (h.finished ⟨0, hn⟩ (hfinished _)).1
  have hmin : min p.cursor items.length = items.length := by omega
  refine ⟨assign, fun i hi => h.assigned i (by rwa [hmin]), fun w => ?_⟩
  have hw := h.consistent w
  rw [Consistent, (h.finished w (hfinished w)).2] at hw
  rwa [hmin] at hw

section Invariant

variable {f : σ → α → Except ε σ} {items : List α} {P : σ → Prop}

/-- What the step keeps whenever it returns holds of every accumulator, at every point of every
    run. -/
theorem acc_preserved {s : σ} {p : WorkPool n σ}
    (hkeep : ∀ x ∈ items, ∀ s s', P s → f s x = .ok s' → P s') (hs : P s)
    (hreach : Reaches f items s p) : ∀ w, P (p.workers w).acc := by
  induction hreach with
  | refl => exact fun _ => hs
  | tail _ hstep ih =>
    intro v
    cases hstep with
    | fetch w _ _ _ | stop w _ _ _ =>
      by_cases hw : v = w
      · subst hw
        simpa only [Function.update_self] using ih v
      · simpa only [Function.update_of_ne hw] using ih v
    | work w _ item ok =>
      by_cases hw : v = w
      · subst hw
        have hP := hkeep _ (List.mem_of_getElem? item) _ _ (ih v) ok
        simpa only [Function.update_self] using hP
      · simpa only [Function.update_of_ne hw] using ih v

/-- If the step never throws where `P` holds, no run crashes. -/
theorem not_crashes {s : σ} {p : WorkPool n σ}
    (hkeep : ∀ x ∈ items, ∀ s, P s → ∃ s', f s x = .ok s' ∧ P s') (hs : P s)
    (hreach : Reaches f items s p) : ¬ p.Crashes f items := by
  rintro ⟨w, i, x, e, -, hitem, herror⟩
  have hP : P (p.workers w).acc := acc_preserved
    (fun x hx s s' hP hs' => by
      obtain ⟨s'', hs'', hP'⟩ := hkeep x hx s hP
      rwa [Except.ok.inj (hs'.symm.trans hs'')]) hs hreach w
  obtain ⟨s', hs', -⟩ := hkeep x (List.mem_of_getElem? hitem) _ hP
  rw [hs'] at herror
  cases herror

end Invariant

section Alone

variable {f : σ → α → Except ε σ} {items : List α} {s : σ}

/-- A pool of one worker. -/
def alone (cursor : Nat) (w : PoolWorker σ) : WorkPool 1 σ := ⟨cursor, fun _ => w⟩

private theorem update_alone (c : Nat) (w w' : PoolWorker σ) :
    (⟨c, Function.update (alone c w).workers 0 w'⟩ : WorkPool 1 σ) = alone c w' := by
  refine congrArg (WorkPool.mk c) (funext fun v => ?_)
  obtain rfl := Fin.fin_one_eq_zero v
  exact Function.update_self ..

private theorem fetch_alone {k : Nat} {acc : σ} (hlt : k < items.length) :
    Step f items (alone k ⟨acc, none, false⟩) (alone (k + 1) ⟨acc, some k, false⟩) := by
  rw [← update_alone (k + 1) ⟨acc, none, false⟩]
  exact Step.fetch (alone k ⟨acc, none, false⟩) 0 rfl rfl hlt

private theorem work_alone {c k : Nat} {x : α} {acc acc' : σ} (hx : items[k]? = some x)
    (hok : f acc x = .ok acc') :
    Step f items (alone c ⟨acc, some k, false⟩) (alone c ⟨acc', none, false⟩) := by
  rw [← update_alone c ⟨acc, some k, false⟩ ⟨acc', none, false⟩]
  exact Step.work (alone c ⟨acc, some k, false⟩) 0 rfl hx hok

/-- If no run of a single worker crashes, the items can be folded one after another. -/
theorem foldlM_of_never_crashes
    (h : ∀ p : WorkPool 1 σ, p.Reaches f items s → ¬ p.Crashes f items) :
    ∃ s', items.foldlM f s = .ok s' := by
  suffices hrun : ∃ s', items.foldlM f s = .ok s' ∧
      (alone items.length ⟨s', none, false⟩).Reaches f items s by
    obtain ⟨s', hs', -⟩ := hrun
    exact ⟨s', hs'⟩
  refine Except.foldlM_prefix
    (fun done acc => (alone done.length ⟨acc, none, false⟩).Reaches f items s)
    (fun done x rest acc hl hreach => ?_) Relation.ReflTransGen.refl
  have hx : items[done.length]? = some x := by simp [← hl]
  have hfetch := hreach.tail (fetch_alone (List.getElem?_eq_some_iff.mp hx).1)
  cases hstep : f acc x with
  | ok acc' =>
    refine ⟨acc', rfl, ?_⟩
    rw [List.length_append, List.length_singleton]
    exact hfetch.tail (work_alone hx hstep)
  | error e => exact absurd ⟨0, done.length, x, e, rfl, hx, hstep⟩ (h _ hfetch)

end Alone

end WorkPool
