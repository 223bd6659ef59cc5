import LiteOLAP.ForStd.Bytes

/-!
# Exceptions

How a sequence of steps that may throw is taken apart: `simp` runs a bind on a known first
step, and `bind_eq_ok` splits a run that did not throw.

## Key results

- `bind_eq_ok`: a sequence succeeds when its steps do
- `foldlM_ok`: a loop whose step keeps an invariant of what it has consumed
- `foldlM_items`: a counted loop with an invariant of what is left to consume
-/

namespace Except

variable {ε α β : Type}

@[simp] theorem ok_bind (a : α) (f : α → Except ε β) : (Except.ok a >>= f) = f a := rfl

@[simp] theorem error_bind (e : ε) (f : α → Except ε β) :
    ((Except.error e : Except ε α) >>= f) = .error e := rfl

@[simp] theorem pure_eq_ok (a : α) : (pure a : Except ε α) = .ok a := rfl

@[simp] theorem throw_eq_error (e : ε) : (throw e : Except ε α) = .error e := rfl

/-- A sequence succeeds when its first step does, and its second does on the result. -/
theorem bind_eq_ok {x : Except ε α} {f : α → Except ε β} {b : β} :
    (x >>= f) = .ok b ↔ ∃ a, x = .ok a ∧ f a = .ok b := by
  cases x with
  | error e => simp
  | ok a => simp

/-- What is done to the result of a sequence can be done to that of its second step. -/
theorem map_bind {γ : Type} (h : β → γ) (x : Except ε α) (f : α → Except ε β) :
    (x >>= f).map h = x >>= fun a => (f a).map h := by
  cases x <;> rfl

private theorem foldlM_prefix_from (Inv : List α → β → Prop) {f : β → α → Except ε β}
    {l : List α} (hstep : ∀ done x rest s, done ++ x :: rest = l → Inv done s →
      ∃ s', f s x = .ok s' ∧ Inv (done ++ [x]) s')
    {done rest : List α} (hl : done ++ rest = l) {s : β} (hinv : Inv done s) :
    ∃ s', rest.foldlM f s = .ok s' ∧ Inv l s' := by
  induction rest generalizing done s with
  | nil => exact ⟨s, rfl, by simpa [← hl] using hinv⟩
  | cons x xs ih =>
    obtain ⟨s₁, hs₁, hinv₁⟩ := hstep done x xs s hl hinv
    obtain ⟨s₂, hs₂, hinv₂⟩ := ih (by simpa using hl) hinv₁
    exact ⟨s₂, by rw [List.foldlM_cons, hs₁]; exact hs₂, hinv₂⟩

/-- A loop none of whose steps throws, with `Inv` relating the consumed prefix of the list to
    the state: it holds of the whole list at the end. -/
theorem foldlM_prefix (Inv : List α → β → Prop) {f : β → α → Except ε β} {l : List α} {s : β}
    (hstep : ∀ done x rest s, done ++ x :: rest = l → Inv done s →
      ∃ s', f s x = .ok s' ∧ Inv (done ++ [x]) s')
    (hinit : Inv [] s) : ∃ s', l.foldlM f s = .ok s' ∧ Inv l s' :=
  foldlM_prefix_from Inv hstep (List.nil_append l) hinit

/-- `foldlM_prefix` for a step that works on any element of the list. -/
theorem foldlM_ok (Inv : List α → β → Prop) {f : β → α → Except ε β} {l : List α} {s : β}
    (hstep : ∀ done x s, x ∈ l → Inv done s → ∃ s', f s x = .ok s' ∧ Inv (done ++ [x]) s')
    (hinit : Inv [] s) : ∃ s', l.foldlM f s = .ok s' ∧ Inv l s' :=
  foldlM_prefix Inv (fun done x rest s hl => hstep done x s (by simp [← hl])) hinit

/-- What every step of a loop keeps whenever it returns, a loop that returns keeps. -/
theorem foldlM_preserves {f : β → α → Except ε β} {P : β → Prop} {l : List α} {s s' : β}
    (hstep : ∀ s, ∀ x ∈ l, ∀ s', P s → f s x = .ok s' → P s') (hs : P s)
    (h : l.foldlM f s = .ok s') : P s' := by
  induction l generalizing s with
  | nil =>
    cases h
    exact hs
  | cons x xs ih =>
    rw [List.foldlM_cons] at h
    obtain ⟨t, ht, h⟩ := bind_eq_ok.mp h
    exact ih (fun s y hy => hstep s y (List.mem_cons_of_mem _ hy)) (hstep s x (by simp) t hs ht) h

/-- What every step tells about its element whenever it returns, a loop that returns tells about
    all of them. -/
theorem foldlM_forall {f : β → α → Except ε β} {P : β → Prop} {Q : α → Prop} {l : List α} {s s' : β}
    (hstep : ∀ s, ∀ x ∈ l, ∀ s', P s → f s x = .ok s' → P s' ∧ Q x) (hs : P s)
    (h : l.foldlM f s = .ok s') : ∀ x ∈ l, Q x := by
  induction l generalizing s with
  | nil => exact fun x hx => by cases hx
  | cons x xs ih =>
    rw [List.foldlM_cons] at h
    obtain ⟨t, ht, h⟩ := bind_eq_ok.mp h
    obtain ⟨hP, hQ⟩ := hstep s x (by simp) t hs ht
    have hrest := ih (fun s y hy => hstep s y (List.mem_cons_of_mem _ hy)) hP h
    exact List.forall_mem_cons.mpr ⟨hQ, hrest⟩

/-- A loop whose steps agree with those of another wherever the other does not throw `e` agrees
    with it if it does not throw `e`. -/
theorem foldlM_eq_of_ne {f g : β → α → Except ε β} {e : ε}
    (hstep : ∀ s x, f s x ≠ .error e → g s x = f s x) {l : List α} {s : β}
    (h : l.foldlM f s ≠ .error e) : l.foldlM g s = l.foldlM f s := by
  induction l generalizing s with
  | nil => rfl
  | cons x xs ih =>
    rw [List.foldlM_cons] at h
    have hx : f s x ≠ .error e := fun hx => h (by rw [hx]; rfl)
    rw [List.foldlM_cons, List.foldlM_cons, hstep s x hx]
    cases hrun : f s x with
    | error e' => rfl
    | ok s' =>
      rw [hrun] at h
      exact ih h

/-- A counted loop that consumes one item each time round. -/
theorem foldlM_items {ι : Type} (Inv : List α → β → Prop) {f : β → Except ε β}
    (hstep : ∀ x xs s, Inv (x :: xs) s → ∃ s', f s = .ok s' ∧ Inv xs s')
    {items : List α} {l : List ι} (hlen : l.length = items.length) {s : β}
    (hinit : Inv items s) : ∃ s', l.foldlM (fun s _ => f s) s = .ok s' ∧ Inv [] s' := by
  induction items generalizing l s with
  | nil =>
    obtain rfl := List.eq_nil_of_length_eq_zero hlen
    exact ⟨s, rfl, hinit⟩
  | cons x xs ih =>
    cases l with
    | nil => simp at hlen
    | cons i l =>
      obtain ⟨s₁, hs₁, hinv₁⟩ := hstep x xs s hinit
      obtain ⟨s₂, hs₂, hinv₂⟩ := ih (by simpa using hlen) hinv₁
      exact ⟨s₂, by rw [List.foldlM_cons, hs₁]; exact hs₂, hinv₂⟩

end Except
