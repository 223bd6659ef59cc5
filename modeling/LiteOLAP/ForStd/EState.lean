import Mathlib

/-!
# State that outlives an exception

`EStateM ε σ` runs code that changes a state and may throw: the state at the throw is kept, as
the fields of a C++ object keep what was assigned before an exception left a member function.
A run is a function of the state; these lemmas take a sequence apart.

## Key results

- `bind_eq_ok`, `bind_eq_error`: what a sequence did, from what its parts did
- `zoom`: run a computation on a part of the state
- `Returns.bind`: the rule for a sequence that has to return, as long as a limit on the state is
  not exceeded
- `Returns.foldlM`, `Returns.mapM`: the rules for loops
- `Ends.bind`, `Ends.mapM`: the rules for runs that may throw
- `Returns.bind_leaves`: the rule for what a run leaves, if only its first step has to return
- `Moves.bind`, `Moves.forM`: the rules for a relation between the states before and after a run
-/

namespace EStateM

variable {ε σ τ α β : Type}

@[simp] theorem pure_apply (a : α) (s : σ) : (pure a : EStateM ε σ α) s = .ok a s := rfl

@[simp] theorem throw_apply (e : ε) (s : σ) :
    (throw e : EStateM ε σ α) s = .error e s := rfl

@[simp] theorem get_apply (s : σ) : (get : EStateM ε σ σ) s = .ok s s := rfl

@[simp] theorem set_apply (s s' : σ) : (set s' : EStateM ε σ PUnit) s = .ok ⟨⟩ s' := rfl

@[simp] theorem modify_apply (f : σ → σ) (s : σ) :
    (modify f : EStateM ε σ PUnit) s = .ok ⟨⟩ (f s) := rfl

theorem bind_apply (x : EStateM ε σ α) (f : α → EStateM ε σ β) (s : σ) :
    (x >>= f) s = match x s with
      | .ok a s' => f a s'
      | .error e s' => .error e s' := rfl

theorem ite_apply {c : Prop} [Decidable c] (x y : EStateM ε σ α) (s : σ) :
    (if c then x else y) s = if c then x s else y s := by
  split <;> rfl

/-- A sequence goes on from where its first step returned. -/
theorem bind_of_ok {x : EStateM ε σ α} {f : α → EStateM ε σ β} {s s' : σ} {a : α}
    (h : x s = .ok a s') : (x >>= f) s = f a s' := by
  rw [bind_apply, h]

/-- A sequence stops where its first step threw. -/
theorem bind_of_error {x : EStateM ε σ α} {f : α → EStateM ε σ β} {s s' : σ} {e : ε}
    (h : x s = .error e s') : (x >>= f) s = .error e s' := by
  rw [bind_apply, h]

/-- A sequence returns when its steps do. -/
theorem bind_eq_ok {x : EStateM ε σ α} {f : α → EStateM ε σ β} {s s'' : σ} {b : β} :
    (x >>= f) s = .ok b s'' ↔ ∃ a s', x s = .ok a s' ∧ f a s' = .ok b s'' := by
  rw [bind_apply]
  cases x s with
  | ok a s' => simp
  | error e s' => simp

/-- A sequence throws where one of its steps does. -/
theorem bind_eq_error {x : EStateM ε σ α} {f : α → EStateM ε σ β} {s s'' : σ} {e : ε} :
    (x >>= f) s = .error e s'' ↔
      x s = .error e s'' ∨ ∃ a s', x s = .ok a s' ∧ f a s' = .error e s'' := by
  rw [bind_apply]
  cases x s with
  | ok a s' => simp
  | error e s' => simp

/-- The state a run ends in, whether it returned or threw. -/
def Result.state : Result ε σ α → σ
  | .ok _ s => s
  | .error _ s => s

@[simp] theorem Result.state_ok (a : α) (s : σ) : (Result.ok a s : Result ε σ α).state = s := rfl

@[simp] theorem Result.state_error (e : ε) (s : σ) :
    (Result.error e s : Result ε σ α).state = s := rfl

/-- A computation without state of its own. -/
def ofExcept (x : Except ε α) : EStateM ε σ α := fun s =>
  match x with
  | .ok a => .ok a s
  | .error e => .error e s

@[simp] theorem ofExcept_ok (a : α) (s : σ) :
    (ofExcept (.ok a) : EStateM ε σ α) s = .ok a s := rfl

@[simp] theorem ofExcept_error (e : ε) (s : σ) :
    (ofExcept (.error e) : EStateM ε σ α) s = .error e s := rfl

/-- Run a computation on the part of the state that `part` reads and `put` writes back. -/
def zoom (part : σ → τ) (put : τ → σ → σ) (x : EStateM ε τ α) : EStateM ε σ α := fun s =>
  match x (part s) with
  | .ok a t => .ok a (put t s)
  | .error e t => .error e (put t s)

theorem zoom_of_ok {part : σ → τ} {put : τ → σ → σ} {x : EStateM ε τ α} {s : σ} {t : τ} {a : α}
    (h : x (part s) = .ok a t) : zoom part put x s = .ok a (put t s) := by
  rw [zoom, h]

theorem zoom_of_error {part : σ → τ} {put : τ → σ → σ} {x : EStateM ε τ α} {s : σ} {t : τ}
    {e : ε} (h : x (part s) = .error e t) : zoom part put x s = .error e (put t s) := by
  rw [zoom, h]

theorem zoom_eq_ok {part : σ → τ} {put : τ → σ → σ} {x : EStateM ε τ α} {s s' : σ} {a : α} :
    zoom part put x s = .ok a s' ↔ ∃ t, x (part s) = .ok a t ∧ s' = put t s := by
  rw [zoom]
  cases x (part s) with
  | ok b t => simp [eq_comm]
  | error e t => simp

theorem zoom_eq_error {part : σ → τ} {put : τ → σ → σ} {x : EStateM ε τ α} {s s' : σ} {e : ε} :
    zoom part put x s = .error e s' ↔ ∃ t, x (part s) = .error e t ∧ s' = put t s := by
  rw [zoom]
  cases x (part s) with
  | ok b t => simp
  | error e' t => simp [eq_comm]

/-- No run changes what `part` reads of the state. -/
def Keeps (part : σ → τ) (x : EStateM ε σ α) : Prop := ∀ s, part (x s).state = part s

section

variable {part : σ → τ}

theorem keeps_pure (a : α) : Keeps part (pure a : EStateM ε σ α) := fun _ => rfl

theorem keeps_throw (e : ε) : Keeps part (throw e : EStateM ε σ α) := fun _ => rfl

theorem keeps_get : Keeps part (get : EStateM ε σ σ) := fun _ => rfl

theorem keeps_modify {f : σ → σ} (h : ∀ s, part (f s) = part s) :
    Keeps part (modify f : EStateM ε σ PUnit) := h

theorem keeps_ofExcept (x : Except ε α) : Keeps part (ofExcept x : EStateM ε σ α) := by
  intro s
  cases x with
  | ok a => rfl
  | error e => rfl

theorem Keeps.of_ok {x : EStateM ε σ α} {s s' : σ} {a : α} (h : Keeps part x) (hrun : x s = .ok a s') :
    part s' = part s := by
  have hs := h s
  rwa [hrun] at hs

theorem Keeps.bind {x : EStateM ε σ α} {f : α → EStateM ε σ β} (hx : Keeps part x)
    (hf : ∀ a, Keeps part (f a)) : Keeps part (x >>= f) := by
  intro s
  have hx := hx s
  rw [bind_apply]
  cases hrun : x s with
  | ok a s' =>
    rw [hrun] at hx
    exact (hf a s').trans hx
  | error e s' =>
    rw [hrun] at hx
    exact hx

theorem Keeps.foldlM {f : β → α → EStateM ε σ β} (hf : ∀ b a, Keeps part (f b a)) (l : List α) :
    ∀ b, Keeps part (l.foldlM f b) := by
  induction l with
  | nil => exact fun b => keeps_pure b
  | cons a l ih => exact fun b => (hf b a).bind ih

theorem forM_map {γ : Type} (f : α → γ) (g : γ → EStateM ε σ PUnit) (l : List α) :
    (l.map f).forM g = l.forM fun a => g (f a) := by
  induction l with
  | nil => rfl
  | cons a l ih => exact congrArg (g (f a) >>= ·) (funext fun _ => ih)

theorem Keeps.mapM {f : α → EStateM ε σ β} (hf : ∀ a, Keeps part (f a)) (l : List α) :
    Keeps part (l.mapM f) := by
  induction l with
  | nil => exact keeps_pure []
  | cons a l ih =>
    rw [List.mapM_cons]
    exact (hf a).bind fun b => ih.bind fun bs => keeps_pure _

theorem Keeps.ite {c : Prop} [Decidable c] {x y : EStateM ε σ α} (hx : Keeps part x)
    (hy : Keeps part y) : Keeps part (if c then x else y) := by
  split
  · exact hx
  · exact hy

end

/-! ## Runs that return -/

/-- Once the limit is exceeded it stays exceeded: a run that ends within it began within it. -/
def StaysOver (L : σ → Prop) (x : EStateM ε σ α) : Prop := ∀ s, L (x s).state → L s

/-- A run from `s` that ends within the limit returns, and its result and the state it leaves
    satisfy `Q`. -/
def Returns (L : σ → Prop) (x : EStateM ε σ α) (s : σ) (Q : α → σ → Prop) : Prop :=
  L (x s).state → ∃ a s', x s = .ok a s' ∧ Q a s'

section

variable {L : σ → Prop} {s : σ}

/-- A limit on a part of the state that is kept. -/
theorem Keeps.staysOver {part : σ → τ} {x : EStateM ε σ α} (h : Keeps part x) (P : τ → Prop) :
    StaysOver (fun s => P (part s)) x := by
  intro s hlim
  exact h s ▸ hlim

theorem staysOver_pure (a : α) : StaysOver L (pure a : EStateM ε σ α) := fun _ h => h

theorem staysOver_throw (e : ε) : StaysOver L (throw e : EStateM ε σ α) := fun _ h => h

theorem staysOver_get : StaysOver L (get : EStateM ε σ σ) := fun _ h => h

theorem staysOver_ofExcept (x : Except ε α) : StaysOver L (ofExcept x : EStateM ε σ α) := by
  intro s h
  cases x with
  | ok a => exact h
  | error e => exact h

theorem StaysOver.bind {x : EStateM ε σ α} {f : α → EStateM ε σ β} (hx : StaysOver L x)
    (hf : ∀ a, StaysOver L (f a)) : StaysOver L (x >>= f) := by
  intro s h
  rw [bind_apply] at h
  cases hrun : x s with
  | ok a s' =>
    rw [hrun] at h
    have hmid := hf a s' h
    exact hx s (by rw [hrun]; exact hmid)
  | error e s' =>
    rw [hrun] at h
    exact hx s (by rw [hrun]; exact h)

theorem StaysOver.ite {c : Prop} [Decidable c] {x y : EStateM ε σ α} (hx : StaysOver L x)
    (hy : StaysOver L y) : StaysOver L (if c then x else y) := by
  split
  · exact hx
  · exact hy

theorem StaysOver.foldlM {f : β → α → EStateM ε σ β} (hf : ∀ b a, StaysOver L (f b a))
    (l : List α) : ∀ b, StaysOver L (l.foldlM f b) := by
  induction l with
  | nil => exact fun b => staysOver_pure b
  | cons a l ih => exact fun b => (hf b a).bind ih

theorem StaysOver.mapM {f : α → EStateM ε σ β} (hf : ∀ a, StaysOver L (f a)) (l : List α) :
    StaysOver L (l.mapM f) := by
  induction l with
  | nil => exact staysOver_pure []
  | cons a l ih =>
    rw [List.mapM_cons]
    exact (hf a).bind fun b => ih.bind fun bs => staysOver_pure _

theorem StaysOver.forM {f : α → EStateM ε σ PUnit} (hf : ∀ a, StaysOver L (f a)) (l : List α) :
    StaysOver L (l.forM f) := by
  induction l with
  | nil => exact staysOver_pure PUnit.unit
  | cons a l ih => exact (hf a).bind fun _ => ih

/-- A limit on the part of the state that a computation runs on. -/
theorem StaysOver.zoom {L : τ → Prop} {part : σ → τ} {put : τ → σ → σ} {x : EStateM ε τ α}
    (hput : ∀ t s, part (put t s) = t) (h : StaysOver L x) :
    StaysOver (fun s => L (part s)) (zoom part put x) := by
  intro s hlim
  refine h (part s) ?_
  unfold EStateM.zoom at hlim
  split at hlim <;> rename_i hrun <;> rw [hrun] <;> simpa only [Result.state, hput] using hlim

theorem returns_pure {a : α} {Q : α → σ → Prop} (h : Q a s) :
    Returns L (pure a : EStateM ε σ α) s Q := fun _ => ⟨a, s, rfl, h⟩

theorem returns_ofExcept {x : Except ε α} {a : α} {Q : α → σ → Prop} (hx : x = .ok a)
    (h : Q a s) : Returns L (ofExcept x) s Q := fun _ => ⟨a, s, by rw [hx]; rfl, h⟩

theorem returns_modify {f : σ → σ} {Q : PUnit → σ → Prop} (h : Q ⟨⟩ (f s)) :
    Returns L (modify f : EStateM ε σ PUnit) s Q := fun _ => ⟨⟨⟩, f s, rfl, h⟩

theorem Returns.get {f : σ → EStateM ε σ β} {Q : β → σ → Prop} (h : Returns L (f s) s Q) :
    Returns L (MonadState.get >>= f) s Q := h

theorem Returns.modify {f : σ → σ} {g : PUnit → EStateM ε σ β} {Q : β → σ → Prop}
    (h : Returns L (g ⟨⟩) (f s) Q) : Returns L (modify f >>= g) s Q := h

theorem Returns.ofExcept_bind {a : α} {g : α → EStateM ε σ β} {Q : β → σ → Prop}
    (h : Returns L (g a) s Q) : Returns L (ofExcept (.ok a) >>= g) s Q := h

theorem Returns.mono {x : EStateM ε σ α} {Q Q' : α → σ → Prop} (h : Returns L x s Q)
    (himp : ∀ a s', Q a s' → Q' a s') : Returns L x s Q' := fun hlim => by
  obtain ⟨a, s', hrun, hpost⟩ := h hlim
  exact ⟨a, s', hrun, himp a s' hpost⟩

/-- The state that a run leaves is within the limit. -/
theorem Returns.within {x : EStateM ε σ α} {Q : α → σ → Prop} (h : Returns L x s Q) :
    Returns L x s fun a s' => Q a s' ∧ L s' := fun hlim => by
  obtain ⟨a, s', hrun, hpost⟩ := h hlim
  exact ⟨a, s', hrun, hpost, by rwa [hrun] at hlim⟩

/-- A run on a part of the state. -/
theorem Returns.zoom {L : τ → Prop} {part : σ → τ} {put : τ → σ → σ} {x : EStateM ε τ α} {s : σ}
    {Q : α → τ → Prop} (hput : ∀ t s, part (put t s) = t) (h : Returns L x (part s) Q) :
    Returns (fun s => L (part s)) (zoom part put x) s fun a s' =>
      ∃ t, s' = put t s ∧ Q a t := by
  intro hlim
  have hx : L (x (part s)).state := by
    unfold EStateM.zoom at hlim
    split at hlim <;> rename_i hrun <;> rw [hrun] <;> simpa only [Result.state, hput] using hlim
  obtain ⟨a, t, hrun, hpost⟩ := h hx
  exact ⟨a, put t s, zoom_of_ok hrun, t, rfl, hpost⟩

/-- What a run that returned has done. -/
theorem Returns.ok {x : EStateM ε σ α} {Q : α → σ → Prop} (h : Returns L x s Q) {a : α}
    {s' : σ} (hrun : x s = .ok a s') (hlim : L s') : Q a s' := by
  obtain ⟨a', s'', hrun', hpost⟩ := h (by rw [hrun]; exact hlim)
  rw [hrun] at hrun'
  injection hrun' with ha hs
  exact ha ▸ hs ▸ hpost

/-- A run that keeps the limited part of the state returns if it begins within the limit. -/
theorem Returns.of_keeps {part : σ → τ} {P : τ → Prop} {x : EStateM ε σ α} {Q : α → σ → Prop}
    (h : Returns (fun s => P (part s)) x s Q) (hkeeps : Keeps part x) (hlim : P (part s)) :
    ∃ a s', x s = .ok a s' ∧ Q a s' :=
  h (show P (part (x s).state) from (hkeeps s).symm ▸ hlim)

/-- A sequence goes on from wherever its first step may end. What comes next must not go back
    within the limit. -/
theorem Returns.bind {x : EStateM ε σ α} {f : α → EStateM ε σ β} {mid : α → σ → Prop}
    {Q : β → σ → Prop} (hx : Returns L x s mid) (hover : ∀ a, StaysOver L (f a))
    (hf : ∀ a s', mid a s' → Returns L (f a) s' Q) : Returns L (x >>= f) s Q := by
  intro hlim
  rw [bind_apply] at hlim ⊢
  cases hrun : x s with
  | error e s' =>
    rw [hrun] at hlim
    obtain ⟨a, s'', hrun', -⟩ := hx (by rw [hrun]; exact hlim)
    rw [hrun] at hrun'
    cases hrun'
  | ok a s' =>
    rw [hrun] at hlim
    have hmid := hx.ok hrun (hover a s' hlim)
    exact hf a s' hmid hlim

/-- A loop keeps what each of its rounds keeps; `I` says what holds before the round on the
    rest of the list. -/
theorem Returns.foldlM {f : β → α → EStateM ε σ β} {I : List α → β → σ → Prop}
    (hover : ∀ b a, StaysOver L (f b a)) :
    ∀ {l : List α} {b : β} {s : σ}, I l b s →
      (∀ a l b s, I (a :: l) b s → Returns L (f b a) s fun b' s' => I l b' s') →
      Returns L (l.foldlM f b) s fun b' s' => I [] b' s' := by
  intro l
  induction l with
  | nil => exact fun h _ => returns_pure h
  | cons a l ih =>
    intro b s h hstep
    exact (hstep a l b s h).bind (fun b' => StaysOver.foldlM hover l b') fun b' s' h' =>
      ih h' hstep

/-- A loop without a result. -/
theorem Returns.forM {f : α → EStateM ε σ PUnit} {I : List α → σ → Prop}
    (hover : ∀ a, StaysOver L (f a)) :
    ∀ {l : List α} {s : σ}, I l s →
      (∀ a l s, I (a :: l) s → Returns L (f a) s fun _ s' => I l s') →
      Returns L (l.forM f) s fun _ s' => I [] s' := by
  intro l
  induction l with
  | nil => exact fun h _ => returns_pure h
  | cons a l ih =>
    intro s h hstep
    exact (hstep a l s h).bind (fun _ => StaysOver.forM hover l) fun _ s' h' => ih h' hstep

/-- Running a computation on each element of a list, one after another; what is known of an
    element and of its result is said by the entry of a second list. -/
theorem Returns.mapM {γ : Type} {f : α → EStateM ε σ β} {P : γ → α → Prop} {R : γ → β → Prop}
    {I : σ → Prop} (hover : ∀ a, StaysOver L (f a)) {cs : List γ} {l : List α}
    (hl : List.Forall₂ P cs l) :
    ∀ {s : σ}, I s →
      (∀ c ∈ cs, ∀ a s, P c a → I s → Returns L (f a) s fun b s' => R c b ∧ I s') →
      Returns L (l.mapM f) s fun bs s' => List.Forall₂ R cs bs ∧ I s' := by
  induction hl with
  | nil =>
    intro s h _
    rw [List.mapM_nil]
    exact returns_pure ⟨.nil, h⟩
  | @cons c a cs l hca _ ih =>
    intro s h hstep
    rw [List.mapM_cons]
    refine (hstep c List.mem_cons_self a s hca h).bind (fun b => (StaysOver.mapM hover l).bind fun _ =>
      staysOver_pure _) fun b s' ⟨hb, h'⟩ => ?_
    refine (ih h' fun c' hc' => hstep c' (List.mem_cons_of_mem _ hc')).bind
      (fun _ => staysOver_pure _) fun bs s'' ⟨hbs, h''⟩ => ?_
    exact returns_pure ⟨.cons hb hbs, h''⟩

end

/-! ## Runs that may throw -/

/-- A run from `s` either returns, and `Q` holds of its result and of the state it leaves, or
    throws, and `bad` holds of the state it leaves. -/
def Ends (x : EStateM ε σ α) (s : σ) (Q : α → σ → Prop) (bad : σ → Prop) : Prop :=
  match x s with
  | .ok a s' => Q a s'
  | .error _ s' => bad s'

section

variable {s : σ} {bad : σ → Prop}

theorem ends_pure {a : α} {Q : α → σ → Prop} (h : Q a s) :
    Ends (pure a : EStateM ε σ α) s Q bad := h

theorem ends_throw {e : ε} {Q : α → σ → Prop} (h : bad s) :
    Ends (throw e : EStateM ε σ α) s Q bad := h

theorem ends_ofExcept {x : Except ε α} {Q : α → σ → Prop} (hok : ∀ a, x = .ok a → Q a s)
    (hbad : bad s) : Ends (ofExcept x) s Q bad := by
  cases x with
  | ok a => exact hok a rfl
  | error e => exact hbad

theorem Ends.get {f : σ → EStateM ε σ β} {Q : β → σ → Prop} (h : Ends (f s) s Q bad) :
    Ends (MonadState.get >>= f) s Q bad := h

theorem Ends.mono {x : EStateM ε σ α} {Q Q' : α → σ → Prop} {bad' : σ → Prop}
    (h : Ends x s Q bad) (hpost : ∀ a s', Q a s' → Q' a s')
    (hbad : ∀ s', bad s' → bad' s') : Ends x s Q' bad' := by
  unfold Ends at *
  cases hrun : x s with
  | ok a s' =>
    rw [hrun] at h
    exact hpost a s' h
  | error e s' =>
    rw [hrun] at h
    exact hbad s' h

/-- A sequence goes on from wherever its first step returned. -/
theorem Ends.bind {x : EStateM ε σ α} {f : α → EStateM ε σ β} {mid : α → σ → Prop}
    {Q : β → σ → Prop} (hx : Ends x s mid bad)
    (hf : ∀ a s', mid a s' → Ends (f a) s' Q bad) : Ends (x >>= f) s Q bad := by
  unfold Ends at hx ⊢
  rw [bind_apply]
  cases hrun : x s with
  | ok a s' =>
    rw [hrun] at hx
    exact hf a s' hx
  | error e s' =>
    rw [hrun] at hx
    exact hx

theorem Ends.ite {c : Prop} [Decidable c] {x y : EStateM ε σ α} {Q : α → σ → Prop}
    (hx : c → Ends x s Q bad) (hy : ¬c → Ends y s Q bad) :
    Ends (if c then x else y) s Q bad := by
  split
  · exact hx ‹_›
  · exact hy ‹_›

/-- A run on a part of the state. -/
theorem Ends.zoom {part : σ → τ} {put : τ → σ → σ} {x : EStateM ε τ α} {Q : α → τ → Prop}
    {bad : τ → Prop} (h : Ends x (part s) Q bad) :
    Ends (zoom part put x) s (fun a s' => ∃ t, s' = put t s ∧ Q a t)
      fun s' => ∃ t, s' = put t s ∧ bad t := by
  unfold Ends at h ⊢
  unfold EStateM.zoom
  cases hrun : x (part s) with
  | ok a t =>
    rw [hrun] at h
    exact ⟨t, rfl, h⟩
  | error e t =>
    rw [hrun] at h
    exact ⟨t, rfl, h⟩

/-- Either way, `I` holds of the state that is left. -/
theorem Ends.state {x : EStateM ε σ α} {Q : α → σ → Prop} {I : σ → Prop}
    (h : Ends x s Q bad) (hpost : ∀ a s', Q a s' → I s') (hbad : ∀ s', bad s' → I s') :
    I (x s).state := by
  unfold Ends at h
  cases hrun : x s with
  | ok a s' =>
    rw [hrun] at h
    exact hpost a s' h
  | error e s' =>
    rw [hrun] at h
    exact hbad s' h

/-- Running a computation on each element of a list: `I` holds throughout, and `P` of each
    result. -/
theorem Ends.mapM {f : α → EStateM ε σ β} {P : β → Prop} {I : σ → Prop} {l : List α}
    (hstep : ∀ a ∈ l, ∀ s, I s → Ends (f a) s (fun b s' => P b ∧ I s') I) :
    ∀ {s : σ}, I s → Ends (l.mapM f) s (fun bs s' => (∀ b ∈ bs, P b) ∧ I s') I := by
  induction l with
  | nil =>
    intro s h
    rw [List.mapM_nil]
    exact ends_pure ⟨fun b hb => (by cases hb), h⟩
  | cons a l ih =>
    intro s h
    rw [List.mapM_cons]
    refine (hstep a List.mem_cons_self s h).bind fun b s' ⟨hb, h'⟩ => ?_
    refine (ih (fun a ha => hstep a (List.mem_cons_of_mem _ ha)) h').bind fun bs s'' ⟨hbs, h''⟩ => ?_
    refine ends_pure ⟨fun b' hb' => ?_, h''⟩
    rcases List.mem_cons.mp hb' with rfl | hb'
    · exact hb
    · exact hbs b' hb'

end

/-! ## What a run leaves -/

/-- A run that ends within the limit leaves a state with `I`, whether it returns or throws. -/
def Leaves (L : σ → Prop) (x : EStateM ε σ α) (s : σ) (I : σ → Prop) : Prop :=
  L (x s).state → I (x s).state

section

variable {L I : σ → Prop} {s : σ}

theorem leaves_pure {a : α} (h : I s) : Leaves L (pure a : EStateM ε σ α) s I := fun _ => h

theorem leaves_throw {e : ε} (h : I s) : Leaves L (throw e : EStateM ε σ α) s I := fun _ => h

theorem Leaves.get {f : σ → EStateM ε σ β} (h : Leaves L (f s) s I) :
    Leaves L (MonadState.get >>= f) s I := h

theorem Leaves.modify {f : σ → σ} {g : PUnit → EStateM ε σ β} (h : Leaves L (g ⟨⟩) (f s) I) :
    Leaves L (modify f >>= g) s I := h

theorem Leaves.ofExcept_bind {x : Except ε α} {f : α → EStateM ε σ β} (hbad : I s)
    (hf : ∀ a, x = .ok a → Leaves L (f a) s I) : Leaves L (ofExcept x >>= f) s I := by
  cases x with
  | ok a => exact hf a rfl
  | error e => exact fun _ => hbad

theorem Returns.leaves {x : EStateM ε σ α} {Q : α → σ → Prop} (h : Returns L x s Q)
    (himp : ∀ a s', Q a s' → I s') : Leaves L x s I := by
  intro hlim
  obtain ⟨a, s', hrun, hpost⟩ := h hlim
  rw [hrun]
  exact himp a s' hpost

theorem Ends.leaves {x : EStateM ε σ α} {Q : α → σ → Prop} {bad : σ → Prop}
    (h : Ends x s Q bad) (hpost : ∀ a s', Q a s' → I s') (hbad : ∀ s', bad s' → I s') :
    Leaves L x s I := fun _ => h.state hpost hbad

/-- A sequence whose first step has to return. -/
theorem Returns.bind_leaves {x : EStateM ε σ α} {f : α → EStateM ε σ β} {mid : α → σ → Prop}
    (hx : Returns L x s mid) (hover : ∀ a, StaysOver L (f a))
    (hf : ∀ a s', mid a s' → Leaves L (f a) s' I) : Leaves L (x >>= f) s I := by
  intro hlim
  have hlim' := hlim
  rw [bind_apply] at hlim' ⊢
  cases hrun : x s with
  | error e s' =>
    rw [hrun] at hlim'
    obtain ⟨a, s'', hrun', -⟩ := hx (by rw [hrun]; exact hlim')
    rw [hrun] at hrun'
    cases hrun'
  | ok a s' =>
    rw [hrun] at hlim'
    have hmid : L (x s).state := by
      rw [hrun]
      exact hover a s' hlim'
    obtain ⟨a', s'', hrun', hpost⟩ := hx hmid
    rw [hrun] at hrun'
    injection hrun' with ha hs
    subst ha hs
    exact hf a s' hpost hlim'

end

/-! ## Before and after -/

/-- However the run ends, the states before and after it are related. -/
def Moves (R : σ → σ → Prop) (x : EStateM ε σ α) : Prop := ∀ s, R s (x s).state

section

variable {R : σ → σ → Prop}

theorem moves_pure [Std.Refl R] (a : α) : Moves R (pure a : EStateM ε σ α) := Std.Refl.refl

theorem moves_throw [Std.Refl R] (e : ε) : Moves R (throw e : EStateM ε σ α) := Std.Refl.refl

theorem moves_get [Std.Refl R] : Moves R (get : EStateM ε σ σ) := Std.Refl.refl

theorem moves_ofExcept [Std.Refl R] (x : Except ε α) : Moves R (ofExcept x : EStateM ε σ α) := by
  intro s
  cases x with
  | ok a => exact Std.Refl.refl s
  | error e => exact Std.Refl.refl s

theorem moves_modify {f : σ → σ} (h : ∀ s, R s (f s)) :
    Moves R (modify f : EStateM ε σ PUnit) := h

/-- What comes after a run moves on from where it has come. -/
theorem Moves.follow [IsTrans σ R] {x : EStateM ε σ α} {f : α → EStateM ε σ β} {s₀ s : σ}
    (hx : R s₀ (x s).state) (hf : ∀ a, Moves R (f a)) : R s₀ ((x >>= f) s).state := by
  rw [bind_apply]
  cases hrun : x s with
  | ok a s' =>
    rw [hrun] at hx
    exact IsTrans.trans _ _ _ hx (hf a s')
  | error e s' =>
    rw [hrun] at hx
    exact hx

/-- A sequence moves as its steps do. -/
theorem Moves.bind [IsTrans σ R] {x : EStateM ε σ α} {f : α → EStateM ε σ β} (hx : Moves R x)
    (hf : ∀ a, Moves R (f a)) : Moves R (x >>= f) := fun s => Moves.follow (hx s) hf

theorem Moves.forM [Std.Refl R] [IsTrans σ R] {f : α → EStateM ε σ PUnit}
    (hf : ∀ a, Moves R (f a)) (l : List α) : Moves R (l.forM f) := by
  induction l with
  | nil => exact moves_pure PUnit.unit
  | cons a l ih => exact (hf a).bind fun _ => ih

/-- What is kept is related. -/
theorem Keeps.moves {part : σ → τ} {x : EStateM ε σ α} (h : Keeps part x)
    (hR : ∀ s s', part s' = part s → R s s') : Moves R x := fun s => hR s _ (h s)

end

end EStateM
