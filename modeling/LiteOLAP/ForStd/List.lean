import LiteOLAP.ForStd.Except

/-!
# Lists

Lemmas about `mapM` over `Except`, where a run either yields every result or stops at an
error, and lists cut into slices of one size.

## Key results

- `mapM_eq_ok`: `mapM` of a function that never fails on the list is `map`
- `mapM_error_of_mem`: one failing element makes the whole run fail
- `flatten_slices`: the slices of a list make it up
-/

namespace List

variable {ε α β : Type}

/-- Two functions that agree on the list run alike. -/
theorem mapM_congr_mem {f g : α → Except ε β} {l : List α} (h : ∀ x ∈ l, f x = g x) :
    l.mapM f = l.mapM g := by
  induction l with
  | nil => rfl
  | cons x xs ih =>
    rw [List.mapM_cons, List.mapM_cons, h x (by simp),
      ih fun y hy => h y (List.mem_cons_of_mem _ hy)]

/-- A run none of whose steps fails maps the list. -/
theorem mapM_eq_ok {f : α → Except ε β} {g : α → β} {l : List α}
    (h : ∀ x ∈ l, f x = .ok (g x)) : l.mapM f = .ok (l.map g) :=
  (mapM_congr_mem h).trans List.mapM_pure

/-- A run every step of which yields something yields a list. -/
theorem exists_mapM_eq_ok {f : α → Except ε β} {l : List α} (h : ∀ x ∈ l, ∃ b, f x = .ok b) :
    ∃ r, l.mapM f = .ok r := by
  induction l with
  | nil => exact ⟨[], rfl⟩
  | cons x xs ih =>
    obtain ⟨b, hb⟩ := h x (by simp)
    obtain ⟨r, hr⟩ := ih fun y hy => h y (List.mem_cons_of_mem _ hy)
    exact ⟨b :: r, by rw [List.mapM_cons, hb, hr]; rfl⟩

/-- A run over a list with a failing element fails. -/
theorem mapM_error_of_mem {f : α → Except ε β} {l : List α} {x : α} {e : ε} (hx : x ∈ l)
    (h : f x = .error e) : ∃ e', l.mapM f = .error e' := by
  induction l with
  | nil => simp at hx
  | cons y ys ih =>
    rw [List.mapM_cons]
    cases hy : f y with
    | error e' => exact ⟨e', rfl⟩
    | ok b =>
      rcases List.mem_cons.mp hx with rfl | hx
      · rw [h] at hy
        cases hy
      · obtain ⟨e', he'⟩ := ih hx
        exact ⟨e', by rw [he']; rfl⟩

/-- The entries of the list that a run yields. -/
theorem getElem?_of_mapM_eq_ok {f : α → Except ε β} {l : List α} {r : List β}
    (h : l.mapM f = .ok r) {i : Nat} {x : α} (hx : l[i]? = some x) :
    ∃ y, f x = .ok y ∧ r[i]? = some y := by
  induction l generalizing i r with
  | nil => simp at hx
  | cons z zs ih =>
    rw [mapM_cons] at h
    obtain ⟨y, hy, h⟩ := Except.bind_eq_ok.mp h
    obtain ⟨ys, hys, h⟩ := Except.bind_eq_ok.mp h
    obtain rfl := Except.ok.inj h
    cases i with
    | zero =>
      obtain rfl := Option.some.inj hx
      exact ⟨y, hy, rfl⟩
    | succ i => exact ih hys hx

/-- The entries of both lists, side by side. -/
theorem forall₂_of_mapM_eq_ok {f : α → Except ε β} {l : List α} {r : List β}
    (h : l.mapM f = .ok r) : Forall₂ (fun a b => f a = .ok b) l r := by
  induction l generalizing r with
  | nil =>
    cases h
    exact .nil
  | cons x xs ih =>
    rw [mapM_cons] at h
    obtain ⟨y, hy, h⟩ := Except.bind_eq_ok.mp h
    obtain ⟨ys, hys, h⟩ := Except.bind_eq_ok.mp h
    obtain rfl := Except.ok.inj h
    exact .cons hy (ih hys)

/-- A run yields as many entries as the list has. -/
theorem length_of_mapM_eq_ok {f : α → Except ε β} {l : List α} {r : List β}
    (h : l.mapM f = .ok r) : r.length = l.length := by
  induction l generalizing r with
  | nil =>
    cases h
    rfl
  | cons x xs ih =>
    rw [mapM_cons] at h
    obtain ⟨y, -, h⟩ := Except.bind_eq_ok.mp h
    obtain ⟨ys, hys, h⟩ := Except.bind_eq_ok.mp h
    rw [← Except.ok.inj h, List.length_cons, List.length_cons, ih hys]

/-- Two concatenations whose parts have equal lengths are equal part by part. -/
theorem flatMap_eq_iff {f g : α → List β} {l : List α} (h : ∀ x ∈ l, (f x).length = (g x).length) :
    l.flatMap f = l.flatMap g ↔ ∀ x ∈ l, f x = g x := by
  induction l with
  | nil => simp
  | cons x xs ih =>
    rw [List.flatMap_cons, List.flatMap_cons, List.forall_mem_cons,
      ← ih fun y hy => h y (List.mem_cons_of_mem _ hy)]
    constructor
    · exact fun heq => List.append_inj heq (h x (by simp))
    · rintro ⟨hx, hxs⟩
      rw [hx, hxs]

/-- A list is its positions looked up. -/
theorem eq_map_range (l : List α) (d : α) :
    l = (List.range l.length).map fun i => l.getD i d := by
  apply List.ext_getElem
  · simp
  · intro i h₁ h₂
    rw [List.getElem_map, List.getElem_range, List.getD_eq_getElem _ _ h₁]

/-- Dropping whole parts of equal length from a concatenation. -/
theorem drop_flatten_of_length {ls : List (List α)} {w : Nat} (h : ∀ l ∈ ls, l.length = w)
    (i : Nat) : ls.flatten.drop (i * w) = (ls.drop i).flatten := by
  induction i generalizing ls with
  | zero => simp
  | succ i ih =>
    cases ls with
    | nil => simp
    | cons l ls =>
      have hl : l.length = w := h l (by simp)
      rw [List.flatten_cons, List.drop_succ_cons, ← ih fun l' h' => h l' (List.mem_cons_of_mem _ h'),
        Nat.succ_mul, Nat.add_comm, ← List.drop_drop, ← hl, List.drop_left]

/-- A run every step of which yields something related to its input. -/
theorem exists_mapM_forall₂ {f : α → Except ε β} {R : α → β → Prop} {l : List α}
    (h : ∀ x ∈ l, ∃ b, f x = .ok b ∧ R x b) : ∃ r, l.mapM f = .ok r ∧ List.Forall₂ R l r := by
  induction l with
  | nil => exact ⟨[], rfl, .nil⟩
  | cons x xs ih =>
    obtain ⟨b, hb, hR⟩ := h x (by simp)
    obtain ⟨r, hr, hRs⟩ := ih fun y hy => h y (List.mem_cons_of_mem _ hy)
    exact ⟨b :: r, by rw [List.mapM_cons, hb, hr]; rfl, .cons hR hRs⟩

/-- Filtering a list is filtering its positions. -/
theorem filter_eq_map_range (p : α → Bool) (l : List α) (d : α) :
    l.filter p =
      ((List.range l.length).filter fun i => p (l.getD i d)).map fun i => l.getD i d := by
  conv_lhs => rw [eq_map_range l d]
  rw [List.filter_map]
  rfl

/-- Filtering a list by each of its keys splits it up. -/
theorem perm_flatMap_filter [DecidableEq β] (f : α → β) {keys : List β} (hnodup : keys.Nodup)
    {l : List α} (hcover : ∀ x ∈ l, f x ∈ keys) :
    (keys.flatMap fun k => l.filter fun x => f x = k).Perm l := by
  induction keys generalizing l with
  | nil =>
    have hnil : l = [] := List.eq_nil_iff_forall_not_mem.mpr fun x hx => by simpa using hcover x hx
    simp [hnil]
  | cons k ks ih =>
    rw [List.nodup_cons] at hnodup
    have hrest : (ks.flatMap fun k' => (l.filter fun x => !decide (f x = k)).filter
        fun x => f x = k').Perm (l.filter fun x => !decide (f x = k)) := by
      refine ih hnodup.2 fun x hx => ?_
      obtain ⟨hxl, hxk⟩ := List.mem_filter.mp hx
      exact (List.mem_cons.mp (hcover x hxl)).resolve_left (by simpa using hxk)
    have hsame : (ks.flatMap fun k' => (l.filter fun x => !decide (f x = k)).filter
        fun x => f x = k') = ks.flatMap fun k' => l.filter fun x => f x = k' := by
      apply List.flatMap_congr
      intro k' hk'
      rw [List.filter_filter]
      apply List.filter_congr
      intro x _
      by_cases hx : f x = k'
      · have hne : k' ≠ k := fun h => hnodup.1 (h ▸ hk')
        simp [hx, hne]
      · simp [hx]
    rw [List.flatMap_cons, ← hsame]
    exact (List.Perm.append_left _ hrest).trans (List.filter_append_perm _ l)

/-! ## Slices -/

/-- The list cut into pieces of `n` elements, the last of which may be shorter. -/
def slices (n : Nat) (l : List α) : List (List α) :=
  (List.range ((l.length + n - 1) / n)).map fun i => (l.drop (n * i)).take n

@[simp] theorem slices_nil {n : Nat} : ([] : List α).slices n = [] := by
  cases n with
  | zero => simp [slices]
  | succ n => simp [slices, Nat.div_eq_of_lt]

theorem slices_of_ne_nil {n : Nat} (hn : 0 < n) {l : List α} (hl : l ≠ []) :
    l.slices n = l.take n :: (l.drop n).slices n := by
  have hpos : 0 < l.length := List.length_pos_iff.mpr hl
  have hcount : (l.length + n - 1) / n = ((l.drop n).length + n - 1) / n + 1 := by
    rw [List.length_drop]
    by_cases h : n ≤ l.length
    · have hsum : l.length + n - 1 = (l.length - n + n - 1) + n := by omega
      rw [hsum, Nat.add_div_right _ hn]
    · have hzero : l.length - n + n - 1 = n - 1 := by omega
      have hsum : l.length + n - 1 = (l.length - 1) + n := by omega
      rw [hzero, hsum, Nat.add_div_right _ hn, Nat.div_eq_of_lt (by omega),
        Nat.div_eq_of_lt (by omega)]
  rw [slices, hcount, List.range_succ_eq_map, List.map_cons, Nat.mul_zero, List.drop_zero,
    List.map_map, slices]
  congr 1
  apply List.map_congr_left
  intro i _
  rw [Function.comp_apply, List.drop_drop, Nat.mul_succ, Nat.add_comm]

/-- Slicing goes on behind the first piece. -/
theorem slices_induction {n : Nat} (hn : 0 < n) {P : List α → Prop} (hnil : P [])
    (hcons : ∀ l : List α, l ≠ [] → P (l.drop n) → P l) (l : List α) : P l := by
  induction h : l.length using Nat.strong_induction_on generalizing l with
  | _ k ih =>
    by_cases hl : l = []
    · rw [hl]
      exact hnil
    · have hpos : 0 < l.length := List.length_pos_iff.mpr hl
      refine hcons l hl (ih (l.drop n).length ?_ _ rfl)
      rw [List.length_drop]
      omega

@[simp] theorem flatten_slices {n : Nat} (hn : 0 < n) (l : List α) : (l.slices n).flatten = l := by
  induction l using slices_induction hn with
  | hnil => rw [slices_nil, List.flatten_nil]
  | hcons l hl ih => rw [slices_of_ne_nil hn hl, List.flatten_cons, ih, List.take_append_drop]

theorem mem_slices {n : Nat} (hn : 0 < n) {l c : List α} (h : c ∈ l.slices n) :
    c ≠ [] ∧ c.length ≤ n ∧ c ⊆ l := by
  induction l using slices_induction hn with
  | hnil =>
    rw [slices_nil] at h
    cases h
  | hcons l hl ih =>
    rw [slices_of_ne_nil hn hl] at h
    rcases List.mem_cons.mp h with rfl | h
    · refine ⟨fun hnil => ?_, List.length_take_le _ _, List.take_subset n l⟩
      rcases List.take_eq_nil_iff.mp hnil with hzero | hnil
      · omega
      · exact hl hnil
    · obtain ⟨hne, hle, hsub⟩ := ih h
      exact ⟨hne, hle, fun x hx => List.drop_subset n l (hsub hx)⟩

@[simp] theorem length_slices {n : Nat} (l : List α) :
    (l.slices n).length = (l.length + n - 1) / n := by
  rw [slices, List.length_map, List.length_range]

theorem slices_map {n : Nat} (f : α → β) (l : List α) :
    (l.map f).slices n = (l.slices n).map (List.map f) := by
  simp only [slices, List.length_map, List.map_map]
  apply List.map_congr_left
  intro i _
  rw [Function.comp_apply, List.map_take, List.map_drop]

/-- A list that fits is one piece. -/
theorem slices_of_length_le {n : Nat} {l : List α} (hl : l ≠ []) (h : l.length ≤ n) :
    l.slices n = [l] := by
  have hpos : 0 < l.length := List.length_pos_iff.mpr hl
  rw [slices_of_ne_nil (by omega) hl, List.take_of_length_le h, List.drop_eq_nil_of_le h, slices_nil]

/-- Full pieces come first. -/
theorem slices_flatten_append {n : Nat} (hn : 0 < n) {full : List (List α)}
    (hfull : ∀ c ∈ full, c.length = n) (l : List α) :
    (full.flatten ++ l).slices n = full ++ l.slices n := by
  induction full with
  | nil => rfl
  | cons c full ih =>
    have hc := hfull c List.mem_cons_self
    have hne : (c :: full).flatten ++ l ≠ [] := by
      intro hnil
      have := congrArg List.length hnil
      simp only [List.flatten_cons, List.length_append, List.length_nil] at this
      omega
    rw [slices_of_ne_nil hn hne, List.flatten_cons, List.append_assoc,
      List.take_append_of_le_length (Nat.le_of_eq hc.symm), List.take_of_length_le (Nat.le_of_eq hc),
      List.drop_append_of_le_length (Nat.le_of_eq hc.symm), List.drop_of_length_le (Nat.le_of_eq hc),
      List.nil_append, ih fun d hd => hfull d (List.mem_cons_of_mem _ hd), List.cons_append]

section Forall₂

variable {γ δ : Type}

/-- A run down two lists, each entry of which fits a third. -/
theorem mapM_zip_ok (f : α × β → Except ε δ) {P : γ → α → Prop} {Q : γ → β → Prop}
    {R : γ → δ → Prop} {cs : List γ} {as : List α} {bs : List β}
    (hP : List.Forall₂ P cs as) (hQ : List.Forall₂ Q cs bs)
    (hf : ∀ c ∈ cs, ∀ a b, P c a → Q c b → ∃ d, f (a, b) = .ok d ∧ R c d) :
    ∃ ds, (as.zip bs).mapM f = .ok ds ∧ List.Forall₂ R cs ds := by
  induction hP generalizing bs with
  | nil =>
    cases hQ
    exact ⟨[], rfl, .nil⟩
  | @cons c a cs as hca _ ih =>
    cases hQ with
    | @cons _ b _ bs hcb hQ =>
      obtain ⟨d, hd, hR⟩ := hf c (by simp) a b hca hcb
      obtain ⟨ds, hds, hRs⟩ := ih hQ fun c' hc' => hf c' (List.mem_cons_of_mem _ hc')
      exact ⟨d :: ds, by simp [List.zip_cons_cons, hd, hds], .cons hR hRs⟩

/-- Lists that are related piece by piece are related as a whole. -/
theorem forall₂_flatMap {R : β → γ → Prop} {f : α → List β} {as : List α} {css : List (List γ)}
    (h : List.Forall₂ (fun a cs => List.Forall₂ R (f a) cs) as css) :
    List.Forall₂ R (as.flatMap f) css.flatten := by
  induction h with
  | nil => exact .nil
  | cons hacs _ ih => exact List.rel_append hacs ih

/-- Each entry of the second list stands beside one of the first. -/
theorem exists_of_forall₂_mem {R : α → β → Prop} {as : List α} {bs : List β}
    (h : List.Forall₂ R as bs) {b : β} (hb : b ∈ bs) : ∃ a ∈ as, R a b := by
  induction h with
  | nil => cases hb
  | @cons a b' as bs hab _ ih =>
    rcases List.mem_cons.mp hb with rfl | hb
    · exact ⟨a, List.mem_cons_self, hab⟩
    · obtain ⟨a', ha', hR⟩ := ih hb
      exact ⟨a', List.mem_cons_of_mem _ ha', hR⟩

/-- Entries that come from different ones are different. -/
theorem nodup_of_forall₂ {R : α → β → Prop} {as : List α} {bs : List β} (h : Forall₂ R as bs)
    (hinj : ∀ a a' b, R a b → R a' b → a = a') (has : as.Nodup) : bs.Nodup := by
  induction h with
  | nil => exact nodup_nil
  | @cons a b as bs hab hrest ih =>
    obtain ⟨hnot, has⟩ := nodup_cons.mp has
    refine nodup_cons.mpr ⟨fun hmem => hnot ?_, ih has⟩
    obtain ⟨a', ha', hab'⟩ := exists_of_forall₂_mem hrest hmem
    rwa [hinj a a' b hab hab']

/-- Combining two lists when the second adds nothing to the first. -/
theorem zipWith_eq_map {R : α → β → Prop} {f : α → β → γ} {g : α → γ} {as : List α} {bs : List β}
    (h : List.Forall₂ R as bs) (hfg : ∀ a ∈ as, ∀ b, R a b → f a b = g a) :
    List.zipWith f as bs = as.map g := by
  induction h with
  | nil => rfl
  | @cons a b as bs hab _ ih =>
    rw [List.zipWith_cons_cons, List.map_cons, hfg a (by simp) b hab,
      ih fun a' ha' => hfg a' (List.mem_cons_of_mem _ ha')]

end Forall₂

end List
