import LiteOLAP.ForStd.Bytes

/-!
# Sorted maps

`SortedMap κ ν` is a finite map that lists its entries by increasing key, as `std::map` does.
The order is a field, so that no key occurs twice and the entries are determined by what the
keys find.

## Key results

- `find?_insert`, `find?_erase`: what an update changes
- `mem_entries`: an entry is what its key finds
- `ext_find?`: maps that find the same values are equal
- `entries_insert_last`: a key above all others goes to the end
-/

/-- A map whose entries are listed by increasing key. -/
structure SortedMap (κ ν : Type) [LT κ] where
  entries : List (κ × ν)
  sorted : entries.Pairwise fun a b => a.1 < b.1

namespace SortedMap

variable {κ ν : Type} [LT κ]

/-- The map without entries. -/
def empty : SortedMap κ ν := ⟨[], List.Pairwise.nil⟩

/-- The keys, in increasing order. -/
def keys (m : SortedMap κ ν) : List κ := m.entries.map Prod.fst

/-- The number of entries. -/
def size (m : SortedMap κ ν) : Nat := m.entries.length

section Lookup

variable [DecidableEq κ]

/-- The value of a key. -/
def find? (m : SortedMap κ ν) (k : κ) : Option ν := m.entries.lookup k

/-- Remove a key. -/
def erase (m : SortedMap κ ν) (k : κ) : SortedMap κ ν where
  entries := m.entries.filter fun p => p.1 ≠ k
  sorted := m.sorted.filter _

@[simp] theorem find?_empty (k : κ) : (empty : SortedMap κ ν).find? k = none := rfl

omit [LT κ] in
private theorem lookup_cons (k k' : κ) (v : ν) (l : List (κ × ν)) :
    ((k', v) :: l).lookup k = if k = k' then some v else l.lookup k := by
  rw [List.lookup_cons]
  by_cases hk : k = k'
  · simp [hk]
  · rw [beq_eq_false_iff_ne.mpr hk, if_neg hk]

omit [LT κ] in
private theorem lookup_filter_ne (k k' : κ) (l : List (κ × ν)) :
    (l.filter fun p => p.1 ≠ k).lookup k' = if k' = k then none else l.lookup k' := by
  induction l with
  | nil => simp
  | cons p l ih =>
    obtain ⟨a, v⟩ := p
    by_cases ha : a = k
    · subst ha
      rw [List.filter_cons_of_neg (by simp), ih, lookup_cons]
      split <;> rfl
    · rw [List.filter_cons_of_pos (by simpa using ha), lookup_cons, lookup_cons, ih]
      by_cases hk : k' = a
      · subst hk
        simp [ha]
      · simp [hk]

/-- Removing a key removes what it finds, and nothing else. -/
theorem find?_erase (m : SortedMap κ ν) (k k' : κ) :
    (m.erase k).find? k' = if k' = k then none else m.find? k' :=
  lookup_filter_ne k k' m.entries

omit [LT κ] in
private theorem mem_of_lookup {k : κ} {v : ν} {l : List (κ × ν)} (h : l.lookup k = some v) :
    (k, v) ∈ l := by
  induction l with
  | nil => simp at h
  | cons p l ih =>
    obtain ⟨a, w⟩ := p
    rw [lookup_cons] at h
    split at h
    · rename_i hk
      rw [hk, Option.some.inj h]
      exact List.mem_cons_self
    · exact List.mem_cons_of_mem _ (ih h)

variable [Std.Irrefl (α := κ) (· < ·)]

private theorem lookup_of_mem {k : κ} {v : ν} {l : List (κ × ν)}
    (hl : l.Pairwise fun a b => a.1 < b.1) (h : (k, v) ∈ l) : l.lookup k = some v := by
  induction hl with
  | nil => simp at h
  | @cons p l hp _ ih =>
    obtain ⟨a, w⟩ := p
    rw [lookup_cons]
    rcases List.mem_cons.mp h with heq | h
    · rw [if_pos (Prod.mk.inj heq).1, (Prod.mk.inj heq).2]
    · have hne : k ≠ a := by
        intro hk
        have hlt := hp _ h
        rw [hk] at hlt
        exact Std.Irrefl.irrefl _ hlt
      rw [if_neg hne, ih h]

/-- An entry is what its key finds. -/
theorem mem_entries {m : SortedMap κ ν} {k : κ} {v : ν} :
    (k, v) ∈ m.entries ↔ m.find? k = some v :=
  ⟨lookup_of_mem m.sorted, mem_of_lookup⟩

/-- The keys are those that find something. -/
theorem mem_keys {m : SortedMap κ ν} {k : κ} : k ∈ m.keys ↔ ∃ v, m.find? k = some v := by
  simp only [keys, List.mem_map, Prod.exists, exists_and_right, exists_eq_right, mem_entries]

end Lookup

section Order

variable [Std.Asymm (α := κ) (· < ·)] [Std.Irrefl (α := κ) (· < ·)]

private theorem eq_of_mem_iff {l l' : List (κ × ν)} (hl : l.Pairwise fun a b => a.1 < b.1)
    (hl' : l'.Pairwise fun a b => a.1 < b.1) (h : ∀ p, p ∈ l ↔ p ∈ l') : l = l' := by
  have hnodup : ∀ {l : List (κ × ν)}, (l.Pairwise fun a b => a.1 < b.1) → l.Nodup := by
    intro l hl
    refine hl.imp fun {a b} hab heq => ?_
    rw [heq] at hab
    exact Std.Irrefl.irrefl _ hab
  have hperm : l.Perm l' := (List.perm_ext_iff_of_nodup (hnodup hl) (hnodup hl')).mpr h
  refine hperm.eq_of_pairwise ?_ hl hl'
  intro a b _ _ hab hba
  exact absurd hba (Std.Asymm.asymm _ _ hab)

/-- Maps that find the same values are equal. -/
theorem ext_find? [DecidableEq κ] {m m' : SortedMap κ ν} (h : ∀ k, m.find? k = m'.find? k) : m = m' := by
  have hmem : ∀ p, p ∈ m.entries ↔ p ∈ m'.entries := by
    rintro ⟨k, v⟩
    rw [mem_entries, mem_entries, h]
  have hentries := eq_of_mem_iff m.sorted m'.sorted hmem
  cases m
  cases m'
  simpa using hentries

end Order

section Insert

variable [DecidableEq κ] [DecidableLT κ]

/-- Put `k` in its place, over the old value if it has one. -/
def insertEntry (k : κ) (v : ν) : List (κ × ν) → List (κ × ν)
  | [] => [(k, v)]
  | (k', v') :: l =>
    if k < k' then (k, v) :: (k', v') :: l
    else if k = k' then (k, v) :: l
    else (k', v') :: insertEntry k v l

private theorem mem_insertEntry {k : κ} {v : ν} {p : κ × ν} {l : List (κ × ν)}
    (h : p ∈ insertEntry k v l) : p = (k, v) ∨ p ∈ l := by
  induction l with
  | nil => simpa [insertEntry] using h
  | cons q l ih =>
    obtain ⟨k', v'⟩ := q
    rw [insertEntry] at h
    split at h
    · simpa using h
    · split at h
      · rcases List.mem_cons.mp h with h | h
        · exact .inl h
        · exact .inr (List.mem_cons_of_mem _ h)
      · rcases List.mem_cons.mp h with h | h
        · exact .inr (by simp [h])
        · exact (ih h).imp_right (List.mem_cons_of_mem _)

private theorem insertEntry_last [Std.Asymm (α := κ) (· < ·)] [Std.Irrefl (α := κ) (· < ·)]
    {k : κ} {v : ν} {l : List (κ × ν)} (h : ∀ p ∈ l, p.1 < k) :
    insertEntry k v l = l ++ [(k, v)] := by
  induction l with
  | nil => rfl
  | cons p l ih =>
    obtain ⟨a, w⟩ := p
    have ha : a < k := h (a, w) (by simp)
    have hne : k ≠ a := by
      intro hk
      rw [hk] at ha
      exact Std.Irrefl.irrefl _ ha
    rw [insertEntry, if_neg (Std.Asymm.asymm _ _ ha), if_neg hne,
      ih fun q hq => h q (List.mem_cons_of_mem _ hq), List.cons_append]

private theorem lookup_insertEntry [Std.Irrefl (α := κ) (· < ·)] (k k' : κ) (v : ν)
    (l : List (κ × ν)) :
    (insertEntry k v l).lookup k' = if k' = k then some v else l.lookup k' := by
  induction l with
  | nil => exact lookup_cons k' k v []
  | cons p l ih =>
    obtain ⟨a, w⟩ := p
    rw [insertEntry]
    split
    · rw [lookup_cons]
    · split
      · rename_i heq
        subst heq
        rw [lookup_cons, lookup_cons]
        split <;> rfl
      · rename_i hne
        rw [lookup_cons, lookup_cons, ih]
        by_cases hk : k' = a
        · rw [if_pos hk, if_neg (hk ▸ Ne.symm hne), if_pos hk]
        · rw [if_neg hk, if_neg hk]

private theorem length_insertEntry_le (k : κ) (v : ν) (l : List (κ × ν)) :
    (insertEntry k v l).length ≤ l.length + 1 := by
  induction l with
  | nil => simp [insertEntry]
  | cons p l ih =>
    obtain ⟨a, w⟩ := p
    rw [insertEntry]
    split
    · simp
    · split
      · simp
      · simpa using ih

variable [Trans (α := κ) (· < ·) (· < ·) (· < ·)] [Std.Trichotomous (α := κ) (· < ·)]

private theorem sorted_insertEntry (k : κ) (v : ν) {l : List (κ × ν)}
    (hl : l.Pairwise fun a b => a.1 < b.1) :
    (insertEntry k v l).Pairwise fun a b => a.1 < b.1 := by
  induction hl with
  | nil => exact List.pairwise_singleton _ _
  | @cons q l hq hl ih =>
    obtain ⟨k', v'⟩ := q
    rw [insertEntry]
    split
    · rename_i hlt
      refine .cons (fun p hp => ?_) (.cons hq hl)
      rcases List.mem_cons.mp hp with rfl | hp
      · exact hlt
      · exact Std.lt_trans hlt (hq p hp)
    · rename_i hnlt
      split
      · rename_i heq
        subst heq
        exact .cons hq hl
      · rename_i hne
        refine .cons (fun p hp => ?_) ih
        rcases mem_insertEntry hp with rfl | hp
        · exact ((Std.lt_trichotomy k' k).resolve_right fun h =>
            h.elim (fun h => hne h.symm) hnlt)
        · exact hq p hp

/-- Set the value of `k`. -/
def insert (m : SortedMap κ ν) (k : κ) (v : ν) : SortedMap κ ν where
  entries := insertEntry k v m.entries
  sorted := sorted_insertEntry k v m.sorted

/-- Setting a key changes what it finds, and nothing else. -/
theorem find?_insert [Std.Irrefl (α := κ) (· < ·)] (m : SortedMap κ ν) (k k' : κ) (v : ν) :
    (m.insert k v).find? k' = if k' = k then some v else m.find? k' :=
  lookup_insertEntry k k' v m.entries

/-- A key above all others goes to the end. -/
theorem entries_insert_last [Std.Asymm (α := κ) (· < ·)] [Std.Irrefl (α := κ) (· < ·)]
    {m : SortedMap κ ν} {k : κ} {v : ν} (h : ∀ k' ∈ m.keys, k' < k) :
    (m.insert k v).entries = m.entries ++ [(k, v)] :=
  insertEntry_last fun p hp => h p.1 (List.mem_map_of_mem hp)

/-- An insertion adds at most one entry. -/
theorem size_insert_le (m : SortedMap κ ν) (k : κ) (v : ν) : (m.insert k v).size ≤ m.size + 1 :=
  length_insertEntry_le k v m.entries

end Insert

end SortedMap
