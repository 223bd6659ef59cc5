import LiteOLAP.ForStd.Bytes

/-!
# Insertion-ordered maps

`KeyMap κ ν` is a finite map that remembers the order in which its keys were first inserted,
as a hash map from keys to positions beside a vector of entries does. No key occurs twice,
by construction.

## Key results

- `find?_insert_self`, `find?_insert_of_ne`: what an insertion changes
- `mem_keys_insert`: the keys after an insertion
- `mem_entries`: an entry is what its key finds
-/

/-- A map that keeps its entries in the order of insertion. -/
structure KeyMap (κ ν : Type) where
  entries : List (κ × ν)
  nodup : (entries.map Prod.fst).Nodup

namespace KeyMap

variable {κ ν : Type}

/-- The map without entries. -/
def empty : KeyMap κ ν := ⟨[], by simp⟩

/-- The keys, in the order of insertion. -/
def keys (m : KeyMap κ ν) : List κ := m.entries.map Prod.fst

@[simp] theorem keys_empty : (empty : KeyMap κ ν).keys = [] := rfl

theorem nodup_keys (m : KeyMap κ ν) : m.keys.Nodup := m.nodup

variable [DecidableEq κ]

/-- The value of a key. -/
def find? (m : KeyMap κ ν) (k : κ) : Option ν := m.entries.lookup k

/-- Replace the value of `k` in place, or add it at the end. -/
def insertEntry (k : κ) (v : ν) : List (κ × ν) → List (κ × ν)
  | [] => [(k, v)]
  | (k', v') :: l => if k' = k then (k, v) :: l else (k', v') :: insertEntry k v l

private theorem map_fst_insertEntry (k : κ) (v : ν) (l : List (κ × ν)) :
    (insertEntry k v l).map Prod.fst =
      if k ∈ l.map Prod.fst then l.map Prod.fst else l.map Prod.fst ++ [k] := by
  induction l with
  | nil => rfl
  | cons p l ih =>
    obtain ⟨k', v'⟩ := p
    by_cases h : k' = k
    · simp [insertEntry, h]
    · have h' : k ≠ k' := fun hk => h hk.symm
      simp only [insertEntry, h, if_false, List.map_cons, ih, List.mem_cons, h', false_or]
      split <;> rfl

/-- Set the value of `k`. -/
def insert (m : KeyMap κ ν) (k : κ) (v : ν) : KeyMap κ ν where
  entries := insertEntry k v m.entries
  nodup := by
    rw [map_fst_insertEntry]
    split
    · exact m.nodup
    · rename_i h
      exact m.nodup.append (List.nodup_singleton k)
        (List.disjoint_singleton.mpr h)

@[simp] theorem find?_empty (k : κ) : (empty : KeyMap κ ν).find? k = none := rfl

/-- A new key goes to the end; an old one keeps its place. -/
theorem keys_insert (m : KeyMap κ ν) (k : κ) (v : ν) :
    (m.insert k v).keys = if k ∈ m.keys then m.keys else m.keys ++ [k] :=
  map_fst_insertEntry k v m.entries

theorem mem_keys_insert {m : KeyMap κ ν} {k k' : κ} {v : ν} :
    k' ∈ (m.insert k v).keys ↔ k' = k ∨ k' ∈ m.keys := by
  rw [keys_insert]
  split
  · rename_i h
    constructor
    · exact .inr
    · rintro (rfl | h')
      · exact h
      · exact h'
  · simp [or_comm]

private theorem lookup_insertEntry (k k' : κ) (v : ν) (l : List (κ × ν)) :
    (insertEntry k v l).lookup k' = if k' = k then some v else l.lookup k' := by
  induction l with
  | nil =>
    by_cases h : k' = k
    · simp [insertEntry, h]
    · have hb : (k' == k) = false := by simp [h]
      simp [insertEntry, List.lookup, h, hb]
  | cons p l ih =>
    obtain ⟨k₁, v₁⟩ := p
    by_cases hk : k₁ = k
    · subst hk
      by_cases h : k' = k₁
      · simp [insertEntry, h]
      · have hb : (k' == k₁) = false := by simp [h]
        simp [insertEntry, List.lookup, h, hb]
    · by_cases h : k' = k₁
      · subst h
        simp [insertEntry, hk]
      · have hb : (k' == k₁) = false := by simp [h]
        simp [insertEntry, hk, List.lookup, hb, ih]

theorem find?_insert_self (m : KeyMap κ ν) (k : κ) (v : ν) : (m.insert k v).find? k = some v := by
  rw [find?, insert, lookup_insertEntry, if_pos rfl]

theorem find?_insert_of_ne {m : KeyMap κ ν} {k k' : κ} {v : ν} (h : k' ≠ k) :
    (m.insert k v).find? k' = m.find? k' := by
  rw [find?, insert, lookup_insertEntry, if_neg h, find?]

/-- A key that is not there finds nothing. -/
theorem find?_eq_none {m : KeyMap κ ν} {k : κ} : m.find? k = none ↔ k ∉ m.keys := by
  rw [find?, List.lookup_eq_none_iff, keys]
  constructor
  · intro h hk
    obtain ⟨p, hp, rfl⟩ := List.mem_map.mp hk
    simpa using h p hp
  · intro h p hp
    have hne : k ≠ p.1 := fun hk => h (hk ▸ List.mem_map_of_mem hp)
    simpa using hne

/-- An entry is what its key finds. -/
theorem mem_entries {m : KeyMap κ ν} {k : κ} {v : ν} :
    (k, v) ∈ m.entries ↔ m.find? k = some v := by
  obtain ⟨l, hl⟩ := m
  simp only [find?]
  induction l with
  | nil => simp
  | cons p l ih =>
    obtain ⟨k₁, v₁⟩ := p
    rw [List.map_cons, List.nodup_cons] at hl
    by_cases h : k = k₁
    · subst h
      have hnot : (k, v) ∉ l := fun hv => hl.1 (List.mem_map.mpr ⟨_, hv, rfl⟩)
      simp only [List.mem_cons, Prod.mk.injEq, true_and, hnot, or_false, List.lookup_cons_self,
        Option.some.injEq, eq_comm]
    · have hb : (k == k₁) = false := by simp [h]
      simp only [List.mem_cons, Prod.mk.injEq, h, false_and, false_or, List.lookup, hb]
      exact ih hl.2

end KeyMap
