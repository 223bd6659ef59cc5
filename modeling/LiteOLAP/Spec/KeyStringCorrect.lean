import LiteOLAP.Native.HashAggregate

/-!
# Group keys as strings

`KeyString` concatenates its components: a NULL is the byte 0, a number the byte 1 and its raw
bytes, a string the bytes 1 and 2, its own bytes and a closing 3. For columns of known types a
number's component tells where it ends. A string's does not, since the string may itself hold
the byte 3 and what looks like the next component.

## Key results

- `keyString_inj`: keys collide only through a closing byte inside a string
- `keyString_injective_iff`: the column types for which keys never collide
-/

namespace LiteOLAP

open Bytes (leBytes leBytes_inj length_leBytes)

/-- The string holds no closing byte. -/
def closed : Value → Bool
  | .string s => !s.contains 3
  | _ => true

/-- Every string but one in the last component is free of closing bytes. -/
def closedBeforeLast : List Value → Bool
  | [] | [_] => true
  | v :: w :: vs => closed v && closedBeforeLast (w :: vs)

/-- The bytes of a number of `w` bytes, read off the front, determine it and what follows. -/
private theorem leBytes_append_inj {w m n : Nat} {r r' : Bytes} (hm : m < 256 ^ w)
    (hn : n < 256 ^ w) (h : leBytes w m ++ r = leBytes w n ++ r') : m = n ∧ r = r' := by
  obtain ⟨hbytes, hrest⟩ := List.append_inj h (by rw [length_leBytes, length_leBytes])
  exact ⟨leBytes_inj hm hn hbytes, hrest⟩

private theorem string_append_inj {s s' r r' : Bytes} (hs : 3 ∉ s) (hs' : 3 ∉ s')
    (h : s ++ 3 :: r = s' ++ 3 :: r') : s = s' ∧ r = r' := by
  induction s generalizing s' with
  | nil =>
    cases s' with
    | nil => exact ⟨rfl, by simpa using h⟩
    | cons b s' =>
      simp only [List.nil_append, List.cons_append, List.cons.injEq] at h
      exact absurd (h.1 ▸ List.mem_cons_self) hs'
  | cons b s ih =>
    cases s' with
    | nil =>
      simp only [List.nil_append, List.cons_append, List.cons.injEq] at h
      exact absurd (h.1 ▸ List.mem_cons_self) hs
    | cons b' s' =>
      simp only [List.cons_append, List.cons.injEq] at h
      obtain ⟨hss, hrr⟩ := ih (fun hm => hs (List.mem_cons_of_mem _ hm))
        (fun hm => hs' (List.mem_cons_of_mem _ hm)) h.2
      exact ⟨by rw [h.1, hss], hrr⟩

/-- A component of a known type, free of closing bytes, can be read off the front. -/
private theorem keyPart_append_inj {t : ColumnType} {v w : Value} {r r' : Bytes}
    (hv : v.hasType t = true) (hw : w.hasType t = true) (hcv : closed v = true)
    (hcw : closed w = true) (h : keyPart v ++ r = keyPart w ++ r') : v = w ∧ r = r' := by
  rcases Value.hasType_iff.mp hv with rfl | hv
  · rcases Value.hasType_iff.mp hw with rfl | hw
    · exact ⟨rfl, by simpa [keyPart] using h⟩
    · cases w <;> simp [keyPart, Value.alternative] at h hw
  rcases Value.hasType_iff.mp hw with rfl | hw
  · cases v <;> simp [keyPart, Value.alternative] at h hv
  have halt : v.alternative = w.alternative := hv.trans hw.symm
  cases v with
  | null => cases hv
  | int32 x =>
    cases w with
    | int32 y =>
      simp only [keyPart, List.cons_append, List.cons.injEq, true_and] at h
      obtain ⟨hxy, hr⟩ := leBytes_append_inj x.toUInt32.toNat_lt y.toUInt32.toNat_lt h
      obtain ⟨n⟩ := x
      obtain ⟨n'⟩ := y
      exact ⟨congrArg _ (congrArg _ (UInt32.toNat_inj.mp hxy)), hr⟩
    | null | int64 y | double y | string y => cases halt
  | int64 x =>
    cases w with
    | int64 y =>
      simp only [keyPart, List.cons_append, List.cons.injEq, true_and] at h
      obtain ⟨hxy, hr⟩ := leBytes_append_inj x.toUInt64.toNat_lt y.toUInt64.toNat_lt h
      obtain ⟨n⟩ := x
      obtain ⟨n'⟩ := y
      exact ⟨congrArg _ (congrArg _ (UInt64.toNat_inj.mp hxy)), hr⟩
    | null | int32 y | double y | string y => cases halt
  | double x =>
    cases w with
    | double y =>
      simp only [keyPart, List.cons_append, List.cons.injEq, true_and] at h
      obtain ⟨hxy, hr⟩ := leBytes_append_inj x.bits.toNat_lt y.bits.toNat_lt h
      obtain ⟨b⟩ := x
      obtain ⟨b'⟩ := y
      exact ⟨congrArg _ (congrArg _ (UInt64.toNat_inj.mp hxy)), hr⟩
    | null | int32 y | int64 y | string y => cases halt
  | string s =>
    cases w with
    | string s' =>
      simp only [keyPart, List.cons_append, List.append_assoc, List.nil_append, List.cons.injEq,
        true_and] at h
      obtain ⟨hss, hr⟩ := string_append_inj (by simpa [closed] using hcv)
        (by simpa [closed] using hcw) h
      exact ⟨congrArg _ hss, hr⟩
    | null | int32 y | int64 y | double y => cases halt
/-- The last component determines its value whatever bytes it holds. -/
private theorem keyPart_inj {t : ColumnType} {v w : Value} (hv : v.hasType t = true)
    (hw : w.hasType t = true) (h : keyPart v = keyPart w) : v = w := by
  by_cases hc : closed v = true ∧ closed w = true
  · have happ : keyPart v ++ [] = keyPart w ++ [] := by rw [h]
    exact (keyPart_append_inj hv hw hc.1 hc.2 happ).1
  · -- one of them is a string, so that both are or the other is NULL
    by_cases hvn : v = .null
    · subst hvn
      cases w <;> simp [keyPart, closed] at h hc
    by_cases hwn : w = .null
    · subst hwn
      cases v <;> simp [keyPart, closed] at h hc
    have halt := Value.alternative_eq hv hw hvn hwn
    cases v <;> cases w <;> simp [closed, Value.alternative] at hc halt
    simpa [keyPart] using h

/-- Keys of the same types whose strings hold no closing byte, but perhaps in the last
    component, are told apart by their key strings. -/
theorem keyString_inj {ts : List ColumnType} {k l : List Value} (hk : rowTyped ts k = true)
    (hl : rowTyped ts l = true) (hck : closedBeforeLast k = true)
    (hcl : closedBeforeLast l = true) (h : keyString k = keyString l) : k = l := by
  induction ts generalizing k l with
  | nil =>
    rw [List.length_eq_zero_iff.mp (rowTyped_length hk),
      List.length_eq_zero_iff.mp (rowTyped_length hl)]
  | cons t ts ih =>
    obtain ⟨v, vs, rfl⟩ := List.exists_cons_of_length_eq_add_one (rowTyped_length hk)
    obtain ⟨w, ws, rfl⟩ := List.exists_cons_of_length_eq_add_one (rowTyped_length hl)
    simp only [rowTyped, Bool.and_eq_true] at hk hl
    have hlen : vs.length = ws.length := by
      rw [rowTyped_length hk.2, rowTyped_length hl.2]
    simp only [keyString, List.flatMap_cons] at h
    cases vs with
    | nil =>
      obtain rfl := List.length_eq_zero_iff.mp hlen.symm
      rw [List.flatMap_nil, List.append_nil, List.append_nil] at h
      rw [keyPart_inj hk.1 hl.1 h]
    | cons v' vs =>
      obtain ⟨w', ws, rfl⟩ := List.exists_cons_of_length_eq_add_one hlen.symm
      simp only [closedBeforeLast, Bool.and_eq_true] at hck hcl
      obtain ⟨hvw, hrest⟩ := keyPart_append_inj hk.1 hl.1 hck.1 hcl.1 h
      rw [hvw, ih hk.2 hl.2 hck.2 hcl.2 hrest]

/-! ## When keys never collide -/

/-- A `VARCHAR` column stands before the last one. -/
def varcharBeforeLast : List ColumnType → Bool
  | [] | [_] => false
  | t :: u :: ts => t == .varchar || varcharBeforeLast (u :: ts)

/-- Without one, no key has a closing byte before its last component. -/
private theorem closedBeforeLast_of_typed {ts : List ColumnType} {k : List Value}
    (hts : varcharBeforeLast ts = false) (hk : rowTyped ts k = true) :
    closedBeforeLast k = true := by
  induction ts generalizing k with
  | nil => rw [List.length_eq_zero_iff.mp (rowTyped_length hk)]; rfl
  | cons t ts ih =>
    obtain ⟨v, vs, rfl⟩ := List.exists_cons_of_length_eq_add_one (rowTyped_length hk)
    simp only [rowTyped, Bool.and_eq_true] at hk
    cases vs with
    | nil => rfl
    | cons v' vs =>
      cases ts with
      | nil => cases hk.2
      | cons u ts =>
        simp only [varcharBeforeLast, Bool.or_eq_false_iff, beq_eq_false_iff_ne] at hts
        have hclosed : closed v = true := by
          cases v with
          | string s =>
            cases t with
            | varchar => exact absurd rfl hts.1
            | int | bigInt | float => cases hk.1
          | null | int32 x | int64 x | double x => rfl
        simp only [closedBeforeLast, hclosed, Bool.true_and]
        exact ih hts.2 hk.2

private theorem rowTyped_replicate_null (ts : List ColumnType) :
    rowTyped ts (List.replicate ts.length .null) = true := by
  induction ts with
  | nil => rfl
  | cons t ts ih => simp [List.replicate_succ, rowTyped, ih]

/-- A `VARCHAR` column and the next one: a closing byte and the image of a second component
    may stand in the first string or after it. -/
private theorem exists_collision_head (u : ColumnType) (ts : List ColumnType) :
    ∃ k l, rowTyped (.varchar :: u :: ts) k = true ∧ rowTyped (.varchar :: u :: ts) l = true ∧
      keyString k = keyString l ∧ k ≠ l := by
  have hnull := rowTyped_replicate_null ts
  cases u with
  | int =>
    refine ⟨.string [3, 1, 0, 0] :: .null :: List.replicate ts.length .null,
      .string [] :: .int32 0x30000 :: List.replicate ts.length .null, ?_, ?_, ?_, by simp⟩
    · simpa [rowTyped, Value.hasType] using hnull
    · simpa [rowTyped, Value.hasType] using hnull
    · simp only [keyString, List.flatMap_cons]
      rfl
  | bigInt =>
    refine ⟨.string [3, 1, 0, 0, 0, 0, 0, 0] :: .null :: List.replicate ts.length .null,
      .string [] :: .int64 0x3000000000000 :: List.replicate ts.length .null, ?_, ?_, ?_, by simp⟩
    · simpa [rowTyped, Value.hasType] using hnull
    · simpa [rowTyped, Value.hasType] using hnull
    · simp only [keyString, List.flatMap_cons]
      rfl
  | float =>
    refine ⟨.string [3, 1, 0, 0, 0, 0, 0, 0] :: .null :: List.replicate ts.length .null,
      .string [] :: .double ⟨0x3000000000000⟩ :: List.replicate ts.length .null,
      ?_, ?_, ?_, by simp⟩
    · simpa [rowTyped, Value.hasType] using hnull
    · simpa [rowTyped, Value.hasType] using hnull
    · simp only [keyString, List.flatMap_cons]
      rfl
  | varchar =>
    refine ⟨.string [] :: .string [3, 1, 2] :: List.replicate ts.length .null,
      .string [3, 1, 2] :: .string [] :: List.replicate ts.length .null, ?_, ?_, ?_, by simp⟩
    · simpa [rowTyped, Value.hasType] using hnull
    · simpa [rowTyped, Value.hasType] using hnull
    · simp only [keyString, List.flatMap_cons]
      rfl

/-- With a `VARCHAR` column before the last one some two keys collide. -/
private theorem exists_collision {ts : List ColumnType} (hts : varcharBeforeLast ts = true) :
    ∃ k l, rowTyped ts k = true ∧ rowTyped ts l = true ∧ keyString k = keyString l ∧ k ≠ l := by
  induction ts with
  | nil => cases hts
  | cons t ts ih =>
    cases ts with
    | nil => cases hts
    | cons u ts =>
      by_cases ht : t = .varchar
      · exact ht ▸ exists_collision_head u ts
      · obtain ⟨k, l, hk, hl, hkl, hne⟩ := ih (by simpa [varcharBeforeLast, ht] using hts)
        refine ⟨.null :: k, .null :: l, by simpa [rowTyped] using hk, by simpa [rowTyped] using hl,
          ?_, by simpa using hne⟩
        simpa [keyString] using hkl

/-- Group keys of the types `ts` never collide exactly when no `VARCHAR` column stands before
    the last one. -/
theorem keyString_injective_iff (ts : List ColumnType) :
    (∀ k l, rowTyped ts k = true → rowTyped ts l = true →
      (keyString k = keyString l ↔ k = l)) ↔ varcharBeforeLast ts = false := by
  constructor
  · intro h
    by_contra hts
    obtain ⟨k, l, hk, hl, hkl, hne⟩ := exists_collision (by simpa using hts)
    exact hne ((h k l hk hl).mp hkl)
  · intro hts k l hk hl
    exact ⟨keyString_inj hk hl (closedBeforeLast_of_typed hts hk)
      (closedBeforeLast_of_typed hts hl), congrArg keyString⟩

/-- Two keys of two `VARCHAR` columns with one key string. -/
theorem keyString_varchar_collision :
    rowTyped [.varchar, .varchar] [.string [97], .string [98, 3, 1, 2, 99]] = true ∧
      rowTyped [.varchar, .varchar] [.string [97, 3, 1, 2, 98], .string [99]] = true ∧
      keyString [.string [97], .string [98, 3, 1, 2, 99]] =
        keyString [.string [97, 3, 1, 2, 98], .string [99]] ∧
      ([.string [97], .string [98, 3, 1, 2, 99]] : List Value) ≠
        [.string [97, 3, 1, 2, 98], .string [99]] := by
  decide

end LiteOLAP
