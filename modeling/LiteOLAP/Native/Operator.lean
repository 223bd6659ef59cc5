import LiteOLAP.Native.DataChunk

/-!
# Pull-based operators

`execution/operator.h`: `Next` fills a batch with up to `kVectorSize` rows, and a batch of 0
rows means end-of-stream. Once an operator is open, what its `Next` calls deliver depends on
nothing but the operator, so a child is kept as the batches it still has to deliver.
-/

namespace LiteOLAP

/-- The remaining `Next` calls of an open operator: each delivers one of `batches`; after
    them every call throws, or returns a batch of 0 rows. -/
structure BatchStream where
  types : List ColumnType
  batches : List DataChunk
  fail : Option Exc

namespace BatchStream

/-- `child->Next(chunk)`. -/
def next (s : BatchStream) : Except Exc (DataChunk × BatchStream) :=
  match s.batches, s.fail with
  | b :: bs, _ => .ok (b, { s with batches := bs })
  | [], some e => .error e
  | [], none => .ok (DataChunk.init s.types, s)

/-- Run `f` on the batches in order, up to the end of the stream. -/
def foldLoop {σ : Type} (f : σ → DataChunk → Except Exc σ) (fail : Option Exc) :
    List DataChunk → σ → Except Exc σ
  | [], st =>
    match fail with
    | some e => .error e
    | none => .ok st
  | b :: bs, st =>
    if b.cardinality = 0 then .ok st
    else do
      let st' ← f st b
      foldLoop f fail bs st'

/-- `while (true) { child->Next(b); if (b.cardinality() == 0) break; ... }` with `f` as the
    body. -/
def forEach {σ : Type} (s : BatchStream) (f : σ → DataChunk → Except Exc σ) (st : σ) :
    Except Exc σ :=
  foldLoop f s.fail s.batches st

/-- The rows of all batches, in order. -/
def rows (s : BatchStream) : List Row := s.batches.flatMap DataChunk.rows

/-- The stream has batches of at least one row with the stream's types, and ends without an
    exception. -/
structure Regular (s : BatchStream) : Prop where
  nonempty : ∀ b ∈ s.batches, 0 < b.cardinality
  typed : ∀ b ∈ s.batches, b.types = s.types
  ends : s.fail = none

/-- A regular stream stays regular as its batches are delivered. -/
theorem Regular.tail {s : BatchStream} {b : DataChunk} {bs : List DataChunk} (h : s.Regular)
    (hb : s.batches = b :: bs) : Regular { s with batches := bs } where
  nonempty := fun c hc => h.nonempty c (hb ▸ List.mem_cons_of_mem _ hc)
  typed := fun c hc => h.typed c (hb ▸ List.mem_cons_of_mem _ hc)
  ends := h.ends

/-- Looping over a regular stream folds over its batches. -/
theorem forEach_eq {σ : Type} {s : BatchStream} (h : s.Regular)
    (f : σ → DataChunk → Except Exc σ) (st : σ) : s.forEach f st = s.batches.foldlM f st := by
  rw [forEach, h.ends]
  have hne := h.nonempty
  generalize s.batches = bs at hne
  induction bs generalizing st with
  | nil => rfl
  | cons b bs ih =>
    have hb : b.cardinality ≠ 0 := Nat.pos_iff_ne_zero.mp (hne b (by simp))
    rw [foldLoop, if_neg hb, List.foldlM_cons]
    cases f st b with
    | error e => rfl
    | ok st' => exact ih st' fun c hc => hne c (List.mem_cons_of_mem _ hc)

/-- Every row of a regular stream has the stream's types. -/
theorem Regular.rows_typed {s : BatchStream} (h : s.Regular) {r : Row} (hr : r ∈ s.rows) :
    rowTyped s.types r = true := by
  obtain ⟨b, hb, hr⟩ := List.mem_flatMap.mp hr
  exact h.typed b hb ▸ DataChunk.rows_typed hr

end BatchStream

/-- What `n` successive `Next` calls return. -/
def nextCalls {σ : Type} (next : σ → Except Exc (DataChunk × σ)) :
    (n : Nat) → σ → Except Exc (List DataChunk)
  | 0, _ => .ok []
  | n + 1, st => do
    let (c, st) ← next st
    let cs ← nextCalls next n st
    return c :: cs

/-- The batch a paging operator returns on its `i`-th call for the output `rows`: the next
    `kVectorSize` of them, and none from the end on. -/
def page (rows : List Row) (i : Nat) : List Row := (rows.drop (kVectorSize * i)).take kVectorSize

end LiteOLAP
