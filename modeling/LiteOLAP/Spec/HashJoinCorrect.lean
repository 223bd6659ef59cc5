import LiteOLAP.ForStd.List
import LiteOLAP.Native.HashJoin
import LiteOLAP.Spec.OperatorCorrect

/-!
# The hash join

The join is meant to be the nested-loop join: for each left row in order, the right rows with
an equal non-NULL key, in order. Its probe can stop at any match of any left row when the
output batch fills; `remaining` lists what a saved state has still to emit, and every `Next`
takes the first `kVectorSize` rows off that list.

The build index keeps row positions as `uint32`. A match at position `r` is emitted with the
row at `r % 2 ^ 32`, so the join is right as long as no such position wraps onto a different
row.

## Key results

- `addRow_spec`: the index holds, for each key, the positions of its rows
- `next_spec`: one `Next` call, from any saved state
- `open_deliversPages`: what the join returns, for every input
- `deliversPages_nestedLoop_iff`: exactly when that is the nested-loop join
-/

namespace LiteOLAP

/-- The key of a row. -/
def keyAt (key : Nat) (r : Row) : Value := r.getD key .null

/-- Both keys are non-NULL and have equal `KeyOf` strings. -/
def joins (leftKey rightKey : Nat) (l r : Row) : Bool :=
  !(keyAt leftKey l).isNull && !(keyAt rightKey r).isNull &&
    keyOf (keyAt leftKey l) == keyOf (keyAt rightKey r)

/-- The nested-loop join: what the hash join is for. -/
def nestedLoop (leftKey rightKey : Nat) (ls rs : List Row) : List Row :=
  ls.flatMap fun l => (rs.filter (joins leftKey rightKey l)).map (l ++ ·)

/-- The build row that a position stands for once it has been cast to `uint32`. -/
def builtRow (rs : List Row) (r : Nat) : Row := rs.getD (r % 2 ^ 32) []

/-- The positions of the right rows that join a left row. -/
def matchPositions (leftKey rightKey : Nat) (rs : List Row) (l : Row) : List Nat :=
  (List.range rs.length).filter fun r => joins leftKey rightKey l (rs.getD r [])

/-- The nested-loop join with each match read back through its `uint32` position. -/
def indexedLoop (leftKey rightKey : Nat) (ls rs : List Row) : List Row :=
  ls.flatMap fun l => (matchPositions leftKey rightKey rs l).map fun r => l ++ builtRow rs r

/-! ## The build phase -/

/-- The positions of the rows with key string `ks`. -/
def keyPositions (rightKey : Nat) (rs : List Row) (ks : Bytes) : List Nat :=
  (List.range rs.length).filter fun r =>
    !(keyAt rightKey (rs.getD r [])).isNull && keyOf (keyAt rightKey (rs.getD r [])) == ks

/-- The table holds the rows `rs` and their positions by key, as `uint32`. -/
structure HashTable.Holds (t : HashTable) (rightKey : Nat) (rs : List Row) : Prop where
  rows : t.buildRows = rs
  index : ∀ ks, t.buildIndex.find? ks =
    if keyPositions rightKey rs ks = [] then none
    else some ((keyPositions rightKey rs ks).map UInt32.ofNat)

private theorem keyPositions_append (rightKey : Nat) (rs : List Row) (r : Row) (ks : Bytes) :
    keyPositions rightKey (rs ++ [r]) ks = keyPositions rightKey rs ks ++
      (if !(keyAt rightKey r).isNull && keyOf (keyAt rightKey r) == ks then [rs.length]
        else []) := by
  have hold : ∀ i, i < rs.length → (rs ++ [r]).getD i [] = rs.getD i [] := by
    intro i hi
    rw [List.getD_append _ _ _ _ hi]
  have hnew : (rs ++ [r]).getD rs.length [] = r := by
    rw [List.getD_append_right _ _ _ _ (le_refl _)]
    simp
  simp only [keyPositions, List.length_append, List.length_singleton, List.range_succ,
    List.filter_append, List.filter_singleton, hnew, Bool.cond_eq_ite]
  congr 1
  apply List.filter_congr
  intro i hi
  rw [hold i (List.mem_range.mp hi)]

/-- Adding a row adds its position under its key. -/
theorem addRow_spec {t : HashTable} {rightKey : Nat} {rs : List Row} {r : Row}
    (h : t.Holds rightKey rs) (hr : rightKey < r.length) :
    ∃ t', t.addRow rightKey r = .ok t' ∧ t'.Holds rightKey (rs ++ [r]) := by
  have hkey : r[rightKey]? = some (keyAt rightKey r) := by
    rw [keyAt, List.getD_eq_getElem _ _ hr, List.getElem?_eq_getElem hr]
  refine ⟨_, by simp only [HashTable.addRow, hkey]; rfl, by rw [h.rows], ?_⟩
  intro ks
  rw [keyPositions_append, h.rows]
  by_cases hnull : (keyAt rightKey r).isNull = true
  · simp only [hnull, if_true, Bool.not_true, Bool.false_and, Bool.false_eq_true, if_false,
      List.append_nil]
    exact h.index ks
  · simp only [hnull, Bool.false_eq_true, if_false]
    by_cases hks : ks = keyOf (keyAt rightKey r)
    · subst hks
      rw [KeyMap.find?_insert_self, h.index]
      by_cases hnil : keyPositions rightKey rs (keyOf (keyAt rightKey r)) = []
      · simp [hnil]
      · simp [hnil]
    · have hne : (keyOf (keyAt rightKey r) == ks) = false := by
        simpa using fun hc => hks hc.symm
      rw [KeyMap.find?_insert_of_ne hks, h.index]
      simp [hne]

/-! ## The probe phase -/

/-- The row emitted for a left row and a build position. -/
def emit (t : HashTable) (l : Row) (b : UInt32) : Row := l ++ t.buildRows.getD b.toNat []

/-- What the probe emits for one left row. -/
def probeRows (t : HashTable) (leftKey : Nat) (l : Row) : List Row :=
  match t.probe (keyAt leftKey l) with
  | some ms => ms.map (emit t l)
  | none => []

/-- With the table built from `rs`, that is the row's part of the indexed loop. -/
theorem probeRows_eq {t : HashTable} {leftKey rightKey : Nat} {rs : List Row}
    (h : t.Holds rightKey rs) (l : Row) :
    probeRows t leftKey l = (matchPositions leftKey rightKey rs l).map
      fun r => l ++ builtRow rs r := by
  by_cases hnull : (keyAt leftKey l).isNull = true
  · simp [probeRows, HashTable.probe, hnull, matchPositions, joins]
  · have hpos : matchPositions leftKey rightKey rs l =
        keyPositions rightKey rs (keyOf (keyAt leftKey l)) := by
      apply List.filter_congr
      intro r _
      simp only [joins, hnull, Bool.not_false, Bool.true_and, BEq.comm]
    rw [hpos, probeRows, HashTable.probe, if_neg hnull, h.index]
    by_cases hnil : keyPositions rightKey rs (keyOf (keyAt leftKey l)) = []
    · simp [hnil]
    · simp only [hnil, if_false, List.map_map]
      apply List.map_congr_left
      intro r _
      simp [emit, builtRow, h.rows]

/-- The probe has stopped between two rows of its output, in a state `Next` can go on from. -/
structure HashJoin.Ready (j : HashJoin) : Prop where
  left : j.left.Regular
  lchunk : j.lchunk.types = j.left.types
  leftKey : j.leftKey < j.left.types.length
  index : ∀ ks ms, j.table.buildIndex.find? ks = some ms →
    ms ≠ [] ∧ ∀ b ∈ ms, b.toNat < j.table.buildRows.length
  built : ∀ r ∈ j.table.buildRows, rowTyped j.rightTypes r = true
  matched : ∀ ms, j.matches_ = some ms →
    j.lpos < j.lchunk.cardinality ∧ ∀ b ∈ ms, b.toNat < j.table.buildRows.length

namespace HashJoin

/-- The output for the rows of the current left batch from `pos` on. -/
def fromPos (j : HashJoin) (pos : Nat) : List Row :=
  (j.lchunk.rows.drop pos).flatMap (probeRows j.table j.leftKey)

/-- The output for the left batches that are still to come. -/
def upcoming (j : HashJoin) : List Row :=
  if j.leftDone then [] else j.left.rows.flatMap (probeRows j.table j.leftKey)

/-- What the join still has to emit: the rest of the current match list, the rest of the
    current left batch and the batches to come. -/
def remaining (j : HashJoin) : List Row :=
  match j.matches_ with
  | some ms => (ms.drop j.mpos).map (emit j.table (j.lchunk.row j.lpos)) ++
      (j.fromPos (j.lpos + 1) ++ j.upcoming)
  | none => j.fromPos j.lpos ++ j.upcoming

private theorem scanChunk_spec {t : HashTable} {leftKey : Nat} {chunk : DataChunk}
    (hkey : leftKey < chunk.columns.length) (lpos : Nat) {n : Nat}
    (hn : n = chunk.cardinality - lpos) :
    (scanChunk t leftKey chunk n lpos = .ok none ∧
      (chunk.rows.drop lpos).flatMap (probeRows t leftKey) = []) ∨
    ∃ p ms, scanChunk t leftKey chunk n lpos = .ok (some (p, ms)) ∧ p < chunk.cardinality ∧
      t.probe (keyAt leftKey (chunk.row p)) = some ms ∧
      (chunk.rows.drop lpos).flatMap (probeRows t leftKey) =
        ms.map (emit t (chunk.row p)) ++
          (chunk.rows.drop (p + 1)).flatMap (probeRows t leftKey) := by
  induction n generalizing lpos with
  | zero =>
    have hlen : chunk.rows.length ≤ lpos := by rw [DataChunk.length_rows]; omega
    exact .inl ⟨rfl, by rw [List.drop_eq_nil_of_le hlen]; rfl⟩
  | succ n ih =>
    have hlt : lpos < chunk.cardinality := by omega
    have hdrop : chunk.rows.drop lpos = chunk.row lpos :: chunk.rows.drop (lpos + 1) := by
      rw [List.drop_eq_getElem_cons (by simpa using hlt), DataChunk.getElem_rows]
    have hget : chunk.getValue leftKey lpos = .ok (keyAt leftKey (chunk.row lpos)) :=
      DataChunk.getValue_eq hkey hlt
    cases hprobe : t.probe (keyAt leftKey (chunk.row lpos)) with
    | some ms =>
      refine .inr ⟨lpos, ms, by simp [scanChunk, hget, hprobe], hlt, hprobe, ?_⟩
      rw [hdrop, List.flatMap_cons, probeRows, hprobe]
    | none =>
      have hskip : (chunk.rows.drop lpos).flatMap (probeRows t leftKey) =
          (chunk.rows.drop (lpos + 1)).flatMap (probeRows t leftKey) := by
        rw [hdrop, List.flatMap_cons, probeRows, hprobe]
        rfl
      have hscan : scanChunk t leftKey chunk (n + 1) lpos =
          scanChunk t leftKey chunk n (lpos + 1) := by
        simp [scanChunk, hget, hprobe]
      rw [hskip, hscan]
      exact ih (lpos + 1) (by omega)

/-- What `AdvanceProbeRow` makes of `j`: the same output to emit, and a match to start it with
    unless there is none. -/
structure Advanced (j : HashJoin) (more : Bool) (j' : HashJoin) : Prop where
  ready : j'.Ready
  remaining : j'.remaining = j.remaining
  leftTypes : j'.left.types = j.left.types
  rightTypes : j'.rightTypes = j.rightTypes
  found : more = true → ∃ ms, j'.matches_ = some ms ∧ j'.mpos < ms.length
  ended : more = false → j'.remaining = []

private theorem fromPos_end {j : HashJoin} {pos : Nat} (h : j.lchunk.cardinality ≤ pos) :
    j.fromPos pos = [] := by
  have hlen : j.lchunk.rows.length ≤ pos := by rwa [DataChunk.length_rows]
  rw [fromPos, List.drop_eq_nil_of_le hlen, List.flatMap_nil]

/-- A left row with matches is found in the current batch. -/
private theorem advanced_found {j : HashJoin} (hready : j.Ready) (hnone : j.matches_ = none)
    {p : Nat} {ms : List UInt32} (hp : p < j.lchunk.cardinality)
    (hprobe : j.table.probe (keyAt j.leftKey (j.lchunk.row p)) = some ms)
    (hrows : j.fromPos j.lpos = ms.map (emit j.table (j.lchunk.row p)) ++ j.fromPos (p + 1)) :
    j.Advanced true { j with lpos := p, matches_ := some ms, mpos := 0 } := by
  have hfind : ms ≠ [] ∧ ∀ b ∈ ms, b.toNat < j.table.buildRows.length := by
    rw [HashTable.probe] at hprobe
    split at hprobe
    · cases hprobe
    · exact hready.index _ _ hprobe
  constructor
  · exact { hready with matched := fun _ h => Option.some.inj h ▸ ⟨hp, hfind.2⟩ }
  · simp only [HashJoin.remaining, hnone, hrows, List.append_assoc]
    rfl
  · rfl
  · rfl
  · exact fun _ => ⟨ms, rfl, List.length_pos_iff.mpr hfind.1⟩
  · exact fun h => by cases h

/-- The current batch is used up and no other is to come. -/
private theorem advanced_ended {j j' : HashJoin} (hnone : j.matches_ = none)
    (hrows : j.fromPos j.lpos = []) (hup : j.upcoming = []) (hready : j'.Ready)
    (hnone' : j'.matches_ = none) (hrows' : j'.fromPos j'.lpos = []) (hup' : j'.upcoming = [])
    (hleft : j'.left.types = j.left.types) (hright : j'.rightTypes = j.rightTypes) :
    j.Advanced false j' := by
  have hrem : j.remaining = [] := by simp [HashJoin.remaining, hnone, hrows, hup]
  have hrem' : j'.remaining = [] := by simp [HashJoin.remaining, hnone', hrows', hup']
  exact ⟨hready, hrem'.trans hrem.symm, hleft, hright, fun h => (by cases h), fun _ => hrem'⟩

/-- `AdvanceProbeRow` never throws, and finds a left row with matches if one is to come. -/
private theorem advanceLoop_spec {j : HashJoin} {batches : List DataChunk} (hready : j.Ready)
    (hbatches : j.left.batches = batches) (hnone : j.matches_ = none) :
    ∃ more j', j.advanceLoop batches = .ok (more, j') ∧ j.Advanced more j' := by
  induction batches generalizing j with
  | nil =>
    have hkey : j.leftKey < j.lchunk.columns.length := by
      rw [← DataChunk.length_types, hready.lchunk]; exact hready.leftKey
    rcases scanChunk_spec (t := j.table) hkey j.lpos rfl with
      ⟨hscan, hrows⟩ | ⟨p, ms, hscan, hp, hprobe, hrows⟩
    · by_cases hdone : j.leftDone = true
      · have hrun : j.advanceLoop [] =
            .ok (false, { j with lpos := max j.lpos j.lchunk.cardinality }) := by
          rw [advanceLoop, hscan]
          simp [hdone]
        refine ⟨_, _, hrun, advanced_ended hnone hrows ?_ ?_ hnone ?_ ?_ rfl rfl⟩
        · simp [upcoming, hdone]
        · exact { hready with matched := by simp [hnone] }
        · exact fromPos_end (le_max_right _ _)
        · simp [upcoming, hdone]
      · have hrun : j.advanceLoop [] = .ok (false, { j with
            lchunk := DataChunk.init j.left.types, lpos := 0, leftDone := true }) := by
          rw [advanceLoop, hscan]
          simp [hdone, hready.left.ends]
        refine ⟨_, _, hrun, advanced_ended hnone hrows ?_ ?_ hnone ?_ ?_ rfl rfl⟩
        · simp [upcoming, BatchStream.rows, hbatches]
        · exact { hready with lchunk := DataChunk.init_types _, matched := by simp [hnone] }
        · exact fromPos_end (Nat.zero_le _)
        · simp [upcoming]
    · exact ⟨_, _, by rw [advanceLoop, hscan]; rfl,
        advanced_found hready hnone hp hprobe hrows⟩
  | cons b bs ih =>
    have hkey : j.leftKey < j.lchunk.columns.length := by
      rw [← DataChunk.length_types, hready.lchunk]; exact hready.leftKey
    rcases scanChunk_spec (t := j.table) hkey j.lpos rfl with
      ⟨hscan, hrows⟩ | ⟨p, ms, hscan, hp, hprobe, hrows⟩
    · by_cases hdone : j.leftDone = true
      · have hrun : j.advanceLoop (b :: bs) =
            .ok (false, { j with lpos := max j.lpos j.lchunk.cardinality }) := by
          rw [advanceLoop, hscan]
          simp [hdone]
        refine ⟨_, _, hrun, advanced_ended hnone hrows ?_ ?_ hnone ?_ ?_ rfl rfl⟩
        · simp [upcoming, hdone]
        · exact { hready with matched := by simp [hnone] }
        · exact fromPos_end (le_max_right _ _)
        · simp [upcoming, hdone]
      · -- the next batch is loaded, and the search goes on in it
        have hb : b ∈ j.left.batches := by simp [hbatches]
        have hcard : b.cardinality ≠ 0 := Nat.pos_iff_ne_zero.mp (hready.left.nonempty b hb)
        let j₁ : HashJoin :=
          { j with left := { j.left with batches := bs }, lchunk := b, lpos := 0 }
        have hrun : j.advanceLoop (b :: bs) = j₁.advanceLoop bs := by
          rw [advanceLoop, hscan]
          simp [hdone, hcard, j₁]
        have hready₁ : j₁.Ready := { hready with
          left := hready.left.tail hbatches
          lchunk := hready.left.typed b hb
          matched := by simp [j₁, hnone] }
        obtain ⟨more, j', hadv, hspec⟩ := ih hready₁ rfl hnone
        have hrem : j₁.remaining = j.remaining := by
          have hdone' : j.leftDone = false := by simpa using hdone
          have hrows' : j.fromPos j.lpos = [] := hrows
          simp only [remaining, hnone, hrows', j₁]
          simp [fromPos, upcoming, hdone', BatchStream.rows, hbatches]
        exact ⟨more, j', hrun.trans hadv,
          { hspec with remaining := hspec.remaining.trans hrem }⟩
    · exact ⟨_, _, by rw [advanceLoop, hscan]; rfl,
        advanced_found hready hnone hp hprobe hrows⟩

/-- The same at the head of the loop in `Next`, from any saved state. -/
private theorem nextMatch_spec {j : HashJoin} (hready : j.Ready) :
    ∃ more j', j.nextMatch = .ok (more, j') ∧ j.Advanced more j' := by
  cases hm : j.matches_ with
  | none =>
    simp only [nextMatch, hm]
    exact advanceLoop_spec hready rfl hm
  | some ms =>
    by_cases hpos : ms.length ≤ j.mpos
    · simp only [nextMatch, hm, hpos, if_true]
      have hready₁ : Ready { j with lpos := j.lpos + 1, matches_ := none } :=
        { hready with matched := by simp }
      obtain ⟨more, j', hadv, hspec⟩ := advanceLoop_spec hready₁ rfl rfl
      have hrem : remaining { j with lpos := j.lpos + 1, matches_ := none } = j.remaining := by
        simp only [remaining, hm, List.drop_eq_nil_of_le hpos]
        rfl
      exact ⟨more, j', hadv, { hspec with remaining := hspec.remaining.trans hrem }⟩
    · refine ⟨true, j, by simp only [nextMatch, hm, hpos, if_false], ?_⟩
      exact ⟨hready, rfl, rfl, rfl, fun _ => ⟨ms, hm, by omega⟩, fun h => (by cases h)⟩

/-- The match that comes next is the first row that remains. -/
private theorem remaining_step {j : HashJoin} {ms : List UInt32} (hready : j.Ready)
    (hm : j.matches_ = some ms) (hpos : j.mpos < ms.length) :
    ∃ b rrow, (j.matches_.getD [])[j.mpos]? = some b ∧
      j.table.buildRows[b.toNat]? = some rrow ∧
      rowTyped (j.left.types ++ j.rightTypes) (j.lchunk.row j.lpos ++ rrow) = true ∧
      j.remaining = (j.lchunk.row j.lpos ++ rrow) :: remaining { j with mpos := j.mpos + 1 } := by
  obtain ⟨-, hbound⟩ := hready.matched ms hm
  have hb := hbound ms[j.mpos] (List.getElem_mem hpos)
  refine ⟨ms[j.mpos], j.table.buildRows[ms[j.mpos].toNat], ?_, List.getElem?_eq_getElem hb, ?_, ?_⟩
  · rw [hm, Option.getD_some, List.getElem?_eq_getElem hpos]
  · exact rowTyped_append (hready.lchunk ▸ j.lchunk.row_typed j.lpos)
      (hready.built _ (List.getElem_mem hb))
  · simp only [remaining, hm]
    rw [List.drop_eq_getElem_cons hpos, List.map_cons, List.cons_append, emit,
      List.getD_eq_getElem _ _ hb]
    rfl

/-- `Next` moves the first rows that remain into the batch, as many as there is room for. -/
private theorem fill_spec {room : Nat} {j : HashJoin} {out : DataChunk} (hready : j.Ready)
    (hout : out.types = j.left.types ++ j.rightTypes) :
    ∃ out' j', fill room j out = .ok (out', j') ∧
      out'.rows = out.rows ++ j.remaining.take room ∧
      j'.remaining = j.remaining.drop room ∧ j'.Ready := by
  induction room generalizing j out with
  | zero => exact ⟨out, j, rfl, by simp, rfl, hready⟩
  | succ room ih =>
    obtain ⟨more, j₁, hmatch, hadv⟩ := nextMatch_spec hready
    cases more with
    | false =>
      refine ⟨out, j₁, by simp [fill, hmatch], ?_, ?_, hadv.ready⟩
      · rw [← hadv.remaining, hadv.ended rfl, List.take_nil, List.append_nil]
      · rw [← hadv.remaining, hadv.ended rfl, List.drop_nil]
    | true =>
      obtain ⟨ms, hm, hpos⟩ := hadv.found rfl
      obtain ⟨b, rrow, hb, hrrow, htyped, hrem⟩ := remaining_step hadv.ready hm hpos
      obtain ⟨out₁, happ, hrows₁, htypes₁, -⟩ := DataChunk.appendRow_ok (c := out)
        (by rw [hout, ← hadv.leftTypes, ← hadv.rightTypes]; exact htyped)
      have hready₁ : Ready { j₁ with mpos := j₁.mpos + 1 } := { hadv.ready with }
      obtain ⟨out', j', hfill, hrows', hrem', hready'⟩ := ih hready₁
        (show out₁.types = _ by rw [htypes₁, hout, ← hadv.leftTypes, ← hadv.rightTypes])
      refine ⟨out', j', by simp [fill, hmatch, hb, hrrow, happ, hfill], ?_, ?_, hready'⟩
      · rw [hrows', hrows₁, ← hadv.remaining, hrem, List.take_succ_cons, List.append_assoc]
        rfl
      · rw [hrem', ← hadv.remaining, hrem, List.drop_succ_cons]

/-- One `Next` call returns the first `kVectorSize` rows that remain. -/
theorem next_spec {j : HashJoin} (hready : j.Ready) :
    ∃ c j', j.next = .ok (c, j') ∧ c.rows = j.remaining.take kVectorSize ∧
      j'.remaining = j.remaining.drop kVectorSize ∧ j'.Ready := by
  obtain ⟨c, j', hfill, hrows, hrem, hready'⟩ :=
    fill_spec hready (DataChunk.init_types _)
  exact ⟨c, j', hfill, by simpa using hrows, hrem, hready'⟩

/-- The build phase reads the whole right side. -/
theorem build_spec {right : BatchStream} {rightKey : Nat} (hright : right.Regular)
    (hkey : rightKey < right.types.length) :
    ∃ t, right.forEach (fun t b => b.rows.foldlM (HashTable.addRow rightKey) t) .empty = .ok t ∧
      t.Holds rightKey right.rows := by
  rw [BatchStream.forEach_eq hright]
  have hempty : HashTable.empty.Holds rightKey (([] : List DataChunk).flatMap DataChunk.rows) :=
    ⟨rfl, fun ks => by simp [HashTable.empty, keyPositions]⟩
  refine Except.foldlM_ok
    (fun done (t : HashTable) => t.Holds rightKey (done.flatMap DataChunk.rows)) ?_ hempty
  intro done b t hb ht
  have hrow : ∀ r ∈ b.rows, rightKey < r.length := by
    intro r hr
    rw [rowTyped_length (DataChunk.rows_typed hr), hright.typed b hb]
    exact hkey
  have hstep : ∀ rs r (t : HashTable), r ∈ b.rows →
      t.Holds rightKey (done.flatMap DataChunk.rows ++ rs) →
      ∃ t', t.addRow rightKey r = .ok t' ∧
        t'.Holds rightKey (done.flatMap DataChunk.rows ++ (rs ++ [r])) := by
    intro rs r t hr h
    rw [← List.append_assoc]
    exact addRow_spec h (hrow r hr)
  obtain ⟨t', hrun, ht'⟩ := Except.foldlM_ok
    (fun rs (t : HashTable) => t.Holds rightKey (done.flatMap DataChunk.rows ++ rs)) hstep
    (by rwa [List.append_nil])
  refine ⟨t', hrun, ?_⟩
  rwa [List.flatMap_append, List.flatMap_singleton]

/-- A position in a match list is one of the build rows. -/
private theorem index_bound {t : HashTable} {rightKey : Nat} {rs : List Row}
    (h : t.Holds rightKey rs) {ks : Bytes} {ms : List UInt32}
    (hfind : t.buildIndex.find? ks = some ms) :
    ms ≠ [] ∧ ∀ b ∈ ms, b.toNat < t.buildRows.length := by
  rw [h.index] at hfind
  split at hfind
  · cases hfind
  · rename_i hne
    obtain rfl := Option.some.inj hfind
    refine ⟨by simpa using hne, ?_⟩
    intro b hb
    obtain ⟨r, hr, rfl⟩ := List.mem_map.mp hb
    have hlt : r < rs.length := List.mem_range.mp (List.mem_filter.mp hr).1
    rw [h.rows]
    exact (Nat.mod_le _ _).trans_lt hlt

/-- What the join returns, for every input: the nested-loop join with each match read back
    through its `uint32` position. -/
theorem open_deliversPages {left right : BatchStream} {leftKey rightKey : Nat}
    (hleft : left.Regular) (hright : right.Regular) (hl : leftKey < left.types.length)
    (hr : rightKey < right.types.length) :
    ∃ j, HashJoin.open left right leftKey rightKey = .ok j ∧
      DeliversPages HashJoin.next j (indexedLoop leftKey rightKey left.rows right.rows) := by
  obtain ⟨t, hbuild, ht⟩ := build_spec hright hr
  have hready : Ready {
      left, rightTypes := right.types, leftKey, table := t
      lchunk := DataChunk.init left.types, lpos := 0, leftDone := false
      matches_ := none, mpos := 0 } := {
    left := hleft
    lchunk := DataChunk.init_types _
    leftKey := hl
    index := fun _ _ h => index_bound ht h
    built := fun r h => hright.rows_typed (ht.rows ▸ h)
    matched := by simp }
  refine ⟨_, by simp only [HashJoin.open, hbuild]; rfl, ?_⟩
  have hprobe : probeRows t leftKey =
      fun l => (matchPositions leftKey rightKey right.rows l).map
        fun r => l ++ builtRow right.rows r := funext (probeRows_eq ht)
  have hrem := deliversPages_of_step Ready remaining (fun _ h => next_spec h) hready
  simp only [remaining, fromPos, upcoming, hprobe] at hrem
  exact hrem

/-- The nested-loop join by positions. -/
private theorem nestedLoop_eq (leftKey rightKey : Nat) (ls rs : List Row) :
    nestedLoop leftKey rightKey ls rs = ls.flatMap fun l =>
      (matchPositions leftKey rightKey rs l).map fun r => l ++ rs.getD r [] := by
  unfold nestedLoop matchPositions
  congr 1
  funext l
  rw [List.filter_eq_map_range _ rs [], List.map_map]
  rfl

/-- The positions that the index stores find the rows at the positions themselves. -/
theorem indexedLoop_eq_iff (leftKey rightKey : Nat) (ls rs : List Row) :
    indexedLoop leftKey rightKey ls rs = nestedLoop leftKey rightKey ls rs ↔
      ∀ l ∈ ls, ∀ r < rs.length, joins leftKey rightKey l (rs.getD r []) = true →
        rs.getD (r % 2 ^ 32) [] = rs.getD r [] := by
  rw [nestedLoop_eq, indexedLoop, List.flatMap_eq_iff (by simp)]
  simp [List.map_inj_left, matchPositions, builtRow]

/-- The join returns the nested-loop join, page by page, exactly when every right row that
    matches a left row is also the row at its position modulo `2 ^ 32`. -/
theorem deliversPages_nestedLoop_iff (left right : BatchStream) (leftKey rightKey : Nat)
    (hleft : left.Regular) (hright : right.Regular) (hl : leftKey < left.types.length)
    (hr : rightKey < right.types.length) :
    (∃ j, HashJoin.open left right leftKey rightKey = .ok j ∧
      DeliversPages HashJoin.next j (nestedLoop leftKey rightKey left.rows right.rows)) ↔
    ∀ l ∈ left.rows, ∀ r < right.rows.length,
      joins leftKey rightKey l (right.rows.getD r []) = true →
      right.rows.getD (r % 2 ^ 32) [] = right.rows.getD r [] := by
  obtain ⟨j, hopen, hpages⟩ := open_deliversPages hleft hright hl hr
  rw [← indexedLoop_eq_iff]
  constructor
  · rintro ⟨j', hopen', hpages'⟩
    obtain rfl : j = j' := Except.ok.inj (hopen.symm.trans hopen')
    exact hpages.unique hpages'
  · intro heq
    exact ⟨j, hopen, heq ▸ hpages⟩

/-- A two-column batch with one row. -/
def oneRow (key payload : Int32) : DataChunk :=
  ⟨[⟨.int, [.int32 key], by simp [Value.hasType]⟩,
    ⟨.int, [.int32 payload], by simp [Value.hasType]⟩], 1, by simp⟩

private theorem regular_oneRow {batches : List DataChunk}
    (h : ∀ b ∈ batches, 0 < b.cardinality ∧ b.types = [.int, .int]) :
    BatchStream.Regular ⟨[.int, .int], batches, none⟩ :=
  ⟨fun b hb => (h b hb).1, fun b hb => (h b hb).2, rfl⟩

/-- Two rows with the same key join. -/
theorem deliversPages_nestedLoop_one_row :
    ∃ j, HashJoin.open ⟨[.int, .int], [oneRow 1 10], none⟩ ⟨[.int, .int], [oneRow 1 20], none⟩ 0 0
        = .ok j ∧
      DeliversPages HashJoin.next j
        (nestedLoop 0 0 [[.int32 1, .int32 10]] [[.int32 1, .int32 20]]) :=
  (deliversPages_nestedLoop_iff ⟨[.int, .int], [oneRow 1 10], none⟩
    ⟨[.int, .int], [oneRow 1 20], none⟩ 0 0
    (regular_oneRow (by simp [oneRow, DataChunk.types]))
    (regular_oneRow (by simp [oneRow, DataChunk.types])) (by decide) (by decide)).mpr
    (fun l hl r hr hj => by
      rw [Nat.mod_eq_of_lt]
      exact lt_of_lt_of_le hr (by decide))

/-- A right side of `2 ^ 32 + 1` rows with one key: the last row has payload `1`, the others
    `0`. -/
def wideRight : BatchStream where
  types := [.int, .int]
  batches := List.replicate (2 ^ 21) ((oneRow 1 0).gather (List.replicate 2048 0)) ++ [oneRow 1 1]
  fail := none

private theorem wideRight_rows : wideRight.rows =
    List.replicate (2 ^ 32) [.int32 1, .int32 0] ++ [[.int32 1, .int32 1]] := by
  have hchunk : ((oneRow 1 0).gather (List.replicate 2048 0)).rows =
      List.replicate 2048 [.int32 1, .int32 0] := by
    rw [DataChunk.rows_gather, List.map_replicate]
    rfl
  rw [BatchStream.rows, wideRight, List.flatMap_append, List.flatMap_singleton,
    List.flatMap_replicate, hchunk, List.flatten_replicate_replicate]
  rfl

private theorem wideRight_last : wideRight.rows.getD (2 ^ 32) [] = [.int32 1, .int32 1] := by
  rw [wideRight_rows, List.getD_append_right _ _ _ _ (by rw [List.length_replicate]),
    List.length_replicate, Nat.sub_self]
  rfl

private theorem wideRight_first : wideRight.rows.getD 0 [] = [.int32 1, .int32 0] := by
  rw [wideRight_rows, List.getD_append _ _ _ _ (by rw [List.length_replicate]; decide),
    List.getD_replicate _ (by decide)]

/-- Joined with one left row, the last right row comes out as a copy of the first. -/
theorem not_deliversPages_wideRight :
    ¬ ∃ j, HashJoin.open ⟨[.int, .int], [oneRow 1 10], none⟩ wideRight 0 0 = .ok j ∧
      DeliversPages HashJoin.next j (nestedLoop 0 0 [[.int32 1, .int32 10]] wideRight.rows) := by
  have hright : wideRight.Regular := by
    refine regular_oneRow fun b hb => ?_
    rcases List.mem_append.mp hb with hb | hb
    · rw [List.eq_of_mem_replicate hb, DataChunk.gather_cardinality, List.length_replicate,
        DataChunk.gather_types]
      exact ⟨by decide, rfl⟩
    · rw [List.mem_singleton.mp hb]
      exact ⟨Nat.one_pos, rfl⟩
  have hlen : 2 ^ 32 < wideRight.rows.length := by
    rw [wideRight_rows, List.length_append, List.length_replicate]
    exact Nat.lt_succ_self _
  rintro ⟨j, hopen, hpages⟩
  have hleft : BatchStream.Regular ⟨[.int, .int], [oneRow 1 10], none⟩ :=
    regular_oneRow (by simp [oneRow, DataChunk.types])
  have hl : 0 < [ColumnType.int, .int].length := by decide
  obtain ⟨j', hopen', hpages'⟩ := open_deliversPages hleft hright hl hl
  obtain rfl : j' = j := Except.ok.inj (hopen'.symm.trans hopen)
  have hall := (indexedLoop_eq_iff 0 0 _ _).mp (hpages'.unique hpages)
  have hlast := hall [.int32 1, .int32 10] (by decide) (2 ^ 32) hlen (by
    rw [wideRight_last]
    decide)
  rw [wideRight_last, Nat.mod_self, wideRight_first] at hlast
  exact absurd hlast (by decide)

end HashJoin

end LiteOLAP
