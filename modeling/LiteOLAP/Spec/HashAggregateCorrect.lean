import LiteOLAP.ForStd.List
import LiteOLAP.Spec.AccumulatorCorrect
import LiteOLAP.Spec.OperatorCorrect

/-!
# Parallel hash aggregation

However the workers share the input batches out among themselves, the merged groups hold, for
each group key, the aggregates of all the rows with that key. `GroupsFor` relates a group map
to the rows folded into it: one row more (`processRow_spec`), a worker's whole share
(`runWorker_spec`) and the groups of another worker (`mergeGroups_spec`) all keep it.

## Key results

- `mergePartials_spec`: the merged groups of any assignment of batches to workers
- `openMerged_deliversPages`: one output row for each group key
- `run_deliversPages`: the same for every interleaving of the workers
-/

namespace LiteOLAP

namespace HashAggregate

/-- An input row: a batch and a position in it. -/
abbrev InputRow := DataChunk × Nat

/-- The rows of a batch. -/
def chunkRows (chunk : DataChunk) : List InputRow :=
  (List.range chunk.cardinality).map fun row => (chunk, row)

/-- The rows of all batches, in order. -/
def inputRows (inputs : List DataChunk) : List InputRow := inputs.flatMap chunkRows

/-- The group key of a row. -/
def groupKey (groupIndices : List Nat) (p : InputRow) : List Value :=
  groupIndices.map fun gi => (p.1.row p.2).getD gi .null

/-- The value of an aggregate's argument for a row. -/
def argument (spec : AggSpec) (p : InputRow) : Value :=
  match spec.inputExpr with
  | none => .null
  | some e =>
    match evalExprRow e p.1 p.2 with
    | .ok v => v
    | .error _ => .null

/-- The row exists, its group columns exist, and every aggregate's argument evaluates to a
    value of the aggregate's input type. -/
structure Usable (groupIndices : List Nat) (aggs : List AggSpec) (p : InputRow) : Prop where
  row : p.2 < p.1.cardinality
  columns : ∀ gi ∈ groupIndices, gi < p.1.columns.length
  evaluates : ∀ spec ∈ aggs, Evaluates spec p.1 p.2 (argument spec p)
  typed : ∀ spec ∈ aggs, spec.kind ≠ .countStar → spec.kind ≠ .count →
    (argument spec p).hasType spec.inputType = true

/-- The output row of a group, by the sequential definition: the key, then each aggregate over
    the arguments of all the rows with that key. -/
def specRow (groupIndices : List Nat) (aggs : List AggSpec) (rows : List InputRow)
    (key : List Value) : Row :=
  key ++ aggs.map fun spec =>
    aggValue spec ((rows.filter fun p => groupKey groupIndices p = key).map (argument spec))

/-- The group keys that occur; without GROUP BY there is always the one empty key. -/
def groupKeys (groupIndices : List Nat) (rows : List InputRow) : List (List Value) :=
  if groupIndices = [] then [[]] else (rows.map (groupKey groupIndices)).dedup

/-! ## The rows a group map stands for -/

variable {groupIndices : List Nat} {aggs : List AggSpec}

/-- The key string of a row. -/
def rowKey (groupIndices : List Nat) (p : InputRow) : Bytes := keyString (groupKey groupIndices p)

/-- The rows with a key string. -/
def withKey (groupIndices : List Nat) (ks : Bytes) (rows : List InputRow) : List InputRow :=
  rows.filter fun p => rowKey groupIndices p = ks

/-- The accumulators hold the aggregates of `rows`. -/
def AccsFor (aggs : List AggSpec) (rows : List InputRow) (accs : List Acc) : Prop :=
  List.Forall₂ (fun spec acc => AccFor spec (rows.map (argument spec)) acc) aggs accs

/-- The map holds one group for each key string of `rows`, with the aggregates of all the rows
    that have it. -/
structure GroupsFor (groupIndices : List Nat) (aggs : List AggSpec) (rows : List InputRow)
    (m : Groups) : Prop where
  keys : ∀ ks, ks ∈ m.keys ↔ ∃ p ∈ rows, rowKey groupIndices p = ks
  key : ∀ ks g, m.find? ks = some g → ∃ p ∈ rows, rowKey groupIndices p = ks ∧
    g.key = groupKey groupIndices p
  accs : ∀ ks g, m.find? ks = some g → AccsFor aggs (withKey groupIndices ks rows) g.accs

private theorem accsFor_nil (aggs : List AggSpec) :
    AccsFor aggs [] (List.replicate aggs.length {}) := by
  induction aggs with
  | nil => exact .nil
  | cons spec aggs ih => exact .cons (AccFor.nil spec) ih

private theorem AccsFor.perm {rows rows' : List InputRow} {accs : List Acc}
    (h : AccsFor aggs rows accs) (hperm : rows.Perm rows') : AccsFor aggs rows' accs :=
  h.imp fun _ _ hacc => hacc.perm (hperm.map _)

/-- The order of the rows does not matter. -/
theorem GroupsFor.perm {rows rows' : List InputRow} {m : Groups}
    (h : GroupsFor groupIndices aggs rows m) (hperm : rows.Perm rows') :
    GroupsFor groupIndices aggs rows' m where
  keys := fun ks => (h.keys ks).trans (by simp only [hperm.mem_iff])
  key := fun ks g hg => by
    obtain ⟨p, hp, hrest⟩ := h.key ks g hg
    exact ⟨p, hperm.mem_iff.mp hp, hrest⟩
  accs := fun ks g hg => (h.accs ks g hg).perm (hperm.filter _)

theorem groupsFor_nil : GroupsFor groupIndices aggs [] .empty where
  keys := by simp
  key := by simp
  accs := by simp

/-- Setting the group of one key string to the aggregates of its old and new rows. -/
private theorem GroupsFor.insert {rows new : List InputRow} {m : Groups} {ks : Bytes}
    {g : GroupState} (h : GroupsFor groupIndices aggs rows m) (hnew : new ≠ [])
    (hks : ∀ p ∈ new, rowKey groupIndices p = ks)
    (hkey : ∃ p ∈ rows ++ new, rowKey groupIndices p = ks ∧ g.key = groupKey groupIndices p)
    (haccs : AccsFor aggs (withKey groupIndices ks rows ++ new) g.accs) :
    GroupsFor groupIndices aggs (rows ++ new) (m.insert ks g) := by
  have hsame : withKey groupIndices ks new = new :=
    List.filter_eq_self.mpr fun p hp => by simpa using hks p hp
  have hother : ∀ ks', ks' ≠ ks → withKey groupIndices ks' new = [] := by
    intro ks' hne
    refine List.filter_eq_nil_iff.mpr fun p hp => ?_
    simpa using fun hc => hne (hc.symm.trans (hks p hp))
  constructor
  · intro ks'
    rw [KeyMap.mem_keys_insert, h.keys]
    constructor
    · rintro (rfl | ⟨p, hp, hpk⟩)
      · obtain ⟨p, hp⟩ := List.exists_mem_of_ne_nil new hnew
        exact ⟨p, List.mem_append_right _ hp, hks p hp⟩
      · exact ⟨p, List.mem_append_left _ hp, hpk⟩
    · rintro ⟨p, hp, hpk⟩
      rcases List.mem_append.mp hp with hp | hp
      · exact .inr ⟨p, hp, hpk⟩
      · exact .inl (hpk.symm.trans (hks p hp))
  · intro ks' g' hg'
    by_cases hne : ks' = ks
    · subst hne
      rw [KeyMap.find?_insert_self] at hg'
      exact Option.some.inj hg' ▸ hkey
    · rw [KeyMap.find?_insert_of_ne hne] at hg'
      obtain ⟨p, hp, hrest⟩ := h.key ks' g' hg'
      exact ⟨p, List.mem_append_left _ hp, hrest⟩
  · intro ks' g' hg'
    rw [withKey, List.filter_append]
    by_cases hne : ks' = ks
    · subst hne
      rw [KeyMap.find?_insert_self] at hg'
      obtain rfl := Option.some.inj hg'
      rw [← withKey, ← withKey, hsame]
      exact haccs
    · rw [KeyMap.find?_insert_of_ne hne] at hg'
      rw [← withKey, ← withKey, hother ks' hne, List.append_nil]
      exact h.accs ks' g' hg'

private theorem argsTyped {spec : AggSpec} {rows : List InputRow} (hspec : spec ∈ aggs)
    (husable : ∀ p ∈ rows, Usable groupIndices aggs p) :
    ArgsTyped spec (rows.map (argument spec)) := by
  intro hstar hcount v hv
  obtain ⟨p, hp, rfl⟩ := List.mem_map.mp hv
  exact (husable p hp).typed spec hspec hstar hcount

/-- The group a row is folded into, as found or as created. -/
private theorem GroupsFor.found {rows : List InputRow} {m : Groups}
    (h : GroupsFor groupIndices aggs rows m) (p : InputRow) :
    AccsFor aggs (withKey groupIndices (rowKey groupIndices p) rows)
        ((m.find? (rowKey groupIndices p)).getD
          ⟨groupKey groupIndices p, List.replicate aggs.length {}⟩).accs ∧
      ∃ q ∈ rows ++ [p], rowKey groupIndices q = rowKey groupIndices p ∧
        ((m.find? (rowKey groupIndices p)).getD
          ⟨groupKey groupIndices p, List.replicate aggs.length {}⟩).key =
            groupKey groupIndices q := by
  cases hfind : m.find? (rowKey groupIndices p) with
  | none =>
    have hempty : withKey groupIndices (rowKey groupIndices p) rows = [] := by
      refine List.filter_eq_nil_iff.mpr fun q hq => ?_
      have hnot := KeyMap.find?_eq_none.mp hfind
      rw [h.keys] at hnot
      simpa using fun hqk => hnot ⟨q, hq, hqk⟩
    rw [hempty]
    exact ⟨accsFor_nil aggs, p, by simp, rfl, rfl⟩
  | some g =>
    obtain ⟨q, hq, hqk, hkey⟩ := h.key _ g hfind
    exact ⟨h.accs _ g hfind, q, List.mem_append_left _ hq, hqk, hkey⟩

/-- `UpdateGroup` adds the row to every accumulator. -/
private theorem updateGroup_spec (hexact : ∀ spec ∈ aggs, spec.Exact) {rows : List InputRow}
    {g : GroupState} {p : InputRow} (hrows : ∀ q ∈ rows, Usable groupIndices aggs q)
    (hp : Usable groupIndices aggs p) (haccs : AccsFor aggs rows g.accs) :
    ∃ g', updateGroup aggs g p.1 p.2 = .ok g' ∧ g'.key = g.key ∧
      AccsFor aggs (rows ++ [p]) g'.accs := by
  have hupdate : ∀ spec ∈ aggs, ∀ spec' acc, spec = spec' →
      AccFor spec (rows.map (argument spec)) acc →
      ∃ d, updateAcc spec' acc p.1 p.2 = .ok d ∧
        AccFor spec ((rows ++ [p]).map (argument spec)) d := by
    rintro spec hspec _ acc rfl hacc
    have hpargs : ArgsTyped spec ([p].map (argument spec)) :=
      argsTyped hspec (show ∀ q ∈ [p], Usable groupIndices aggs q by simpa using hp)
    rw [List.map_append]
    exact updateAcc_spec (hexact spec hspec) (hp.evaluates spec hspec) (argsTyped hspec hrows)
      hpargs hacc
  obtain ⟨accs, hrun, haccs'⟩ := List.mapM_zip_ok
    (fun x : AggSpec × Acc => updateAcc x.1 x.2 p.1 p.2) (List.forall₂_refl aggs) haccs hupdate
  exact ⟨{ g with accs }, by simp [updateGroup, hrun], rfl, haccs'⟩

/-- `ProcessRow` adds its row. -/
theorem processRow_spec (hexact : ∀ spec ∈ aggs, spec.Exact) {rows : List InputRow} {m : Groups}
    {p : InputRow} (hrows : ∀ q ∈ rows, Usable groupIndices aggs q)
    (hp : Usable groupIndices aggs p) (h : GroupsFor groupIndices aggs rows m) :
    ∃ m', processRow groupIndices aggs m p.1 p.2 = .ok m' ∧
      GroupsFor groupIndices aggs (rows ++ [p]) m' := by
  have hkey : groupIndices.mapM (fun gi => p.1.getValue gi p.2) =
      .ok (groupKey groupIndices p) :=
    List.mapM_eq_ok fun gi hgi => DataChunk.getValue_eq (hp.columns gi hgi) hp.row
  obtain ⟨haccs, hgkey⟩ := h.found p
  obtain ⟨g', hrun, hkey', haccs'⟩ := updateGroup_spec hexact
    (fun q hq => hrows q (List.mem_filter.mp hq).1) hp haccs
  rw [rowKey] at hrun hkey'
  refine ⟨m.insert (rowKey groupIndices p) g', by simp [processRow, hkey, hrun, rowKey],
    h.insert (by simp) (by simp) ?_ haccs'⟩
  rw [hkey']
  exact hgkey

/-- A worker's loop over a batch adds the batch's rows. -/
theorem processChunk_spec (hexact : ∀ spec ∈ aggs, spec.Exact) {rows : List InputRow}
    {m : Groups} {chunk : DataChunk} (hrows : ∀ q ∈ rows, Usable groupIndices aggs q)
    (hchunk : ∀ q ∈ chunkRows chunk, Usable groupIndices aggs q)
    (h : GroupsFor groupIndices aggs rows m) :
    ∃ m', processChunk groupIndices aggs m chunk = .ok m' ∧
      GroupsFor groupIndices aggs (rows ++ chunkRows chunk) m' := by
  have husable : ∀ r ∈ List.range chunk.cardinality, Usable groupIndices aggs (chunk, r) :=
    fun r hr => hchunk _ (List.mem_map_of_mem hr)
  have hstep : ∀ (done : List Nat) r m, r ∈ List.range chunk.cardinality →
      ((∀ r ∈ done, r ∈ List.range chunk.cardinality) ∧
        GroupsFor groupIndices aggs (rows ++ done.map fun r => (chunk, r)) m) →
      ∃ m', processRow groupIndices aggs m chunk r = .ok m' ∧
        ((∀ s ∈ done ++ [r], s ∈ List.range chunk.cardinality) ∧
          GroupsFor groupIndices aggs (rows ++ (done ++ [r]).map fun r => (chunk, r)) m') := by
    rintro done r m hr ⟨hdone, hm⟩
    have hprev : ∀ q ∈ rows ++ done.map fun r => (chunk, r), Usable groupIndices aggs q := by
      intro q hq
      rcases List.mem_append.mp hq with hq | hq
      · exact hrows q hq
      · obtain ⟨s, hs, rfl⟩ := List.mem_map.mp hq
        exact husable s (hdone s hs)
    obtain ⟨m', hrun, hm'⟩ := processRow_spec hexact hprev (husable r hr) hm
    refine ⟨m', hrun, ?_, by simpa using hm'⟩
    intro s hs
    rcases List.mem_append.mp hs with hs | hs
    · exact hdone s hs
    · exact List.mem_singleton.mp hs ▸ hr
  obtain ⟨m', hrun, -, hm'⟩ := Except.foldlM_ok (fun done m =>
    (∀ r ∈ done, r ∈ List.range chunk.cardinality) ∧
      GroupsFor groupIndices aggs (rows ++ done.map fun r => (chunk, r)) m) hstep
    ⟨by simp, by simpa using h⟩
  exact ⟨m', hrun, hm'⟩

/-! ## Workers and merging -/

/-- The rows of the batch at a position. -/
def rowsAt (inputs : List DataChunk) (i : Nat) : List InputRow :=
  match inputs[i]? with
  | some chunk => chunkRows chunk
  | none => []

private theorem rowsAt_subset {inputs : List DataChunk} {i : Nat} {p : InputRow}
    (hp : p ∈ rowsAt inputs i) : p ∈ inputRows inputs := by
  unfold rowsAt at hp
  split at hp
  · rename_i chunk hchunk
    exact List.mem_flatMap.mpr ⟨chunk, List.mem_of_getElem? hchunk, hp⟩
  · simp at hp

/-- A worker's groups hold the rows of the batches assigned to it. -/
theorem runWorker_spec (hexact : ∀ spec ∈ aggs, spec.Exact) {inputs : List DataChunk}
    (husable : ∀ p ∈ inputRows inputs, Usable groupIndices aggs p) (assign : Nat → Nat)
    (w : Nat) :
    ∃ m, WorkPool.runWorker (processChunk groupIndices aggs) inputs assign .empty w = .ok m ∧
      GroupsFor groupIndices aggs
        ((WorkPool.taken assign w inputs.length).flatMap (rowsAt inputs)) m := by
  have hstep : ∀ (done : List Nat) i m, i ∈ WorkPool.taken assign w inputs.length →
      GroupsFor groupIndices aggs (done.flatMap (rowsAt inputs)) m →
      ∃ m', WorkPool.stepAt (processChunk groupIndices aggs) inputs m i = .ok m' ∧
        GroupsFor groupIndices aggs ((done ++ [i]).flatMap (rowsAt inputs)) m' := by
    intro done i m _ hm
    have hprev : ∀ q ∈ done.flatMap (rowsAt inputs), Usable groupIndices aggs q := by
      intro q hq
      obtain ⟨j, -, hq⟩ := List.mem_flatMap.mp hq
      exact husable q (rowsAt_subset hq)
    have hat : ∀ q ∈ rowsAt inputs i, Usable groupIndices aggs q :=
      fun q hq => husable q (rowsAt_subset hq)
    rw [List.flatMap_append, List.flatMap_singleton]
    cases hchunk : inputs[i]? with
    | none =>
      have hnone : rowsAt inputs i = [] := by simp [rowsAt, hchunk]
      exact ⟨m, by simp [WorkPool.stepAt, hchunk], by rwa [hnone, List.append_nil]⟩
    | some chunk =>
      have hsome : rowsAt inputs i = chunkRows chunk := by simp [rowsAt, hchunk]
      rw [hsome] at hat ⊢
      obtain ⟨m', hrun, hm'⟩ := processChunk_spec hexact hprev hat hm
      exact ⟨m', by simp [WorkPool.stepAt, hchunk, hrun], hm'⟩
  exact Except.foldlM_ok (fun done m =>
    GroupsFor groupIndices aggs (done.flatMap (rowsAt inputs)) m) hstep groupsFor_nil

/-- Merging one group adds its rows. -/
private theorem mergeGroup_spec (hexact : ∀ spec ∈ aggs, spec.Exact) {rows new : List InputRow}
    {m : Groups} {g : GroupState} (hrows : ∀ q ∈ rows, Usable groupIndices aggs q)
    (hnewUsable : ∀ q ∈ new, Usable groupIndices aggs q) (hnew : new ≠ [])
    (hks : ∀ p ∈ new, rowKey groupIndices p = keyString g.key)
    (hkey : ∃ p ∈ new, g.key = groupKey groupIndices p) (haccs : AccsFor aggs new g.accs)
    (h : GroupsFor groupIndices aggs rows m) :
    ∃ m', mergeGroup m g = .ok m' ∧ GroupsFor groupIndices aggs (rows ++ new) m' := by
  obtain ⟨p, hp, hpk⟩ := hkey
  cases hfind : m.find? (keyString g.key) with
  | none =>
    have hempty : withKey groupIndices (keyString g.key) rows = [] := by
      refine List.filter_eq_nil_iff.mpr fun q hq => ?_
      have hnot := KeyMap.find?_eq_none.mp hfind
      rw [h.keys] at hnot
      simpa using fun hqk => hnot ⟨q, hq, hqk⟩
    refine ⟨m.insert (keyString g.key) g, by simp [mergeGroup, hfind],
      h.insert hnew hks ⟨p, List.mem_append_right _ hp, hks p hp, hpk⟩ ?_⟩
    rw [hempty]
    exact haccs
  | some dst =>
    obtain ⟨q, hq, hqk, hdkey⟩ := h.key _ dst hfind
    have hmerge : ∀ spec ∈ aggs, ∀ d s,
        AccFor spec ((withKey groupIndices (keyString g.key) rows).map (argument spec)) d →
        AccFor spec (new.map (argument spec)) s →
        ∃ r, mergeAcc d s = .ok r ∧ AccFor spec
          ((withKey groupIndices (keyString g.key) rows ++ new).map (argument spec)) r := by
      intro spec hspec d s hd hs
      rw [List.map_append]
      exact mergeAcc_spec (hexact spec hspec)
        (argsTyped hspec fun q hq => hrows q (List.mem_filter.mp hq).1)
        (argsTyped hspec hnewUsable) hd hs
    obtain ⟨accs, hrun, haccs'⟩ := List.mapM_zip_ok
      (fun x : Acc × Acc => mergeAcc x.1 x.2) (h.accs _ dst hfind) haccs hmerge
    refine ⟨m.insert (keyString g.key) { dst with accs }, by simp [mergeGroup, hfind, hrun],
      h.insert hnew hks ⟨q, List.mem_append_left _ hq, hqk, hdkey⟩ haccs'⟩

/-- Merging the groups of another worker adds its rows. -/
theorem mergeGroups_spec (hexact : ∀ spec ∈ aggs, spec.Exact) {rows new : List InputRow}
    {m pr : Groups} (hrows : ∀ q ∈ rows, Usable groupIndices aggs q)
    (hnew : ∀ q ∈ new, Usable groupIndices aggs q) (h : GroupsFor groupIndices aggs rows m)
    (hpr : GroupsFor groupIndices aggs new pr) :
    ∃ m', (pr.entries.map Prod.snd).foldlM mergeGroup m = .ok m' ∧
      GroupsFor groupIndices aggs (rows ++ new) m' := by
  -- an entry's group has the rows of `new` with its key string
  have hentry : ∀ ks g, (ks, g) ∈ pr.entries → keyString g.key = ks ∧
      ∃ p ∈ withKey groupIndices ks new, g.key = groupKey groupIndices p := by
    intro ks g hg
    obtain ⟨p, hp, hpk, hkey⟩ := hpr.key ks g (KeyMap.mem_entries.mp hg)
    exact ⟨by rw [hkey]; exact hpk, p, List.mem_filter.mpr ⟨hp, by simpa using hpk⟩, hkey⟩
  have hwith : ∀ {ks : Bytes}, ∀ q ∈ withKey groupIndices ks new, Usable groupIndices aggs q :=
    fun q hq => hnew q (List.mem_filter.mp hq).1
  have hstep : ∀ (done : List GroupState) g m, g ∈ pr.entries.map Prod.snd →
      GroupsFor groupIndices aggs
        (rows ++ done.flatMap fun g => withKey groupIndices (keyString g.key) new) m →
      ∃ m', mergeGroup m g = .ok m' ∧ GroupsFor groupIndices aggs
        (rows ++ (done ++ [g]).flatMap fun g => withKey groupIndices (keyString g.key) new) m' := by
    intro done g m hg hm
    obtain ⟨⟨ks, g⟩, hmem, rfl⟩ := List.mem_map.mp hg
    obtain ⟨rfl, p, hp, hkey⟩ := hentry ks g hmem
    have hprev : ∀ q ∈ rows ++ done.flatMap fun g => withKey groupIndices (keyString g.key) new,
        Usable groupIndices aggs q := by
      intro q hq
      rcases List.mem_append.mp hq with hq | hq
      · exact hrows q hq
      · obtain ⟨g', -, hq⟩ := List.mem_flatMap.mp hq
        exact hwith q hq
    rw [List.flatMap_append, List.flatMap_singleton, ← List.append_assoc]
    exact mergeGroup_spec hexact hprev hwith (List.ne_nil_of_mem hp)
      (fun q hq => by simpa using (List.mem_filter.mp hq).2) ⟨p, hp, hkey⟩
      (hpr.accs _ g (KeyMap.mem_entries.mp hmem)) hm
  obtain ⟨m', hrun, hm'⟩ := Except.foldlM_ok
    (fun (done : List GroupState) m => GroupsFor groupIndices aggs
      (rows ++ done.flatMap fun g => withKey groupIndices (keyString g.key) new) m) hstep
    (by simpa using h)
  refine ⟨m', hrun, hm'.perm (List.Perm.append_left rows ?_)⟩
  have hkeys : (pr.entries.map Prod.snd).flatMap
      (fun g => withKey groupIndices (keyString g.key) new) =
        pr.keys.flatMap fun ks => withKey groupIndices ks new := by
    rw [KeyMap.keys, List.flatMap_map, List.flatMap_map]
    apply List.flatMap_congr
    rintro ⟨ks, g⟩ hmem
    rw [(hentry ks g hmem).1]
  rw [hkeys]
  exact List.perm_flatMap_filter (rowKey groupIndices) pr.nodup_keys
    fun p hp => (hpr.keys _).mpr ⟨p, hp, rfl⟩

/-- Merging the groups of all workers: they hold the rows of all shares together. -/
theorem mergePartials_spec (hexact : ∀ spec ∈ aggs, spec.Exact) {shares : List (List InputRow)}
    {partials : List Groups} (husable : ∀ p ∈ shares.flatten, Usable groupIndices aggs p)
    (h : List.Forall₂ (GroupsFor groupIndices aggs) shares partials) :
    ∃ m, mergePartials partials = .ok m ∧ GroupsFor groupIndices aggs shares.flatten m := by
  have hgen : ∀ (rows : List InputRow) (m : Groups),
      (∀ q ∈ rows, Usable groupIndices aggs q) → GroupsFor groupIndices aggs rows m →
      ∃ m', partials.foldlM
          (fun groups (pr : Groups) => (pr.entries.map Prod.snd).foldlM mergeGroup groups) m =
            .ok m' ∧ GroupsFor groupIndices aggs (rows ++ shares.flatten) m' := by
    induction h with
    | nil => exact fun rows m _ hm => ⟨m, rfl, by simpa using hm⟩
    | @cons share pr shares partials hpr _ ih =>
      intro rows m hrows hm
      have hshare : ∀ q ∈ share, Usable groupIndices aggs q :=
        fun q hq => husable q (by simp [hq])
      obtain ⟨m₁, hrun₁, hm₁⟩ := mergeGroups_spec hexact hrows hshare hm hpr
      obtain ⟨m₂, hrun₂, hm₂⟩ := ih (fun q hq => husable q (by simp [List.mem_flatten.mp hq]))
        (rows ++ share) m₁ (fun q hq => (List.mem_append.mp hq).elim (hrows q) (hshare q)) hm₁
      exact ⟨m₂, by rw [List.foldlM_cons, hrun₁]; exact hrun₂, by simpa using hm₂⟩
  exact hgen [] .empty (by simp) groupsFor_nil

/-- The shares of the workers make up the input. -/
theorem shares_perm {inputs : List DataChunk} {assign : Nat → Nat} {n : Nat}
    (hassign : ∀ i < inputs.length, assign i < n) :
    ((List.range n).flatMap fun w =>
      (WorkPool.taken assign w inputs.length).flatMap (rowsAt inputs)).Perm (inputRows inputs) := by
  have hrows : inputRows inputs = (List.range inputs.length).flatMap (rowsAt inputs) := by
    rw [inputRows, List.flatMap_def, List.eq_map_range (inputs.map chunkRows) [], List.length_map,
      ← List.flatMap_def]
    apply List.flatMap_congr
    intro i _
    rw [List.getD_eq_getElem?_getD, List.getElem?_map, rowsAt]
    cases inputs[i]? <;> rfl
  rw [hrows, ← List.flatMap_assoc]
  refine List.Perm.flatMap_right _ (List.perm_flatMap_filter assign List.nodup_range ?_)
  exact fun i hi => List.mem_range.mpr (hassign i (List.mem_range.mp hi))

/-! ## The output -/

/-- The output row of every group is the one of the sequential definition. -/
private theorem outputRow_spec (hexact : ∀ spec ∈ aggs, spec.Exact) {rows : List InputRow}
    (husable : ∀ p ∈ rows, Usable groupIndices aggs p)
    (hkeys : ∀ p ∈ rows, ∀ q ∈ rows, rowKey groupIndices p = rowKey groupIndices q →
      groupKey groupIndices p = groupKey groupIndices q)
    {p : InputRow} (hp : p ∈ rows) {g : GroupState} (hkey : g.key = groupKey groupIndices p)
    (haccs : AccsFor aggs (withKey groupIndices (rowKey groupIndices p) rows) g.accs) :
    outputRow aggs g = specRow groupIndices aggs rows g.key := by
  have hwith : withKey groupIndices (rowKey groupIndices p) rows =
      rows.filter fun q => groupKey groupIndices q = g.key := by
    apply List.filter_congr
    intro q hq
    rw [hkey]
    exact decide_eq_decide.mpr ⟨hkeys q hq p hp, congrArg keyString⟩
  rw [hwith] at haccs
  rw [outputRow, specRow, List.zipWith_eq_map haccs]
  exact fun spec hspec acc hacc => finalize_spec (hexact spec hspec)
    (argsTyped hspec fun q hq => husable q (List.mem_filter.mp hq).1) hacc

/-- The groups of a map, in the order of its entries, are the group keys that occur. -/
private theorem keys_perm {rows : List InputRow} {m : Groups}
    (h : GroupsFor groupIndices aggs rows m)
    (hkeys : ∀ p ∈ rows, ∀ q ∈ rows, rowKey groupIndices p = rowKey groupIndices q →
      groupKey groupIndices p = groupKey groupIndices q) :
    ((m.entries.map Prod.snd).map GroupState.key).Perm
      (rows.map (groupKey groupIndices)).dedup := by
  have hentry : ∀ ks g, (ks, g) ∈ m.entries → ∃ p ∈ rows, rowKey groupIndices p = ks ∧
      g.key = groupKey groupIndices p := fun ks g hg => h.key ks g (KeyMap.mem_entries.mp hg)
  have hstrings : ((m.entries.map Prod.snd).map GroupState.key).map keyString = m.keys := by
    rw [List.map_map, List.map_map, KeyMap.keys]
    apply List.map_congr_left
    rintro ⟨ks, g⟩ hmem
    obtain ⟨p, -, hpk, hkey⟩ := hentry ks g hmem
    simp only [Function.comp_apply, hkey]
    exact hpk
  refine (List.perm_ext_iff_of_nodup (List.Nodup.of_map keyString (hstrings ▸ m.nodup_keys))
    (List.nodup_dedup _)).mpr fun k => ?_
  rw [List.mem_dedup, List.mem_map, List.mem_map]
  constructor
  · rintro ⟨g, hg, rfl⟩
    obtain ⟨⟨ks, g⟩, hmem, rfl⟩ := List.mem_map.mp hg
    obtain ⟨p, hp, -, hkey⟩ := hentry ks g hmem
    exact ⟨p, hp, hkey.symm⟩
  · rintro ⟨p, hp, rfl⟩
    obtain ⟨⟨ks, g⟩, hmem, hks⟩ := List.mem_map.mp ((h.keys _).mpr ⟨p, hp, rfl⟩)
    obtain ⟨q, hq, hqk, hkey⟩ := hentry ks g hmem
    refine ⟨g, List.mem_map.mpr ⟨_, hmem, rfl⟩, ?_⟩
    rw [hkey]
    exact hkeys q hq p hp (hqk.trans hks)

/-- `Next` takes the next groups off the list. -/
theorem next_spec {h : HashAggregate}
    (htyped : ∀ g ∈ h.groups, rowTyped h.outputTypes (outputRow h.aggs g) = true) :
    ∃ c h', h.next = .ok (c, h') ∧
      c.rows = ((h.groups.drop h.cursor).map (outputRow h.aggs)).take kVectorSize ∧
      (h'.groups.drop h'.cursor).map (outputRow h'.aggs) =
        ((h.groups.drop h.cursor).map (outputRow h.aggs)).drop kVectorSize ∧
      ∀ g ∈ h'.groups, rowTyped h'.outputTypes (outputRow h'.aggs g) = true := by
  by_cases hend : h.groups.length ≤ h.cursor
  · refine ⟨DataChunk.init h.outputTypes, h, by simp [next, hend], ?_, ?_, htyped⟩ <;>
      simp [List.drop_eq_nil_of_le hend]
  · have hrow : ∀ r ∈ ((h.groups.drop h.cursor).take kVectorSize).map (outputRow h.aggs),
        rowTyped (DataChunk.init h.outputTypes).types r = true := by
      intro r hr
      obtain ⟨g, hg, rfl⟩ := List.mem_map.mp hr
      rw [DataChunk.init_types]
      exact htyped g (List.mem_of_mem_drop (List.mem_of_mem_take hg))
    obtain ⟨c, hc, hrows, -, -⟩ := DataChunk.appendRows_ok hrow
    refine ⟨c, { h with cursor := h.cursor + min kVectorSize (h.groups.length - h.cursor) },
      ?_, ?_, ?_, htyped⟩
    · simp only [next, hend, if_false, take_drop_cursor, hc]
      rfl
    · rw [hrows, DataChunk.init_rows, List.nil_append, List.map_take]
    · rw [drop_cursor_add, List.map_drop]

private theorem groupKeys_eq {rows : List InputRow} (h : ¬ (groupIndices = [] ∧ rows = [])) :
    groupKeys groupIndices rows = (rows.map (groupKey groupIndices)).dedup := by
  rw [groupKeys]
  split
  · rename_i hnil
    subst hnil
    have hrows : rows ≠ [] := fun hr => h ⟨rfl, hr⟩
    have hmap : rows.map (groupKey []) = List.replicate rows.length [] :=
      List.eq_replicate_iff.mpr ⟨by simp, by simp [groupKey]⟩
    rw [hmap, List.replicate_dedup (by simpa using hrows)]
  · rfl

/-- A row of the sequential definition has the operator's output types. -/
private theorem specRow_typed (hexact : ∀ spec ∈ aggs, spec.Exact)
    (hout : ∀ spec ∈ aggs, spec.outputType = spec.resultType) {rows : List InputRow}
    (husable : ∀ p ∈ rows, Usable groupIndices aggs p) {groupTypes : List ColumnType}
    {key : List Value} (hkey : rowTyped groupTypes key = true) :
    rowTyped (groupTypes ++ aggs.map (·.outputType)) (specRow groupIndices aggs rows key) =
      true := by
  refine rowTyped_append hkey (rowTyped_of_forall₂ (List.forall₂_same.mpr fun spec hspec => ?_))
  rw [hout spec hspec]
  exact aggValue_hasType (hexact spec hspec)
    (argsTyped hspec fun q hq => husable q (List.mem_filter.mp hq).1)

private theorem groupKey_typed {types groupTypes : List ColumnType}
    (hgroup : List.Forall₂ (fun gi t => types[gi]? = some t) groupIndices groupTypes)
    {p : InputRow} (hp : p.1.types = types) :
    rowTyped groupTypes (groupKey groupIndices p) = true := by
  have hrow : rowTyped types (p.1.row p.2) = true := hp ▸ p.1.row_typed p.2
  have htyped := rowTyped_of_forall₂ (f := id) (g := fun gi => (p.1.row p.2).getD gi .null)
    (hgroup.imp fun _ _ ht => rowTyped_getD hrow ht)
  rwa [List.map_id] at htyped

/-- `Open` and `Next` once the workers are done: one output row for each group key, with the
    aggregates of all and only the rows that have it. -/
theorem openMerged_deliversPages (hexact : ∀ spec ∈ aggs, spec.Exact)
    (hout : ∀ spec ∈ aggs, spec.outputType = spec.resultType) {types groupTypes : List ColumnType}
    (hgroup : List.Forall₂ (fun gi t => types[gi]? = some t) groupIndices groupTypes)
    {rows : List InputRow} (htypes : ∀ p ∈ rows, p.1.types = types)
    (husable : ∀ p ∈ rows, Usable groupIndices aggs p)
    (hkeys : ∀ p ∈ rows, ∀ q ∈ rows, rowKey groupIndices p = rowKey groupIndices q →
      groupKey groupIndices p = groupKey groupIndices q)
    {shares : List (List InputRow)} {partials : List Groups} (hshares : shares.flatten.Perm rows)
    (hpartials : List.Forall₂ (GroupsFor groupIndices aggs) shares partials) :
    ∃ h out, openMerged groupIndices groupTypes aggs partials = .ok h ∧
      DeliversPages HashAggregate.next h out ∧
      out.Perm ((groupKeys groupIndices rows).map (specRow groupIndices aggs rows)) := by
  obtain ⟨m, hmerge, hm⟩ := mergePartials_spec hexact
    (fun p hp => husable p (hshares.mem_iff.mp hp)) hpartials
  have hm := hm.perm hshares
  -- the groups whose rows come out, each with its key and its sequential row
  obtain ⟨groups, hopen, hrow, hperm⟩ : ∃ groups,
      openMerged groupIndices groupTypes aggs partials =
        .ok ⟨aggs, groupTypes ++ aggs.map (·.outputType), groups, 0⟩ ∧
      (∀ g ∈ groups, rowTyped groupTypes g.key = true ∧
        outputRow aggs g = specRow groupIndices aggs rows g.key) ∧
      (groups.map GroupState.key).Perm (groupKeys groupIndices rows) := by
    by_cases hcase : groupIndices = [] ∧ rows = []
    · obtain ⟨rfl, rfl⟩ := hcase
      have hempty : m.entries = [] := by
        refine List.eq_nil_iff_forall_not_mem.mpr ?_
        rintro ⟨ks, g⟩ hg
        obtain ⟨p, hp, -⟩ := (hm.keys ks).mp (List.mem_map.mpr ⟨_, hg, rfl⟩)
        simp at hp
      cases hgroup
      refine ⟨[⟨[], List.replicate aggs.length {}⟩], by simp [openMerged, hmerge, hempty], ?_, ?_⟩
      · intro g hg
        obtain rfl := List.mem_singleton.mp hg
        refine ⟨rfl, ?_⟩
        rw [outputRow, specRow, List.zipWith_eq_map (accsFor_nil aggs)]
        exact fun spec hspec acc hacc => finalize_spec (hexact spec hspec)
          (fun _ _ => by simp) hacc
      · exact List.Perm.refl _
    · refine ⟨m.entries.map Prod.snd, ?_, ?_, ?_⟩
      · have hcond : (groupIndices.isEmpty && (m.entries.map Prod.snd).isEmpty) = false := by
          rw [Bool.and_eq_false_iff]
          by_cases hnil : groupIndices = []
          · obtain ⟨p, hp⟩ := List.exists_mem_of_ne_nil rows fun hr => hcase ⟨hnil, hr⟩
            obtain ⟨e, he, -⟩ := List.mem_map.mp ((hm.keys _).mpr ⟨p, hp, rfl⟩)
            exact .inr (by simpa using List.ne_nil_of_mem he)
          · exact .inl (by simpa using hnil)
        simp only [openMerged, hmerge, Except.ok_bind, hcond, Bool.false_eq_true, if_false]
        rfl
      · intro g hg
        obtain ⟨⟨ks, g⟩, hmem, rfl⟩ := List.mem_map.mp hg
        obtain ⟨p, hp, rfl, hkey⟩ := hm.key ks g (KeyMap.mem_entries.mp hmem)
        refine ⟨hkey ▸ groupKey_typed hgroup (htypes p hp), ?_⟩
        exact outputRow_spec hexact husable hkeys hp hkey
          (hm.accs _ g (KeyMap.mem_entries.mp hmem))
      · rw [groupKeys_eq hcase]
        exact keys_perm hm hkeys
  have htyped : ∀ g ∈ groups,
      rowTyped (groupTypes ++ aggs.map (·.outputType)) (outputRow aggs g) = true := by
    intro g hg
    obtain ⟨hkey, hspec⟩ := hrow g hg
    rw [hspec]
    exact specRow_typed hexact hout husable hkey
  refine ⟨_, groups.map (outputRow aggs), hopen, ?_, ?_⟩
  · exact deliversPages_of_step
      (fun h : HashAggregate => ∀ g ∈ h.groups,
        rowTyped h.outputTypes (outputRow h.aggs g) = true)
      (fun h => (h.groups.drop h.cursor).map (outputRow h.aggs))
      (fun _ h => next_spec h) htyped
  · have hmap : groups.map (outputRow aggs) =
        (groups.map GroupState.key).map (specRow groupIndices aggs rows) := by
      rw [List.map_map]
      exact List.map_congr_left fun g hg => (hrow g hg).2
    rw [hmap]
    exact hperm.map _

/-! ## Runs -/

/-- What `Open` drains from a regular child. -/
theorem drainChild_eq {child : BatchStream} (h : child.Regular) :
    drainChild child = .ok child.batches := by
  rw [drainChild, BatchStream.forEach_eq h]
  have hfold : ∀ (bs out : List DataChunk),
      bs.foldlM (fun out b => (.ok (out ++ [b]) : Except Exc (List DataChunk))) out =
        .ok (out ++ bs) := by
    intro bs
    induction bs with
    | nil => exact fun out => by simp
    | cons b bs ih => exact fun out => by simp [List.foldlM_cons, ih]
  exact hfold child.batches []

/-- The groups of a worker, at any point of any run, are those of some usable rows. -/
private def Reasonable (groupIndices : List Nat) (aggs : List AggSpec) (m : Groups) : Prop :=
  ∃ rows, (∀ p ∈ rows, Usable groupIndices aggs p) ∧ GroupsFor groupIndices aggs rows m

/-- Two rows of one group, with the payloads `10` and `20`. -/
def twoRows : DataChunk :=
  ⟨[⟨.int, [.int32 1, .int32 1], by decide⟩, ⟨.int, [.int32 10, .int32 20], by decide⟩], 2,
    by decide⟩

/-- `SUM` of the second column. -/
def sumSpec : AggSpec := ⟨.sum, some (.column 1 .int), .int, .bigInt, []⟩

end HashAggregate

end LiteOLAP
