import LiteOLAP.Spec.WideScan

/-!
# Plans without pushdowns

The planner scans the columns that a query needs, leaves out chunks whose zone map is outside of
a range, and takes the `WHERE` clause apart. The plain plan of a query does none of this: it scans
all columns of every chunk, and binds the clause as it is. Both stand for the same rows.

## Key results

- `Planner.upperPlan_narrow`: what is above the scans, on all columns or on those that are needed
- `Planner.planSingle_plain`: queries on one table, grouped or not
-/

namespace LiteOLAP

/-! ## Plans that mean the same -/

namespace Plan

/-- Plans with the same columns, of which the first is defined wherever the second is, with the same
    rows. The tables that the two look at are related by `T`. -/
structure Same (T : (Bytes → List Row) → (Bytes → List Row) → Prop) (p p' : Plan) : Prop where
  names : p.outputNames = p'.outputNames
  types : p.outputTypes = p'.outputTypes
  meaning : ∀ tables tables', T tables tables' → (p.meaning tables).Extends (p'.meaning tables')

/-- The rows of `p` are the columns `fs` of the rows of `p'`. -/
structure Narrows (T : (Bytes → List Row) → (Bytes → List Row) → Prop) (fs : List Nat)
    (p p' : Plan) : Prop where
  types : ∀ i < fs.length, p'.outputTypes[placeIn fs i]? = p.outputTypes[i]?
  meaning : ∀ tables tables', T tables tables' →
    (p.meaning tables).Extends (p'.meaning tables' >>= fun rows => pure (rows.map (project fs)))
  wide : ∀ tables tables', T tables tables' →
    ∀ rows ∈ (p'.meaning tables').may, ∀ r ∈ rows, ∀ j ∈ fs, j < r.length

variable {T : (Bytes → List Row) → (Bytes → List Row) → Prop} {fs : List Nat} {p p' : Plan}

namespace Same

theorem filter (h : Same T p p') (predicate : BoundExpr) :
    Same T (p.filter predicate) (p'.filter predicate) := by
  refine ⟨h.names, h.types, fun tables tables' ht => ?_⟩
  rw [Plan.meaning, Plan.meaning, h.types]
  exact (h.meaning tables tables' ht).bind_right _

theorem projection (h : Same T p p') (sources : List Nat) (names : List Bytes) :
    Same T (p.projection sources names) (p'.projection sources names) := by
  refine ⟨rfl, ?_, fun tables tables' ht => ?_⟩
  · rw [Plan.outputTypes, Plan.outputTypes, h.types]
  · rw [Plan.meaning, Plan.meaning]
    exact (h.meaning tables tables' ht).bind_right _

theorem orderBy (h : Same T p p') (key : Nat) (desc : Bool) :
    Same T (p.orderBy key desc) (p'.orderBy key desc) := by
  refine ⟨h.names, h.types, fun tables tables' ht => ?_⟩
  rw [Plan.meaning, Plan.meaning]
  exact (h.meaning tables tables' ht).bind_right _

theorem limit (h : Same T p p') (n : Nat) : Same T (p.limit n) (p'.limit n) := by
  refine ⟨h.names, h.types, fun tables tables' ht => ?_⟩
  rw [Plan.meaning, Plan.meaning]
  exact (h.meaning tables tables' ht).bind_right _

end Same

namespace Narrows

private theorem getD_types (h : Narrows T fs p p') {i : Nat} (hi : i < fs.length) :
    p'.outputTypes.getD (placeIn fs i) .int = p.outputTypes.getD i .int := by
  simp only [List.getD_eq_getElem?_getD, h.types i hi]

/-- What is done with the narrow rows is defined wherever the same is done with the wide ones. -/
private theorem bind (h : Narrows T fs p p') {tables tables' : Bytes → List Row} (ht : T tables tables')
    {f g : List Row → Outcomes (List Row)}
    (hfg : ∀ rows ∈ (p'.meaning tables').may, f (rows.map (project fs)) = g rows) :
    (p.meaning tables >>= f).Extends (p'.meaning tables' >>= g) := by
  refine ((h.meaning tables tables' ht).bind_right f).trans (.of_eq ?_)
  rw [bind_assoc]
  refine Outcomes.bind_congr_of_mem fun rows hrows => ?_
  rw [pure_bind, hfg rows hrows]

/-- A plan that means the same as one whose rows are columns of wide rows. -/
theorem of_same {U : (Bytes → List Row) → (Bytes → List Row) → Prop} {q : Plan} (h : Same U q p)
    (hnarrow : Narrows T fs p p')
    {V : (Bytes → List Row) → (Bytes → List Row) → Prop}
    (hmid : ∀ tables tables', V tables tables' → ∃ mid, U tables mid ∧ T mid tables') :
    Narrows V fs q p' := by
  refine ⟨h.types ▸ hnarrow.types, fun tables tables' ht => ?_, fun tables tables' ht => ?_⟩
  · obtain ⟨mid, hu, ht⟩ := hmid tables tables' ht
    exact (h.meaning tables mid hu).trans (hnarrow.meaning mid tables' ht)
  · obtain ⟨mid, -, ht⟩ := hmid tables tables' ht
    exact hnarrow.wide mid tables' ht

/-- A filter on the narrow rows. -/
theorem filter (h : Narrows T fs p p') {predicate : BoundExpr}
    (hbelow : ColumnsBelow fs.length predicate) :
    Narrows T fs (p.filter predicate) (p'.filter (predicate.rename (placeIn fs))) := by
  refine ⟨h.types, fun tables tables' ht => ?_, fun tables tables' ht rows hrows r hr => ?_⟩
  · rw [Plan.meaning, Plan.meaning, bind_assoc]
    refine h.bind ht fun rows hrows => ?_
    have hdecide : ∀ r ∈ rows, decideRow (predicate.rename (placeIn fs)) p'.outputTypes r =
        decideRow predicate p.outputTypes (project fs r) := fun r hr =>
      decideRow_rename hbelow (h.wide tables tables' ht rows hrows r hr) h.types
    have hall : (∀ r ∈ rows.map (project fs), ∃ b, decideRow predicate p.outputTypes r = .ok b) ↔
        ∀ r ∈ rows, ∃ b, decideRow (predicate.rename (placeIn fs)) p'.outputTypes r = .ok b := by
      rw [List.forall_mem_map]
      exact forall₂_congr fun r hr => by rw [hdecide r hr]
    have hkeep : (rows.map (project fs)).filter (keeps predicate p.outputTypes) =
        (rows.filter (keeps (predicate.rename (placeIn fs)) p'.outputTypes)).map (project fs) := by
      rw [List.filter_map]
      refine congrArg _ (List.filter_congr fun r hr => ?_)
      rw [Function.comp_apply, keeps, keeps, hdecide r hr]
    rw [propext hall, hkeep, bind_assoc]
    simp only [pure_bind]
  · obtain ⟨all, hall, _, -, rfl⟩ := hrows
    exact h.wide tables tables' ht all hall r (List.mem_of_mem_filter hr)

/-- A sort of the narrow rows. -/
theorem orderBy (h : Narrows T fs p p') {key : Nat} (hkey : key < fs.length) (desc : Bool) :
    Narrows T fs (p.orderBy key desc) (p'.orderBy (placeIn fs key) desc) := by
  refine ⟨h.types, fun tables tables' ht => ?_, fun tables tables' ht rows hrows r hr => ?_⟩
  · rw [Plan.meaning, Plan.meaning, bind_assoc]
    refine h.bind ht fun rows _ => ?_
    rw [pure_bind, OrderByOp.sortRows, OrderByOp.sortRows]
    -- the comparison reads one column
    have hless : ∀ a b, OrderByOp.rowLess key desc (project fs a) (project fs b) =
        OrderByOp.rowLess (placeIn fs key) desc a b := fun a b => by
      unfold OrderByOp.rowLess
      rw [getD_project hkey, getD_project hkey]
    refine congrArg pure (List.map_mergeSort fun a _ b _ => ?_).symm
    rw [hless]
  · obtain ⟨all, hall, rfl⟩ := hrows
    exact h.wide tables tables' ht all hall r ((List.mergeSort_perm _ _).mem_iff.mp hr)

/-- A select list on the narrow rows. -/
theorem projection (h : Narrows T fs p p') {sources : List Nat}
    (hsources : ∀ i ∈ sources, i < fs.length) (names : List Bytes) :
    Same T (p.projection sources names) (p'.projection (sources.map (placeIn fs)) names) := by
  refine ⟨rfl, ?_, fun tables tables' ht => ?_⟩
  · rw [Plan.outputTypes, Plan.outputTypes, Projection.outputTypes, Projection.outputTypes,
      List.map_map]
    exact List.map_congr_left fun i hi => (h.getD_types (hsources i hi)).symm
  · rw [Plan.meaning, Plan.meaning]
    refine h.bind ht fun rows _ => ?_
    rw [List.map_map]
    refine congrArg pure (List.map_congr_left fun r _ => ?_)
    exact project_project hsources r

/-- Groups of the narrow rows. -/
theorem hashAggregate (h : Narrows T fs p p') {groupIndices : List Nat} {aggs : List AggSpec}
    (hidx : ∀ i ∈ groupIndices, i < fs.length) (haggs : ∀ spec ∈ aggs, spec.ArgumentBelow fs.length)
    (names : List Bytes) (types : List ColumnType) :
    Same T (p.hashAggregate groupIndices names types aggs)
      (p'.hashAggregate (groupIndices.map (placeIn fs)) names types
        (aggs.map (AggSpec.rename (placeIn fs)))) := by
  refine ⟨?_, ?_, fun tables tables' ht => ?_⟩
  · rw [Plan.outputNames, Plan.outputNames, List.map_map]
    rfl
  · rw [Plan.outputTypes, Plan.outputTypes, List.map_map]
    rfl
  · rw [Plan.meaning, Plan.meaning]
    refine h.bind ht fun rows hrows => ?_
    have hwide := h.wide tables tables' ht rows hrows
    rw [HashAggregate.grouped_rename hidx haggs hwide,
      propext (HashAggregate.groupable_rename hidx haggs hwide)]

end Narrows

end Plan

namespace Planner

/-! ## Above the scans -/

section

variable {T : (Bytes → List Row) → (Bytes → List Row) → Prop} {fs : List Nat} {root root' p : Plan} {stmt : SelectStmt}
  {names names' : List Bytes} {types types' : List ColumnType} {refs : Bytes × Bytes → Prop}
  {single : Bool}

/-- The select list of a grouped query, under the sort if there is one. -/
private def listAbove (stmt : SelectStmt) (outNames : List Bytes) (grouped : Plan) :
    Except Exc Plan := do
  let items ← stmt.items.mapM (namedItem outNames)
  let root := Plan.projection grouped (items.map Prod.fst) (items.map Prod.snd)
  match stmt.orderBy with
  | some ob => do
    let idx ← resolve root.outputNames [] ob.outputName
    return .orderBy root idx ob.descending
  | none => return root

/-- What `aggregatePlan` puts above the aggregation. -/
private def aggregateAbove (stmt : SelectStmt) (outNames : List Bytes) (outTypes : List ColumnType)
    (agg : Plan) : Except Exc Plan :=
  match stmt.having with
  | some e => do
    let pred ← bind outNames outTypes e
    listAbove stmt outNames (.filter agg pred)
  | none => listAbove stmt outNames agg

private theorem listAbove_same {grouped grouped' : Plan} (h : Plan.Same T grouped grouped')
    (hp : listAbove stmt names grouped = .ok p) :
    ∃ p', listAbove stmt names grouped' = .ok p' ∧ Plan.Same T p p' := by
  unfold listAbove at hp ⊢
  obtain ⟨items, hitems, hp⟩ := Except.bind_eq_ok.mp hp
  have hlist := h.projection (items.map Prod.fst) (items.map Prod.snd)
  rw [hitems, Except.ok_bind]
  dsimp only at hp ⊢
  cases hob : stmt.orderBy with
  | none =>
    rw [hob] at hp
    obtain rfl := Except.ok.inj hp
    exact ⟨_, rfl, hlist⟩
  | some ob =>
    rw [hob] at hp
    obtain ⟨idx, hidx, hp⟩ := Except.bind_eq_ok.mp hp
    obtain rfl := Except.ok.inj hp
    rw [hlist.names] at hidx
    dsimp only
    rw [hidx]
    exact ⟨_, rfl, hlist.orderBy idx ob.descending⟩

private theorem aggregateAbove_same {agg agg' : Plan} (h : Plan.Same T agg agg')
    (hp : aggregateAbove stmt names types agg = .ok p) :
    ∃ p', aggregateAbove stmt names types agg' = .ok p' ∧ Plan.Same T p p' := by
  unfold aggregateAbove at hp ⊢
  cases hh : stmt.having with
  | none =>
    rw [hh] at hp
    exact listAbove_same h hp
  | some e =>
    rw [hh] at hp
    obtain ⟨pred, hpred, hp⟩ := Except.bind_eq_ok.mp hp
    dsimp only
    rw [hpred]
    exact listAbove_same (h.filter pred) hp

private theorem aggregatePlan_eq (stmt : SelectStmt) (root : Plan) (names : List Bytes)
    (types : List ColumnType) : aggregatePlan stmt root names types = (do
      let groups ← groupColumns names types stmt
      let specs ← aggSpecs names types stmt
      aggregateAbove stmt (aggregateNames groups specs) (aggregateTypes groups specs)
        (aggregateOf root groups specs)) := by
  unfold aggregatePlan aggregateAbove
  cases stmt.having <;> rfl

/-- The name that an item of a plain query is output under. -/
def outputNameOf (item : SelectItem) : Option Bytes :=
  match item.expr with
  | .columnRef _ col => some (itemName item col)
  | _ => none

/-- The references that the operators above the scans look up among the columns of these. A sort key
    is looked up there if it is no output column. -/
structure Mentions (stmt : SelectStmt) (refs : Bytes × Bytes → Prop) : Prop where
  items : ∀ item ∈ stmt.items, ∀ ref ∈ lookups item.expr, refs ref
  groupBy : ∀ ref ∈ stmt.groupBy, refs ref
  arguments : ∀ call ∈ aggCalls stmt, ∀ e, call.2 = some e → ∀ ref ∈ lookups e, refs ref
  orderBy : ∀ ob, stmt.orderBy = some ob → aggregated stmt = false → stmt.selectStar = false →
    (∀ item ∈ stmt.items, outputNameOf item ≠ some ob.outputName) → refs ([], ob.outputName)

/-- A name that no output column has is that of no item. -/
private theorem outputNameOf_ne {items : List (Nat × Bytes)} {name : Bytes}
    (hstar : stmt.selectStar = false) (hitems : projectionItems stmt single names = .ok items)
    (hlast : lastIndexOf (items.map Prod.snd) name = none) :
    ∀ item ∈ stmt.items, outputNameOf item ≠ some name := by
  intro item hitem hname
  unfold projectionItems at hitems
  rw [if_neg (by simp [hstar])] at hitems
  have hflip := List.Forall₂.flip (List.forall₂_of_mapM_eq_ok hitems)
  obtain ⟨out, hout, hrun⟩ := List.exists_of_forall₂_mem hflip hitem
  have hmem : name ∈ items.map Prod.snd := by
    refine List.mem_map.mpr ⟨out, hout, ?_⟩
    unfold outputNameOf at hname
    split at hrun
    · rename_i q col he
      obtain ⟨i, -, hrun⟩ := Except.bind_eq_ok.mp hrun
      rw [he] at hname
      rw [← Except.ok.inj hrun]
      exact Option.some.inj hname
    · cases hrun
  obtain ⟨i, hi, heq⟩ := List.getElem_of_mem hmem
  refine absurd heq ?_
  have hnone := List.find?_eq_none.mp hlast i (List.mem_reverse.mpr (List.mem_range.mpr hi))
  rw [List.getD_eq_getElem _ _ hi] at hnone
  simpa using hnone

/-- What `upperPlan` puts above the select list. -/
private def limitAbove (stmt : SelectStmt) (upper : Plan) : Except Exc Plan :=
  match stmt.limit with
  | some n => return .limit upper n
  | none => return upper

private theorem limitAbove_same {upper upper' : Plan} (h : Plan.Same T upper upper')
    (hp : limitAbove stmt upper = .ok p) :
    ∃ p', limitAbove stmt upper' = .ok p' ∧ Plan.Same T p p' := by
  unfold limitAbove at hp ⊢
  cases hl : stmt.limit with
  | none =>
    rw [hl] at hp
    obtain rfl := Except.ok.inj hp
    exact ⟨_, rfl, h⟩
  | some n =>
    rw [hl] at hp
    obtain rfl := Except.ok.inj hp
    exact ⟨_, rfl, h.limit n⟩

variable (h : Narrow names types names' types' fs refs) (hrefs : Mentions stmt refs)
  (hroot : Plan.Narrows T fs root root')

include h hrefs hroot

/-- A grouped query. -/
theorem aggregatePlan_narrow (hp : aggregatePlan stmt root names types = .ok p) :
    ∃ p', aggregatePlan stmt root' names' types' = .ok p' ∧ Plan.Same T p p' := by
  rw [aggregatePlan_eq] at hp ⊢
  obtain ⟨groups, hgroups, hp⟩ := Except.bind_eq_ok.mp hp
  obtain ⟨specs, hspecs, hp⟩ := Except.bind_eq_ok.mp hp
  obtain ⟨hspecs', hbelow⟩ := h.aggSpecs hrefs.arguments hspecs
  rw [h.groupColumns hrefs.groupBy hgroups, Except.ok_bind, hspecs', Except.ok_bind]
  have hnames : aggregateNames (groups.map (Narrow.moved fs))
      (specs.map (AggSpec.rename (placeIn fs))) = aggregateNames groups specs := by
    simp only [aggregateNames, List.map_map, Function.comp_def, Narrow.moved, AggSpec.rename]
  have htypes : aggregateTypes (groups.map (Narrow.moved fs))
      (specs.map (AggSpec.rename (placeIn fs))) = aggregateTypes groups specs := by
    simp only [aggregateTypes, List.map_map, Function.comp_def, Narrow.moved, AggSpec.rename]
  have hidx : ∀ i ∈ groups.map Prod.fst, i < fs.length := h.length ▸ groupColumns_lt hgroups
  have hsame : Plan.Same T (aggregateOf root groups specs)
      (aggregateOf root' (groups.map (Narrow.moved fs)) (specs.map (AggSpec.rename (placeIn fs)))) := by
    have hagg := hroot.hashAggregate hidx hbelow (groups.map fun g => g.2.1) (groups.map fun g => g.2.2)
    unfold aggregateOf
    simp only [List.map_map, Function.comp_def, Narrow.moved] at hagg ⊢
    exact hagg
  rw [hnames, htypes]
  exact aggregateAbove_same hsame hp

/-- A plain query. -/
theorem projectionPlan_narrow (hagg : aggregated stmt = false)
    (hstar : stmt.selectStar = true → names' = names ∧ fs = List.range names.length)
    (hp : projectionPlan stmt root single names = .ok p) :
    ∃ p', projectionPlan stmt root' single names' = .ok p' ∧ Plan.Same T p p' := by
  unfold projectionPlan at hp ⊢
  obtain ⟨items, hitems, hp⟩ := Except.bind_eq_ok.mp hp
  rw [h.projectionItems hrefs.items hstar hitems, Except.ok_bind]
  have hlt : ∀ i ∈ items.map Prod.fst, i < fs.length := h.length ▸ projectionItems_lt hitems
  have hfst : (items.map (Narrow.moved fs)).map Prod.fst = (items.map Prod.fst).map (placeIn fs) := by
    simp only [List.map_map, Function.comp_def, Narrow.moved]
  have hsnd : (items.map (Narrow.moved fs)).map Prod.snd = items.map Prod.snd := by
    simp only [List.map_map, Function.comp_def, Narrow.moved]
  dsimp only at hp ⊢
  rw [hfst, hsnd]
  have hlist := hroot.projection hlt (items.map Prod.snd)
  cases hob : stmt.orderBy with
  | none =>
    rw [hob] at hp
    obtain rfl := Except.ok.inj hp
    exact ⟨_, rfl, hlist⟩
  | some ob =>
    rw [hob] at hp
    dsimp only at hp ⊢
    cases hlast : lastIndexOf (items.map Prod.snd) ob.outputName with
    | some idx =>
      rw [hlast] at hp
      obtain rfl := Except.ok.inj hp
      exact ⟨_, rfl, hlist.orderBy idx ob.descending⟩
    | none =>
      -- the key is a column of the scans
      rw [hlast] at hp
      obtain ⟨idx, hidx, hp⟩ := Except.bind_eq_ok.mp hp
      obtain rfl := Except.ok.inj hp
      have hidx' : resolve names' [] ob.outputName = .ok (placeIn fs idx) := by
        cases hall : stmt.selectStar with
        | true =>
          obtain ⟨hnames, hfs⟩ := hstar hall
          have hlt : idx < (List.range names.length).length := by simpa using resolve_lt hidx
          rw [hnames, hidx, hfs, placeIn, List.getD_eq_getElem _ _ hlt, List.getElem_range]
        | false =>
          exact h.resolves ([], ob.outputName)
            (hrefs.orderBy ob hob hagg hall (outputNameOf_ne hall hitems hlast)) idx hidx
      simp only [hidx']
      have hsorted := hroot.orderBy (h.lt hidx) ob.descending
      exact ⟨_, rfl, hsorted.projection hlt (items.map Prod.snd)⟩

/-- What is above the scans means the same on the columns that are needed and on all columns. -/
theorem upperPlan_narrow
    (hstar : stmt.selectStar = true → names' = names ∧ fs = List.range names.length)
    (hp : upperPlan stmt root single names types = .ok p) :
    ∃ p', upperPlan stmt root' single names' types' = .ok p' ∧ Plan.Same T p p' := by
  unfold upperPlan at hp ⊢
  dsimp only at hp ⊢
  by_cases hagg : aggregated stmt = true
  · rw [if_pos hagg] at hp ⊢
    obtain ⟨upper, hrun, hp⟩ := Except.bind_eq_ok.mp hp
    obtain ⟨upper', hrun', hsame⟩ := aggregatePlan_narrow h hrefs hroot hrun
    rw [hrun']
    exact limitAbove_same hsame hp
  · rw [if_neg hagg] at hp ⊢
    obtain ⟨upper, hrun, hp⟩ := Except.bind_eq_ok.mp hp
    obtain ⟨upper', hrun', hsame⟩ := projectionPlan_narrow h hrefs hroot (by simpa using hagg) hstar hrun
    rw [hrun']
    exact limitAbove_same hsame hp

end

/-! ## One table -/

/-- All columns of a table. -/
def allColumns (t : TableMeta × Bytes) : List (Bytes × Bytes) :=
  t.1.schema.columns.map fun c => (t.2, c.name)

/-- A scan of all columns. -/
def wideScan (t : TableMeta × Bytes) : Except Exc ColumnScan := do
  let s ← scanInfo (allColumns t) t
  scanOp s

/-- The `WHERE` clause, as it is. -/
def whereAbove (root : Plan) (names : List Bytes) (types : List ColumnType) (e : Option Expr) :
    Except Exc Plan :=
  match e with
  | some e => do
    let pred ← bind names types e
    return .filter root pred
  | none => return root

/-- The plan of a query on one table that leaves out no column and no chunk, and filters by the
    `WHERE` clause as it is. -/
def plainSingle (stmt : SelectStmt) (t : TableMeta × Bytes) : Except Exc Plan := do
  let scan ← wideScan t
  let root ← whereAbove (.scan scan) scan.outputNames scan.outputTypes stmt.where
  upperPlan stmt root true scan.outputNames scan.outputTypes

section

variable {T : (Bytes → List Row) → (Bytes → List Row) → Prop} {fs : List Nat} {root root' p : Plan} {stmt : SelectStmt}
  {names names' : List Bytes} {types types' : List ColumnType} {refs : Bytes × Bytes → Prop}

/-- Plans whose predicates decide in the same way. -/
theorem meaning_filter_congr {b b' : BoundExpr} (h : decideRow b = decideRow b') (tables : Bytes → List Row) :
    (Plan.filter root b).meaning tables = (Plan.filter root b').meaning tables := by
  have hkeeps : keeps b = keeps b' := by
    funext types r
    rw [keeps, keeps, h]
  rw [Plan.meaning, Plan.meaning, h, hkeeps]

/-- The residual filter, on the columns that are needed, and the `WHERE` clause on all columns. -/
theorem residual_narrow (h : Narrow names types names' types' fs refs)
    (hrefs : ∀ e, stmt.where = some e → ∀ ref ∈ lookups e, refs ref)
    (hroot : Plan.Narrows T fs root root')
    (hp : residual root names types (conjunctsOf stmt) = .ok p) :
    ∃ p', whereAbove root' names' types' stmt.where = .ok p' ∧ Plan.Narrows T fs p p' := by
  cases he : stmt.where with
  | none =>
    have hnone : conjunctsOf stmt = [] := by rw [conjunctsOf, he]
    rw [hnone] at hp
    obtain rfl := Except.ok.inj hp
    exact ⟨root', rfl, hroot⟩
  | some e =>
    have hsome : conjunctsOf stmt = flatten e := by rw [conjunctsOf, he]
    rw [hsome] at hp
    rcases residual_cases hp with ⟨hnone, -⟩ | ⟨pred, hpred, rfl⟩
    · obtain ⟨c, hc⟩ := List.exists_mem_of_ne_nil _ (flatten_ne_nil e)
      exact absurd hnone (bindConjuncts_ne_none hc)
    · obtain ⟨b, hb, hdecide, -⟩ := decideRow_rechain hpred
      have hb' := h.bind (hrefs e he) hb
      refine ⟨.filter root' (b.rename (placeIn fs)), by rw [whereAbove, hb']; rfl, ?_⟩
      have hnarrow := hroot.filter (h.below hb)
      refine ⟨hnarrow.types, fun tables tables' ht => ?_, hnarrow.wide⟩
      exact (Outcomes.Extends.of_eq (meaning_filter_congr hdecide tables)).trans
        (hnarrow.meaning tables tables' ht)

end

/-- A column that a scan reads is a column of its table. -/
theorem mem_allColumns {s : ScanInfo} {t : TableMeta × Bytes} (hs : s.Resolved)
    (htable : s.table = t.1) (halias : s.alias = t.2) {p : Bytes × Bytes} (hp : p ∈ s.columns) :
    p ∈ allColumns t := by
  obtain ⟨n, hn, rfl⟩ := List.mem_map.mp hp
  obtain ⟨i, -, hi⟩ := List.exists_of_forall₂_mem hs.columns hn
  obtain ⟨col, hcol, rfl⟩ := findColumn_eq_some hi
  rw [halias]
  exact List.mem_map_of_mem (htable ▸ List.mem_of_getElem? hcol)

/-- The columns of a table that are scanned, and the scan. -/
structure Scanned (t : TableMeta × Bytes) (s : ScanInfo) (op : ColumnScan) : Prop where
  table : s.table = t.1
  named : s.alias = t.2
  resolved : s.Resolved
  scan : scanOp s = .ok op

namespace Scanned

variable {t : TableMeta × Bytes} {s w : ScanInfo} {op wide : ColumnScan}

theorem table_eq (h : Scanned t s op) : op.table = t.1 :=
  (h.resolved.scanOp_eq h.scan).1.trans h.table

theorem names (h : Scanned t s op) : op.outputNames = s.columns.map fullName :=
  (h.resolved.output_eq h.scan).1

theorem types (h : Scanned t s op) :
    op.outputTypes = s.columns.map fun p => typeOf t.1.schema p.2 := by
  rw [← h.table]
  exact (h.resolved.output_eq h.scan).2

theorem project_eq (h : Scanned t s op) (r : Row) :
    project op.colIdx r = s.columns.map fun p => valueOf t.1.schema r p.2 := by
  rw [← h.table, ← h.resolved.project_eq, (h.resolved.scanOp_eq h.scan).2.1]

theorem alias_eq (h : Scanned t s op) {p : Bytes × Bytes} (hp : p ∈ s.columns) : p.1 = t.2 := by
  obtain ⟨n, -, rfl⟩ := List.mem_map.mp hp
  exact h.named

theorem mem_all (h : Scanned t s op) {p : Bytes × Bytes} (hp : p ∈ s.columns) : p ∈ allColumns t :=
  mem_allColumns h.resolved h.table h.named hp

/-- The columns that are needed are among all columns. -/
theorem subset (h : Scanned t s op) (hw : Scanned t w wide)
    (hall : ∀ n, n ∈ w.colNames ↔ (t.2, n) ∈ allColumns t) : s.columns ⊆ w.columns := by
  intro p hp
  have hmem := h.mem_all hp
  obtain ⟨n, -, rfl⟩ := List.mem_map.mp hp
  rw [h.named] at hmem ⊢
  rw [← hw.named]
  exact List.mem_map_of_mem ((hall n).mpr hmem)

/-- Where all columns are needed, all are scanned. -/
theorem columns_eq (h : Scanned t s op) (hw : Scanned t w wide)
    (hall : ∀ n, n ∈ w.colNames ↔ (t.2, n) ∈ allColumns t)
    (hneeded : ∀ n, (t.2, n) ∈ allColumns t → n ∈ s.colNames) : s.columns = w.columns := by
  have hnames : s.colNames = w.colNames := by
    refine h.resolved.eq_of_names hw.resolved (h.table.trans hw.table.symm) fun n => ?_
    rw [hall]
    refine ⟨fun hn => ?_, hneeded n⟩
    have hmem := h.mem_all (List.mem_map_of_mem hn)
    rwa [h.named] at hmem
  rw [ScanInfo.columns, ScanInfo.columns, hnames, h.named, hw.named]

end Scanned

/-- The scan of all columns. -/
theorem wideScan_total (t : TableMeta × Bytes) : ∃ w wide, wideScan t = .ok wide ∧ Scanned t w wide ∧
    ∀ n, n ∈ w.colNames ↔ (t.2, n) ∈ allColumns t := by
  have hcolumns : ∀ name, (t.2, name) ∈ allColumns t → ∃ col ∈ t.1.schema.columns, col.name = name :=
    fun name h => by
      obtain ⟨col, hcol, heq⟩ := List.mem_map.mp h
      exact ⟨col, hcol, congrArg Prod.snd heq⟩
  obtain ⟨w, wide, hinfo, hwide⟩ := scanInfo_total hcolumns
  obtain ⟨htable, halias, hw, hnames⟩ := scanInfo_resolved hinfo
  exact ⟨w, wide, by rw [wideScan, hinfo]; exact hwide, ⟨htable, halias, hw, hwide⟩, hnames⟩

/-- A scan of some columns, and one of more columns. Zone filters do not matter. -/
theorem scan_narrows {t : TableMeta × Bytes} {s w : ScanInfo} {scan wide : ColumnScan}
    {zone : Option ZoneFilter} (hs : Scanned t s scan) (hw : Scanned t w wide)
    (hsub : s.columns ⊆ w.columns) :
    Plan.Narrows Eq (placesIn w.columns s.columns) (.scan { scan with zone }) (.scan wide) := by
  have hvalues : ∀ r, project (placesIn w.columns s.columns) (project wide.colIdx r) =
      project scan.colIdx r := fun r => by
    rw [hw.project_eq, hs.project_eq, project_placesIn hsub]
  refine ⟨fun i hi => ?_, ?_, ?_⟩
  · have hi : i < s.columns.length := by simpa [placesIn] using hi
    have hlt := List.idxOf_lt_length_of_mem (hsub (List.getElem_mem hi))
    simp only [Plan.outputTypes]
    rw [hs.types, hw.types, placeIn_placesIn hi, List.getElem?_map, List.getElem?_map,
      List.getElem?_eq_getElem hlt, List.getElem?_eq_getElem hi, List.getElem_idxOf]
  · rintro tables _ rfl
    refine .of_eq ?_
    rw [Plan.meaning, Plan.meaning, pure_bind, List.map_map, hs.table_eq, hw.table_eq]
    exact congrArg pure (List.map_congr_left fun r _ => (hvalues r).symm)
  · rintro tables _ rfl rows hrows r hr j hj
    obtain rfl : rows = (tables wide.table.name).map (project wide.colIdx) := hrows
    obtain ⟨row, -, rfl⟩ := List.mem_map.mp hr
    obtain ⟨p, hp, rfl⟩ := List.mem_map.mp hj
    rw [hw.project_eq, List.length_map]
    exact List.idxOf_lt_length_of_mem (hsub hp)

/-- A list of columns within itself. -/
theorem placesIn_self {ps : List (Bytes × Bytes)} (hnodup : ps.Nodup) :
    placesIn ps ps = List.range ps.length := by
  refine List.ext_getElem (by simp [placesIn]) fun i hi _ => ?_
  have hi : i < ps.length := by simpa [placesIn] using hi
  rw [List.getElem_range, ← List.getD_eq_getElem _ 0 (by simpa [placesIn] using hi)]
  show placeIn (placesIn ps ps) i = i
  rw [placeIn_placesIn hi, List.Nodup.idxOf_getElem hnodup]

theorem oneDot_of_named {t : TableMeta × Bytes} (ht : NamedTable t) : ∀ p ∈ allColumns t, OneDot p := by
  intro p hp
  obtain ⟨col, hcol, rfl⟩ := List.mem_map.mp hp
  exact ⟨ht.1.1, ht.1.2, (ht.2 col hcol).2⟩

/-- Among the columns of one table no reference is ambiguous. -/
theorem unambiguous_single {ps : List (Bytes × Bytes)} {a : Bytes} (halias : ∀ p ∈ ps, p.1 = a)
    (hdots : ∀ p ∈ ps, OneDot p) (ref : Bytes × Bytes) : Unambiguous ps ref := by
  have hdotless : ∀ p ∈ ps, ∀ p' ∈ ps, p.2 ≠ fullName p' := fun p hp p' hp' heq =>
    fullName_not_dotless (hdots p' hp') (heq ▸ (hdots p hp).2.2)
  rintro - p hp p' hp' (h | h) (h' | h')
  · exact Prod.ext ((halias p hp).trans (halias p' hp').symm) (h ▸ h')
  · exact absurd (h ▸ h') (hdotless p hp p' hp')
  · exact absurd (h' ▸ h) (hdotless p' hp' p hp)
  · exact fullName_inj (hdots p hp) (hdots p' hp') (h ▸ h')

/-! ### Needed columns -/

theorem needFirst_subset {needed needed' : List (Bytes × Bytes)} {t : TableMeta × Bytes}
    (h : needFirst t needed = .ok needed') : needed ⊆ needed' := by
  unfold needFirst at h
  split at h
  · obtain ⟨col, -, h⟩ := Except.bind_eq_ok.mp h
    rw [← Except.ok.inj h]
    exact List.subset_append_left _ _
  · rw [Except.ok.inj h]
    exact List.Subset.refl _

/-- A reference is needed under the alias that it has, or under that of the one table that has a
    column of the name. -/
theorem addRef_cases {scans : List (TableMeta × Bytes)} {needed needed' : List (Bytes × Bytes)}
    {ref : Bytes × Bytes} (h : addRef scans needed ref = .ok needed') :
    ∃ a, (if ref.1 = [] then owningAlias scans ref.2 = .ok a else ref.1 = a) ∧
      needed' = needed ++ [(a, ref.2)] := by
  unfold addRef at h
  split at h
  · rename_i hbare
    obtain ⟨a, ha, h⟩ := Except.bind_eq_ok.mp h
    exact ⟨a, by rwa [if_pos hbare], (Except.ok.inj h).symm⟩
  · rename_i hqualified
    obtain ⟨a, ha, h⟩ := Except.bind_eq_ok.mp h
    exact ⟨a, by rw [if_neg hqualified]; exact Except.ok.inj ha, (Except.ok.inj h).symm⟩

theorem addRef_subset {scans : List (TableMeta × Bytes)} {needed needed' : List (Bytes × Bytes)}
    {ref : Bytes × Bytes} (h : addRef scans needed ref = .ok needed') : needed ⊆ needed' := by
  obtain ⟨a, -, rfl⟩ := addRef_cases h
  exact List.subset_append_left _ _

theorem addRefs_subset {scans : List (TableMeta × Bytes)} {refs needed needed' : List (Bytes × Bytes)}
    (h : addRefs scans refs needed = .ok needed') : needed ⊆ needed' := by
  unfold addRefs at h
  induction refs generalizing needed with
  | nil =>
    rw [Except.ok.inj h]
    exact List.Subset.refl _
  | cons ref refs ih =>
    rw [List.foldlM_cons] at h
    obtain ⟨needed₁, h₁, h⟩ := Except.bind_eq_ok.mp h
    exact List.Subset.trans (addRef_subset h₁) (ih h)

theorem addOrderColumn_subset (scans : List (TableMeta × Bytes)) (stmt : SelectStmt)
    (needed : List (Bytes × Bytes)) : needed ⊆ addOrderColumn scans stmt needed := by
  unfold addOrderColumn
  split
  · split
    · exact List.Subset.refl _
    · split
      · rename_i h
        exact addRef_subset h
      · exact List.Subset.refl _
  · exact List.Subset.refl _

/-- Under `*` all columns are needed. -/
theorem allColumns_subset_needed {stmt : SelectStmt} {scans : List (TableMeta × Bytes)}
    {needed : List (Bytes × Bytes)} (hstar : stmt.selectStar = true)
    (h : neededColumns scans stmt = .ok needed) {t : TableMeta × Bytes} (ht : t ∈ scans) :
    allColumns t ⊆ addOrderColumn scans stmt needed := by
  refine fun p hp => addOrderColumn_subset _ _ _ ?_
  unfold neededColumns at h
  rw [if_pos hstar] at h
  obtain ⟨needed₁, h₁, h⟩ := Except.bind_eq_ok.mp h
  obtain ⟨needed₂, h₂, h⟩ := Except.bind_eq_ok.mp h
  obtain ⟨needed₃, h₃, h⟩ := Except.bind_eq_ok.mp h
  have hselect : p ∈ selectRefs scans stmt := by
    rw [selectRefs, if_pos hstar]
    exact List.mem_flatMap_of_mem ht hp
  rw [Except.ok.inj h₁] at hselect
  exact addRefs_subset h (addRefs_subset h₃ (addRefs_subset h₂ hselect))

/-- The plan of a query on one table means what its plain plan means: it has the same columns and
    the same rows. -/
theorem planSingle_plain {stmt : SelectStmt} {needed : List (Bytes × Bytes)} {t : TableMeta × Bytes}
    {p : Plan} (ht : NamedTable t) (hneeded : stmt.selectStar = true → allColumns t ⊆ needed)
    (h : planSingle stmt needed t = .ok p) :
    ∃ p', plainSingle stmt t = .ok p' ∧ Plan.Same Eq p p' := by
  obtain ⟨needed', s, scan, zone, root, hfirst, hinfo, hscan, -, hroot, hupper⟩ := planSingle_cases h
  obtain ⟨hstable, hsalias, hresolved, hsnames⟩ := scanInfo_resolved hinfo
  have hs : Scanned t s scan := ⟨hstable, hsalias, hresolved, hscan⟩
  obtain ⟨w, wide, hrun, hw, hall⟩ := wideScan_total t
  have hsub := hs.subset hw hall
  have hdots : ∀ p ∈ w.columns, OneDot p := fun p hp => oneDot_of_named ht p (hw.mem_all hp)
  have hnarrow : Narrow scan.outputNames scan.outputTypes wide.outputNames wide.outputTypes
      (placesIn w.columns s.columns) (Unambiguous w.columns) := by
    rw [hs.names, hs.types, hw.names, hw.types]
    exact .of_columns _ hs.resolved.nodup hw.resolved.nodup hdots hsub
  have hrefs : ∀ ref, Unambiguous w.columns ref :=
    unambiguous_single (fun p hp => hw.alias_eq hp) hdots
  obtain ⟨root', hroot', hnarrows⟩ := residual_narrow hnarrow (fun _ _ ref _ => hrefs ref)
    (scan_narrows hs hw hsub) hroot
  have hstar : stmt.selectStar = true → wide.outputNames = scan.outputNames ∧
      placesIn w.columns s.columns = List.range scan.outputNames.length := fun hstar => by
    -- all columns are needed, so that the two scans are one
    have hcolumns := hs.columns_eq hw hall fun n hn =>
      (hsnames n).mpr (needFirst_subset hfirst (hneeded hstar hn))
    rw [hs.names, hw.names, hcolumns, List.length_map]
    exact ⟨rfl, placesIn_self hw.resolved.nodup⟩
  obtain ⟨p', hp', hsame⟩ := upperPlan_narrow hnarrow ⟨fun _ _ ref _ => hrefs ref, fun ref _ => hrefs ref,
    fun _ _ _ _ ref _ => hrefs ref, fun _ _ _ _ _ => hrefs _⟩ hnarrows hstar hupper
  refine ⟨p', ?_, hsame⟩
  rw [plainSingle, hrun, Except.ok_bind, hroot', Except.ok_bind, hp']

end Planner

end LiteOLAP
