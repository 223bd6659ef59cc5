import LiteOLAP.Spec.PlanSchemas

/-!
# Columns in other places

The planner binds names in the columns that are scanned. In a wider list of columns the same
names stand for the same columns in other places. What is bound there computes from a wide row
what was bound here computes from the narrow one.

## Key results

- `evalRow_rename`, `decideRow_rename`: expressions
- `Planner.Narrow.bind`: binding
- `HashAggregate.grouped_rename`: groups
-/

namespace LiteOLAP

/-! ## Expressions -/

namespace BoundExpr

/-- The expression with its columns in other places. -/
def rename (f : Nat → Nat) : BoundExpr → BoundExpr
  | .column i t => .column (f i) t
  | .literal v => .literal v
  | .not c => .not (c.rename f)
  | .binary op a b => .binary op (a.rename f) (b.rename f)

end BoundExpr

/-- The place in the wide row of a place in the narrow one. -/
def placeIn (fs : List Nat) (i : Nat) : Nat := fs.getD i 0

theorem placeIn_mem {fs : List Nat} {i : Nat} (hi : i < fs.length) : placeIn fs i ∈ fs := by
  rw [placeIn, List.getD_eq_getElem _ _ hi]
  exact List.getElem_mem hi

/-- A column of the narrow row is one of the wide row. -/
theorem getD_project {fs : List Nat} {i : Nat} (hi : i < fs.length) (r : Row) :
    (project fs r).getD i .null = r.getD (placeIn fs i) .null := by
  have hi' : i < (project fs r).length := by simpa [project] using hi
  rw [List.getD_eq_getElem _ _ hi', placeIn, List.getD_eq_getElem _ _ hi]
  simp [project]

theorem getElem?_project {fs : List Nat} {i : Nat} {r : Row} (hi : i < fs.length)
    (hr : ∀ j ∈ fs, j < r.length) : (project fs r)[i]? = r[placeIn fs i]? := by
  have hi' : i < (project fs r).length := by simpa [project] using hi
  have hlt := hr _ (placeIn_mem hi)
  rw [List.getElem?_eq_getElem hi', List.getElem?_eq_getElem hlt,
    ← List.getD_eq_getElem _ .null hi', ← List.getD_eq_getElem _ .null hlt, getD_project hi]

/-- The columns of the narrow row, of which some are taken. -/
theorem project_project {fs is : List Nat} (his : ∀ i ∈ is, i < fs.length) (r : Row) :
    project is (project fs r) = project (is.map (placeIn fs)) r := by
  unfold project
  rw [List.map_map]
  exact List.map_congr_left fun i hi => getD_project (his i hi) r

section

variable {fs : List Nat} {r : Row}

/-- An expression has the value on the narrow row that it has on the wide one. -/
theorem evalRow_rename {e : BoundExpr} (he : ColumnsBelow fs.length e) (hr : ∀ j ∈ fs, j < r.length) :
    evalRow (e.rename (placeIn fs)) r = evalRow e (project fs r) := by
  induction e with
  | column i t => rw [BoundExpr.rename, evalRow, evalRow, getElem?_project he hr]
  | literal v => rfl
  | not c ih => rw [BoundExpr.rename, evalRow, evalRow, ih he]
  | binary op a b iha ihb =>
    have ha := iha he.1
    have hb := ihb he.2
    cases op <;> simp only [BoundExpr.rename, evalRow, ha, hb]

theorem truthyRow_rename {e : BoundExpr} (he : ColumnsBelow fs.length e) (hr : ∀ j ∈ fs, j < r.length) :
    truthyRow (e.rename (placeIn fs)) r = truthyRow e (project fs r) := by
  rw [truthyRow, truthyRow, evalRow_rename he hr]

/-- A predicate decides the narrow row as it does the wide one, if the columns have their types. -/
theorem decideRow_rename {e : BoundExpr} {types types' : List ColumnType} (he : ColumnsBelow fs.length e)
    (hr : ∀ j ∈ fs, j < r.length) (htypes : ∀ i < fs.length, types'[placeIn fs i]? = types[i]?) :
    decideRow (e.rename (placeIn fs)) types' r = decideRow e types (project fs r) := by
  have hrow := truthyRow_rename he hr
  cases e with
  | column i t => exact hrow
  | literal v => exact hrow
  | not c => exact hrow
  | binary op a b =>
    cases a with
    | literal v => exact hrow
    | not c => exact hrow
    | binary op' c d => exact hrow
    | column i t =>
      cases b with
      | column j t' => exact hrow
      | not c => exact hrow
      | binary op' c d => exact hrow
      | literal lit =>
        -- the typed path looks at the type of the column
        have hi : i < fs.length := he.1
        have hsimple : isSimpleNumericCompare (.binary op (.column (placeIn fs i) t) (.literal lit)) =
            isSimpleNumericCompare (.binary op (.column i t) (.literal lit)) := rfl
        simp only [BoundExpr.rename] at hrow ⊢
        simp only [decideRow, hsimple, htypes i hi, getD_project hi, hrow]

theorem inferBoundType_rename (f : Nat → Nat) (e : BoundExpr) :
    Planner.inferBoundType (e.rename f) = Planner.inferBoundType e := by
  induction e with
  | column i t => rfl
  | literal v => rfl
  | not c _ => rfl
  | binary op a b iha ihb => simp only [BoundExpr.rename, Planner.inferBoundType, iha, ihb]

end

/-! ## Groups -/

namespace AggSpec

/-- The aggregate with the columns of its argument in other places. -/
def rename (f : Nat → Nat) (spec : AggSpec) : AggSpec :=
  { spec with inputExpr := spec.inputExpr.map (BoundExpr.rename f) }

/-- The columns of the argument, if there is one, are among the first `n`. -/
def ArgumentBelow (n : Nat) (spec : AggSpec) : Prop :=
  ∀ e, spec.inputExpr = some e → ColumnsBelow n e

end AggSpec

namespace HashAggregate

variable {fs : List Nat} {groupIndices : List Nat} {aggs : List AggSpec} {spec : AggSpec}

theorem argumentIn_rename (hspec : spec.ArgumentBelow fs.length) {r : Row} (hr : ∀ j ∈ fs, j < r.length) :
    argumentIn (spec.rename (placeIn fs)) r = argumentIn spec (project fs r) := by
  unfold argumentIn AggSpec.rename
  cases he : spec.inputExpr with
  | none => rfl
  | some e => simp only [Option.map_some, valueIn, evalRow_rename (hspec e he) hr]

theorem computes_rename (hspec : spec.ArgumentBelow fs.length) {r : Row} (hr : ∀ j ∈ fs, j < r.length) :
    Computes (spec.rename (placeIn fs)) r ↔ Computes spec (project fs r) := by
  refine or_congr_right ?_
  cases he : spec.inputExpr with
  | none => simp [AggSpec.rename, he]
  | some e => simp [AggSpec.rename, he, evalRow_rename (hspec e he) hr]

theorem aggValue_rename (f : Nat → Nat) (spec : AggSpec) :
    aggValue (spec.rename f) = aggValue spec := rfl

variable {rows : List Row}

/-- The groups of the narrow rows are those of the wide rows. -/
theorem grouped_rename (hidx : ∀ i ∈ groupIndices, i < fs.length)
    (haggs : ∀ spec ∈ aggs, spec.ArgumentBelow fs.length) (hrows : ∀ r ∈ rows, ∀ j ∈ fs, j < r.length) :
    grouped (groupIndices.map (placeIn fs)) (aggs.map (AggSpec.rename (placeIn fs))) rows =
      grouped groupIndices aggs (rows.map (project fs)) := by
  have hkey : ∀ r, project groupIndices (project fs r) = project (groupIndices.map (placeIn fs)) r :=
    project_project hidx
  have hkeys : keysOf (groupIndices.map (placeIn fs)) rows =
      keysOf groupIndices (rows.map (project fs)) := by
    simp only [keysOf, List.map_eq_nil_iff, List.map_map, Function.comp_def, hkey]
  rw [grouped, grouped, hkeys]
  refine List.map_congr_left fun key _ => ?_
  rw [groupRow, groupRow, List.map_map]
  refine congrArg (key ++ ·) (List.map_congr_left fun spec hspec => ?_)
  -- the rows of the group, and the arguments in them
  rw [Function.comp_apply, aggValue_rename, List.filter_map, List.map_map]
  simp only [Function.comp_def, hkey]
  refine congrArg _ (List.map_congr_left fun r hr => ?_)
  exact argumentIn_rename (haggs spec hspec) (hrows r (List.mem_filter.mp hr).1)

theorem groupable_rename (hidx : ∀ i ∈ groupIndices, i < fs.length)
    (haggs : ∀ spec ∈ aggs, spec.ArgumentBelow fs.length) (hrows : ∀ r ∈ rows, ∀ j ∈ fs, j < r.length) :
    Groupable (groupIndices.map (placeIn fs)) (aggs.map (AggSpec.rename (placeIn fs))) rows ↔
      Groupable groupIndices aggs (rows.map (project fs)) := by
  have hkey : ∀ r, project groupIndices (project fs r) = project (groupIndices.map (placeIn fs)) r :=
    project_project hidx
  constructor
  · intro h
    refine ⟨fun spec hspec => ?_, fun spec hspec => ?_, fun r hr spec hspec => ?_,
      fun r hr r' hr' heq => ?_⟩
    · exact h.exact (spec.rename (placeIn fs)) (List.mem_map_of_mem hspec)
    · exact h.output (spec.rename (placeIn fs)) (List.mem_map_of_mem hspec)
    · obtain ⟨row, hrow, rfl⟩ := List.mem_map.mp hr
      exact (computes_rename (haggs spec hspec) (hrows row hrow)).mp
        (h.computes row hrow _ (List.mem_map_of_mem hspec))
    · obtain ⟨row, hrow, rfl⟩ := List.mem_map.mp hr
      obtain ⟨row', hrow', rfl⟩ := List.mem_map.mp hr'
      rw [hkey, hkey] at heq ⊢
      exact h.keys row hrow row' hrow' heq
  · intro h
    have hmem : ∀ r ∈ rows, project fs r ∈ rows.map (project fs) := fun r hr =>
      List.mem_map_of_mem hr
    refine ⟨fun spec hspec => ?_, fun spec hspec => ?_, fun r hr spec hspec => ?_,
      fun r hr r' hr' heq => ?_⟩
    · obtain ⟨narrow, hnarrow, rfl⟩ := List.mem_map.mp hspec
      exact h.exact narrow hnarrow
    · obtain ⟨narrow, hnarrow, rfl⟩ := List.mem_map.mp hspec
      exact h.output narrow hnarrow
    · obtain ⟨narrow, hnarrow, rfl⟩ := List.mem_map.mp hspec
      exact (computes_rename (haggs narrow hnarrow) (hrows r hr)).mpr
        (h.computes _ (hmem r hr) narrow hnarrow)
    · have hsame := h.keys _ (hmem r hr) _ (hmem r' hr')
      rw [hkey, hkey] at hsame
      exact hsame heq

end HashAggregate

/-! ## Binding -/

namespace Planner

/-- The names that `bind` looks up. -/
def lookups : Expr → List (Bytes × Bytes)
  | .columnRef tableAlias col => [(tableAlias, col)]
  | .literal _ => []
  | .not child => lookups child
  | .aggregate kind argument => [([], aggName kind argument)]
  | .inList (.columnRef tableAlias col) _ => [(tableAlias, col)]
  | .inList _ _ => []
  | .binary _ l r => lookups l ++ lookups r

/-- The aggregate calls of a query. -/
def aggCalls (stmt : SelectStmt) : List (AggKind × Option Expr) :=
  (stmt.items.flatMap fun item => collect item.expr) ++
    (match stmt.having with
      | some e => collect e
      | none => [])

/-- The columns `names` are the columns `fs` of `names'`, with the same types, and the references
    `refs` stand for the same columns in both. -/
structure Narrow (names : List Bytes) (types : List ColumnType) (names' : List Bytes)
    (types' : List ColumnType) (fs : List Nat) (refs : Bytes × Bytes → Prop) : Prop where
  length : fs.length = names.length
  typesLength : names.length = types.length
  types : ∀ i < fs.length, types'[placeIn fs i]? = types[i]?
  resolves : ∀ ref, refs ref → ∀ i, resolve names ref.1 ref.2 = .ok i →
    resolve names' ref.1 ref.2 = .ok (placeIn fs i)

namespace Narrow

variable {names names' : List Bytes} {types types' : List ColumnType} {fs : List Nat}
  {refs : Bytes × Bytes → Prop} {stmt : SelectStmt} {single : Bool}

theorem lt (h : Narrow names types names' types' fs refs) {q col : Bytes} {i : Nat}
    (hi : resolve names q col = .ok i) : i < fs.length := by
  rw [h.length]
  exact resolve_lt hi

theorem bindColumn (h : Narrow names types names' types' fs refs) {q col : Bytes} {b : BoundExpr}
    (href : refs (q, col)) (hb : bindColumn names types q col = .ok b) :
    Planner.bindColumn names' types' q col = .ok (b.rename (placeIn fs)) := by
  obtain ⟨i, hi, hb⟩ := Except.bind_eq_ok.mp hb
  rw [Planner.bindColumn, h.resolves (q, col) href i hi, Except.ok_bind, h.types i (h.lt hi)]
  split at hb
  · rw [← Except.ok.inj hb]
    rfl
  · cases hb

/-- The chain of an `IN` list, from a chain on. -/
private theorem bindIn (h : Narrow names types names' types' fs refs) {q col : Bytes}
    (href : refs (q, col)) {values : List Value} {chain b : Option BoundExpr}
    (hb : Planner.bindIn names types q col values chain = .ok b) :
    Planner.bindIn names' types' q col values (chain.map (BoundExpr.rename (placeIn fs))) =
      .ok (b.map (BoundExpr.rename (placeIn fs))) := by
  induction values generalizing chain with
  | nil =>
    obtain rfl := Except.ok.inj hb
    rfl
  | cons v values ih =>
    simp only [Planner.bindIn, List.foldlM_cons] at hb
    obtain ⟨step, hstep, hb⟩ := Except.bind_eq_ok.mp hb
    obtain ⟨c, hc, hstep⟩ := Except.bind_eq_ok.mp hstep
    obtain rfl := Except.ok.inj hstep
    have hrest := ih hb
    simp only [Planner.bindIn, List.foldlM_cons]
    refine Except.bind_eq_ok.mpr ⟨_, Except.bind_eq_ok.mpr ⟨_, h.bindColumn href hc, rfl⟩, ?_⟩
    cases chain with
    | none => exact hrest
    | some c₀ => exact hrest

/-- What is bound in the narrow list of columns is bound in the wide one, with the columns in other
    places. -/
theorem bind (h : Narrow names types names' types' fs refs) : ∀ {e : Expr} {b : BoundExpr},
    (∀ ref ∈ lookups e, refs ref) → Planner.bind names types e = .ok b →
      Planner.bind names' types' e = .ok (b.rename (placeIn fs))
  | .columnRef _ _, _, hrefs, hb => by
    rw [Planner.bind] at hb ⊢
    exact h.bindColumn (hrefs _ (List.mem_singleton_self _)) hb
  | .literal _, _, _, hb => by
    rw [Planner.bind] at hb ⊢
    cases hb
    rfl
  | .not child, _, hrefs, hb => by
    rw [Planner.bind] at hb ⊢
    obtain ⟨c, hc, hb⟩ := Except.bind_eq_ok.mp hb
    cases hb
    rw [h.bind (e := child) hrefs hc]
    rfl
  | .aggregate _ _, _, hrefs, hb => by
    rw [Planner.bind] at hb ⊢
    exact h.bindColumn (hrefs _ (List.mem_singleton_self _)) hb
  | .inList (.columnRef _ _) _, _, hrefs, hb => by
    rw [Planner.bind] at hb ⊢
    obtain ⟨chain, hchain, hb⟩ := Except.bind_eq_ok.mp hb
    have hchain' := h.bindIn (hrefs _ (List.mem_singleton_self _)) hchain
    rw [Option.map_none] at hchain'
    rw [hchain']
    cases chain with
    | none => cases hb
    | some c =>
      cases hb
      rfl
  | .inList (.literal _) _, _, _, hb | .inList (.binary _ _ _) _, _, _, hb
  | .inList (.not _) _, _, _, hb | .inList (.inList _ _) _, _, _, hb
  | .inList (.aggregate _ _) _, _, _, hb => by
    rw [Planner.bind] at hb
    · cases hb
    · simp
  | .binary _ l r, _, hrefs, hb => by
    rw [Planner.bind] at hb ⊢
    obtain ⟨x, hx, hb⟩ := Except.bind_eq_ok.mp hb
    obtain ⟨y, hy, hb⟩ := Except.bind_eq_ok.mp hb
    cases hb
    rw [h.bind (fun ref href => hrefs ref (List.mem_append_left _ href)) hx,
      h.bind (fun ref href => hrefs ref (List.mem_append_right _ href)) hy]
    rfl

theorem below (h : Narrow names types names' types' fs refs) {e : Expr} {b : BoundExpr}
    (hb : Planner.bind names types e = .ok b) : ColumnsBelow fs.length b := by
  rw [h.length, h.typesLength]
  exact (bind_columnsBound hb).below

/-! ## Select lists and groups -/

/-- An output column, taken from another place. -/
def moved {α : Type} (fs : List Nat) (g : Nat × α) : Nat × α := (placeIn fs g.1, g.2)

theorem groupColumns (h : Narrow names types names' types' fs refs)
    (hrefs : ∀ ref ∈ stmt.groupBy, refs ref) {groups : List (Nat × Bytes × ColumnType)}
    (hgroups : Planner.groupColumns names types stmt = .ok groups) :
    Planner.groupColumns names' types' stmt = .ok (groups.map (moved fs)) := by
  unfold Planner.groupColumns at hgroups ⊢
  generalize stmt.groupBy = list at hrefs hgroups ⊢
  induction list generalizing groups with
  | nil =>
    obtain rfl := Except.ok.inj hgroups
    rfl
  | cons g gs ih =>
    rw [List.mapM_cons] at hgroups ⊢
    obtain ⟨x, hx, hgroups⟩ := Except.bind_eq_ok.mp hgroups
    obtain ⟨xs, hxs, hgroups⟩ := Except.bind_eq_ok.mp hgroups
    obtain ⟨i, hi, hx⟩ := Except.bind_eq_ok.mp hx
    have htype : types'.getD (placeIn fs i) .int = types.getD i .int := by
      simp only [List.getD_eq_getElem?_getD, h.types i (h.lt hi)]
    have hi' := h.resolves g (hrefs g List.mem_cons_self) i hi
    rw [ih (fun ref href => hrefs ref (List.mem_cons_of_mem _ href)) hxs, ← Except.ok.inj hgroups,
      ← Except.ok.inj hx, hi']
    simp only [Except.ok_bind, htype]
    rfl

/-- The select list of a plain query. Under `*` both lists have to be the same. -/
theorem projectionItems (h : Narrow names types names' types' fs refs)
    (hrefs : ∀ item ∈ stmt.items, ∀ ref ∈ lookups item.expr, refs ref)
    (hstar : stmt.selectStar = true → names' = names ∧ fs = List.range names.length)
    {items : List (Nat × Bytes)} (hitems : Planner.projectionItems stmt single names = .ok items) :
    Planner.projectionItems stmt single names' = .ok (items.map (moved fs)) := by
  unfold Planner.projectionItems at hitems ⊢
  by_cases hall : stmt.selectStar = true
  · rw [if_pos hall] at hitems ⊢
    obtain ⟨hnames, hfs⟩ := hstar hall
    rw [hnames, ← Except.ok.inj hitems, List.map_map]
    refine congrArg Except.ok (List.map_congr_left fun i hi => ?_)
    have hlt : i < (List.range names.length).length := by simpa using hi
    rw [Function.comp_apply, moved, hfs, placeIn, List.getD_eq_getElem _ _ hlt, List.getElem_range]
  · rw [if_neg hall] at hitems ⊢
    generalize stmt.items = list at hrefs hitems ⊢
    induction list generalizing items with
    | nil =>
      obtain rfl := Except.ok.inj hitems
      rfl
    | cons item list ih =>
      rw [List.mapM_cons] at hitems ⊢
      obtain ⟨x, hx, hitems⟩ := Except.bind_eq_ok.mp hitems
      obtain ⟨xs, hxs, hitems⟩ := Except.bind_eq_ok.mp hitems
      rw [ih (fun item hitem => hrefs item (List.mem_cons_of_mem _ hitem)) hxs,
        ← Except.ok.inj hitems]
      have href := hrefs item List.mem_cons_self
      split at hx
      · rename_i q col he
        obtain ⟨i, hi, hx⟩ := Except.bind_eq_ok.mp hx
        rw [he] at href
        rw [h.resolves (q, col) (href _ (List.mem_singleton_self _)) i hi, ← Except.ok.inj hx]
        rfl
      · cases hx

/-! ## Aggregates -/

private theorem addAgg (h : Narrow names types names' types' fs refs) {specs specs' : List AggSpec}
    {call : AggKind × Option Expr} (hrefs : ∀ e, call.2 = some e → ∀ ref ∈ lookups e, refs ref)
    (hbelow : ∀ spec ∈ specs, spec.ArgumentBelow fs.length)
    (hadd : Planner.addAgg names types specs call = .ok specs') :
    Planner.addAgg names' types' (specs.map (AggSpec.rename (placeIn fs))) call =
        .ok (specs'.map (AggSpec.rename (placeIn fs))) ∧
      ∀ spec ∈ specs', spec.ArgumentBelow fs.length := by
  have hany : (specs.map (AggSpec.rename (placeIn fs))).any
      (fun s => s.outputName == aggName call.1 call.2) =
      specs.any fun s => s.outputName == aggName call.1 call.2 := by
    rw [List.any_map]
    rfl
  unfold Planner.addAgg at hadd ⊢
  dsimp only at hadd ⊢
  rw [hany]
  split at hadd
  · rename_i hfound
    obtain rfl := Except.ok.inj hadd
    rw [if_pos hfound]
    exact ⟨rfl, hbelow⟩
  · rename_i hfound
    rw [if_neg hfound]
    split at hadd
    · rename_i hstar
      obtain rfl := Except.ok.inj hadd
      rw [if_pos hstar]
      refine ⟨by rw [List.map_append]; rfl, fun spec hspec => ?_⟩
      rcases List.mem_append.mp hspec with hspec | hspec
      · exact hbelow spec hspec
      · rw [List.mem_singleton.mp hspec]
        exact fun e he => by cases he
    · rename_i hstar
      rw [if_neg hstar]
      obtain ⟨input, hinput, hadd⟩ := Except.bind_eq_ok.mp hadd
      cases harg : call.2 with
      | none =>
        rw [harg] at hinput
        cases hinput
      | some e =>
        rw [harg] at hinput
        have hbound : Planner.bind names types e = .ok input := hinput
        have hbound' : bindArgument names' types' (some e) = .ok (input.rename (placeIn fs)) :=
          h.bind (hrefs e harg) hbound
        obtain rfl := Except.ok.inj hadd
        rw [hbound', Except.ok_bind, inferBoundType_rename]
        refine ⟨by rw [List.map_append, harg]; rfl, fun spec hspec => ?_⟩
        rcases List.mem_append.mp hspec with hspec | hspec
        · exact hbelow spec hspec
        · rw [List.mem_singleton.mp hspec]
          intro e' he'
          rw [← Option.some.inj he']
          exact h.below hbound

theorem aggSpecs (h : Narrow names types names' types' fs refs)
    (hrefs : ∀ call ∈ aggCalls stmt, ∀ e, call.2 = some e → ∀ ref ∈ lookups e, refs ref)
    {specs : List AggSpec} (hspecs : Planner.aggSpecs names types stmt = .ok specs) :
    Planner.aggSpecs names' types' stmt = .ok (specs.map (AggSpec.rename (placeIn fs))) ∧
      ∀ spec ∈ specs, spec.ArgumentBelow fs.length := by
  have hloop : ∀ (calls : List (AggKind × Option Expr)) (acc : List AggSpec),
      (∀ call ∈ calls, ∀ e, call.2 = some e → ∀ ref ∈ lookups e, refs ref) →
      (∀ spec ∈ acc, spec.ArgumentBelow fs.length) → ∀ specs,
      calls.foldlM (Planner.addAgg names types) acc = .ok specs →
      calls.foldlM (Planner.addAgg names' types') (acc.map (AggSpec.rename (placeIn fs))) =
          .ok (specs.map (AggSpec.rename (placeIn fs))) ∧
        ∀ spec ∈ specs, spec.ArgumentBelow fs.length := by
    intro calls
    induction calls with
    | nil =>
      intro acc _ hacc specs hspecs
      obtain rfl := Except.ok.inj hspecs
      exact ⟨rfl, hacc⟩
    | cons call calls ih =>
      intro acc hcalls hacc specs hspecs
      rw [List.foldlM_cons] at hspecs ⊢
      obtain ⟨acc', hacc', hspecs⟩ := Except.bind_eq_ok.mp hspecs
      obtain ⟨hstep, hbelow⟩ := h.addAgg (hcalls call List.mem_cons_self) hacc hacc'
      rw [hstep]
      exact ih acc' (fun c hc => hcalls c (List.mem_cons_of_mem _ hc)) hbelow specs hspecs
  exact hloop (aggCalls stmt) [] hrefs (fun spec hspec => by cases hspec) specs hspecs

end Narrow

end Planner

end LiteOLAP
