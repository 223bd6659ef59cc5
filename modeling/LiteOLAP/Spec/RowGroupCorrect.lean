import LiteOLAP.Native.DB
import LiteOLAP.Spec.ColumnScanCorrect

/-!
# Row groups

The pending values of a table are kept column by column. As long as the columns have one length
they are a list of rows, and a slice of these is written as a row group that stands for it, on
pages of its own.

## Key results

- `DB.flushColumn_eq`: a pending column is written as any column is
- `DB.flushRowGroup_returns`: the row group stands for its rows, on new pages
-/

namespace LiteOLAP

open BufferPool (Pin Serving PinRoom Fetchable Roomy)
open Catalog (newPages pagesFor mem_newPages newPages_nodup)

/-! ## Pages of their own -/

/-- Chains of pages from the range, none of which is used twice. -/
structure Fresh (lo hi : Nat) (chains : List (List PageId)) : Prop where
  nodup : chains.flatten.Nodup
  range : ∀ pid ∈ chains.flatten, lo ≤ pid.toNat ∧ pid.toNat < hi

namespace Fresh

variable {lo mid hi : Nat} {chains chains' : List (List PageId)}

theorem nil : Fresh lo hi [] := ⟨List.nodup_nil, fun _ h => by cases h⟩

/-- Chains on later pages are others. -/
theorem append (h : Fresh lo mid chains) (h' : Fresh mid hi chains') (hlo : lo ≤ mid)
    (hhi : mid ≤ hi) : Fresh lo hi (chains ++ chains') where
  nodup := by
    rw [List.flatten_append]
    refine h.nodup.append h'.nodup fun pid hpid hpid' => ?_
    have hlt := (h.range pid hpid).2
    have hge := (h'.range pid hpid').1
    omega
  range := by
    rw [List.flatten_append]
    intro pid hpid
    rcases List.mem_append.mp hpid with hpid | hpid
    · have := h.range pid hpid
      omega
    · have := h'.range pid hpid
      omega

theorem mono (h : Fresh lo hi chains) {hi' : Nat} (hle : hi ≤ hi') : Fresh lo hi' chains :=
  ⟨h.nodup, fun pid hpid => ⟨(h.range pid hpid).1, Nat.lt_of_lt_of_le (h.range pid hpid).2 hle⟩⟩

/-- The numbers of new pages. -/
theorem newPages {size n : Nat} (hroom : size + n < 2 ^ 32) :
    Fresh size (size + n) [newPages size n] where
  nodup := by simpa using newPages_nodup hroom
  range := fun pid hpid => mem_newPages (by simpa using hpid) hroom

end Fresh

namespace DB

/-! ## Pending rows -/

/-- `n` pending rows. -/
def rowsAt (cols : List (List Value)) (n : Nat) : List Row :=
  (List.range n).map fun r => cols.map fun col => col.getD r .null

/-- The pending rows; the first column says how many there are. -/
def pendingRows (cols : List (List Value)) : List Row := rowsAt cols (cols.headD []).length

/-- Pending columns that are `n` rows of the table: one for each column, with `n` values of its
    type. -/
def PendingFits (schema : Schema) (cols : List (List Value)) (n : Nat) : Prop :=
  List.Forall₂ (fun vs (col : Column) => vs.length = n ∧ ∀ v ∈ vs, v.hasType col.type = true) cols
    schema.columns

section

variable {schema : Schema} {cols : List (List Value)} {n : Nat}

@[simp] theorem length_rowsAt : (rowsAt cols n).length = n := by simp [rowsAt]

theorem PendingFits.numColumns (h : PendingFits schema cols n) : cols.length = schema.numColumns :=
  h.length_eq

/-- A column of the table is a column of the pending rows. -/
theorem PendingFits.exists_column (h : PendingFits schema cols n) {c : Nat} {col : Column}
    (hcol : schema.columns[c]? = some col) :
    ∃ vs, cols[c]? = some vs ∧ vs.length = n ∧ (∀ v ∈ vs, v.hasType col.type = true) ∧
      column c (rowsAt cols n) = vs := by
  obtain ⟨hlt, hget⟩ := List.getElem?_eq_some_iff.mp hcol
  have hlt' : c < cols.length := by rwa [h.length_eq]
  obtain ⟨hlen, htyped⟩ := (List.forall₂_iff_get.mp h).2 c hlt' hlt
  simp only [List.get_eq_getElem, hget] at hlen htyped
  refine ⟨cols[c], List.getElem?_eq_getElem hlt', hlen, htyped, ?_⟩
  rw [column, rowsAt, List.map_map]
  conv_rhs => rw [List.eq_map_range cols[c] .null, hlen]
  refine List.map_congr_left fun r _ => ?_
  simp [List.getElem?_eq_getElem hlt']

/-- The pending rows have the types of the table. -/
theorem PendingFits.rowTyped (h : PendingFits schema cols n) :
    ∀ r ∈ rowsAt cols n, rowTyped schema.types r = true := by
  intro r hr
  obtain ⟨i, hi, rfl⟩ := List.mem_map.mp hr
  rw [List.mem_range] at hi
  refine rowTyped_of_forall₂ (h.imp fun vs col ⟨hlen, htyped⟩ => ?_)
  rw [List.getD_eq_getElem _ _ (hlen ▸ hi)]
  exact htyped _ (List.getElem_mem _)

/-- With at least one column, the first one says how many rows there are. -/
theorem PendingFits.pendingRows_eq (h : PendingFits schema cols n) (hne : cols ≠ []) :
    pendingRows cols = rowsAt cols n := by
  obtain ⟨vs, rest, rfl⟩ := List.exists_cons_of_ne_nil hne
  obtain ⟨_, _, hvs, -, -⟩ := List.forall₂_cons_left_iff.mp h
  rw [pendingRows, List.headD_cons, hvs.1]

end

/-! ## Writing a row group -/

/-- A pending column is written as the column of its values. -/
theorem flushColumn_eq {cols : List (List Value)} {vs : List Value} {c : Nat}
    (hvs : cols[c]? = some vs) {start n : Nat} (hle : start + n ≤ vs.length) (t : ColumnType) :
    flushColumn cols start n c t = ColumnWriter.writeColumn t ((vs.drop start).take n) := by
  have hloop : ∀ (n start : Nat) (w : ColumnWriter), start + n ≤ vs.length →
      (List.range' start n).foldlM (fun w r => do
        let v ← EStateM.ofExcept (pendingAt cols c r)
        w.append v) w = ((vs.drop start).take n).foldlM ColumnWriter.append w := by
    intro n
    induction n with
    | zero => exact fun start w _ => by simp
    | succ n ih =>
      intro start w hle
      have hlt : start < vs.length := by omega
      have hat : pendingAt cols c start = .ok vs[start] := by
        rw [pendingAt, hvs, Option.bind_some, List.getElem?_eq_getElem hlt]
      rw [List.range'_succ, List.foldlM_cons, List.drop_eq_getElem_cons hlt, List.take_succ_cons,
        List.foldlM_cons, hat]
      exact funext fun bp => congrFun (congrArg _ (funext fun w => ih (start + 1) w (by omega))) bp
  unfold flushColumn ColumnWriter.writeColumn
  exact congrArg _ (funext fun w => by rw [hloop n start w hle])

theorem staysOver_flushColumn (cols : List (List Value)) (start n c : Nat) (t : ColumnType) :
    EStateM.StaysOver Roomy (flushColumn cols start n c t) := by
  unfold flushColumn
  refine (ColumnWriter.staysOver_create t).bind fun w => ?_
  refine (EStateM.StaysOver.foldlM (fun w r => ?_) _ w).bind ColumnWriter.staysOver_finish
  exact (EStateM.staysOver_ofExcept _).bind fun v => ColumnWriter.staysOver_append w v

section

variable {usable : List Nat} {apart : List PageId} {bp : BufferPool} {base : List Page}
  {schema : Schema} {cols : List (List Value)} {total start n : Nat}

/-- The pages that the columns of a row group take. -/
def groupPages (schema : Schema) (cols : List (List Value)) (start n : Nat) (idxs : List Nat) : Nat :=
  (idxs.map fun c => match schema.columns[c]? with
    | some col => pagesFor (columnBytes col.type (((cols.getD c []).drop start).take n))
    | none => 0).sum

/-- One column of a row group, on new pages. -/
theorem flushColumn_returns (h : Serving usable apart bp [] base) (hroom : PinRoom usable [] 2)
    (hfits : PendingFits schema cols total) (hle : start + n ≤ total) {c : Nat} {col : Column}
    (hcol : schema.columns[c]? = some col) :
    EStateM.Returns Roomy (do
      let col ← EStateM.ofExcept (schema.getColumn c)
      flushColumn cols start n c col.type) bp fun root bp' =>
        (∃ pages, Serving usable apart bp' [] pages ∧ base <+: pages ∧
          pages.length = base.length + groupPages schema cols start n [c] ∧
          Stored pages root (newPages base.length (groupPages schema cols start n [c]))
            (columnBytes col.type (column c (((rowsAt cols total).drop start).take n)))) ∧
        Roomy bp' := by
  obtain ⟨vs, hvs, hlen, htyped, hcolumn⟩ := hfits.exists_column hcol
  have hpart : column c (((rowsAt cols total).drop start).take n) = (vs.drop start).take n := by
    rw [← hcolumn, column, column, List.map_take, List.map_drop]
  have hpages : groupPages schema cols start n [c] =
      pagesFor (columnBytes col.type ((vs.drop start).take n)) := by
    simp [groupPages, hcol, hvs]
  have hget : schema.getColumn c = .ok col := by rw [Schema.getColumn, hcol]
  rw [hpages, hpart, hget]
  refine EStateM.Returns.ofExcept_bind ?_
  rw [flushColumn_eq hvs (by omega)]
  exact (ColumnWriter.writeColumn_returns h hroom fun v hv =>
    htyped v (List.mem_of_mem_drop (List.mem_of_mem_take hv))).within

/-- The columns of a row group are written one behind another. -/
theorem flushColumns_returns (hroom : PinRoom usable [] 2) (hfits : PendingFits schema cols total)
    (hle : start + n ≤ total) {idxs : List Nat} :
    ∀ {bp : BufferPool} {base : List Page}, (∀ c ∈ idxs, c < schema.numColumns) →
      Serving usable apart bp [] base →
      EStateM.Returns Roomy (idxs.mapM fun c => do
        let col ← EStateM.ofExcept (schema.getColumn c)
        flushColumn cols start n c col.type) bp fun (roots : List PageId) bp' =>
          ∃ (pages : List Page) (chains : List (List PageId)),
          Serving usable apart bp' [] pages ∧ base <+: pages ∧
          pages.length = base.length + groupPages schema cols start n idxs ∧
          roots.length = idxs.length ∧ chains.length = idxs.length ∧
          Fresh base.length pages.length chains ∧
          ∀ (i c : Nat) (col : Column), idxs[i]? = some c → schema.columns[c]? = some col →
            ∃ root ids, roots[i]? = some root ∧ chains[i]? = some ids ∧
            Stored pages root ids (columnBytes col.type (column c
              (((rowsAt cols total).drop start).take n))) := by
  have hover : ∀ c, EStateM.StaysOver Roomy (do
      let col ← EStateM.ofExcept (schema.getColumn c)
      flushColumn cols start n c col.type) := fun c =>
    (EStateM.staysOver_ofExcept _).bind fun col => staysOver_flushColumn cols start n c col.type
  induction idxs with
  | nil =>
    intro bp base _ h
    exact EStateM.returns_pure ⟨base, [], h, List.prefix_rfl, rfl, rfl, rfl, Fresh.nil, by simp⟩
  | cons c idxs ih =>
    intro bp base hidxs h
    obtain ⟨col, hcol⟩ : ∃ col, schema.columns[c]? = some col :=
      ⟨_, List.getElem?_eq_getElem (hidxs c List.mem_cons_self)⟩
    rw [List.mapM_cons]
    refine (flushColumn_returns h hroom hfits hle hcol).bind (fun root =>
      (EStateM.StaysOver.mapM hover idxs).bind fun _ => EStateM.staysOver_pure _)
      fun root bp₁ ⟨⟨pages₁, h₁, hextends₁, hlen₁, hstored⟩, hlim₁⟩ => ?_
    have hsize₁ : pages₁.length < 2 ^ 32 := h₁.size ▸ hlim₁
    refine ((ih (fun c' hc' => hidxs c' (List.mem_cons_of_mem _ hc')) h₁).within).bind (fun _ =>
      EStateM.staysOver_pure _) fun roots bp₂
        ⟨⟨pages₂, chains, h₂, hextends₂, hlen₂, hroots, hchains, hfresh, hall⟩, hlim₂⟩ => ?_
    refine EStateM.returns_pure ⟨pages₂, newPages base.length (groupPages schema cols start n [c]) ::
      chains, h₂, hextends₁.trans hextends₂, ?_, ?_, ?_, ?_, ?_⟩
    · simp only [hlen₂, hlen₁, groupPages, List.map_cons, List.sum_cons, List.map_nil, List.sum_nil]
      omega
    · rw [List.length_cons, hroots, List.length_cons]
    · rw [List.length_cons, hchains, List.length_cons]
    · rw [← List.singleton_append]
      rw [hlen₁] at hfresh hsize₁
      exact (Fresh.newPages hsize₁).append hfresh (by omega) (by omega)
    · intro i c' col' hi hcol'
      cases i with
      | zero =>
        obtain rfl : c = c' := by simpa using hi
        obtain rfl : col = col' := by rw [hcol] at hcol'; exact Option.some.inj hcol'
        refine ⟨root, _, rfl, rfl, ?_⟩
        -- the columns written later go onto later pages
        refine hstored.congr fun pid hpid => ?_
        obtain ⟨-, hlt⟩ := mem_newPages hpid (hlen₁ ▸ hsize₁)
        obtain ⟨more, rfl⟩ := hextends₂
        exact List.getElem?_append_left (hlen₁ ▸ hlt)
      | succ i => exact hall i c' col' (by simpa using hi) hcol'

/-- A row group stands for its slice of the pending rows, on new pages. -/
theorem flushRowGroup_returns (h : Serving usable apart bp [] base) (hroom : PinRoom usable [] 2)
    (hfits : PendingFits schema cols total) (hle : start + n ≤ total) (hn : n ≤ kRowGroupSize) :
    EStateM.Returns Roomy (flushRowGroup schema cols start n) bp fun rg bp' => ∃ pages sg,
      Serving usable apart bp' [] pages ∧ base <+: pages ∧
      pages.length = base.length +
        groupPages schema cols start n (List.range schema.numColumns) ∧
      GroupStored pages schema rg sg ∧
      sg.rows = ((rowsAt cols total).drop start).take n ∧
      Fresh base.length pages.length sg.chains := by
  refine (flushColumns_returns hroom hfits hle (fun c hc => List.mem_range.mp hc) h).bind
    (fun roots => EStateM.staysOver_pure _) fun roots bp'
      ⟨pages, chains, h', hextends, hlen, hroots, hchains, hfresh, hall⟩ => ?_
  refine EStateM.returns_pure ⟨pages, ⟨((rowsAt cols total).drop start).take n, chains⟩, h', hextends,
    hlen, ⟨?_, ?_, ?_, fun c col hcol => ?_, fun r hr => ?_⟩, rfl, hfresh⟩
  · rw [List.length_take, List.length_drop, length_rowsAt, UInt64.toNat_ofNat']
    unfold kRowGroupSize at hn
    omega
  · rw [hroots, List.length_range]
  · rw [hchains, List.length_range]
  · have hlt := (List.getElem?_eq_some_iff.mp hcol).1
    exact hall c c col (List.getElem?_range hlt) hcol
  · exact hfits.rowTyped r (List.mem_of_mem_drop (List.mem_of_mem_take hr))

end

end DB

end LiteOLAP
