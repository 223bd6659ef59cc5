import LiteOLAP.Spec.CatalogChainCorrect

/-!
# The body of the catalog

What `Catalog::Persist` writes and `Catalog::Load` reads back: tables, each with a schema blob and
its row groups, under counts and lengths of 8, 16 and 32 bits.

## Key results

- `deserialize_serialize`: a schema of fewer than `2 ^ 16` columns is read back
- `parse_body`: a catalog whose counts and lengths fit their fields is read back, and the whole
  body is consumed
- `Fits.of_parse`: what is read back always fits
- `load_persist_iff`: a reachable catalog survives on disk exactly when it fits
-/

namespace LiteOLAP

open Bytes (ofAscii leBytes ofLeBytes ofLeBytes_leBytes_of_lt ofLeBytes_lt)

/-! ## Fields -/

theorem getField_leBytes (what : Bytes) {w n : Nat} (h : n < 256 ^ w) (rest : Bytes) :
    getField what w (leBytes w n ++ rest) = .ok (n, rest) := by
  have hlen : ¬ (leBytes w n ++ rest).length < w := by simp
  rw [getField, if_neg hlen, List.take_left' (by simp), List.drop_left' (by simp),
    ofLeBytes_leBytes_of_lt h]

/-- What a field of `w` bytes reads is below `256 ^ w`. -/
theorem getField_lt {what : Bytes} {w n : Nat} {cur rest : Bytes}
    (h : getField what w cur = .ok (n, rest)) : n < 256 ^ w := by
  unfold getField at h
  split at h
  · cases h
  · rename_i hlen
    obtain ⟨rfl, -⟩ := Prod.mk.inj (Except.ok.inj h)
    have hlt := ofLeBytes_lt (cur.take w)
    rwa [List.length_take_of_le (by omega)] at hlt

theorem getBytes_append (what s rest : Bytes) :
    getBytes what s.length (s ++ rest) = .ok (s, rest) := by
  have hlen : ¬ (s ++ rest).length < s.length := by simp
  rw [getBytes, if_neg hlen, List.take_left, List.drop_left]

theorem getBytes_length {what : Bytes} {n : Nat} {cur s rest : Bytes}
    (h : getBytes what n cur = .ok (s, rest)) : s.length = n := by
  unfold getBytes at h
  split at h
  · cases h
  · rename_i hlen
    obtain ⟨rfl, -⟩ := Prod.mk.inj (Except.ok.inj h)
    exact List.length_take_of_le (by omega)

/-! ## Schemas -/

namespace Schema

theorem ofByte_toByte (t : ColumnType) : ColumnType.ofByte t.toByte.toNat = .ok t := by
  cases t <;> rfl

/-- A column is read back, under the number it is read at. -/
theorem getOneColumn_putColumn {c : Column} (hname : c.name.length ≤ kMaxColumnNameLen)
    (index : Nat) (rest : Bytes) :
    getOneColumn index (putColumn c ++ rest) =
      .ok ({ c with columnIndex := UInt16.ofNat index }, rest) := by
  unfold kMaxColumnNameLen at hname
  have htype : c.type.toByte.toNat < 256 ^ 1 := c.type.toByte.toNat_lt
  have hlen : c.varcharLen.toNat < 256 ^ 2 := c.varcharLen.toNat_lt
  have hvarchar : UInt16.ofNat c.varcharLen.toNat = c.varcharLen := UInt16.ofNat_toNat
  simp only [getOneColumn, putColumn, get, List.append_assoc,
    getField_leBytes _ (show c.name.length < 256 ^ 1 by omega), getBytes_append,
    getField_leBytes _ htype, ofByte_toByte, getField_leBytes _ hlen, hvarchar, Except.ok_bind,
    Except.pure_eq_ok]

theorem getColumns_putColumns {cols : List Column}
    (hnamed : ∀ c ∈ cols, c.name.length ≤ kMaxColumnNameLen) (index : Nat) (rest : Bytes) :
    getColumns cols.length index (cols.flatMap putColumn ++ rest) =
      .ok (cols.mapIdx fun i c => { c with columnIndex := UInt16.ofNat (index + i) }, rest) := by
  induction cols generalizing index with
  | nil => rfl
  | cons c cols ih =>
    have hc := hnamed c List.mem_cons_self
    have hcols := ih (fun c' hc' => hnamed c' (List.mem_cons_of_mem _ hc')) (index + 1)
    simp only [List.length_cons, List.flatMap_cons, List.append_assoc, getColumns,
      getOneColumn_putColumn hc, hcols, Except.ok_bind, Except.pure_eq_ok, List.mapIdx_cons,
      Nat.add_zero]
    simp only [Nat.add_assoc, Nat.add_comm 1]

/-- Numbering the columns of a schema again changes nothing. -/
theorem mapIdx_columns (s : Schema) :
    (s.columns.mapIdx fun i c => { c with columnIndex := UInt16.ofNat i }) = s.columns := by
  apply List.ext_getElem?
  intro i
  rw [List.getElem?_mapIdx]
  cases hc : s.columns[i]? with
  | none => rfl
  | some c =>
    rw [Option.map_some, ← s.numbered i c hc]

theorem ofColumns_columns (s : Schema) : ofColumns s.columns = .ok s := by
  rw [ofColumns, dif_pos s.named]
  congr 1
  obtain ⟨columns, numbered, named⟩ := s
  simp only [mk.injEq]
  exact mapIdx_columns ⟨columns, numbered, named⟩

/-- A schema of fewer than `2 ^ 16` columns is read back, and its image is consumed. -/
theorem deserialize_serialize {s : Schema} (h : s.columns.length < 65536) :
    deserialize s.serialize = .ok (s, s.serialize.length) := by
  have hcols := getColumns_putColumns s.named 0 []
  simp only [List.append_nil, Nat.zero_add, mapIdx_columns] at hcols
  simp only [deserialize, serialize, get,
    getField_leBytes _ (show s.columns.length < 256 ^ 2 by omega), hcols, ofColumns_columns,
    Except.ok_bind, Except.pure_eq_ok, List.length_nil, Nat.sub_zero]

theorem length_putColumn_le {c : Column} (hname : c.name.length ≤ kMaxColumnNameLen) :
    (putColumn c).length ≤ 68 := by
  unfold kMaxColumnNameLen at hname
  simp only [putColumn, List.length_append, Bytes.length_leBytes]
  omega

/-- The image of a schema of fewer than `2 ^ 16` columns fits its length field. -/
theorem length_serialize_lt {s : Schema} (h : s.columns.length < 65536) :
    s.serialize.length < 256 ^ 4 := by
  have hsum : ∀ cols : List Column, (∀ c ∈ cols, c.name.length ≤ kMaxColumnNameLen) →
      (cols.flatMap putColumn).length ≤ 68 * cols.length := by
    intro cols hcols
    induction cols with
    | nil => simp
    | cons c cols ih =>
      have hc := length_putColumn_le (hcols c List.mem_cons_self)
      have hrest := ih fun c' hc' => hcols c' (List.mem_cons_of_mem _ hc')
      simp only [List.flatMap_cons, List.length_append, List.length_cons]
      omega
  have hle := hsum s.columns s.named
  simp only [serialize, List.length_append, Bytes.length_leBytes]
  omega

/-- A schema that has been read has fewer than `2 ^ 16` columns. -/
theorem deserialize_columns_lt {data : Bytes} {s : Schema} {consumed : Nat}
    (h : deserialize data = .ok (s, consumed)) : s.columns.length < 65536 := by
  obtain ⟨⟨n, cur⟩, hn, h⟩ := Except.bind_eq_ok.mp h
  obtain ⟨⟨cols, cur'⟩, hcols, h⟩ := Except.bind_eq_ok.mp h
  obtain ⟨s', hs, h⟩ := Except.bind_eq_ok.mp h
  obtain ⟨rfl, -⟩ := Prod.mk.inj (Except.ok.inj h)
  have hlen : ∀ n index cur cols cur', getColumns n index cur = .ok (cols, cur') →
      cols.length = n := by
    intro n
    induction n with
    | zero =>
      intro index cur cols cur' h
      obtain ⟨rfl, -⟩ := Prod.mk.inj (Except.ok.inj h)
      rfl
    | succ n ih =>
      intro index cur cols cur' h
      obtain ⟨⟨c, cur₁⟩, -, h⟩ := Except.bind_eq_ok.mp h
      obtain ⟨⟨cs, cur₂⟩, hcs, h⟩ := Except.bind_eq_ok.mp h
      obtain ⟨rfl, -⟩ := Prod.mk.inj (Except.ok.inj h)
      rw [List.length_cons, ih _ _ _ _ hcs]
  have hcount := getField_lt hn
  unfold ofColumns at hs
  split at hs
  · obtain rfl := Except.ok.inj hs
    rw [List.length_mapIdx, hlen _ _ _ _ _ hcols]
    exact hcount
  · cases hs

end Schema

namespace Catalog

/-! ## Catalogs that fit -/

/-- The lengths of a table fit the 8, 16 and 32 bits they are stored in. -/
structure TableFits (m : TableMeta) : Prop where
  name : m.name.length < 256
  columns : m.schema.columns.length < 65536
  rowGroups : m.rowGroups.length < 256 ^ 4

/-- All counts and lengths of a catalog fit their fields. -/
structure Fits (c : Catalog) : Prop where
  tables : c.numTables < 256 ^ 4
  each : ∀ name m, c.getTable name = some m → TableFits m

/-- Each row group has a root for every column. -/
def TableComplete (m : TableMeta) : Prop :=
  ∀ rg ∈ m.rowGroups, rg.columnRoots.length = m.schema.numColumns

/-- The catalogs that `CREATE TABLE`, `DROP TABLE`, `TRUNCATE` and the flushing of row groups
    make. -/
inductive Reachable : Catalog → Prop
  | empty : Reachable .empty
  | create {c c' : Catalog} {name : Bytes} {cols : List Column} {schema : Schema}
    (h : Reachable c) (hschema : Schema.ofColumns cols = .ok schema)
    (hcreate : c.createTable name schema = .ok c') : Reachable c'
  | drop {c c' : Catalog} {name : Bytes} (h : Reachable c) (hdrop : c.dropTable name = some c') :
    Reachable c'
  | truncate {c c' : Catalog} {name : Bytes} (h : Reachable c)
    (hclear : c.clearRowGroups name = .ok c') : Reachable c'
  | flush {c c' : Catalog} {name : Bytes} {m : TableMeta} {rg : RowGroup} (h : Reachable c)
    (hget : c.getTable name = some m) (hroots : rg.columnRoots.length = m.schema.numColumns)
    (hadd : c.addRowGroup name rg = .ok c') : Reachable c'

theorem getTable_setTable (c : Catalog) (m : TableMeta) (name : Bytes) :
    (c.setTable m).getTable name = if name = m.name then some m else c.getTable name :=
  SortedMap.find?_insert c.tables m.name name m

/-- What holds of every table, and of the one that is filed, holds of every table afterwards. -/
theorem forall_setTable {P : TableMeta → Prop} {c : Catalog} {m : TableMeta}
    (hc : ∀ name m, c.getTable name = some m → P m) (hm : P m) :
    ∀ name m', (c.setTable m).getTable name = some m' → P m' := by
  intro name m' h
  rw [getTable_setTable] at h
  split at h
  · exact Option.some.inj h ▸ hm
  · exact hc name m' h

/-- Every table of a reachable catalog is complete. -/
theorem Reachable.complete {c : Catalog} (h : Reachable c) :
    ∀ name m, c.getTable name = some m → TableComplete m := by
  induction h with
  | empty =>
    intro name m h
    cases h
  | @create c c' name cols schema _ _ hcreate ih =>
    unfold createTable at hcreate
    split at hcreate
    · cases hcreate
    · obtain rfl := Except.ok.inj hcreate
      exact forall_setTable ih fun rg hrg => by simp at hrg
  | @drop c c' name _ hdrop ih =>
    unfold dropTable at hdrop
    split at hdrop
    · cases hdrop
    · obtain rfl := Option.some.inj hdrop
      intro k m hm
      have hfind := SortedMap.find?_erase c.tables name k
      rw [getTable] at hm
      rw [hfind] at hm
      split at hm
      · cases hm
      · exact ih k m hm
  | @truncate c c' name _ hclear ih =>
    unfold clearRowGroups at hclear
    split at hclear
    · cases hclear
    · obtain rfl := Except.ok.inj hclear
      exact forall_setTable ih fun rg hrg => by simp at hrg
  | @flush c c' name m rg _ hget hroots hadd ih =>
    rw [addRowGroup, hget] at hadd
    obtain rfl := Except.ok.inj hadd
    refine forall_setTable ih fun rg' hrg' => ?_
    rcases List.mem_append.mp hrg' with hrg' | hrg'
    · exact ih name m hget rg' hrg'
    · rw [List.mem_singleton.mp hrg']
      exact hroots

/-! ## Writing and reading back -/

theorem getRoots_put (pids : List PageId) (rest : Bytes) :
    getRoots pids.length ((pids.flatMap fun pid => leBytes 4 pid.toNat) ++ rest) =
      .ok (pids, rest) := by
  induction pids with
  | nil => rfl
  | cons pid pids ih =>
    have hpid : pid.toNat < 256 ^ 4 := by simpa using pid.toNat_lt
    simp only [List.length_cons, List.flatMap_cons, List.append_assoc, getRoots, get,
      getField_leBytes _ hpid, ih, UInt32.ofNat_toNat, Except.ok_bind, Except.pure_eq_ok]

theorem getRowGroups_put {ncols : Nat} {rgs : List RowGroup}
    (hroots : ∀ rg ∈ rgs, rg.columnRoots.length = ncols) (rest : Bytes) :
    getRowGroups ncols rgs.length (rgs.flatMap putRowGroup ++ rest) = .ok (rgs, rest) := by
  induction rgs with
  | nil => rfl
  | cons rg rgs ih =>
    have hrest := ih fun rg' hrg' => hroots rg' (List.mem_cons_of_mem _ hrg')
    have hrows : rg.numRows.toNat < 256 ^ 8 := by simpa using rg.numRows.toNat_lt
    have hread := getRoots_put rg.columnRoots (rgs.flatMap putRowGroup ++ rest)
    rw [hroots rg List.mem_cons_self] at hread
    simp only [List.length_cons, List.flatMap_cons, putRowGroup, List.append_assoc, getRowGroups,
      get, getField_leBytes _ hrows, hread, hrest, UInt64.ofNat_toNat, Except.ok_bind,
      Except.pure_eq_ok]

theorem getSchema_put {s : Schema} (h : s.columns.length < 65536) (rest : Bytes) :
    getSchema s.serialize.length (s.serialize ++ rest) = .ok (s, rest) := by
  have hlen : ¬ (s.serialize ++ rest).length < s.serialize.length := by simp
  rw [getSchema, if_neg hlen, List.take_left, List.drop_left, Schema.deserialize_serialize h]
  rfl

/-- A complete table whose lengths fit is read back. -/
theorem getOneTable_putTable {m : TableMeta} (hfits : TableFits m)
    (hcomplete : TableComplete m) (rest : Bytes) :
    getOneTable (putTable m ++ rest) = .ok (m, rest) := by
  have hname : m.name.length < 256 ^ 1 := hfits.name
  have hschema := Schema.length_serialize_lt hfits.columns
  simp only [getOneTable, putTable, get, List.append_assoc, getField_leBytes _ hname,
    getBytes_append, getField_leBytes _ hschema, getSchema_put hfits.columns,
    getField_leBytes _ hfits.rowGroups, getRowGroups_put hcomplete, Except.ok_bind,
    Except.pure_eq_ok]

theorem ext_entries {c c' : Catalog} (h : c.tables.entries = c'.tables.entries) : c = c' := by
  obtain ⟨⟨entries, sorted⟩, named⟩ := c
  obtain ⟨⟨entries', sorted'⟩, named'⟩ := c'
  obtain rfl : entries = entries' := h
  rfl

/-- A table whose name comes after all others goes to the end. -/
theorem entries_emplace {c : Catalog} {m : TableMeta} (h : ∀ k ∈ c.tables.keys, k < m.name) :
    (c.emplace m).tables.entries = c.tables.entries ++ [(m.name, m)] := by
  unfold emplace
  split
  · rename_i m' hm'
    have hlt := h m.name (SortedMap.mem_keys.mpr ⟨m', hm'⟩)
    exact absurd hlt (Std.Irrefl.irrefl _)
  · exact SortedMap.entries_insert_last h

/-- Tables written in the order of their names are read back behind those there are. -/
theorem getTables_put {l : List (Bytes × TableMeta)} {c : Catalog}
    (hfits : ∀ p ∈ l, TableFits p.2) (hcomplete : ∀ p ∈ l, TableComplete p.2)
    (hnamed : ∀ p ∈ l, p.2.name = p.1)
    (hsorted : (c.tables.entries ++ l).Pairwise fun a b => a.1 < b.1) (rest : Bytes) :
    ∃ c', getTables l.length c ((l.flatMap fun p => putTable p.2) ++ rest) = .ok (c', rest) ∧
      c'.tables.entries = c.tables.entries ++ l := by
  induction l generalizing c with
  | nil => exact ⟨c, rfl, by simp⟩
  | cons p l ih =>
    obtain ⟨k, m⟩ := p
    obtain rfl : m.name = k := hnamed (k, m) List.mem_cons_self
    have hlast : ∀ k' ∈ c.tables.keys, k' < m.name := by
      intro k' hk'
      obtain ⟨q, hq, rfl⟩ := List.mem_map.mp hk'
      exact (List.pairwise_append.mp hsorted).2.2 q hq (m.name, m) List.mem_cons_self
    have hentries := entries_emplace hlast
    obtain ⟨c', hread, hc'⟩ := ih (c := c.emplace m)
      (fun p hp => hfits p (List.mem_cons_of_mem _ hp))
      (fun p hp => hcomplete p (List.mem_cons_of_mem _ hp))
      (fun p hp => hnamed p (List.mem_cons_of_mem _ hp))
      (by rw [hentries, List.append_assoc]; exact hsorted)
    refine ⟨c', ?_, by rw [hc', hentries, List.append_assoc]; rfl⟩
    have htable := getOneTable_putTable (hfits (m.name, m) List.mem_cons_self)
      (hcomplete (m.name, m) List.mem_cons_self)
    simp only [List.length_cons, List.flatMap_cons, List.append_assoc, getTables, htable,
      Except.ok_bind, hread]

/-- A complete catalog that fits is read back, and the whole body is consumed. -/
theorem parse_body {c : Catalog} (hfits : Fits c)
    (hcomplete : ∀ name m, c.getTable name = some m → TableComplete m) :
    parse c.body = .ok (c, []) := by
  have hfind : ∀ p ∈ c.tables.entries, c.getTable p.1 = some p.2 := fun p hp =>
    SortedMap.mem_entries.mp hp
  obtain ⟨c', hread, hentries⟩ := getTables_put (c := empty)
    (fun p hp => hfits.each _ _ (hfind p hp)) (fun p hp => hcomplete _ _ (hfind p hp))
    (fun p hp => c.named _ _ (hfind p hp)) c.tables.sorted []
  obtain rfl : c' = c := ext_entries hentries
  rw [List.append_nil] at hread
  simp only [parse, body, get, getField_leBytes _ hfits.tables, Except.ok_bind]
  exact hread

/-! ## What is read back fits -/

theorem getRowGroups_length {ncols n : Nat} {cur rest : Bytes} {rgs : List RowGroup}
    (h : getRowGroups ncols n cur = .ok (rgs, rest)) : rgs.length = n := by
  induction n generalizing cur rgs rest with
  | zero =>
    obtain ⟨rfl, -⟩ := Prod.mk.inj (Except.ok.inj h)
    rfl
  | succ n ih =>
    obtain ⟨⟨numRows, cur₁⟩, -, h⟩ := Except.bind_eq_ok.mp h
    obtain ⟨⟨roots, cur₂⟩, -, h⟩ := Except.bind_eq_ok.mp h
    obtain ⟨⟨rgs', cur₃⟩, hrgs, h⟩ := Except.bind_eq_ok.mp h
    obtain ⟨rfl, -⟩ := Prod.mk.inj (Except.ok.inj h)
    rw [List.length_cons, ih hrgs]

theorem TableFits.of_getOneTable {cur rest : Bytes} {m : TableMeta}
    (h : getOneTable cur = .ok (m, rest)) : TableFits m := by
  obtain ⟨⟨nameLen, cur₁⟩, hnameLen, h⟩ := Except.bind_eq_ok.mp h
  obtain ⟨⟨name, cur₂⟩, hname, h⟩ := Except.bind_eq_ok.mp h
  obtain ⟨⟨schemaSize, cur₃⟩, -, h⟩ := Except.bind_eq_ok.mp h
  obtain ⟨⟨schema, cur₄⟩, hschema, h⟩ := Except.bind_eq_ok.mp h
  obtain ⟨⟨numRg, cur₅⟩, hnumRg, h⟩ := Except.bind_eq_ok.mp h
  obtain ⟨⟨rgs, cur₆⟩, hrgs, h⟩ := Except.bind_eq_ok.mp h
  obtain ⟨rfl, -⟩ := Prod.mk.inj (Except.ok.inj h)
  refine ⟨?_, ?_, ?_⟩
  · have hlt := getField_lt hnameLen
    rwa [← getBytes_length hname] at hlt
  · unfold getSchema at hschema
    split at hschema
    · cases hschema
    · obtain ⟨⟨s, consumed⟩, hs, heq⟩ := Except.bind_eq_ok.mp hschema
      obtain ⟨rfl, -⟩ := Prod.mk.inj (Except.ok.inj heq)
      exact Schema.deserialize_columns_lt hs
  · have hlt := getField_lt hnumRg
    rwa [← getRowGroups_length hrgs] at hlt

theorem numTables_emplace_le (c : Catalog) (m : TableMeta) :
    (c.emplace m).numTables ≤ c.numTables + 1 := by
  unfold emplace
  split
  · exact Nat.le_succ _
  · exact SortedMap.size_insert_le _ _ _

theorem each_emplace {c : Catalog} {m : TableMeta}
    (hc : ∀ name m, c.getTable name = some m → TableFits m) (hm : TableFits m) :
    ∀ name m', (c.emplace m).getTable name = some m' → TableFits m' := by
  unfold emplace
  split
  · exact hc
  · exact forall_setTable hc hm

theorem getTables_fits {n : Nat} {c c' : Catalog} {cur rest : Bytes}
    (h : getTables n c cur = .ok (c', rest))
    (hc : ∀ name m, c.getTable name = some m → TableFits m) :
    c'.numTables ≤ c.numTables + n ∧ ∀ name m, c'.getTable name = some m → TableFits m := by
  induction n generalizing c cur with
  | zero =>
    obtain ⟨rfl, -⟩ := Prod.mk.inj (Except.ok.inj h)
    exact ⟨Nat.le_refl _, hc⟩
  | succ n ih =>
    obtain ⟨⟨m, cur₁⟩, hm, h⟩ := Except.bind_eq_ok.mp h
    obtain ⟨hcount, heach⟩ := ih h (each_emplace hc (TableFits.of_getOneTable hm))
    have hstep := numTables_emplace_le c m
    exact ⟨by omega, heach⟩

/-- Whatever the body: a catalog that is read from it fits. -/
theorem Fits.of_parse {body rest : Bytes} {c : Catalog} (h : parse body = .ok (c, rest)) :
    Fits c := by
  obtain ⟨⟨n, cur⟩, hn, h⟩ := Except.bind_eq_ok.mp h
  have hcount := getField_lt hn
  obtain ⟨hle, heach⟩ := getTables_fits h fun name m hm => by cases hm
  have hzero : empty.numTables = 0 := rfl
  exact ⟨by omega, heach⟩

/-! ## On disk -/

/-- `Load` after `Persist` parses the body that was written. -/
theorem load_persisted {c : Catalog} {w : World} (hw : Reaches w) {d : DiskManager}
    (hrun : persist c w.disk = .ok () d) (hroom : d.numPages < 2 ^ 32) :
    load ⟨d.pages, []⟩ = match parse c.body with
      | .ok (c', _) => .ok c' ⟨d.pages, []⟩
      | .error e => .error e ⟨d.pages, []⟩ := by
  obtain ⟨chain, hchain, -⟩ := hw.sound.chain
  obtain ⟨⟨chain', hholds, -⟩, -⟩ := ((persistBody_yields hchain c.body).ok hrun).2 hroom
  obtain ⟨page, hpage, htype⟩ := hholds.catalog
  have hne : (DiskManager.mk d.pages []).numPages ≠ 0 := by
    have hlt := cells_lt hpage
    unfold DiskManager.numPages
    exact Nat.ne_zero_of_lt hlt
  have hread : DiskManager.readPage 0 ⟨d.pages, []⟩ = .ok page ⟨d.pages, []⟩ :=
    DiskManager.readPage_reliable rfl hpage
  obtain ⟨r, pages, hbody, rfl, rfl⟩ := (Holds.read (d := ⟨d.pages, []⟩) hholds).reliable rfl
  rw [load, EStateM.bind_of_ok (EStateM.get_apply _), if_neg hne, EStateM.bind_of_ok hread,
    if_pos htype, loadBody, EStateM.bind_of_ok hbody]
  cases hparse : parse c.body with
  | error e => rfl
  | ok r => rfl

/-- A catalog that the statements have made comes back from disk, and its whole body is
    consumed, exactly when its counts and lengths fit the fields they are stored in. -/
theorem load_persist_iff {c : Catalog} (hc : Reachable c) {w : World} (hw : Reaches w)
    {d : DiskManager} (hrun : persist c w.disk = .ok () d) (hroom : d.numPages < 2 ^ 32) :
    (load ⟨d.pages, []⟩ = .ok c ⟨d.pages, []⟩ ∧ parse c.body = .ok (c, [])) ↔ Fits c := by
  constructor
  · rintro ⟨-, hparse⟩
    exact Fits.of_parse hparse
  · intro hfits
    have hparse := parse_body hfits hc.complete
    exact ⟨by rw [load_persisted hw hrun hroom, hparse], hparse⟩

/-! ## One table -/

/-- The schema of `CREATE TABLE t (a INT)`. -/
def intSchema : Schema where
  columns := [⟨ofAscii "a", .int, 0, 0⟩]
  numbered := by
    intro i c h
    cases i with
    | zero => rw [← Option.some.inj h]; rfl
    | succ i => simp at h
  named := by decide

/-- The catalog after `CREATE TABLE <name> (a INT)` on a new file. -/
def oneTable (name : Bytes) : Catalog := empty.setTable ⟨name, intSchema, []⟩

theorem reachable_oneTable (name : Bytes) : Reachable (oneTable name) :=
  .create .empty (Schema.ofColumns_columns intSchema) rfl

theorem length_body_oneTable (name : Bytes) : (oneTable name).body.length = name.length + 20 := by
  have hentries : (oneTable name).tables.entries = [(name, ⟨name, intSchema, []⟩)] := rfl
  have hschema : intSchema.serialize.length = 7 := rfl
  simp only [body, hentries, putTable, hschema, List.flatMap_cons, List.flatMap_nil,
    List.length_append, Bytes.length_leBytes, List.append_nil, List.length_nil]
  omega

/-- On a new file, a catalog of one page takes page 0. -/
theorem persist_oneTable (name : Bytes) (h : name.length ≤ 4060) :
    ∃ d, persist (oneTable name) ⟨[.zero], []⟩ = .ok () d ∧ d.numPages < 2 ^ 32 := by
  have hfresh : CatalogChain [Page.zero] [0] := .fresh rfl (by decide)
  have hone : pagesFor (oneTable name).body = 1 := by
    rw [pagesFor, length_body_oneTable]
    unfold payloadCapacity
    omega
  obtain ⟨_, pages, hrun, hsize, -⟩ :=
    (persistBody_writes (d := ⟨[.zero], []⟩) hfresh (oneTable name).body).reliable rfl
  rw [hone] at hsize
  refine ⟨_, hrun, ?_⟩
  show pages.length < 2 ^ 32
  rw [hsize]
  norm_num [DiskManager.numPages]

/-- A table named `t` survives. -/
theorem load_persist_iff_t :
    ∃ d, persist (oneTable (ofAscii "t")) ⟨[.zero], []⟩ = .ok () d ∧
      load ⟨d.pages, []⟩ = .ok (oneTable (ofAscii "t")) ⟨d.pages, []⟩ := by
  obtain ⟨d, hrun, hroom⟩ := persist_oneTable (ofAscii "t") (by decide)
  have hfits : Fits (oneTable (ofAscii "t")) :=
    ⟨by decide, forall_setTable (fun name m hm => by cases hm) ⟨by decide, by decide, by decide⟩⟩
  have hiff := load_persist_iff (w := ⟨⟨[.zero], []⟩, []⟩) (reachable_oneTable (ofAscii "t"))
    ⟨[], .refl⟩ hrun hroom
  exact ⟨d, hrun, (hiff.mpr hfits).1⟩

/-- A table whose name has 256 letters does not: the length of the name is stored as 0. -/
theorem load_loses_longName :
    ∃ d, persist (oneTable (List.replicate 256 97)) ⟨[.zero], []⟩ = .ok () d ∧
      d.numPages < 2 ^ 32 ∧
      load ⟨d.pages, []⟩ ≠ .ok (oneTable (List.replicate 256 97)) ⟨d.pages, []⟩ := by
  generalize hname : List.replicate 256 (97 : UInt8) = name
  have hlen : name.length = 256 := by rw [← hname, List.length_replicate]
  obtain ⟨d, hrun, hroom⟩ := persist_oneTable name (by omega)
  refine ⟨d, hrun, hroom, fun hload => ?_⟩
  rw [load_persisted (w := ⟨⟨[.zero], []⟩, []⟩) ⟨[], .refl⟩ hrun hroom] at hload
  cases hparse : parse (oneTable name).body with
  | error e =>
    rw [hparse] at hload
    cases hload
  | ok r =>
    obtain ⟨c, rest⟩ := r
    rw [hparse] at hload
    injection hload with hc
    have hfits := Fits.of_parse hparse
    rw [hc] at hfits
    have hget : (oneTable name).getTable name = some ⟨name, intSchema, []⟩ := by
      rw [oneTable, getTable_setTable, if_pos rfl]
    have hlt : name.length < 256 := (hfits.each name _ hget).name
    omega

end Catalog

end LiteOLAP
