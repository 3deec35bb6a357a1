import Mathlib.Data.List.Basic
import NestHarness.Lib.Js

/-!
# Excel sheets

`createSheet` writes a header row of the configured columns and a row for each element of a list.
The two are lined up if the first element has every column, and no element has a `0`, a `false` or
another falsy value under one.
-/

namespace NestHarness

/-- An entry of `conf`. -/
structure ColumnConf where
  column : String
  memo : String

/-- An element of `list`: the keys of its own, and `row[key]` for any key. -/
structure RowObject where
  keys : List String
  read : String → Js.Value

/-- `header_style`, `row_style` and `row_style_last`. -/
inductive CellStyle where
  | header
  | row
  | lastRow

structure Cell where
  v : Js.Value
  t : String := "s"
  s : CellStyle

/-- What is used of the library `xlsx-js-style`. -/
structure SheetUtils (Sheet : Type) where
  aoaToSheet : List (List Cell) → Sheet
  /-- The cell at a row and a column, both counted from zero. -/
  cell : Sheet → ℕ → ℕ → Option Cell

/-- `aoa_to_sheet` puts the cells where they stand in the rows. -/
structure SheetUtils.Lawful {Sheet : Type} (utils : SheetUtils Sheet) : Prop where
  cell_aoaToSheet : ∀ rows r c, utils.cell (utils.aoaToSheet rows) r c = rows[r]?.bind (·[c]?)

/-- A sheet with the widths in `!cols` and the heights in `!rows`. -/
structure Worksheet (Sheet : Type) where
  sheet : Sheet
  cols : List ℕ
  rows : List ℕ

/-- `list && list[0] ? Object.keys(list[0]) : []` -/
def listKeys : List RowObject → List String
  | [] => []
  | row :: _ => row.keys

/-- The configured columns, `undefined` for one that the first element does not have. -/
def columnKeys (conf : List ColumnConf) (list : List RowObject) : List (Option String) :=
  conf.map fun e => if e.column ∈ listKeys list then some e.column else none

def headerCell (e : ColumnConf) : Cell := { v := .str e.memo, s := .header }

/-- A cell for each column that is there; `['memo']` of an entry that is not found throws. -/
def headerRow (conf : List ColumnConf) (keys : List (Option String)) : Option (List Cell) :=
  ((keys.filterMap id).filter (· ≠ "")).mapM fun key => do
    let e ← conf.find? (·.column == key)
    return headerCell e

/-- `row[keys[i]] ? row[keys[i]] : ''` -/
def dataCell (row : RowObject) (style : CellStyle) (key : Option String) : Cell :=
  let v := row.read (key.getD "undefined")
  { v := if v.truthy then v else .str "", s := style }

def dataRows (list : List RowObject) (keys : List (Option String)) : List (List Cell) :=
  list.mapIdx fun i row =>
    let style := if i < list.length - 1 then CellStyle.row else .lastRow
    keys.map (dataCell row style)

variable {Sheet : Type}

/-- `none` is the `null` of a failed call. -/
def createSheet (utils : SheetUtils Sheet) (conf : List ColumnConf) (list : List RowObject) :
    Option (Worksheet Sheet) := do
  let keys := columnKeys conf list
  let header ← headerRow conf keys
  return {
    sheet := utils.aoaToSheet (header :: dataRows list keys)
    cols := header.map fun _ => 200
    rows := 50 :: list.map fun _ => 25 }

/-! ## Columns under their headers -/

/-- `null`, `undefined` and the empty string, which an empty cell stands for. -/
def blank (v : Js.Value) : Prop := v.nullish = true ∨ v = .str ""

/-- A cell shows a value, or nothing if there is none. -/
def Shows (cell : Cell) (v : Js.Value) : Prop :=
  blank v ∧ cell.v = .str "" ∨ ¬blank v ∧ cell.v = v

/-- The header row names some of the columns, every row has as many cells, and under each configured
column there is the value of the element. -/
structure LinedUp (conf : List ColumnConf) (list : List RowObject)
    (cell : ℕ → ℕ → Option Cell) (columns : List ColumnConf) : Prop where
  header : ∀ c, (cell 0 c).map Cell.v = columns[c]?.map fun e => .str e.memo
  width : ∀ i < list.length, ∀ c, (cell (i + 1) c).isSome = true ↔ c < columns.length
  values : ∀ (i : ℕ) (h : i < list.length), ∀ e ∈ conf, ∃ c cell', columns[c]? = some e ∧
    cell (i + 1) c = some cell' ∧ Shows cell' (list[i].read e.column)

/-- A value that a cell is left empty for, though it is one. -/
def Dropped (v : Js.Value) : Prop := v.truthy = false ∧ ¬blank v

/-- The lists that are written as they are. -/
def Writable (conf : List ColumnConf) (list : List RowObject) : Prop :=
  list = [] ∨
    (∀ e ∈ conf, e.column ∈ listKeys list ∧ e.column ≠ "") ∧
    ∀ row ∈ list, ∀ e ∈ conf, ¬Dropped (row.read e.column)

variable {utils : SheetUtils Sheet} {conf : List ColumnConf} {list : List RowObject}

theorem find?_column (hconf : (conf.map ColumnConf.column).Nodup) {e : ColumnConf} (he : e ∈ conf) :
    conf.find? (·.column == e.column) = some e := by
  induction conf with
  | nil => cases he
  | cons c conf ih =>
    rw [List.map_cons, List.nodup_cons] at hconf
    rcases List.mem_cons.mp he with rfl | he
    · exact List.find?_cons_of_pos (beq_self_eq_true _)
    · have hne : c.column ≠ e.column := fun h =>
        hconf.1 (h ▸ List.mem_map_of_mem he)
      rw [List.find?_cons_of_neg (by simpa using hne)]
      exact ih hconf.2 he

/-- The columns that have a header. -/
def headed (conf : List ColumnConf) (list : List RowObject) : List ColumnConf :=
  conf.filter fun e => e.column ∈ listKeys list ∧ e.column ≠ ""

theorem filter_columnKeys (conf : List ColumnConf) (list : List RowObject) :
    ((columnKeys conf list).filterMap id).filter (· ≠ "") =
      (headed conf list).map ColumnConf.column := by
  rw [columnKeys, List.filterMap_map, Function.id_comp, headed]
  induction conf with
  | nil => rfl
  | cons e conf ih =>
    rw [List.filterMap_cons]
    by_cases hmem : e.column ∈ listKeys list
    · by_cases hempty : e.column = ""
      · rw [hempty] at hmem
        simpa [hmem, hempty] using ih
      · simpa [hmem, hempty] using ih
    · simpa [hmem] using ih

theorem mapM_column (hconf : (conf.map ColumnConf.column).Nodup) {entries : List ColumnConf}
    (hsub : entries ⊆ conf) :
    (entries.map ColumnConf.column).mapM (fun key => do
      let e ← conf.find? (·.column == key)
      return headerCell e) = some (entries.map headerCell) := by
  induction entries with
  | nil => rfl
  | cons e entries ih =>
    obtain ⟨he, hrest⟩ := List.cons_subset.mp hsub
    rw [List.map_cons, List.mapM_cons, find?_column hconf he, ih hrest]
    rfl

theorem createSheet_eq (hconf : (conf.map ColumnConf.column).Nodup) :
    createSheet utils conf list = some {
      sheet := utils.aoaToSheet
        ((headed conf list).map headerCell :: dataRows list (columnKeys conf list))
      cols := (headed conf list).map fun _ => 200
      rows := 50 :: list.map fun _ => 25 } := by
  have hheader : headerRow conf (columnKeys conf list) =
      some ((headed conf list).map headerCell) := by
    rw [headerRow, filter_columnKeys]
    exact mapM_column hconf (List.filter_subset_self conf)
  unfold createSheet
  dsimp only
  rw [hheader, Option.bind_eq_bind, Option.bind_some, List.map_map]
  rfl

theorem cell_header (hutils : utils.Lawful) (rows : List (List Cell)) (header : List Cell) (c : ℕ) :
    utils.cell (utils.aoaToSheet (header :: rows)) 0 c = header[c]? := by
  rw [hutils.cell_aoaToSheet]
  rfl

/-- The cells of an element are those of its values under the keys. -/
theorem cell_data (hutils : utils.Lawful) (header : List Cell) (keys : List (Option String)) {i : ℕ}
    (hi : i < list.length) : ∃ style, ∀ c,
    utils.cell (utils.aoaToSheet (header :: dataRows list keys)) (i + 1) c =
      keys[c]?.map (dataCell list[i] style) := by
  refine ⟨if i < list.length - 1 then CellStyle.row else .lastRow, ?_⟩
  intro c
  rw [hutils.cell_aoaToSheet, List.getElem?_cons_succ, dataRows, List.getElem?_mapIdx,
    List.getElem?_eq_getElem hi, Option.map_some, Option.bind_some, List.getElem?_map]

theorem truthy_of_blank {v : Js.Value} (h : blank v) : v.truthy = false := by
  rcases h with h | rfl
  · exact v.truthy_of_nullish h
  · rfl

theorem shows_dataCell {row : RowObject} (style : CellStyle) {column : String}
    (h : ¬Dropped (row.read column)) :
    Shows (dataCell row style (some column)) (row.read column) := by
  unfold Shows dataCell
  dsimp only [Option.getD_some]
  cases htruthy : (row.read column).truthy with
  | true =>
    refine .inr ⟨?_, rfl⟩
    intro hblank
    rw [truthy_of_blank hblank] at htruthy
    cases htruthy
  | false => exact .inl ⟨by_contra fun hblank => h ⟨htruthy, hblank⟩, rfl⟩

/-- No cell shows a falsy value. -/
theorem not_dropped_of_shows {row : RowObject} {style : CellStyle} {key : Option String}
    {v : Js.Value} (h : Shows (dataCell row style key) v) : ¬Dropped v := by
  rintro ⟨htruthy, hblank⟩
  rcases h with ⟨hb, -⟩ | ⟨-, hv⟩
  · exact hblank hb
  · unfold dataCell at hv
    dsimp only at hv
    split at hv
    · next ht =>
      rw [hv, htruthy] at ht
      cases ht
    · exact hblank (.inr hv.symm)

theorem writable_of_linedUp {columns : List ColumnConf} (hutils : utils.Lawful)
    (h : LinedUp conf list (utils.cell (utils.aoaToSheet
      ((headed conf list).map headerCell :: dataRows list (columnKeys conf list)))) columns) :
    Writable conf list := by
  cases list with
  | nil => exact .inl rfl
  | cons first rest =>
    refine .inr ⟨?_, ?_⟩
    · -- there are as many headers as cells in the first row, one for each column
      have hheaders : columns.length = (headed conf (first :: rest)).length := by
        have heq : ((headed conf (first :: rest)).map headerCell).map Cell.v =
            columns.map fun e => .str e.memo := by
          refine List.ext_getElem? fun c => ?_
          have hc := h.header c
          rw [cell_header hutils] at hc
          exact List.getElem?_map.trans (hc.trans List.getElem?_map.symm)
        simpa using (congrArg List.length heq).symm
      have hcells : columns.length = conf.length := by
        have hpos : 0 < (first :: rest).length := Nat.zero_lt_succ rest.length
        obtain ⟨style, hcell⟩ := cell_data hutils ((headed conf (first :: rest)).map headerCell)
          (columnKeys conf (first :: rest)) hpos
        have hwidth (c : ℕ) : c < conf.length ↔ c < columns.length := by
          have hc := h.width 0 hpos c
          rw [hcell, Option.isSome_map] at hc
          rw [← hc]
          simp [columnKeys]
        have hle := (hwidth columns.length).not.mpr (Nat.lt_irrefl _)
        have hge := (hwidth conf.length).not.mp (Nat.lt_irrefl _)
        omega
      have hall := List.length_filter_eq_length_iff.mp (hheaders.symm.trans hcells)
      intro e he
      exact of_decide_eq_true (hall e he)
    · intro row hrow e he
      obtain ⟨i, hi, rfl⟩ := List.mem_iff_getElem.mp hrow
      obtain ⟨style, hcell⟩ := cell_data hutils ((headed conf (first :: rest)).map headerCell)
        (columnKeys conf (first :: rest)) hi
      obtain ⟨c, cell', -, hget, hshows⟩ := h.values i hi e he
      rw [hcell, Option.map_eq_some_iff] at hget
      obtain ⟨key, -, rfl⟩ := hget
      exact not_dropped_of_shows hshows

theorem linedUp_of_writable (hutils : utils.Lawful) (h : Writable conf list) :
    LinedUp conf list (utils.cell (utils.aoaToSheet
      ((headed conf list).map headerCell :: dataRows list (columnKeys conf list))))
      (headed conf list) := by
  have hheader (c : ℕ) : (((headed conf list).map headerCell)[c]?).map Cell.v =
      (headed conf list)[c]?.map fun e => .str e.memo := by
    rw [List.getElem?_map, Option.map_map]
    rfl
  rcases h with rfl | ⟨hcolumns, hvalues⟩
  · refine ⟨fun c => ?_, fun i hi => absurd hi (Nat.not_lt_zero i),
      fun i hi => absurd hi (Nat.not_lt_zero i)⟩
    rw [cell_header hutils]
    exact hheader c
  · have hheaded : headed conf list = conf :=
      List.filter_eq_self.mpr fun e he => decide_eq_true (hcolumns e he)
    have hkeys : columnKeys conf list = conf.map fun e => some e.column :=
      List.map_congr_left fun e he => if_pos (hcolumns e he).1
    refine ⟨fun c => ?_, ?_, ?_⟩
    · rw [cell_header hutils]
      exact hheader c
    · intro i hi c
      obtain ⟨style, hcell⟩ := cell_data hutils ((headed conf list).map headerCell)
        (columnKeys conf list) hi
      rw [hcell, hkeys, hheaded]
      simp
    · intro i hi e he
      obtain ⟨style, hcell⟩ := cell_data hutils ((headed conf list).map headerCell)
        (columnKeys conf list) hi
      obtain ⟨c, hc, rfl⟩ := List.mem_iff_getElem.mp he
      refine ⟨c, dataCell list[i] style (some conf[c].column), ?_, ?_, ?_⟩
      · rw [hheaded, List.getElem?_eq_getElem hc]
      · rw [hcell, hkeys, List.getElem?_map, List.getElem?_eq_getElem hc]
        rfl
      · exact shows_dataCell style (hvalues _ (List.getElem_mem hi) _ he)

/-- The cells line up with their headers for the writable lists only. -/
theorem createSheet_linedUp_iff (hutils : utils.Lawful)
    (hconf : (conf.map ColumnConf.column).Nodup) :
    (∃ w columns, createSheet utils conf list = some w ∧
      LinedUp conf list (utils.cell w.sheet) columns) ↔ Writable conf list := by
  rw [createSheet_eq hconf]
  constructor
  · rintro ⟨w, columns, hw, hlined⟩
    cases hw
    exact writable_of_linedUp hutils hlined
  · intro h
    exact ⟨_, _, rfl, linedUp_of_writable hutils h⟩

/-- A sheet as the rows it is made of. -/
def rowUtils : SheetUtils (List (List Cell)) where
  aoaToSheet rows := rows
  cell rows r c := rows[r]?.bind (·[c]?)

theorem rowUtils_lawful : rowUtils.Lawful := ⟨fun _ _ _ => rfl⟩

def nameAndCount : List ColumnConf := [⟨"name", "Name"⟩, ⟨"count", "Count"⟩]

theorem linedUp_nameAndCount : ∃ w columns,
    createSheet rowUtils nameAndCount
      [⟨["name", "count"], fun key => if key = "name" then .str "a" else .num 1⟩] = some w ∧
    LinedUp nameAndCount [⟨["name", "count"], fun key => if key = "name" then .str "a" else .num 1⟩]
      (rowUtils.cell w.sheet) columns := by
  refine (createSheet_linedUp_iff rowUtils_lawful (by decide)).mpr (.inr ⟨?_, ?_⟩)
  · decide
  · intro row hrow e he hdropped
    cases List.mem_singleton.mp hrow
    have htruthy := hdropped.1
    dsimp only at htruthy
    split at htruthy <;> exact absurd htruthy (by decide)

/-- The element without a name has its count in the second column, which has no header. -/
theorem not_linedUp_of_missing : ¬∃ w columns,
    createSheet rowUtils nameAndCount
      [⟨["count"], fun key => if key = "count" then .num 1 else .undefined⟩] = some w ∧
    LinedUp nameAndCount
      [⟨["count"], fun key => if key = "count" then .num 1 else .undefined⟩]
      (rowUtils.cell w.sheet) columns := by
  rintro ⟨w, columns, hw, hlined⟩
  rw [createSheet_eq (by decide)] at hw
  cases hw
  rcases writable_of_linedUp rowUtils_lawful hlined with h | ⟨h, -⟩
  · cases h
  · exact absurd h (by decide)

end NestHarness
