import Mathlib.Data.List.Basic
import NestHarness.Lib.Json

/-!
# Columns of MySQL

What a column makes of the value that an `INSERT` has for it in strict mode: it stores the value,
cuts spaces from the end of a text that is too long, or refuses the statement. The character set of
the tables is `utf8mb4`.
-/

namespace Json

mutual

/-- A `json` column takes the value when its arrays and objects have at most `levels` levels, the
names of its fields at most 65535 bytes and none of its texts a lone surrogate. -/
def storable (levels : ℕ) : Json → Bool
  | null | bool _ | num _ | str _ => true
  | lone _ => false
  | arr elems =>
    match levels with
    | 0 => false
    | levels + 1 => storableElems levels elems
  | obj fields =>
    match levels with
    | 0 => false
    | levels + 1 => storableFields levels fields

def storableElems (levels : ℕ) : List Json → Bool
  | [] => true
  | j :: js => storable levels j && storableElems levels js

def storableFields (levels : ℕ) : List (String × Json) → Bool
  | [] => true
  | (name, j) :: fields =>
    decide (name.utf8ByteSize ≤ 65535) && storable levels j && storableFields levels fields

end

end Json

namespace MySql

inductive ColumnType where
  | varchar (length : ℕ)
  | text
  | int
  | json

structure Column where
  name : String
  type : ColumnType
  nullable : Bool

/-- What a row has for a column. -/
inductive Cell where
  | null
  | text (s : String)
  | int (n : ℤ)
  | json (value : Json)

def Cell.ofText : Option String → Cell
  | none => null
  | some s => text s

def Cell.ofJson : Option Json → Cell
  | none => null
  | some value => json value

/-- The beginning of a text that has at most `size` bytes. -/
def takeBytes : ℕ → List Char → List Char
  | _, [] => []
  | size, c :: cs => if c.utf8Size ≤ size then c :: takeBytes (size - c.utf8Size) cs else []

/-- `kept` is stored of the text `s`, if it is all of it but for spaces at the end. -/
def cutTo (kept : List Char) (s : String) : Option String :=
  if (s.toList.drop kept.length).all (· = ' ') then some (.ofList kept) else none

/-- What a `varchar` column stores of a text. -/
def cutVarchar (length : ℕ) (s : String) : Option String := cutTo (s.toList.take length) s

/-- The values of a signed integer of four bytes. -/
def IsInt (n : ℤ) : Prop := -2147483648 ≤ n ∧ n ≤ 2147483647

instance (n : ℤ) : Decidable (IsInt n) :=
  inferInstanceAs (Decidable (-2147483648 ≤ n ∧ n ≤ 2147483647))

namespace Column

/-- What is stored of a value, `none` when the statement is refused. -/
def store (c : Column) (v : Cell) : Option Cell :=
  match c.type, v with
  | _, .null => if c.nullable then some .null else none
  | .varchar length, .text s => (cutVarchar length s).map .text
  | .text, .text s => (cutTo (takeBytes 65535 s.toList) s).map .text
  | .int, .int n => if IsInt n then some (.int n) else none
  | .json, .json value => if value.storable 100 then some (.json value) else none
  | _, _ => none

/-- The value is within the limits that the column is declared with. -/
def Takes (c : Column) (v : Cell) : Prop :=
  match c.type, v with
  | _, .null => c.nullable = true
  | .varchar length, .text s => s.length ≤ length
  | .text, .text s => s.utf8ByteSize ≤ 65535
  | .int, .int n => IsInt n
  | .json, .json value => value.storable 100 = true
  | _, _ => False

end Column

variable {s : String} {n : ℕ}

theorem cutTo_eq_self_iff {kept : List Char} (h : kept <+: s.toList) :
    cutTo kept s = some s ↔ kept = s.toList := by
  unfold cutTo
  constructor
  · intro heq
    split at heq
    · rw [← Option.some.inj heq, String.toList_ofList]
    · cases heq
  · rintro rfl
    rw [List.drop_length, List.all_nil, if_pos rfl, String.ofList_toList]

theorem cutVarchar_eq_self_iff : cutVarchar n s = some s ↔ s.length ≤ n := by
  rw [cutVarchar, cutTo_eq_self_iff (List.take_prefix _ _), ← String.length_toList]
  constructor
  · intro h
    rw [← h]
    exact List.length_take_le _ _
  · exact List.take_of_length_le

/-- A `varchar` column refuses a text just when a character beyond its length is no space. -/
theorem cutVarchar_eq_none_iff :
    cutVarchar n s = none ↔ ∃ c ∈ s.toList.drop n, c ≠ ' ' := by
  have hdrop : s.toList.drop (s.toList.take n).length = s.toList.drop n := by
    rcases Nat.le_total n s.toList.length with h | h
    · rw [List.length_take, Nat.min_eq_left h]
    · rw [List.take_of_length_le h, List.drop_length, List.drop_eq_nil_of_le h]
  rw [cutVarchar, cutTo, hdrop]
  simp

/-- The bytes of a text. -/
def bytes : List Char → ℕ
  | [] => 0
  | c :: cs => c.utf8Size + bytes cs

theorem isPrefix_takeBytes (cs : List Char) : takeBytes n cs <+: cs := by
  induction cs generalizing n with
  | nil => exact List.prefix_rfl
  | cons c cs ih =>
    rw [takeBytes]
    split
    · exact (List.prefix_cons_inj c).mpr ih
    · exact List.nil_prefix

theorem takeBytes_eq_self_iff {cs : List Char} : takeBytes n cs = cs ↔ bytes cs ≤ n := by
  induction cs generalizing n with
  | nil => exact iff_of_true rfl (Nat.zero_le n)
  | cons c cs ih =>
    rw [takeBytes, bytes]
    split
    · next hc =>
      rw [List.cons_inj_right, ih]
      omega
    · next hc =>
      refine iff_of_false (fun h => ?_) (by omega)
      cases h

theorem utf8ByteSize_eq (s : String) : s.utf8ByteSize = bytes s.toList := by
  have hlist (cs : List Char) : (String.ofList cs).utf8ByteSize = bytes cs := by
    induction cs with
    | nil => rfl
    | cons c cs ih =>
      rw [String.ofList_cons, String.utf8ByteSize_append, String.utf8ByteSize_singleton, ih,
        bytes]
  rw [← hlist, String.ofList_toList]

/-- A column stores a value as it is just when it takes it. -/
theorem Column.store_eq_self_iff {c : Column} {v : Cell} : c.store v = some v ↔ c.Takes v := by
  obtain ⟨name, type, nullable⟩ := c
  cases v with
  | null => simp [store, Takes]
  | text s =>
    cases type with
    | varchar length => simp [store, Takes, cutVarchar_eq_self_iff]
    | text =>
      simp [store, Takes, cutTo_eq_self_iff (isPrefix_takeBytes _), takeBytes_eq_self_iff,
        utf8ByteSize_eq]
    | int | json => simp [store, Takes]
  | int n => cases type <;> simp [store, Takes]
  | json value => cases type <;> simp [store, Takes]

variable {name : String}

@[simp] theorem takes_varchar {nullable : Bool} :
    Column.Takes ⟨name, .varchar n, nullable⟩ (.text s) ↔ s.length ≤ n := .rfl

@[simp] theorem takes_int {nullable : Bool} {k : ℤ} :
    Column.Takes ⟨name, .int, nullable⟩ (.int k) ↔ IsInt k := .rfl

@[simp] theorem takes_varchar_ofText {value : Option String} :
    Column.Takes ⟨name, .varchar n, true⟩ (.ofText value) ↔ ∀ s ∈ value, s.length ≤ n := by
  cases value <;> simp [Cell.ofText, Column.Takes]

@[simp] theorem takes_text_ofText {value : Option String} :
    Column.Takes ⟨name, .text, true⟩ (.ofText value) ↔ ∀ s ∈ value, s.utf8ByteSize ≤ 65535 := by
  cases value <;> simp [Cell.ofText, Column.Takes]

@[simp] theorem takes_json_ofJson {value : Option Json} :
    Column.Takes ⟨name, .json, true⟩ (.ofJson value) ↔ ∀ j ∈ value, j.storable 100 = true := by
  cases value <;> simp [Cell.ofJson, Column.Takes]

/-! ## Rows -/

/-- What an `INSERT` of a row stores, `none` when one of its columns refuses. -/
def storeRow (row : List (Column × Cell)) : Option (List Cell) :=
  row.mapM fun x => x.1.store x.2

theorem storeRow_cons (x : Column × Cell) (row : List (Column × Cell)) :
    storeRow (x :: row) =
      (x.1.store x.2).bind fun v => (storeRow row).bind fun vs => some (v :: vs) := by
  rw [storeRow, List.mapM_cons]
  rfl

/-- A row is refused when one of its columns refuses its value. -/
theorem storeRow_eq_none {row : List (Column × Cell)} {x : Column × Cell} (hx : x ∈ row)
    (h : x.1.store x.2 = none) : storeRow row = none := by
  induction row with
  | nil => cases hx
  | cons y row ih =>
    rw [storeRow_cons]
    rcases List.mem_cons.mp hx with rfl | hx
    · rw [h, Option.bind_none]
    · rw [ih hx]
      cases y.1.store y.2 <;> rfl

/-- A row is stored as it is just when each of its columns takes its value. -/
theorem storeRow_eq_self_iff {row : List (Column × Cell)} :
    storeRow row = some (row.map Prod.snd) ↔ ∀ x ∈ row, x.1.Takes x.2 := by
  induction row with
  | nil => simp [storeRow]
  | cons x row ih =>
    rw [List.forall_mem_cons, ← ih, ← Column.store_eq_self_iff, storeRow_cons]
    cases hx : x.1.store x.2 with
    | none => simp
    | some v => cases hrow : storeRow row <;> simp

end MySql
