import Mathlib.Data.Rat.Defs

/-!
# JSON values

A JSON text is modelled by the value it denotes; an object keeps its fields in order. Its texts are
those of JavaScript, which may hold lone surrogates; a Unicode text has none.
-/

inductive Json where
  | null
  | bool (b : Bool)
  | num (q : Rat)
  | str (s : String)
  /-- `j`, but a text of it, or the name of the field that has it, holds lone surrogates, for each
  of which `j` has U+FFFD. -/
  | lone (j : Json)
  | arr (elems : List Json)
  | obj (fields : List (String × Json))

namespace Json

mutual

/-- No text of the value, and no name of a field, holds lone surrogates. -/
def unicode : Json → Bool
  | null | bool _ | num _ | str _ => true
  | lone _ => false
  | arr elems => unicodeElems elems
  | obj fields => unicodeFields fields

def unicodeElems : List Json → Bool
  | [] => true
  | j :: js => unicode j && unicodeElems js

def unicodeFields : List (String × Json) → Bool
  | [] => true
  | (_, j) :: fields => unicode j && unicodeFields fields

end

/-- The value with the fields of the given names blanked. -/
def hide (names : List String) : Json → Json
  | obj fields => obj (fields.map fun f => if f.1 ∈ names then (f.1, null) else f)
  | j => j

@[simp] theorem hide_eq_null_iff {names : List String} {j : Json} :
    j.hide names = null ↔ j = null := by
  cases j <;> simp [hide]

@[simp] theorem hide_eq_obj_nil_iff {names : List String} {j : Json} :
    j.hide names = obj [] ↔ j = obj [] := by
  cases j <;> simp [hide]

end Json
