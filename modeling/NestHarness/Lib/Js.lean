import NestHarness.Lib.Json

/-!
# JavaScript values

Values without cycles as `JSON.stringify` tells them apart, and their way through JSON: `toJson` is
the value of the text `JSON.stringify` gives, and `ofJson` that of `JSON.parse`.
-/

namespace Js

inductive Value where
  | undefined
  | null
  | bool (b : Bool)
  | num (q : Rat)
  | nan
  | infinity (negative : Bool)
  | str (s : String)
  /-- `v` with lone surrogates in its text, or in the name of the field that has it. -/
  | lone (v : Value)
  /-- A `Date`: its `toISOString()`, if it is a valid one. -/
  | date (iso : Option String)
  /-- A function or a symbol. -/
  | function
  | arr (elems : List Value)
  | obj (fields : List (String × Value))

namespace Value

mutual

/-- `JSON.stringify`: `undefined` and functions have no JSON. -/
def toJson : Value → Option Json
  | undefined | function => none
  | null | nan | infinity _ | date none => some .null
  | bool b => some (.bool b)
  | num q => some (.num q)
  | str s | date (some s) => some (.str s)
  | lone v => (toJson v).map .lone
  | arr elems => some (.arr (elemsToJson elems))
  | obj fields => some (.obj (fieldsToJson fields))

/-- An element without JSON is `null`. -/
def elemsToJson : List Value → List Json
  | [] => []
  | v :: vs => (toJson v).getD .null :: elemsToJson vs

/-- A field without JSON is left out. -/
def fieldsToJson : List (String × Value) → List (String × Json)
  | [] => []
  | (k, v) :: fs => ((toJson v).map (k, ·)).toList ++ fieldsToJson fs

end

mutual

/-- `JSON.parse`. -/
def ofJson : Json → Value
  | .null => null
  | .bool b => bool b
  | .num q => num q
  | .str s => str s
  | .lone j => lone (ofJson j)
  | .arr elems => arr (elemsOfJson elems)
  | .obj fields => obj (fieldsOfJson fields)

def elemsOfJson : List Json → List Value
  | [] => []
  | j :: js => ofJson j :: elemsOfJson js

def fieldsOfJson : List (String × Json) → List (String × Value)
  | [] => []
  | (k, j) :: fs => (k, ofJson j) :: fieldsOfJson fs

end

def truthy : Value → Bool
  | undefined | null | nan => false
  | bool b => b
  | num q => q ≠ 0
  | str s => s ≠ ""
  | lone v => v.truthy
  | infinity _ | date _ | function | arr _ | obj _ => true

/-- `null` and `undefined`, for which `??` takes its right side. -/
def nullish : Value → Bool
  | undefined | null => true
  | lone v => v.nullish
  | bool _ | num _ | nan | infinity _ | str _ | date _ | function | arr _ | obj _ => false

theorem truthy_of_nullish : ∀ v : Value, v.nullish = true → v.truthy = false
  | undefined, _ | null, _ => rfl
  | lone v, h => truthy_of_nullish v h

/-- The text of a string, with U+FFFD for lone surrogates. -/
def textOf : Value → Option String
  | str s => some s
  | lone v => textOf v
  | _ => none

/-- `v[name]` of a value other than `undefined` and `null`. -/
def get (v : Value) (name : String) : Value :=
  match v with
  | obj fields => (fields.lookup name).getD undefined
  | lone v => v.get name
  | _ => undefined

mutual

/-- A parsed value has the JSON it was parsed from. -/
@[simp] theorem toJson_ofJson : ∀ j : Json, (ofJson j).toJson = some j
  | .null | .bool _ | .num _ | .str _ => rfl
  | .lone j => by rw [ofJson, toJson, toJson_ofJson j, Option.map_some]
  | .arr elems => congrArg (some ∘ Json.arr) (elemsToJson_elemsOfJson elems)
  | .obj fields => congrArg (some ∘ Json.obj) (fieldsToJson_fieldsOfJson fields)

theorem elemsToJson_elemsOfJson : ∀ js : List Json, elemsToJson (elemsOfJson js) = js
  | [] => rfl
  | j :: js => by
    rw [elemsOfJson, elemsToJson, toJson_ofJson j, elemsToJson_elemsOfJson js]
    rfl

theorem fieldsToJson_fieldsOfJson : ∀ fs : List (String × Json), fieldsToJson (fieldsOfJson fs) = fs
  | [] => rfl
  | (k, j) :: fs => by
    rw [fieldsOfJson, fieldsToJson, toJson_ofJson j, fieldsToJson_fieldsOfJson fs]
    rfl

end

/-- What JSON makes of a value, `null` where it has no JSON. -/
def normalize (v : Value) : Value := ofJson (v.toJson.getD .null)

theorem toJson_normalize (v : Value) : v.normalize.toJson = some (v.toJson.getD .null) :=
  toJson_ofJson _

/-- The values that come out of JSON as they went in. -/
def Representable (v : Value) : Prop := ∃ j, v = ofJson j

theorem Representable.normalize {v : Value} (h : v.Representable) : v.normalize = v := by
  obtain ⟨j, rfl⟩ := h
  simp [Value.normalize]

end Value

end Js
