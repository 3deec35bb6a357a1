import Mathlib.Data.List.Basic
import NestHarness.Lib.Text

/-!
# The validator of request files

`validate-request.js` and the `request.schema.json` that it is meant to enforce. It takes from the
schema which fields there must be, and has tests of its own for whether they are filled.
-/

namespace NestHarness

open Js (trim)

abbrev Text := List Char

/-- The fields of a frontmatter, in the order of its lines. -/
abbrev Frontmatter := List (Text × Text)

/-- What a run of the script ends with. -/
structure ScriptExit where
  code : Nat
  stdout : List String
  stderr : List String
deriving DecidableEq

namespace ValidateRequest

/-- `required` of the schema. -/
def required : List String :=
  ["feature_goal", "domain", "api_method", "api_path", "affected_tables"]

/-- What stands before the first line that begins with three dashes. -/
def untilFence : Text → Option Text
  | [] => none
  | c :: cs =>
    if "\n---".toList.isPrefixOf (c :: cs) then some []
    else (untilFence cs).map (c :: ·)

/-- The group of the match: the text between the first line, which is three dashes, and the next
line that begins with three. -/
def frontmatter (content : Text) : Option Text :=
  if "---\n".toList.isPrefixOf content then untilFence (content.drop 4) else none

/-- `const [key, ...rest] = line.split(':')`, and the field that is set. -/
def parseLine (line : Text) : Option (Text × Text) :=
  match line.splitOn ':' with
  | key :: rest =>
    if key ≠ [] ∧ rest ≠ [] then some (trim key, trim ([':'].intercalate rest)) else none
  | [] => none

def parse (text : Text) : Frontmatter := (text.splitOn '\n').filterMap parseLine

/-- `fm[field]`: of two lines with one key the last one counts. -/
def field (fm : Frontmatter) (name : String) : Option Text := fm.reverse.lookup name.toList

/-- The values that count as no value. -/
def empties : List Text := [[], "\"\"".toList, "[]".toList]

def isMissing (fm : Frontmatter) (name : String) : Bool :=
  match field fm name with
  | none => true
  | some val => val ∈ empties

def missing (fm : Frontmatter) : List String := required.filter (isMissing fm)

def basename (filePath : Text) : Text :=
  ((filePath.reverse.dropWhile (· = '/')).takeWhile (· ≠ '/')).reverse

end ValidateRequest

open ValidateRequest

/-- The script on its argument and the content of the file. -/
def validateRequest (filePath : Option String) (content : Text) : ScriptExit :=
  match filePath with
  | none | some "" => ⟨1, [], ["[harness] validate-request: 파일 경로가 필요합니다."]⟩
  | some filePath =>
    match frontmatter content with
    | none =>
      ⟨1, [], ["[harness] STOP: frontmatter가 없습니다. .harness/templates/request.md를 사용하세요."]⟩
    | some text =>
      let missing := missing (parse text)
      if missing.length > 0 then
        ⟨1, [], ["[harness] STOP: 필수 항목 누락 → " ++ String.intercalate ", " missing,
          "[harness] .harness/templates/request.md 양식을 채운 후 다시 저장하세요."]⟩
      else
        ⟨0, ["[harness] OK: " ++ String.ofList (basename filePath.toList) ++
          " 검증 통과 → work 파일 작성을 시작합니다."], []⟩

/-! ## The schema -/

/-- What the schema says of a property. -/
inductive PropertySchema where
  | string (minLength : Nat)
  | enum (values : List String)
  | array (minItems : Nat)

namespace RequestSchema

def methods : List String := ["GET", "POST", "PATCH", "PUT", "DELETE"]

def properties : List (String × PropertySchema) :=
  [("feature_goal", .string 1), ("domain", .string 1), ("api_method", .enum methods),
    ("api_path", .string 1), ("affected_tables", .array 1)]

def quotes : List Char := "\"'".toList

/-- The string that a value stands for. -/
def unquote : Text → Text
  | [] => []
  | q :: val => if q ∈ quotes ∧ val.getLast? = some q then val.dropLast else q :: val

/-- The names in a list `[a, b]`. -/
def names (val : Text) : Option (List Text) :=
  if val.head? = some '[' ∧ val.getLast? = some ']' then
    some (((val.tail.dropLast.splitOn ',').map fun item => unquote (trim item)).filter (· ≠ []))
  else none

def Accepts (val : Text) : PropertySchema → Prop
  | .string minLength => minLength ≤ (unquote val).length
  | .enum values => ∃ v ∈ values, unquote val = v.toList
  | .array minItems => ∃ items, names val = some items ∧ minItems ≤ items.length

/-- The fields of a request as the schema has them. -/
structure Conforms (fm : Frontmatter) : Prop where
  filled : ∀ name ∈ required, ∃ val, field fm name = some val ∧ unquote val ≠ []
  accepted : ∀ p ∈ properties, ∀ val, field fm p.1 = some val → Accepts val p.2

/-! ## What the script leaves to the file -/

/-- The required fields that are plain texts. -/
def texts : List String := ["feature_goal", "domain", "api_path"]

/-- A string without quotes and in either quotes. -/
def spellings (s : String) : List Text := s.toList :: quotes.map fun q => q :: (s.toList ++ [q])

/-- Every required field has a value, and none of the empty ones. -/
def Filled (fm : Frontmatter) : Prop :=
  ∀ name ∈ required, ∃ val, field fm name = some val ∧ val ∉ empties

/-- `api_method` spells one of the methods, no text is a pair of single quotes, and the tables are
a list in brackets, with a name between two commas. -/
structure WellSpelled (fm : Frontmatter) : Prop where
  method : ∃ m ∈ methods, ∃ val ∈ spellings m, field fm "api_method" = some val
  text : ∀ name ∈ texts, field fm name ≠ some "''".toList
  tables : ∃ inner, field fm "affected_tables" = some ('[' :: (inner ++ [']'])) ∧
    ∃ item ∈ inner.splitOn ',', trim item ∉ spellings ""

/-- Whatever file the script accepts the content in, its frontmatter conforms to the schema. -/
def Enforced (content : Text) : Prop :=
  ∀ filePath, (validateRequest filePath content).code = 0 →
    ∃ text, frontmatter content = some text ∧ Conforms (parse text)

variable {fm : Frontmatter} {val : Text} {content : Text}

theorem missing_eq_nil_iff : missing fm = [] ↔ Filled fm := by
  rw [missing, List.filter_eq_nil_iff]
  refine forall₂_congr fun name _ => ?_
  unfold isMissing
  cases field fm name <;> simp

theorem code_eq_zero_iff {filePath : Option String} :
    (validateRequest filePath content).code = 0 ↔
      filePath ≠ none ∧ filePath ≠ some "" ∧
        ∃ text, frontmatter content = some text ∧ Filled (parse text) := by
  unfold validateRequest
  split
  · simp
  · simp
  · next filePath hpath =>
    split
    · next hnone => simp [hnone]
    · next text htext =>
      simp only [← missing_eq_nil_iff, htext, Option.some.injEq, exists_eq_left']
      have hne : filePath ≠ "" := hpath
      cases missing (parse text) <;> simp [hne]

/-! ### Unquoted strings -/

theorem unquote_eq_iff {s : String} (hs : (s.toList.head?.any (· ∈ quotes)) = false) :
    unquote val = s.toList ↔ val ∈ spellings s := by
  simp only [spellings, List.mem_cons, List.mem_map]
  cases val with
  | nil => simp [unquote]
  | cons q val =>
    rw [unquote]
    split
    · next h =>
      obtain ⟨init, rfl⟩ := List.getLast?_eq_some_iff.mp h.2
      have hbare : q :: (init ++ [q]) ≠ s.toList := by
        intro heq
        simp [← heq, h.1] at hs
      rw [List.dropLast_concat, or_iff_right hbare]
      constructor
      · rintro rfl
        exact ⟨q, h.1, rfl⟩
      · rintro ⟨q', _, heq⟩
        obtain ⟨rfl, heq⟩ := List.cons.inj heq
        exact (List.append_cancel_right heq).symm
    · next h =>
      refine (or_iff_left ?_).symm
      rintro ⟨q', hq', heq⟩
      obtain ⟨rfl, rfl⟩ := List.cons.inj heq
      exact h ⟨hq', List.getLast?_concat⟩

theorem spellings_empty : spellings "" = [[], "\"\"".toList, "''".toList] := rfl

theorem unquote_eq_nil_iff : unquote val = [] ↔ val ∈ spellings "" :=
  unquote_eq_iff (s := "") (by decide)

theorem unquote_ne_nil (hval : val ∉ empties) (hsingle : val ≠ "''".toList) :
    unquote val ≠ [] := by
  rw [ne_eq, unquote_eq_nil_iff, spellings_empty]
  simp only [empties, List.mem_cons, List.not_mem_nil, or_false, not_or] at hval ⊢
  exact ⟨hval.1, hval.2.1, hsingle⟩

theorem head_methods : ∀ m ∈ methods, (m.toList.head?.any (· ∈ quotes)) = false := by
  decide +kernel

/-! ### Lists of names -/

theorem bracketed_iff : val.head? = some '[' ∧ val.getLast? = some ']' ↔
    ∃ inner, val = '[' :: (inner ++ [']']) := by
  constructor
  · rintro ⟨hhead, hlast⟩
    obtain ⟨init, rfl⟩ := List.getLast?_eq_some_iff.mp hlast
    cases init with
    | nil => cases hhead
    | cons c inner =>
      cases hhead
      exact ⟨inner, rfl⟩
  · rintro ⟨inner, rfl⟩
    refine ⟨rfl, ?_⟩
    rw [← List.cons_append, List.getLast?_concat]

theorem accepts_array_iff : Accepts val (.array 1) ↔ ∃ inner, val = '[' :: (inner ++ [']']) ∧
    ∃ item ∈ inner.splitOn ',', trim item ∉ spellings "" := by
  constructor
  · rintro ⟨items, hitems, hlength⟩
    unfold names at hitems
    split at hitems
    · next h =>
      obtain ⟨inner, rfl⟩ := bracketed_iff.mp h
      cases hitems
      obtain ⟨name, hname⟩ := List.exists_mem_of_length_pos hlength
      obtain ⟨hname, hne⟩ := List.mem_filter.mp hname
      obtain ⟨item, hitem, rfl⟩ := List.mem_map.mp hname
      rw [List.tail_cons, List.dropLast_concat] at hitem
      exact ⟨inner, rfl, item, hitem, mt unquote_eq_nil_iff.mpr (of_decide_eq_true hne)⟩
    · cases hitems
  · rintro ⟨inner, rfl, item, hitem, hne⟩
    refine ⟨_, if_pos (bracketed_iff.mpr ⟨inner, rfl⟩),
      List.length_pos_of_mem (a := unquote (trim item)) ?_⟩
    refine List.mem_filter.mpr ⟨List.mem_map.mpr ⟨item, ?_, rfl⟩, ?_⟩
    · rwa [List.tail_cons, List.dropLast_concat]
    · exact decide_eq_true (mt unquote_eq_nil_iff.mp hne)

/-! ### The fields of the schema -/

theorem mem_required_iff {name : String} :
    name ∈ required ↔ name ∈ texts ∨ name = "api_method" ∨ name = "affected_tables" := by
  simp only [required, texts, List.mem_cons, List.not_mem_nil, or_false]
  tauto

theorem mem_properties_iff {p : String × PropertySchema} :
    p ∈ properties ↔ (p.1 ∈ texts ∧ p.2 = .string 1) ∨ p = ("api_method", .enum methods) ∨
      p = ("affected_tables", .array 1) := by
  simp only [properties, texts, List.mem_cons, List.not_mem_nil, or_false, Prod.ext_iff]
  tauto

theorem Conforms.wellSpelled (h : Conforms fm) : WellSpelled fm where
  method := by
    obtain ⟨val, hval, _⟩ := h.filled "api_method" (by decide)
    obtain ⟨m, hm, hunquote⟩ :=
      h.accepted ("api_method", .enum methods) (by simp [properties]) val hval
    exact ⟨m, hm, val, (unquote_eq_iff (head_methods m hm)).mp hunquote, hval⟩
  text name hname hval := by
    obtain ⟨val, hval', hne⟩ := h.filled name (mem_required_iff.mpr (.inl hname))
    cases hval.symm.trans hval'
    exact hne (by decide)
  tables := by
    obtain ⟨val, hval, _⟩ := h.filled "affected_tables" (by decide)
    obtain ⟨inner, rfl, hitem⟩ := accepts_array_iff.mp
      (h.accepted ("affected_tables", .array 1) (by simp [properties]) val hval)
    exact ⟨inner, hval, hitem⟩

theorem WellSpelled.conforms (h : WellSpelled fm) (hfilled : Filled fm) : Conforms fm := by
  have htext : ∀ name ∈ texts, ∀ val, field fm name = some val → unquote val ≠ [] := by
    intro name hname val hval
    obtain ⟨val', hval', hne⟩ := hfilled name (mem_required_iff.mpr (.inl hname))
    cases hval.symm.trans hval'
    refine unquote_ne_nil hne ?_
    rintro rfl
    exact h.text name hname hval
  obtain ⟨m, hm, method, hmethod, hfield⟩ := h.method
  have hunquote : unquote method = m.toList := (unquote_eq_iff (head_methods m hm)).mpr hmethod
  obtain ⟨inner, htables, hitem⟩ := h.tables
  constructor
  · intro name hname
    obtain hname | rfl | rfl := mem_required_iff.mp hname
    · obtain ⟨val, hval, _⟩ := hfilled name (mem_required_iff.mpr (.inl hname))
      exact ⟨val, hval, htext name hname val hval⟩
    · refine ⟨method, hfield, hunquote ▸ ?_⟩
      exact (by decide +kernel : ∀ m ∈ methods, m.toList ≠ []) m hm
    · refine ⟨_, htables, ?_⟩
      rw [unquote, if_neg fun hq => absurd hq.1 (by decide)]
      exact List.cons_ne_nil _ _
  · rintro ⟨name, p⟩ hp val hval
    obtain ⟨hname, rfl⟩ | hp | hp := mem_properties_iff.mp hp
    · exact List.length_pos_of_ne_nil (htext name hname val hval)
    · cases hp
      cases hval.symm.trans hfield
      exact ⟨m, hm, hunquote⟩
    · cases hp
      cases hval.symm.trans htables
      exact accepts_array_iff.mpr ⟨inner, rfl, hitem⟩

/-- The schema is enforced on a file just when its frontmatter leaves a required field empty or
spells all of them well. -/
theorem enforced_iff (content : Text) : Enforced content ↔
    ∀ text, frontmatter content = some text → Filled (parse text) → WellSpelled (parse text) := by
  constructor
  · intro h text htext hfilled
    obtain ⟨text', htext', hconforms⟩ :=
      h (some "request.md") (code_eq_zero_iff.mpr ⟨nofun, by decide, text, htext, hfilled⟩)
    cases htext.symm.trans htext'
    exact hconforms.wellSpelled
  · intro h filePath hcode
    obtain ⟨_, _, text, htext, hfilled⟩ := code_eq_zero_iff.mp hcode
    exact ⟨text, htext, (h text htext hfilled).conforms hfilled⟩

/-- A request of a method that the schema does not list, for an empty list of tables. -/
def fetchNothing : Text :=
  ("---\nfeature_goal: \"회원가입\"\ndomain: \"user\"\napi_method: \"FETCH\"\n" ++
    "api_path: \"/api/v1/user\"\naffected_tables: [ ]\n---").toList

theorem not_enforced_fetch :
    (validateRequest (some "request.md") fetchNothing).code = 0 ∧ ¬Enforced fetchNothing := by
  have hcode : (validateRequest (some "request.md") fetchNothing).code = 0 := by decide +kernel
  refine ⟨hcode, ?_⟩
  intro h
  obtain ⟨text, htext, hconforms⟩ := h (some "request.md") hcode
  obtain ⟨m, hm, val, hval, hfield⟩ := hconforms.wellSpelled.method
  have hfetch : ∀ text ∈ frontmatter fetchNothing,
      field (parse text) "api_method" = some "\"FETCH\"".toList := by decide +kernel
  cases hfield.symm.trans (hfetch text htext)
  exact absurd hval ((by decide +kernel : ∀ m ∈ methods, "\"FETCH\"".toList ∉ spellings m) m hm)

end RequestSchema

end NestHarness
