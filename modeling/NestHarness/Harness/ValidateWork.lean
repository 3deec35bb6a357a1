import NestHarness.Harness.ValidateRequest
import NestHarness.Lib.Json
import NestHarness.Lib.RegexSyntax

/-!
# The validator of work files

`validate-work.js` makes a regular expression of each section that the configuration asks for.
Whatever the label of a section is, it is looked for as it stands, at the beginning of a line.
-/

namespace NestHarness

open RegExp

namespace ValidateWork

/-- The sections when the configuration has none. -/
def fallback : List Json := [.str "## 기능 요약", .str "## 파일 목록", .str "## 6. 테스트 케이스"]

/-- A property of what has been parsed; what is not an object has none. -/
def property (name : String) : Json → Option Json
  | .obj fields => fields.lookup name
  | _ => none

/-- `harness-config.json`, parsed. Its texts are Unicode. -/
structure Config where
  value : Json
  unicode : value.unicode = true

/-- `harness_rules?.required_work_sections`; `none` is a configuration that cannot be read or
parsed. -/
def requiredSections (config : Option Config) : List Json :=
  match (config.bind fun config => property "harness_rules" config.value).bind
    (property "required_work_sections") with
  | some (.arr (j :: js)) => j :: js
  | _ => fallback

/-- `/[.*+?^${}()|[\]\\]/g` -/
def specials : Pattern := (parse "[.*+?^$\x7b\x7d()|[\\]\\\\]".toList).get (by decide +kernel)

/-- `label.replace(/[.*+?^${}()|[\]\\]/g, '\\$&')` -/
def escape (label : Text) : Text := replaceAll specials (fun found => '\\' :: found) label

/-- `new RegExp('^' + escaped, 'm').test(content)`; `none` is a `SyntaxError`. -/
def hasSection (content label : Text) : Option Bool :=
  (parse ('^' :: escape label)).map fun pattern => test true pattern content

/-- What the loop adds to `failures`; a label that is no text has no `replace`. -/
def missingSection (content : Text) : Json → Option (List String)
  | .str label => do
    return if ← hasSection content label.toList then [] else ["섹션 누락: " ++ label]
  | _ => none

def success : Pattern := (parse "\\[SUCCESS\\]".toList).get (by decide +kernel)

def failValidation : Pattern := (parse "\\[FAIL:validation\\]".toList).get (by decide +kernel)

def frontmatterStart : Pattern := (parse "^---".toList).get (by decide +kernel)

/-- The tests after the loop. -/
def otherFailures (content : Text) : List String :=
  (if test false success content then [] else ["테스트 케이스: [SUCCESS] 누락"]) ++
  (if test false failValidation content then [] else ["테스트 케이스: [FAIL:validation] 누락"]) ++
  (if test false frontmatterStart content then
    ["frontmatter 존재: work 파일에 frontmatter 불필요"] else [])

/-- `failures`; `none` is an error that nothing catches. -/
def failures (config : Option Config) (content : Text) : Option (List String) := do
  let sections ← (requiredSections config).mapM (missingSection content)
  return sections.flatten ++ otherFailures content

end ValidateWork

open ValidateWork

/-- The script on its argument, the content of the file and the configuration. An error that nothing
catches ends the script with 1; what it prints then is not modelled. -/
def validateWork (filePath : Option String) (config : Option Config) (content : Text) :
    ScriptExit :=
  match filePath with
  | none | some "" => ⟨1, [], ["[harness] validate-work: 파일 경로가 필요합니다."]⟩
  | some filePath =>
    let fileName := String.ofList (ValidateRequest.basename filePath.toList)
    match failures config content with
    | none => ⟨1, [], []⟩
    | some failures =>
      if failures.length > 0 then
        ⟨1, [], ("[harness] STOP: " ++ fileName ++ " 검증 실패") ::
          failures.map fun failure => "  ❌ " ++ failure⟩
      else ⟨0, ["[harness] OK: " ++ fileName ++ " 검증 통과"], []⟩

/-! ## The sections -/

namespace ValidateWork

/-- The characters that the script takes for special are those that are. -/
theorem specials_eq : ∃ cs : Text,
    specials = .seq (.set ⟨false, cs.map fun c => .range c c⟩) .empty ∧ cs.Perm syntaxCharacters :=
  ⟨".*+?^$\x7b\x7d()|[]\\".toList, by decide +kernel, by decide +kernel⟩

theorem escape_eq (label : Text) : escape label = quote label := by
  obtain ⟨cs, hspecials, hperm⟩ := specials_eq
  have hcontains (x : Char) :
      CharClass.contains ⟨false, cs.map fun c => .range c c⟩ x = decide (x ∈ syntaxCharacters) := by
    rw [contains_chars, decide_eq_decide]
    exact hperm.mem_iff
  rw [escape, hspecials]
  apply (scans_set ⟨false, cs.map fun c => .range c c⟩).seq_empty.replaceAll_eq
  · rfl
  · intro x s hx
    have hx : x ∉ syntaxCharacters := of_decide_eq_false ((hcontains x).symm.trans hx)
    simp [quote, hx]
  · intro x s hx
    have hx : x ∈ syntaxCharacters := of_decide_eq_true ((hcontains x).symm.trans hx)
    exact ⟨Nat.zero_lt_one, by simp [quote, hx]⟩

/-- The regular expression of a label looks for the label. -/
theorem hasSection_eq (content label : Text) :
    hasSection content label = some (test true (.seq .start (.literal label)) content) := by
  rw [hasSection, escape_eq, parse_start_quote]
  rfl

/-! ## What a work file must have -/

inductive Requirement where
  | heading (label : String)
  | success
  | failValidation
  | noFrontmatter

namespace Requirement

/-- The content has the label at the beginning of a line. -/
def SectionOf (content : Text) (label : Text) : Prop :=
  ∃ pre post, content = pre ++ post ∧ (∀ c ∈ pre.getLast?, isLineTerminator c = true) ∧
    label <+: post

def Met (content : Text) : Requirement → Prop
  | .heading label => SectionOf content label.toList
  | success => "[SUCCESS]".toList <:+: content
  | failValidation => "[FAIL:validation]".toList <:+: content
  | noFrontmatter => ¬ "---".toList <+: content

/-- What is said of a file that does not meet it. -/
def failure : Requirement → String
  | .heading label => "섹션 누락: " ++ label
  | success => "테스트 케이스: [SUCCESS] 누락"
  | failValidation => "테스트 케이스: [FAIL:validation] 누락"
  | noFrontmatter => "frontmatter 존재: work 파일에 frontmatter 불필요"

/-- What the script tests. -/
def tested (content : Text) : Requirement → Bool
  | .heading label => test true (.seq .start (.literal label.toList)) content
  | success => test false ValidateWork.success content
  | failValidation => test false ValidateWork.failValidation content
  | noFrontmatter => !test false frontmatterStart content

theorem tested_iff {content : Text} (r : Requirement) :
    r.tested content = true ↔ r.Met content := by
  cases r with
  | heading label =>
    refine (test_start_literal label.toList).trans ?_
    simp [Met, SectionOf]
  | success =>
    have hpattern : ValidateWork.success = .literal "[SUCCESS]".toList := by decide +kernel
    rw [tested, hpattern]
    exact test_literal _
  | failValidation =>
    have hpattern : ValidateWork.failValidation = .literal "[FAIL:validation]".toList := by
      decide +kernel
    rw [tested, hpattern]
    exact test_literal _
  | noFrontmatter =>
    have hpattern : frontmatterStart = .seq .start (.literal "---".toList) := by decide +kernel
    rw [tested, hpattern, Bool.not_eq_true', ← Bool.not_eq_true, test_start_literal, Met]
    refine not_congr ?_
    constructor
    · intro h
      obtain ⟨pre, post, rfl, hpre, hpost⟩ := h
      have hnil : pre = [] := by
        by_contra hne
        exact absurd (hpre _ (List.getLast?_eq_some_getLast hne)).1 Bool.false_ne_true
      rwa [hnil, List.nil_append]
    · intro h
      exact ⟨[], content, rfl, by simp, h⟩

instance (content : Text) (r : Requirement) : Decidable (r.Met content) :=
  decidable_of_iff _ (tested_iff r)

end Requirement

def requirements (labels : List String) : List Requirement :=
  labels.map .heading ++ [.success, .failValidation, .noFrontmatter]

/-- What is said of the requirements that the content does not meet. -/
def violated (content : Text) (rs : List Requirement) : List String :=
  (rs.filter fun r => ¬ r.Met content).map Requirement.failure

variable {content : Text} {config : Option Config} {labels : List String}

theorem violated_cons (r : Requirement) (rs : List Requirement) :
    violated content (r :: rs) =
      (if r.tested content then [] else [r.failure]) ++ violated content rs := by
  by_cases hmet : r.Met content
  · simp [violated, hmet, r.tested_iff.mpr hmet]
  · simp [violated, hmet, r.tested_iff]

theorem violated_append (rs rs' : List Requirement) :
    violated content (rs ++ rs') = violated content rs ++ violated content rs' := by
  rw [violated, List.filter_append, List.map_append]
  rfl

theorem violated_eq_nil_iff {rs : List Requirement} :
    violated content rs = [] ↔ ∀ r ∈ rs, r.Met content := by
  rw [violated, List.map_eq_nil_iff, List.filter_eq_nil_iff]
  simp

theorem otherFailures_eq (content : Text) :
    otherFailures content = violated content [.success, .failValidation, .noFrontmatter] := by
  rw [violated_cons, violated_cons, violated_cons, otherFailures]
  cases hfrontmatter : test false frontmatterStart content <;>
    simp [Requirement.tested, Requirement.failure, violated, hfrontmatter] <;> rfl

/-- The loop over labels that are texts. -/
theorem sections_eq (content : Text) (labels : List String) :
    ((labels.map Json.str).mapM (missingSection content)).map List.flatten =
      some (violated content (labels.map .heading)) := by
  induction labels with
  | nil => rfl
  | cons label labels ih =>
    obtain ⟨sections, hsections, hflatten⟩ := Option.map_eq_some_iff.mp ih
    rw [List.map_cons, List.map_cons, violated_cons, ← hflatten]
    simp [missingSection, hasSection_eq, hsections, Requirement.tested, Requirement.failure]
    rfl

theorem failures_eq (h : requiredSections config = labels.map .str) :
    failures config content = some (violated content (requirements labels)) := by
  obtain ⟨sections, hsections, hflatten⟩ := Option.map_eq_some_iff.mp (sections_eq content labels)
  simp [failures, h, hsections, hflatten, otherFailures_eq, requirements, violated_append]

theorem missingSection_eq_some {j : Json} {fs : List String}
    (h : missingSection content j = some fs) : ∃ label, j = .str label := by
  cases j with
  | str label => exact ⟨label, rfl⟩
  | null | bool | num | lone | arr | obj => cases h

/-- A label that is no text ends the script. -/
theorem failures_eq_some {fs : List String} (h : failures config content = some fs) :
    ∃ labels : List String, requiredSections config = labels.map .str := by
  obtain ⟨sections, hsections, -⟩ := Option.bind_eq_some_iff.mp h
  clear h
  generalize requiredSections config = js at hsections ⊢
  induction js generalizing sections with
  | nil => exact ⟨[], rfl⟩
  | cons j js ih =>
    simp only [List.mapM_cons, Option.bind_eq_bind, Option.bind_eq_some_iff] at hsections
    obtain ⟨_, hj, rest, hrest, -⟩ := hsections
    obtain ⟨label, rfl⟩ := missingSection_eq_some hj
    obtain ⟨labels, rfl⟩ := ih rest hrest
    exact ⟨label :: labels, rfl⟩

end ValidateWork

variable {path : String} {config : Option Config} {content : Text} {labels : List String}

theorem validateWork_of_texts (hpath : path ≠ "") (h : requiredSections config = labels.map .str) :
    validateWork (some path) config content =
      let fileName := String.ofList (ValidateRequest.basename path.toList)
      if violated content (requirements labels) = [] then
        ⟨0, ["[harness] OK: " ++ fileName ++ " 검증 통과"], []⟩
      else
        ⟨1, [], ("[harness] STOP: " ++ fileName ++ " 검증 실패") ::
          (violated content (requirements labels)).map ("  ❌ " ++ ·)⟩ := by
  unfold validateWork
  split
  · rename_i hnone
    cases hnone
  · rename_i hempty
    exact absurd (Option.some.inj hempty) hpath
  · rename_i hsome
    cases hsome
    rw [failures_eq h]
    cases violated content (requirements labels) with
    | nil => rfl
    | cons => rfl

theorem texts_of_code (h : (validateWork (some path) config content).code = 0) :
    path ≠ "" ∧ ∃ labels : List String, requiredSections config = labels.map .str := by
  unfold validateWork at h
  split at h
  · cases h
  · cases h
  · rename_i hpath hsome
    cases hsome
    refine ⟨hpath, ?_⟩
    cases hfailures : failures config content with
    | none =>
      rw [hfailures] at h
      cases h
    | some fs => exact failures_eq_some hfailures

theorem validateWork_code : (validateWork (some path) config content).code = 0 ↔
    path ≠ "" ∧ ∃ labels : List String, requiredSections config = labels.map .str ∧
      ∀ r ∈ requirements labels, r.Met content := by
  constructor
  · intro hcode
    obtain ⟨hpath, labels, hlabels⟩ := texts_of_code hcode
    refine ⟨hpath, labels, hlabels, violated_eq_nil_iff.mp ?_⟩
    by_contra hne
    rw [validateWork_of_texts hpath hlabels, if_neg hne] at hcode
    cases hcode
  · intro h
    obtain ⟨hpath, labels, hlabels, hmet⟩ := h
    rw [validateWork_of_texts hpath hlabels, if_pos (violated_eq_nil_iff.mpr hmet)]

/-- **What the validator asks of a work file**: each section of the configuration at the beginning
of a line, letter for letter whatever characters its label has, the two tags anywhere, and no
frontmatter. It accepts the files that meet all of this, and tells of every other one just what it
does not meet. -/
theorem validateWork_iff (path : String) (config : Option Config) (content : Text) :
    ((validateWork (some path) config content).code = 0 ↔ path ≠ "" ∧ ∃ labels : List String,
      requiredSections config = labels.map .str ∧ ∀ r ∈ requirements labels, r.Met content) ∧
    ∀ labels : List String, path ≠ "" → requiredSections config = labels.map .str →
      (∃ r ∈ requirements labels, ¬ r.Met content) → validateWork (some path) config content =
        ⟨1, [], ("[harness] STOP: " ++ .ofList (ValidateRequest.basename path.toList) ++
          " 검증 실패") :: (violated content (requirements labels)).map ("  ❌ " ++ ·)⟩ := by
  refine ⟨validateWork_code, ?_⟩
  intro labels hpath hlabels h
  obtain ⟨r, hr, hno⟩ := h
  exact (validateWork_of_texts hpath hlabels).trans
    (if_neg fun hnil => hno (violated_eq_nil_iff.mp hnil r hr))

/-- A label of special characters is there, and a tag is not. -/
def sampleConfig : Config where
  value := .obj [("harness_rules", .obj [("required_work_sections", .arr [.str "## 1. DTO (*)"])])]
  unicode := rfl

def sampleWork : Text := "# 회원\n## 1. DTO (*)\n- [SUCCESS] 등록\n".toList

theorem validateWork_iff_sample :
    validateWork (some "user/create-work.md") (some sampleConfig) sampleWork =
      ⟨1, [], ["[harness] STOP: create-work.md 검증 실패",
        "  ❌ 테스트 케이스: [FAIL:validation] 누락"]⟩ := by
  have hmissing : ¬ Requirement.Met sampleWork .failValidation := by decide +kernel
  obtain ⟨_, hrejected⟩ :=
    validateWork_iff "user/create-work.md" (some sampleConfig) sampleWork
  rw [hrejected ["## 1. DTO (*)"] (by decide) rfl ⟨_, by simp [requirements], hmissing⟩]
  decide +kernel

end NestHarness
