import NestHarness.Harness.RunTests
import NestHarness.Harness.ValidateWork
import NestHarness.Lib.Glob

/-!
# The hooks after a write

Three scripts are called after every write of a file, each with the path of the file. The first two
pass the file to a validator when its path is that of a request or of a work file, the third runs
the tests.
-/

namespace NestHarness.Hooks

open RunTests (Files Save runTests)
open ValidateWork (requiredSections requirements)

/-! ## The scripts -/

/-- `on-request-written.sh` and `on-work-written.sh`, which differ in the kind of the file: a path
that does not match ends the script without doing anything. -/
def onWritten (kind : String) (validate : Option String → ScriptExit) (file : Text) : ScriptExit :=
  let pattern := ".harness/output/" ++ kind ++ "/*/*-" ++ kind ++ ".md"
  if Glob.accepts (pattern.toList.splitOn '*') file then
    let result := validate (some (.ofList file))
    { result with stdout :=
        ("[harness] " ++ kind ++ " 파일 감지: " ++ .ofList file) :: result.stdout }
  else ⟨0, [], []⟩

/-- `on-request-written.sh` on the path and the content of the written file. -/
def onRequestWritten (file content : Text) : ScriptExit :=
  onWritten "request" (validateRequest · content) file

/-- `on-work-written.sh`; `config` is `harness-config.json`. -/
def onWorkWritten (file : Text) (config : Option ValidateWork.Config) (content : Text) :
    ScriptExit :=
  onWritten "work" (validateWork · config content) file

/-! ## What they look at -/

/-- The path of a file of the kind in a directory of the output. A star of the pattern may stand for
several components. -/
def IsOutput (kind : String) (file : Text) : Prop :=
  ∃ feature name : Text, file = (".harness/output/" ++ kind ++ "/").toList ++ (feature ++
    ("/".toList ++ (name ++ ("-" ++ kind ++ ".md").toList)))

variable {file content : Text} {config : Option ValidateWork.Config} {kind : String}

theorem IsOutput.suffix (h : IsOutput kind file) : ("-" ++ kind ++ ".md").toList <:+ file := by
  obtain ⟨feature, name, rfl⟩ := h
  refine ⟨(".harness/output/" ++ kind ++ "/").toList ++ (feature ++ ("/".toList ++ name)), ?_⟩
  simp only [List.append_assoc]

theorem IsOutput.ne_nil (h : IsOutput kind file) : file ≠ [] := by
  rintro rfl
  have hnil := List.suffix_nil.mp h.suffix
  simp at hnil

/-- The kinds of files that have a hook. -/
def kinds : List String := ["request", "work"]

theorem accepts_iff_isOutput (hkind : kind ∈ kinds) :
    Glob.accepts ((".harness/output/" ++ kind ++ "/*/*-" ++ kind ++ ".md").toList.splitOn '*')
      file = true ↔ IsOutput kind file := by
  have hpieces : ∀ kind ∈ kinds,
      (".harness/output/" ++ kind ++ "/*/*-" ++ kind ++ ".md").toList.splitOn '*' =
        [(".harness/output/" ++ kind ++ "/").toList, "/".toList,
          ("-" ++ kind ++ ".md").toList] := by
    decide +kernel
  rw [hpieces kind hkind, Glob.accepts_iff]
  constructor
  · intro h
    cases h with
    | star _ feature h =>
      cases h with
      | star _ name h =>
        cases h
        exact ⟨feature, name, rfl⟩
  · intro h
    obtain ⟨feature, name, rfl⟩ := h
    exact .star _ feature (.star _ name (.last _))

/-- A file has one kind. -/
theorem IsOutput.unique {kind' : String} (hkind : kind ∈ kinds) (hkind' : kind' ∈ kinds)
    (h : IsOutput kind file) (h' : IsOutput kind' file) : kind = kind' := by
  have hsuffix : ∀ kind ∈ kinds, ∀ kind' ∈ kinds,
      ("-" ++ kind ++ ".md").toList <:+ ("-" ++ kind' ++ ".md").toList → kind = kind' := by
    decide +kernel
  rcases List.suffix_or_suffix_of_suffix h.suffix h'.suffix with hle | hle
  · exact hsuffix kind hkind kind' hkind' hle
  · exact (hsuffix kind' hkind' kind hkind hle).symm

/-- The tests do not look at it. -/
theorem IsOutput.not_reacts (hkind : kind ∈ kinds) (h : IsOutput kind file) (files : Files) :
    RunTests.reacts files file = false := by
  have hlast : ∀ kind ∈ kinds, ".md".toList <:+ ("-" ++ kind ++ ".md").toList := by
    decide +kernel
  have hmd := (hlast kind hkind).trans h.suffix
  have hts : ¬ ".ts".toList <:+ file := by
    intro hts
    rcases List.suffix_or_suffix_of_suffix hmd hts with hle | hle
    · exact absurd hle (by decide)
    · exact absurd hle (by decide)
  have hspec : RunTests.isSpec file = false := by
    refine Bool.eq_false_iff.mpr ?_
    intro hspec
    exact hts ((by decide : ".ts".toList <:+ ".spec.ts".toList).trans
      (List.isSuffixOf_iff_suffix.mp hspec))
  have hsource : RunTests.isSource file = false := by
    refine Bool.eq_false_iff.mpr ?_
    intro hsource
    simp only [RunTests.isSource, Bool.and_eq_true] at hsource
    exact hts (List.isSuffixOf_iff_suffix.mp hsource.1.2)
  simp [RunTests.reacts, RunTests.isRetryImpl, hspec, hsource]

/-! ## What they say -/

theorem onWritten_of_not {validate : Option String → ScriptExit} (hkind : kind ∈ kinds)
    (h : ¬IsOutput kind file) : onWritten kind validate file = ⟨0, [], []⟩ :=
  if_neg (mt (accepts_iff_isOutput hkind).mp h)

/-- The hook ends as the validator does. -/
theorem onWritten_code {validate : Option String → ScriptExit} (hkind : kind ∈ kinds) :
    (onWritten kind validate file).code = 0 ↔
      (IsOutput kind file → (validate (some (.ofList file))).code = 0) := by
  by_cases h : IsOutput kind file
  · rw [onWritten, if_pos ((accepts_iff_isOutput hkind).mpr h)]
    simp [h]
  · rw [onWritten_of_not hkind h]
    simp [h]

theorem onRequestWritten_code : (onRequestWritten file content).code = 0 ↔
    (IsOutput "request" file → ∃ text, ValidateRequest.frontmatter content = some text ∧
      RequestSchema.Filled (ValidateRequest.parse text)) := by
  rw [onRequestWritten, onWritten_code (by decide)]
  refine forall_congr' fun h => ?_
  rw [RequestSchema.code_eq_zero_iff]
  simp [h.ne_nil]

theorem onWorkWritten_code : (onWorkWritten file config content).code = 0 ↔
    (IsOutput "work" file → ∃ labels : List String, requiredSections config = labels.map .str ∧
      ∀ r ∈ requirements labels, r.Met content) := by
  rw [onWorkWritten, onWritten_code (by decide)]
  refine forall_congr' fun h => ?_
  rw [validateWork_code]
  simp [h.ne_nil]

/-- **A write is looked at by one hook at most**, and a file of the output is let through just when
it has what its validator asks for: a request the fields of its frontmatter, a work file the
sections of the configuration and the test cases. -/
theorem write_checked (files : Files) (save : Save) (config : Option ValidateWork.Config)
    (content : Text) :
    ((onRequestWritten save.file content).code = 0 ↔ (IsOutput "request" save.file →
      ∃ text, ValidateRequest.frontmatter content = some text ∧
        RequestSchema.Filled (ValidateRequest.parse text))) ∧
    ((onWorkWritten save.file config content).code = 0 ↔ (IsOutput "work" save.file →
      ∃ labels : List String, requiredSections config = labels.map .str ∧
        ∀ r ∈ requirements labels, r.Met content)) ∧
    (onRequestWritten save.file content = ⟨0, [], []⟩ ∧ runTests files save = ⟨0, [], [], files⟩ ∨
      onWorkWritten save.file config content = ⟨0, [], []⟩ ∧
        (onRequestWritten save.file content = ⟨0, [], []⟩ ∨
          runTests files save = ⟨0, [], [], files⟩)) := by
  refine ⟨onRequestWritten_code, onWorkWritten_code, ?_⟩
  have hsilent {kind : String} (hkind : kind ∈ kinds) (h : IsOutput kind save.file) :
      runTests files save = ⟨0, [], [], files⟩ := by
    rw [runTests, h.not_reacts hkind]
    rfl
  by_cases hwork : IsOutput "work" save.file
  · refine .inl ⟨?_, hsilent (by decide) hwork⟩
    refine onWritten_of_not (by decide) ?_
    intro hrequest
    exact absurd (hrequest.unique (by decide) (by decide) hwork) (by decide)
  · refine .inr ⟨onWritten_of_not (by decide) hwork, ?_⟩
    by_cases hrequest : IsOutput "request" save.file
    · exact .inr (hsilent (by decide) hrequest)
    · exact .inl (onWritten_of_not (by decide) hrequest)

end NestHarness.Hooks
