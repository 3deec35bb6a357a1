import NestHarness.Harness.ValidateRequest

/-!
# The hook that runs the tests

`run-tests.sh` is called after every save of a file. It keeps the number of failed attempts and the
spec they are about in two files, and it is the only one that writes them.
-/

namespace NestHarness.RunTests

/-- `MAX_RETRY` -/
def maxRetry : Nat := 10

/-- `.harness/.retry-count` and `.harness/.current-spec`; `none` is no such file. -/
structure Files where
  retryCount : Option Nat
  currentSpec : Option Text
deriving DecidableEq

/-- After `rm -f` there is neither of them. -/
def Files.removed : Files := ⟨none, none⟩

/-- What `npm test` prints and ends with. -/
structure TestRun where
  exitCode : Nat
  output : String
deriving DecidableEq

/-- A save: the path that the hook reads from its input, and what the tests would end with if they
were started now. -/
structure Save where
  file : Text
  unit : TestRun
  full : TestRun

/-! ## What it prints -/

inductive Line where
  | blank
  | output (text : String)
  | stop
  | unitRunning (spec : Text) (attempt : Nat)
  | unitFailed (count : Nat)
  | remaining (attempts : Nat)
  | lastAttempt
  | unitPassed
  | fullRunning
  | fullFailed
  | fullPassed
deriving DecidableEq

def Line.text : Line → String
  | blank => ""
  | output text => text
  | stop => "[harness] STOP: 최대 재시도 횟수(" ++ toString maxRetry ++
      "회) 초과 — 사람에게 에스컬레이션이 필요합니다."
  | unitRunning spec attempt => "[harness] 단위 테스트 실행 중... " ++ String.ofList spec ++ " (시도 " ++
      toString attempt ++ "/" ++ toString maxRetry ++ ")"
  | unitFailed count =>
      "[harness] ❌ 단위 테스트 실패 (" ++ toString count ++ "/" ++ toString maxRetry ++ ")"
  | remaining attempts =>
      "[harness] 위 에러를 분석하여 코드를 수정해주세요. (남은 시도: " ++ toString attempts ++ "회)"
  | lastAttempt => "[harness] 마지막 시도입니다. 수정 후 저장하면 최종 테스트가 실행됩니다."
  | unitPassed => "[harness] ✅ 단위 테스트 통과"
  | fullRunning => "[harness] 전체 회귀 테스트 실행 중..."
  | fullFailed => "[harness] ❌ 회귀 테스트 실패 — 기존 코드에 영향이 발생했습니다. 사람에게 에스컬레이션이 필요합니다."
  | fullPassed => "[harness] ✅ 전체 회귀 테스트 통과 — 구현 완료"

/-! ## What it runs -/

inductive Command where
  | unit (spec : Text)
  | full
deriving DecidableEq

/-- The words of an unquoted variable. -/
def words (value : Text) : List Text :=
  (value.splitOnP fun c => c = ' ' || c = '\t' || c = '\n').filter (· ≠ [])

/-- `basename path suffix` -/
def basename (path suffix : Text) : Text :=
  let name := ValidateRequest.basename path
  if name = [] then ['/']
  else if suffix.isSuffixOf name && name ≠ suffix then name.take (name.length - suffix.length)
  else name

/-- A word that is neither an option of a command nor expanded to the names of files. -/
def isPlain (word : Text) : Bool :=
  word.head? ≠ some '-' && word.all fun c => c ≠ '*' && c ≠ '?' && c ≠ '['

/-- `$(basename $CURRENT_SPEC)`: a spec of no word and one of more than two are errors of
`basename`, which prints nothing then. `other` is what comes of words that are not plain. -/
def pattern (other : List Text → Text) (spec : Text) : Text :=
  if (words spec).all isPlain then
    match words spec with
    | [path] => basename path []
    | [path, suffix] => basename path suffix
    | _ => []
  else other (words spec)

/-- The arguments of `npm`. -/
def Command.args (other : List Text → Text) : Command → List Text
  | unit spec =>
    ["test".toList, "--".toList, "--testPathPatterns=".toList ++ pattern other spec]
  | full => ["test".toList]

/-! ## The hook -/

/-- What a call of the hook ends with: its exit code, what it printed, the tests it ran and what is
in the files. -/
structure Reply where
  code : Nat
  stdout : List Line
  commands : List Command
  files : Files
deriving DecidableEq

/-- `IS_SPEC` -/
def isSpec (file : Text) : Bool := ".spec.ts".toList.isSuffixOf file

/-- `^src/.+\.ts$` -/
def isSource (file : Text) : Bool :=
  "src/".toList.isPrefixOf file && ".ts".toList.isSuffixOf file && 8 ≤ file.length

/-- `IS_RETRY_IMPL` -/
def isRetryImpl (files : Files) (file : Text) : Bool :=
  isSource file && !isSpec file && files.retryCount.isSome

/-- The saves that the hook does anything about. -/
def reacts (files : Files) (file : Text) : Bool := isSpec file || isRetryImpl files file

/-- `$FILE > $SPEC_FILE`, for a spec. -/
def record (files : Files) (file : Text) : Files :=
  if isSpec file then { files with currentSpec := some file } else files

/-- `count`: no file is no failed attempt. -/
def attempts (files : Files) : Nat := files.retryCount.getD 0

/-- `CURRENT_SPEC`: `cat` prints nothing when there is no file. -/
def currentSpec (files : Files) : Text := files.currentSpec.getD []

/-- The line that says what the next save may still do. -/
def announcement (count : Nat) : Line :=
  if count < maxRetry then .remaining (maxRetry - count) else .lastAttempt

/-- From the unit tests on. -/
def runUnit (files : Files) (save : Save) : Reply :=
  let count := attempts files
  let spec := currentSpec files
  let running := Line.unitRunning spec (count + 1)
  if save.unit.exitCode ≠ 0 then
    { code := 1
      stdout := [running, .unitFailed (count + 1), .blank, .output save.unit.output, .blank,
        announcement (count + 1)]
      commands := [.unit spec]
      files := { files with retryCount := some (count + 1) } }
  else if save.full.exitCode ≠ 0 then
    { code := 1
      stdout := [running, .unitPassed, .fullRunning, .fullFailed, .blank, .output save.full.output]
      commands := [.unit spec, .full]
      files := .removed }
  else
    { code := 0
      stdout := [running, .unitPassed, .fullRunning, .fullPassed]
      commands := [.unit spec, .full]
      files := .removed }

/-- The hook, on the files as the save finds them. -/
def runTests (files : Files) (save : Save) : Reply :=
  if !reacts files save.file then ⟨0, [], [], files⟩
  else
    let files := record files save.file
    if attempts files ≥ maxRetry then ⟨1, [.stop], [], .removed⟩
    else runUnit files save

end NestHarness.RunTests
