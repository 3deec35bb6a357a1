import Mathlib.Data.List.DropRight
import NestHarness.Harness.RunTests
import NestHarness.Lib.Run

/-!
# The budget of a spec

The hook announces after a failed attempt how many more there are and gives up when they are used
up. The counter belongs to no spec, and the call that finds it full runs no test.
-/

namespace NestHarness.RunTests

/-- A call of the hook: the files that it finds and the save. -/
structure Call where
  files : Files
  save : Save

/-- The runs of the unit tests that a line promises. -/
def Line.promised : Line → Option Nat
  | remaining attempts => some attempts
  | lastAttempt => some 1
  | _ => none

namespace Call

variable (c : Call)

def reply : Reply := runTests c.files c.save

/-- The spec that the call is about. -/
def spec : Text := currentSpec (record c.files c.save.file)

def stops : Bool := .stop ∈ c.reply.stdout

/-- It runs the unit tests of `spec`. -/
def runs (spec : Text) : Bool := .unit spec ∈ c.reply.commands

/-- It runs them and they fail. -/
def fails (spec : Text) : Bool := c.runs spec && c.save.unit.exitCode ≠ 0

/-- The runs that the call promises for the spec it is about. -/
def promises : Option Nat := c.reply.stdout.findSome? Line.promised

/-- It leaves neither of the files. -/
def resets : Bool := c.reply.files = .removed

/-- It runs tests at all. -/
def attempted : Bool := c.reply.commands ≠ []

end Call

/-- The calls of a run of saves. -/
def calls : Files → List Save → List Call
  | _, [] => []
  | files, save :: saves => ⟨files, save⟩ :: calls (runTests files save).files saves

/-- The calls since the last one that has removed the files. -/
def sinceReset (past : List Call) : List Call := past.rtakeWhile fun c => !c.resets

/-- The escalation for a spec comes after `maxRetry` failed runs of it since the files were last
removed. When a call promises runs of a spec, the files are not removed after it and all runs of
the spec fail, there are as many of them as promised when the escalation for the spec comes. -/
structure Budgeted (cs : List Call) : Prop where
  earned : ∀ before c, before ++ [c] <+: cs → c.stops →
    maxRetry ≤ (sinceReset before).countP (·.fails c.spec)
  kept : ∀ before a between c n, before ++ a :: between ++ [c] <+: cs → a.promises = some n →
    c.stops → c.spec = a.spec →
    (∀ b ∈ between, b.resets = false ∧ (b.runs a.spec → b.fails a.spec)) →
      between.countP (·.runs a.spec) = n

/-- The counter is below its bound whenever the hook does anything. -/
def Below (files : Files) (save : Save) : Prop :=
  reacts files save.file = true → attempts files < maxRetry

def step (files : Files) (save : Save) : Option Files := some (runTests files save).files

/-! ## One call -/

@[simp] theorem attempts_record (files : Files) (file : Text) :
    attempts (record files file) = attempts files := by
  unfold record
  split <;> rfl

@[simp] theorem promised_announcement (count : Nat) :
    (announcement count).promised = some (max 1 (maxRetry - count)) := by
  unfold announcement
  split <;> simp only [Line.promised, Option.some.injEq] <;> omega

theorem announcement_ne_stop (count : Nat) : announcement count ≠ .stop := by
  unfold announcement
  split <;> exact Line.noConfusion

theorem stop_notMem_runUnit (files : Files) (save : Save) :
    .stop ∉ (runUnit files save).stdout := by
  unfold runUnit
  split
  · simp [(announcement_ne_stop _).symm]
  · split <;> simp

theorem unit_mem_runUnit {files : Files} {save : Save} {spec : Text} :
    .unit spec ∈ (runUnit files save).commands ↔ currentSpec files = spec := by
  unfold runUnit
  split
  · simp [eq_comm]
  · split <;> simp [eq_comm]

theorem runUnit_of_failed (files : Files) {save : Save} (h : save.unit.exitCode ≠ 0) :
    runUnit files save =
      { code := 1
        stdout := [.unitRunning (currentSpec files) (attempts files + 1),
          .unitFailed (attempts files + 1), .blank, .output save.unit.output, .blank,
          announcement (attempts files + 1)]
        commands := [.unit (currentSpec files)]
        files := { files with retryCount := some (attempts files + 1) } } := by
  simp only [runUnit, h, ne_eq, not_false_eq_true, ↓reduceIte]

theorem runUnit_files_of_passed (files : Files) {save : Save} (h : save.unit.exitCode = 0) :
    (runUnit files save).files = .removed := by
  simp only [runUnit, h, ne_eq, not_true_eq_false, ↓reduceIte]
  split <;> rfl

namespace Call

variable {c : Call}

/-- All that a call can do. -/
theorem reply_cases (c : Call) :
    c.reply = ⟨0, [], [], c.files⟩ ∧ reacts c.files c.save.file = false ∨
    c.reply = ⟨1, [.stop], [], .removed⟩ ∧ reacts c.files c.save.file = true ∧
      maxRetry ≤ attempts c.files ∨
    c.reply = runUnit (record c.files c.save.file) c.save ∧ reacts c.files c.save.file = true ∧
      attempts c.files < maxRetry := by
  unfold reply runTests
  cases hreacts : reacts c.files c.save.file with
  | false => exact .inl ⟨rfl, rfl⟩
  | true =>
    simp only [Bool.not_true, Bool.false_eq_true, ↓reduceIte, attempts_record, ge_iff_le]
    by_cases hcount : maxRetry ≤ attempts c.files
    · simp [hcount]
    · simp [hcount, Nat.lt_of_not_le hcount]

theorem stops_iff :
    c.stops = true ↔ reacts c.files c.save.file = true ∧ maxRetry ≤ attempts c.files := by
  unfold stops
  obtain ⟨h, hreacts⟩ | ⟨h, hreacts, hcount⟩ | ⟨h, hreacts, hcount⟩ := c.reply_cases
  · simp [h, hreacts]
  · simp [h, hreacts, hcount]
  · simp [h, hcount, stop_notMem_runUnit]

theorem stops_iff_not_below : c.stops = true ↔ ¬ Below c.files c.save := by
  rw [stops_iff, Below, Classical.not_imp, Nat.not_lt]

theorem attempted_iff :
    c.attempted = true ↔ reacts c.files c.save.file = true ∧ attempts c.files < maxRetry := by
  unfold attempted
  obtain ⟨h, hreacts⟩ | ⟨h, hreacts, hcount⟩ | ⟨h, hreacts, hcount⟩ := c.reply_cases
  · simp [h, hreacts]
  · simp [h, hcount]
  · have hunit : .unit c.spec ∈ (runUnit (record c.files c.save.file) c.save).commands :=
      unit_mem_runUnit.mpr rfl
    simp [h, hreacts, hcount, List.ne_nil_of_mem hunit]

theorem reply_of_attempted (h : c.attempted = true) :
    c.reply = runUnit (record c.files c.save.file) c.save := by
  obtain ⟨hreacts, hcount⟩ := attempted_iff.mp h
  obtain ⟨_, hreacts'⟩ | ⟨_, _, hcount'⟩ | ⟨h, _⟩ := c.reply_cases
  · cases hreacts.symm.trans hreacts'
  · exact absurd hcount (Nat.not_lt.mpr hcount')
  · exact h

theorem runs_iff {spec : Text} : c.runs spec = true ↔ c.attempted = true ∧ c.spec = spec := by
  constructor
  · unfold runs
    obtain ⟨h, _⟩ | ⟨h, _⟩ | ⟨h, hreacts, hcount⟩ := c.reply_cases
    · simp [h]
    · simp [h]
    · intro hmem
      rw [h, decide_eq_true_iff, unit_mem_runUnit] at hmem
      exact ⟨attempted_iff.mpr ⟨hreacts, hcount⟩, hmem⟩
  · rintro ⟨h, hspec⟩
    rw [runs, reply_of_attempted h, decide_eq_true_iff, unit_mem_runUnit]
    exact hspec

theorem fails_iff {spec : Text} :
    c.fails spec = true ↔ c.runs spec = true ∧ c.save.unit.exitCode ≠ 0 := by
  simp [fails]

theorem attempted_of_fails {spec : Text} (h : c.fails spec = true) : c.attempted = true :=
  (runs_iff.mp (fails_iff.mp h).1).1

theorem spec_of_fails {spec : Text} (h : c.fails spec = true) : c.spec = spec :=
  (runs_iff.mp (fails_iff.mp h).1).2

/-- Only a run that passes removes the files. -/
theorem fails_of_runs {spec : Text} (h : c.runs spec = true) (hreset : c.resets = false) :
    c.fails spec = true := by
  refine fails_iff.mpr ⟨h, fun hpass => ?_⟩
  rw [resets, reply_of_attempted (runs_iff.mp h).1, runUnit_files_of_passed _ hpass] at hreset
  cases hreset

theorem files_of_fails {spec : Text} (h : c.fails spec = true) :
    c.reply.files = { record c.files c.save.file with
      retryCount := some (attempts c.files + 1) } := by
  have hfail := (fails_iff.mp h).2
  rw [reply_of_attempted (attempted_of_fails h), runUnit_of_failed _ hfail, attempts_record]

/-- A failed run promises what is left, and one more run when nothing is. -/
theorem promises_of_fails {spec : Text} (h : c.fails spec = true) :
    c.promises = some (max 1 (maxRetry - (attempts c.files + 1))) := by
  have hfail := (fails_iff.mp h).2
  rw [promises, reply_of_attempted (attempted_of_fails h), runUnit_of_failed _ hfail,
    attempts_record]
  simp only [List.findSome?, promised_announcement]
  rfl

end Call

/-! ## Runs -/

theorem stops_eq_false_iff_along {files : Files} {saves : List Save} :
    (∀ c ∈ calls files saves, c.stops = false) ↔ Run.Along step Below files saves := by
  induction saves generalizing files with
  | nil => simp [calls, Run.Along]
  | cons save saves ih =>
    have hc : (⟨files, save⟩ : Call).stops = false ↔ Below files save := by
      rw [← Bool.not_eq_true, Call.stops_iff_not_below, Classical.not_not]
    simp only [calls, List.forall_mem_cons, hc, ih, Run.Along, step, Option.some.injEq,
      forall_eq']

/-- What a call leaves is what the next one finds. -/
theorem files_of_calls {files : Files} {saves : List Save} (before : List Call) {after : List Call}
    {c : Call} (h : calls files saves = before ++ c :: after) :
    c.files = (before.getLast?.map fun b => b.reply.files).getD files := by
  induction before generalizing files saves with
  | nil =>
    cases saves with
    | nil => cases h
    | cons save saves =>
      cases (List.cons.inj h).1
      rfl
  | cons b before ih =>
    cases saves with
    | nil => cases h
    | cons save saves =>
      obtain ⟨rfl, htail⟩ := List.cons.inj h
      rw [ih htail, List.getLast?_cons]
      cases before.getLast? <;> rfl

@[simp] theorem sinceReset_nil : sinceReset [] = [] := List.rtakeWhile_nil _

theorem sinceReset_concat (past : List Call) (b : Call) :
    sinceReset (past ++ [b]) = if b.resets then [] else sinceReset past ++ [b] := by
  unfold sinceReset
  rw [List.rtakeWhile_concat]
  cases b.resets <;> rfl

theorem resets_of_mem_sinceReset {past : List Call} {c : Call} (h : c ∈ sinceReset past) :
    c.resets = false := by
  simpa using List.mem_rtakeWhile_imp h

theorem Call.attempts_reply (b : Call) :
    attempts b.reply.files =
      if b.resets then 0 else attempts b.files + [b].countP (·.attempted) := by
  cases hreset : b.resets with
  | true =>
    rw [if_pos rfl, of_decide_eq_true hreset]
    rfl
  | false =>
    rw [if_neg Bool.false_ne_true, List.countP_singleton]
    cases hattempted : b.attempted with
    | true =>
      have hruns : b.runs b.spec = true := Call.runs_iff.mpr ⟨hattempted, rfl⟩
      rw [Call.files_of_fails (Call.fails_of_runs hruns hreset)]
      rfl
    | false =>
      obtain ⟨h, _⟩ | ⟨h, _⟩ | ⟨_, hrun⟩ := b.reply_cases
      · rw [h]
        rfl
      · rw [Call.resets, h] at hreset
        cases hreset
      · cases hattempted.symm.trans (Call.attempted_iff.mpr hrun)

/-- The counter counts the failed runs of all specs together, and stops at its bound. -/
theorem attempts_eq {saves : List Save} {before : List Call} {c : Call}
    (h : before ++ [c] <+: calls .removed saves) :
    attempts c.files = (sinceReset before).countP (·.attempted) ∧
      attempts c.files ≤ maxRetry := by
  induction before using List.reverseRecOn generalizing c with
  | nil =>
    obtain ⟨after, hafter⟩ := h
    rw [files_of_calls [] hafter.symm]
    exact ⟨rfl, Nat.zero_le _⟩
  | append_singleton before b ih =>
    obtain ⟨after, hafter⟩ := h
    have hfiles : c.files = b.reply.files := by
      rw [files_of_calls (before ++ [b]) (by simpa using hafter.symm)]
      simp
    obtain ⟨hcount, hle⟩ := ih ⟨c :: after, by simpa using hafter⟩
    rw [hfiles, b.attempts_reply, sinceReset_concat]
    cases b.resets with
    | true => exact ⟨rfl, Nat.zero_le _⟩
    | false =>
      simp only [Bool.false_eq_true, ↓reduceIte, List.countP_append, hcount, true_and]
      rw [List.countP_singleton, ← hcount]
      split
      · rename_i hattempted
        exact (Call.attempted_iff.mp hattempted).2
      · exact hle

/-- The escalation comes after `maxRetry` failed runs, of whatever specs. -/
theorem attempted_of_stops {saves : List Save} {before : List Call} {c : Call}
    (h : before ++ [c] <+: calls .removed saves) (hstop : c.stops = true) :
    (sinceReset before).countP (·.attempted) = maxRetry := by
  obtain ⟨hcount, hle⟩ := attempts_eq h
  rw [← hcount]
  exact Nat.le_antisymm hle (Call.stops_iff.mp hstop).2

theorem countP_eq_iff {p q : Call → Bool} {cs : List Call}
    (h : ∀ c ∈ cs, p c = true → q c = true) :
    cs.countP p = cs.countP q ↔ ∀ c ∈ cs, q c = true → p c = true := by
  induction cs with
  | nil => simp
  | cons c cs ih =>
    obtain ⟨hc, hcs⟩ := List.forall_mem_cons.mp h
    have hle : cs.countP p ≤ cs.countP q := List.countP_mono_left hcs
    rw [List.forall_mem_cons, ← ih hcs]
    cases hp : p c with
    | true => simp [hp, hc hp]
    | false =>
      cases hq : q c with
      | true =>
        have hne : cs.countP p ≠ cs.countP q + 1 := by omega
        simp [hp, hq, hne]
      | false => simp [hp, hq]

/-- The escalation is earned when no other spec has failed since the files were removed. -/
theorem earned_iff {saves : List Save} {before : List Call} {c : Call}
    (h : before ++ [c] <+: calls .removed saves) (hstop : c.stops = true) :
    maxRetry ≤ (sinceReset before).countP (·.fails c.spec) ↔
      ∀ b ∈ sinceReset before, b.attempted = true → b.spec = c.spec := by
  have hattempted : ∀ b ∈ sinceReset before, b.fails c.spec = true → b.attempted = true :=
    fun b _ hfails => Call.attempted_of_fails hfails
  have hle : (sinceReset before).countP (·.fails c.spec) ≤
      (sinceReset before).countP (·.attempted) := List.countP_mono_left hattempted
  rw [← attempted_of_stops h hstop, hle.ge_iff_eq, countP_eq_iff hattempted]
  refine forall₂_congr fun b hb => ⟨fun hfails hrun => ?_, fun hspec hrun => ?_⟩
  · exact Call.spec_of_fails (hfails hrun)
  · exact Call.fails_of_runs (Call.runs_iff.mpr ⟨hrun, hspec hrun⟩) (resets_of_mem_sinceReset hb)

theorem sinceReset_append {before between : List Call} (h : ∀ b ∈ between, b.resets = false) :
    sinceReset (before ++ between) = sinceReset before ++ between := by
  induction between using List.reverseRecOn with
  | nil => simp
  | append_singleton between b ih =>
    have hb : b.resets = false := h b (by simp)
    have hbetween : ∀ b ∈ between, b.resets = false := fun b hb => h b (by simp [hb])
    rw [← List.append_assoc, sinceReset_concat, hb, ih hbetween]
    simp

/-- A promise made before the last attempt is kept when all the runs up to the escalation are of the
spec that it was made for; the one made after the last attempt never is. -/
theorem kept_iff {saves : List Save} {before between : List Call} {a c : Call} {n : Nat}
    (h : before ++ a :: between ++ [c] <+: calls .removed saves) (ha : a.fails a.spec = true)
    (hpromise : a.promises = some n) (hstop : c.stops = true)
    (hreset : ∀ b ∈ a :: between, b.resets = false) :
    between.countP (·.runs a.spec) = n ↔ attempts a.files + 1 < maxRetry ∧
      ∀ b ∈ between, b.attempted = true → b.spec = a.spec := by
  have hprefix : before ++ [a] <+: calls .removed saves := by
    refine List.IsPrefix.trans ⟨between ++ [c], ?_⟩ h
    simp
  have hcount := attempted_of_stops h hstop
  have hattempted : a.attempted = true := Call.attempted_of_fails ha
  rw [sinceReset_append hreset, List.countP_append, ← (attempts_eq hprefix).1, List.countP_cons,
    if_pos hattempted] at hcount
  have hlt := (Call.attempted_iff.mp hattempted).2
  have hruns : ∀ b ∈ between, b.runs a.spec = true → b.attempted = true :=
    fun b _ hb => (Call.runs_iff.mp hb).1
  have hle : between.countP (·.runs a.spec) ≤ between.countP (·.attempted) :=
    List.countP_mono_left hruns
  cases (Call.promises_of_fails ha).symm.trans hpromise
  have hall : (∀ b ∈ between, b.attempted = true → b.spec = a.spec) ↔
      between.countP (·.runs a.spec) = between.countP (·.attempted) := by
    rw [countP_eq_iff hruns]
    refine forall₂_congr fun b _ => ⟨fun hspec hb => ?_, fun hb hrun => ?_⟩
    · exact Call.runs_iff.mpr ⟨hb, hspec hb⟩
    · exact (Call.runs_iff.mp (hb hrun)).2
  rw [hall]
  omega

/-- The last of the calls that meet a condition. -/
theorem exists_last {p : Call → Bool} {cs : List Call} (h : ∃ c ∈ cs, p c = true) :
    ∃ before c after, cs = before ++ c :: after ∧ p c = true ∧ ∀ b ∈ after, p b = false := by
  induction cs with
  | nil => simp at h
  | cons c cs ih =>
    by_cases hcs : ∃ b ∈ cs, p b = true
    · obtain ⟨before, b, after, rfl, hb, hafter⟩ := ih hcs
      exact ⟨c :: before, b, after, rfl, hb, hafter⟩
    · refine ⟨[], c, cs, rfl, ?_, fun b hb => ?_⟩
      · obtain ⟨b, hb, hp⟩ := h
        obtain rfl | hb := List.mem_cons.mp hb
        · exact hp
        · exact absurd ⟨b, hb, hp⟩ hcs
      · exact Bool.eq_false_iff.mpr fun hp => hcs ⟨b, hb, hp⟩

/-- The last failed run of a spec has promised one more run, which the escalation does not wait
for. -/
theorem Budgeted.stops_eq_false {cs : List Call} (h : Budgeted cs) (before : List Call) {c : Call}
    (hcs : before ++ [c] <+: cs) : c.stops = false := by
  by_contra hstop
  rw [Bool.not_eq_false] at hstop
  have hearned : ∃ a ∈ sinceReset before, a.fails c.spec = true :=
    List.one_le_countP_iff.mp (Nat.le_trans (by decide) (h.earned before c hcs hstop))
  obtain ⟨epoch, a, between, hepoch, ha, hbetween⟩ := exists_last hearned
  obtain ⟨older, hbefore⟩ : sinceReset before <:+ before := List.rtakeWhile_suffix _ _
  obtain rfl : before = (older ++ epoch) ++ a :: between := by
    rw [← hbefore, hepoch, List.append_assoc]
  have hspec : a.spec = c.spec := Call.spec_of_fails ha
  have hmem : ∀ b ∈ between, b.resets = false := fun b hb =>
    resets_of_mem_sinceReset (hepoch ▸ List.mem_append_right _ (List.mem_cons_of_mem _ hb))
  have hnone : ∀ b ∈ between, b.runs a.spec = false := by
    intro b hb
    rw [hspec]
    refine Bool.eq_false_iff.mpr fun hruns => ?_
    cases (hbetween b hb).symm.trans (Call.fails_of_runs hruns (hmem b hb))
  have hkept := h.kept (older ++ epoch) a between c _ hcs (Call.promises_of_fails ha) hstop
    hspec.symm fun b hb => ⟨hmem b hb, fun hruns => by cases (hnone b hb).symm.trans hruns⟩
  have hzero : between.countP (·.runs a.spec) = 0 :=
    List.countP_eq_zero.mpr fun b hb => by simp [hnone b hb]
  omega

/-- The hook keeps to the budget just in the runs in which it never gives up. -/
theorem budgeted_iff (saves : List Save) :
    Budgeted (calls .removed saves) ↔ Run.Along step Below .removed saves := by
  rw [← stops_eq_false_iff_along]
  constructor
  · intro h c hc
    obtain ⟨before, after, hcs⟩ := List.append_of_mem hc
    refine h.stops_eq_false before ⟨after, ?_⟩
    rw [hcs, List.append_assoc, List.singleton_append]
  · intro h
    have hlast : ∀ before {c}, before ++ [c] <+: calls .removed saves → c.stops = false :=
      fun before c hcs => h _ (hcs.subset (List.mem_append_right _ (List.mem_singleton_self _)))
    constructor
    · intro before c hcs hstop
      cases (hlast before hcs).symm.trans hstop
    · intro before a between c n hcs _ hstop
      cases (hlast (before ++ a :: between) hcs).symm.trans hstop

/-- A save of a spec whose unit tests fail. -/
def failing (spec : Text) : Save := ⟨spec, ⟨1, "Tests: 1 failed"⟩, ⟨0, ""⟩⟩

/-- The tenth failed run promises a last one, and the eleventh save gets none. -/
theorem not_budgeted_eleven :
    ¬ Budgeted (calls .removed (List.replicate 11 (failing "test/user.spec.ts".toList))) := by
  intro h
  let file := "test/user.spec.ts".toList
  have hkept := h.kept (calls .removed (List.replicate 9 (failing file)))
    ⟨⟨some 9, some file⟩, failing file⟩ [] ⟨⟨some 10, some file⟩, failing file⟩ 1
    ⟨[], by rfl⟩ (by rfl) (by rfl) (by rfl) (by simp)
  cases hkept

end NestHarness.RunTests
