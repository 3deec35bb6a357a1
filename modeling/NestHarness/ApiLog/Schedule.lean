import Mathlib.Data.List.Chain
import NestHarness.Lib.Calendar
import NestHarness.Lib.Run

/-!
# The monthly timer

One instance of `ApiLogPartitionService` from its boot: maintenance runs, `scheduleNext` arms a
timer for the first of the next month when it has ended, and the timer starts the next run.
-/

namespace NestHarness

open Calendar

/-- The longest delay of `setTimeout`: `2 ^ 31 - 1`. -/
def timeoutMax : Int := 2147483647

/-- The delay after which Node fires a timer. -/
def setTimeout (delay : Int) : Int := if 1 ≤ delay ∧ delay ≤ timeoutMax then delay else 1

structure Timer where
  armedAt : Nat
  delay : Int
deriving DecidableEq

/-- The instant a timer fires at, or after when the event loop is late. -/
def Timer.due (m : Timer) : Int := m.armedAt + setTimeout m.delay

/-- Node waits for the delay it was given. -/
def Timer.Honoured (m : Timer) : Prop := setTimeout m.delay = m.delay

instance (m : Timer) : Decidable m.Honoured :=
  inferInstanceAs (Decidable (setTimeout m.delay = m.delay))

/-- The state of an instance. `timers` keeps every timer it has armed and `executions` the start of
every run of `runMaintenance` that a timer has started, both newest first. -/
structure ApiLogPartitionService where
  bootAt : Nat
  now : Nat
  maintaining : Bool
  destroyed : Bool
  timer : Option Timer
  timers : List Timer
  executions : List Nat
deriving DecidableEq

namespace ApiLogPartitionService

variable (z : Zone)

/-- `onModuleInit` has called `runMaintenance`. -/
def init (boot : Nat) : ApiLogPartitionService where
  bootAt := boot
  now := boot
  maintaining := true
  destroyed := false
  timer := none
  timers := []
  executions := []

def onModuleDestroy (s : ApiLogPartitionService) : ApiLogPartitionService :=
  { s with destroyed := true, timer := none }

/-- The delay `scheduleNext` computes. -/
def nextDelay (now : Nat) : Int :=
  z.newDate (z.getFullYear now) (z.getMonth now + 1) - now

def scheduleNext (s : ApiLogPartitionService) : ApiLogPartitionService :=
  if s.destroyed then s
  else
    let m : Timer := ⟨s.now, nextDelay z s.now⟩
    { s with timer := some m, timers := m :: s.timers }

/-- What happens to an instance, and the instant it happens at. -/
inductive Event where
  /-- The run of `runMaintenance` ends, with or without an error. -/
  | settle (t : Nat)
  | fire (t : Nat)
  | destroy (t : Nat)

def step (s : ApiLogPartitionService) : Event → Option ApiLogPartitionService
  | .settle t =>
    if s.maintaining ∧ s.now ≤ t then
      some (scheduleNext z { s with now := t, maintaining := false })
    else none
  | .fire t =>
    match s.timer with
    | some m =>
      if s.now ≤ t ∧ m.due ≤ t then
        some { s with
          now := t, maintaining := true, timer := none, executions := t :: s.executions }
      else none
    | none => none
  | .destroy t => if s.now ≤ t then some (onModuleDestroy { s with now := t }) else none

/-- Consecutive executions are in different months, and the first one is not before the first of
the month after the boot. -/
structure Monthly (s : ApiLogPartitionService) : Prop where
  apart : s.executions.IsChain fun later earlier : Nat => z.monthOf earlier ≠ z.monthOf later
  first : ∀ t, s.executions.getLast? = some t → z.firstOf (z.monthOf s.bootAt + 1) ≤ t

/-- A run of `runMaintenance` ends within the last `2 ^ 31 - 1` milliseconds of its month. -/
def InWindow (s : ApiLogPartitionService) : Event → Prop
  | .settle t => s.destroyed ∨ z.firstOf (z.monthOf t + 1) - t ≤ timeoutMax
  | .fire _ | .destroy _ => True

/-! ## The delay -/

theorem nextDelay_eq (now : Nat) : nextDelay z now = z.firstOf (z.monthOf now + 1) - now := by
  rw [nextDelay, z.newDate_getMonth (Int.natCast_nonneg now)]

theorem nextDelay_pos (now : Nat) : 1 ≤ nextDelay z now := by
  have h := z.lt_firstOf_succ now
  rw [nextDelay_eq]
  omega

theorem setTimeout_eq_iff {delay : Int} (h : 1 ≤ delay) :
    setTimeout delay = delay ↔ delay ≤ timeoutMax := by
  unfold setTimeout
  split
  · simp_all
  · simp only [timeoutMax] at *
    omega

theorem honoured_nextDelay_iff (now : Nat) :
    Timer.Honoured ⟨now, nextDelay z now⟩ ↔
      z.firstOf (z.monthOf now + 1) - now ≤ timeoutMax := by
  rw [Timer.Honoured, setTimeout_eq_iff (nextDelay_pos z now), nextDelay_eq]

/-! ## Runs -/

variable {z} {s s' : ApiLogPartitionService} {boot : Nat} {ls : List Event}

theorem step_cases {e : Event} (h : step z s e = some s') :
    (∃ t, e = .settle t ∧ s.now ≤ t ∧
      s' = scheduleNext z { s with now := t, maintaining := false }) ∨
    (∃ t m, e = .fire t ∧ s.timer = some m ∧ s.now ≤ t ∧ m.due ≤ t ∧
      s' = { s with now := t, maintaining := true, timer := none,
                    executions := t :: s.executions }) ∨
    (∃ t, e = .destroy t ∧ s.now ≤ t ∧ s' = onModuleDestroy { s with now := t }) := by
  cases e with
  | settle t =>
    simp only [step, Option.ite_none_right_eq_some, Option.some.injEq] at h
    exact .inl ⟨t, rfl, h.1.2, h.2.symm⟩
  | fire t =>
    simp only [step] at h
    split at h
    · next m hm =>
      simp only [Option.ite_none_right_eq_some, Option.some.injEq] at h
      exact .inr (.inl ⟨t, m, rfl, hm, h.1.1, h.1.2, h.2.symm⟩)
    · cases h
  | destroy t =>
    simp only [step, Option.ite_none_right_eq_some, Option.some.injEq] at h
    exact .inr (.inr ⟨t, rfl, h.1, h.2.symm⟩)

/-- A step arms a timer that Node honours just when it is in the window. -/
theorem step_honoured {e : Event} (h : step z s e = some s') :
    (∀ m ∈ s'.timers, m.Honoured) ↔ (∀ m ∈ s.timers, m.Honoured) ∧ InWindow z s e := by
  obtain ⟨t, rfl, _, rfl⟩ | ⟨t, m, rfl, _, _, _, rfl⟩ | ⟨t, rfl, _, rfl⟩ := step_cases h
  · simp only [scheduleNext, InWindow]
    split
    · next hd => simp [hd]
    · next hd =>
      rw [List.forall_mem_cons, honoured_nextDelay_iff, and_comm]
      simp [hd]
  · simp [InWindow]
  · simp [InWindow, onModuleDestroy]

/-- The timers of a run are all honoured just when every run of maintenance ends in the window. -/
theorem exec_honoured (h : Run.exec (step z) s ls = some s') :
    (∀ m ∈ s'.timers, m.Honoured) ↔
      (∀ m ∈ s.timers, m.Honoured) ∧ Run.Along (step z) (InWindow z) s ls := by
  induction ls generalizing s with
  | nil =>
    cases h
    simp [Run.Along]
  | cons e ls ih =>
    obtain ⟨t, ht, h⟩ := Run.exec_cons_iff.mp h
    rw [ih h, step_honoured ht, Run.Along, and_assoc]
    simp [ht]

/-- The start of the last execution, or the boot. -/
def last (s : ApiLogPartitionService) : Nat := s.executions.head?.getD s.bootAt

/-- The executions have been monthly, and the armed timer is due in a month after the last one. -/
structure Paced (z : Zone) (s : ApiLogPartitionService) : Prop where
  monthly : s.Monthly z
  le_now : s.last ≤ s.now
  timer : ∀ m, s.timer = some m → z.firstOf (z.monthOf s.last + 1) ≤ m.due

theorem paced_init (boot : Nat) : Paced z (init boot) where
  monthly := ⟨.nil, by simp [init]⟩
  le_now := Nat.le_refl _
  timer := by simp [init]

theorem Monthly.cons {t : Nat} (h : s.Monthly z) (ht : z.firstOf (z.monthOf s.last + 1) ≤ t)
    (he : s'.executions = t :: s.executions) (hb : s'.bootAt = s.bootAt) : s'.Monthly z := by
  have hlt : z.monthOf s.last < z.monthOf t := Int.add_one_le_iff.mp (z.firstOf_le_iff.mp ht)
  cases hs : s.executions with
  | nil =>
    refine ⟨by simp [he, hs], ?_⟩
    intro u hu
    simp only [he, hs, List.getLast?_singleton, Option.some.injEq] at hu
    rw [last, hs] at ht
    rwa [hb, ← hu]
  | cons e es =>
    rw [last, hs] at hlt
    constructor
    · rw [he, hs, List.isChain_cons_cons, ← hs]
      exact ⟨Int.ne_of_lt hlt, h.apart⟩
    · intro u hu
      rw [he, hs, List.getLast?_cons_cons, ← hs] at hu
      rw [hb]
      exact h.first u hu

theorem Paced.of_step {e : Event} (hp : Paced z s) (hw : InWindow z s e)
    (h : step z s e = some s') : Paced z s' := by
  obtain ⟨t, rfl, ht, rfl⟩ | ⟨t, m, rfl, hm, ht, hdue, rfl⟩ | ⟨t, rfl, ht, rfl⟩ := step_cases h
  · unfold scheduleNext
    split
    · exact ⟨⟨hp.monthly.apart, hp.monthly.first⟩, Nat.le_trans hp.le_now ht, hp.timer⟩
    · next hd =>
      refine ⟨⟨hp.monthly.apart, hp.monthly.first⟩, Nat.le_trans hp.le_now ht, ?_⟩
      rintro m ⟨⟩
      have hon := (honoured_nextDelay_iff z t).mpr (hw.resolve_left hd)
      have hdue : Timer.due ⟨t, nextDelay z t⟩ = z.firstOf (z.monthOf t + 1) := by
        rw [Timer.due, hon, nextDelay_eq]
        simp only
        omega
      have hmono := z.monthOf_mono (Int.ofNat_le.mpr (Nat.le_trans hp.le_now ht))
      rw [hdue]
      exact z.firstOf_mono (Int.add_le_add_right hmono 1)
  · exact ⟨hp.monthly.cons (Int.le_trans (hp.timer m hm) hdue) rfl rfl, Nat.le_refl _, by simp⟩
  · exact ⟨⟨hp.monthly.apart, hp.monthly.first⟩, Nat.le_trans hp.le_now ht,
      by simp [onModuleDestroy]⟩

/-- An instance honours the month of every execution, by timers that Node honours, just when each
run of maintenance after which a timer is armed ends in the last `2 ^ 31 - 1` ms of its month. -/
theorem monthly_iff (z : Zone)
    (h : Run.exec (ApiLogPartitionService.step z) (init boot) ls = some s) :
    (s.Monthly z ∧ ∀ m ∈ s.timers, m.Honoured) ↔
      Run.Along (ApiLogPartitionService.step z) (InWindow z) (init boot) ls := by
  have hon := exec_honoured h
  constructor
  · intro hs
    exact (hon.mp hs.2).2
  · intro hw
    refine ⟨?_, hon.mpr ⟨by simp [init], hw⟩⟩
    exact (Run.invariant_along Paced.of_step h hw (paced_init boot)).monthly

instance (s : ApiLogPartitionService) (e : Event) : Decidable (InWindow z s e) :=
  match e with
  | .settle t => inferInstanceAs (Decidable (s.destroyed ∨ z.firstOf (z.monthOf t + 1) - t ≤ _))
  | .fire _ | .destroy _ => isTrue trivial

/-- The start of 2026-04-15, 2026-05-01 and 2026-05-15 in UTC. -/
def midApril : Nat := 1776211200000
def firstOfMay : Nat := 1777593600000
def midMay : Nat := 1778803200000

/-- Booted in the middle of April, with a run in May that takes a fortnight. -/
def springEvents : List Event := [.settle midApril, .fire firstOfMay, .settle midMay]

theorem monthly_iff_sample :
    ∃ s, Run.exec (step utc) (init midApril) springEvents = some s ∧
      s.executions = [firstOfMay] ∧ s.timers.length = 2 ∧
      s.Monthly utc ∧ ∀ m ∈ s.timers, m.Honoured := by
  let s := (Run.exec (step utc) (init midApril) springEvents).get rfl
  have h : Run.exec (step utc) (init midApril) springEvents = some s := rfl
  refine ⟨s, h, rfl, rfl, (monthly_iff utc h).mpr ?_⟩
  decide +kernel

/-- Booted at the first of May, an instance runs its maintenance in every millisecond. -/
theorem monthly_first_of_month :
    ∃ s, Run.exec (step utc) (init firstOfMay)
        [.settle firstOfMay, .fire (firstOfMay + 1), .settle (firstOfMay + 1),
          .fire (firstOfMay + 2)] = some s ∧
      s.executions = [firstOfMay + 2, firstOfMay + 1] ∧
      ¬s.Monthly utc ∧ ¬∀ m ∈ s.timers, m.Honoured := by
  refine ⟨_, rfl, rfl, ?_, by decide +kernel⟩
  intro h
  exact List.isChain_cons_cons.mp h.apart |>.1 (by decide +kernel)

end ApiLogPartitionService

end NestHarness
