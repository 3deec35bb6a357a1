import Mathlib.Logic.Function.Basic
import NestHarness.ApiLog.Maintenance
import NestHarness.Lib.Run

/-!
# The advisory lock of the maintenance

Instances of the service run `runMaintenance` against one MySQL server, each through a pool of
sessions. The server keeps the owner of `API_LOG_PARTITION_LOCK` by session.
-/

namespace NestHarness

open Calendar Maintenance

/-- A session of an instance's pool. -/
structure PoolSession where
  pool : Nat
  slot : Nat
deriving DecidableEq

/-- The owner of a lock, and how often it has got it. -/
structure HeldLock where
  owner : PoolSession
  depth : Nat
deriving DecidableEq

/-- How a statement ends: with the rows it selects, or with an error. -/
inductive QueryOutcome where
  | ok (rows : List String)
  | error (e : QueryError)

def QueryOutcome.isOk : QueryOutcome → Bool
  | .ok _ => true
  | .error _ => false

/-- The lock after a statement of a session, and the answer to it. -/
def HeldLock.serve (lock : Option HeldLock) (me : PoolSession) :
    (sql : Sql) → QueryOutcome → Option HeldLock × Except QueryError sql.Rows
  | _, .error e => (lock, .error e)
  | .getLock, .ok _ =>
    match lock with
    | none => (some ⟨me, 1⟩, .ok (some 1))
    | some h =>
      if h.owner = me then (some ⟨me, h.depth + 1⟩, .ok (some 1)) else (lock, .ok (some 0))
  | .releaseLock, .ok _ =>
    match lock with
    | none => (none, .ok ())
    | some h =>
      if h.owner = me then (if h.depth ≤ 1 then none else some ⟨me, h.depth - 1⟩, .ok ())
      else (lock, .ok ())
  | .partitionNames _, .ok rows => (lock, .ok rows)
  | .partitionByRange _ _, .ok _ | .reorganizePmax _ _, .ok _ | .dropPartition _ _, .ok _ =>
    (lock, .ok ())

/-- The lock, and what is left of the last run of `runMaintenance` of every instance. -/
structure Cluster where
  lock : Option HeldLock
  runs : Nat → Maintenance Unit

namespace Cluster

/-- What happens next: an instance starts a run or performs the next operation of its run, or one
of its sessions ends. -/
inductive Event where
  | start (i : Nat)
  | now (i : Nat) (t : Int)
  | query (i slot : Nat) (outcome : QueryOutcome)
  | disconnect (i slot : Nat)

variable (z : Zone) (tableName : String)

def init : Cluster where
  lock := none
  runs _ := .ret ()

def step (s : Cluster) : Event → Option Cluster
  | .start i =>
    if (s.runs i).Halted then
      some { s with runs := Function.update s.runs i (runMaintenance z tableName) }
    else none
  | .now i t =>
    match s.runs i with
    | .call .now k => some { s with runs := Function.update s.runs i (k t) }
    | _ => none
  | .query i slot outcome =>
    match s.runs i with
    | .call (.query sql) k =>
      if slot < API_LOG_POOL_SIZE then
        let (lock, answer) := HeldLock.serve s.lock ⟨i, slot⟩ sql outcome
        some { lock, runs := Function.update s.runs i (k answer) }
      else none
    | _ => none
  | .disconnect i slot =>
    some { s with lock := s.lock.filter fun h => h.owner ≠ ⟨i, slot⟩ }

/-- A session of the instance's pool owns the lock. -/
def Owns (s : Cluster) (i : Nat) : Prop := ∃ h, s.lock = some h ∧ h.owner.pool = i

/-- No instance owns the lock after its run, and the next run without another one gets it. -/
structure GivenBack (s : Cluster) : Prop where
  settled : ∀ i, (s.runs i).Halted → ¬s.Owns i
  next : (∀ i, (s.runs i).Halted) → ∀ i slot rows, slot < API_LOG_POOL_SIZE →
    ∃ t, Run.exec (step z tableName) s [.start i, .query i slot (.ok rows)] = some t ∧
      t.lock = some ⟨⟨i, slot⟩, 1⟩

/-- The next operation of a run is its `RELEASE_LOCK`. -/
def atRelease : Maintenance Unit → Bool
  | .call (.query .releaseLock) _ => true
  | _ => false

/-- A `RELEASE_LOCK` of an instance that owns the lock succeeds and is run by the owner. -/
def ReleasedByOwner (s : Cluster) : Event → Prop
  | .query i slot outcome =>
    atRelease (s.runs i) → ∀ h ∈ s.lock, h.owner.pool = i → h.owner.slot = slot ∧ outcome.isOk
  | .start _ | .now _ _ | .disconnect _ _ => True

instance (s : Cluster) (e : Event) : Decidable (ReleasedByOwner s e) :=
  match e with
  | .query i slot outcome =>
    inferInstanceAs (Decidable (atRelease (s.runs i) → ∀ h ∈ s.lock, h.owner.pool = i →
      h.owner.slot = slot ∧ outcome.isOk))
  | .start _ | .now _ _ | .disconnect _ _ => isTrue trivial

end Cluster

/-! ## The statements of a run -/

/-- An operation that does not touch the lock. -/
def LockFree : maintenance.Op → Prop
  | .query .getLock | .query .releaseLock => False
  | .now | .query (.partitionNames _) | .query (.partitionByRange _ _)
  | .query (.reorganizePmax _ _) | .query (.dropPartition _ _) => True

/-- The `RELEASE_LOCK` statement. -/
def Releases (o : maintenance.Op) : Prop := o = .query .releaseLock

namespace Maintenance

variable (z : Zone) (tableName : String)

theorem lockFree_now : now.Only LockFree := ⟨trivial, fun _ => trivial⟩

theorem lockFree_query (sql : Sql) (h : LockFree (.query sql)) : (query sql).Only LockFree :=
  ⟨h, fun r => by cases r <;> trivial⟩

theorem lockFree_tryCatch {p : Maintenance Unit} {f : QueryError → Maintenance Unit}
    (hp : p.Only LockFree) (hf : ∀ e, (f e).Only LockFree) : (tryCatch p f).Only LockFree := by
  refine Prog.Only.bind hp.attempt ?_
  rintro (e | a)
  · exact hf e
  · trivial

theorem lockFree_getExistingPartitions : (getExistingPartitions tableName).Only LockFree :=
  (lockFree_query (.partitionNames tableName) trivial).bind fun _ => trivial

theorem lockFree_initialPartitioning : (initialPartitioning z tableName).Only LockFree :=
  lockFree_now.bind fun _ => lockFree_query _ trivial

theorem lockFree_ensureFuturePartitions (existing : List String) :
    (ensureFuturePartitions z tableName existing).Only LockFree := by
  refine lockFree_now.bind ?_
  intro now
  dsimp only
  split
  · trivial
  · refine lockFree_tryCatch (lockFree_query _ trivial) ?_
    intro e
    split <;> trivial

theorem lockFree_dropExpiredPartitions : (dropExpiredPartitions z tableName).Only LockFree := by
  refine lockFree_now.bind ?_
  intro now
  refine (lockFree_getExistingPartitions tableName).bind ?_
  intro existing
  dsimp only
  split
  · trivial
  · exact lockFree_tryCatch (lockFree_query _ trivial) fun _ => trivial

theorem lockFree_maintain : (maintain z tableName).Only LockFree := by
  refine (lockFree_getExistingPartitions tableName).bind ?_
  intro existing
  dsimp only
  split
  · exact (lockFree_initialPartitioning z tableName).bind fun _ =>
      lockFree_dropExpiredPartitions z tableName
  · exact (lockFree_ensureFuturePartitions z tableName existing).bind fun _ =>
      lockFree_dropExpiredPartitions z tableName

theorem closes_releaseLock : releaseLock.Closes LockFree Releases :=
  .inr ⟨rfl, fun r => by cases r <;> trivial⟩

/-- Under the lock, a run releases it with its last statement. -/
theorem closes_maintain :
    ((maintain z tableName).andFinally releaseLock).Closes LockFree Releases :=
  (lockFree_maintain z tableName).andFinally closes_releaseLock

/-- A run goes on under the lock only when it has got it. -/
theorem runMaintenance_eq : ∃ k : Except QueryError (Option Nat) → Maintenance Unit,
    runMaintenance z tableName = .call (.query .getLock) k ∧
      k (.ok (some 1)) = (maintain z tableName).andFinally releaseLock ∧
      k (.ok (some 0)) = .ret () ∧ ∀ e, k (.error e) = .raise e :=
  ⟨_, rfl, rfl, rfl, fun _ => rfl⟩

end Maintenance

/-! ## The lock over a run -/

namespace HeldLock

variable {lock : Option HeldLock} {me : PoolSession} {sql : Sql} {outcome : QueryOutcome}

theorem serve_lockFree (h : LockFree (.query sql)) : (serve lock me sql outcome).1 = lock := by
  cases sql with
  | getLock | releaseLock => exact h.elim
  | partitionNames | partitionByRange | reorganizePmax | dropPartition =>
    cases outcome <;> rfl

/-- Only the session of a statement can become the owner. -/
theorem serve_owner {h : HeldLock} (hh : (serve lock me sql outcome).1 = some h) :
    h.owner = me ∨ lock = some h := by
  by_cases hf : LockFree (.query sql)
  · rw [serve_lockFree hf] at hh
    exact .inr hh
  · cases outcome with
    | error e => exact .inr hh
    | ok rows =>
      cases sql with
      | getLock =>
        cases lock with
        | none =>
          cases hh
          exact .inl rfl
        | some held =>
          simp only [serve] at hh
          split at hh
          · cases hh
            exact .inl rfl
          · exact .inr hh
      | releaseLock =>
        cases lock with
        | none => cases hh
        | some held =>
          simp only [serve] at hh
          split at hh
          · next hown =>
            split at hh
            · cases hh
            · cases hh
              exact .inl rfl
          · exact .inr hh
      | partitionNames | partitionByRange | reorganizePmax | dropPartition =>
        exact (hf trivial).elim

/-- `GET_LOCK` of a session that does not own the lock. -/
theorem serve_getLock (h : ∀ held, lock = some held → held.owner ≠ me) :
    lock = none ∧ serve lock me .getLock outcome = (some ⟨me, 1⟩, .ok (some 1)) ∨
      serve lock me .getLock outcome = (lock, .ok (some 0)) ∨
      ∃ e, serve lock me .getLock outcome = (lock, .error e) := by
  cases outcome with
  | error e => exact .inr (.inr ⟨e, rfl⟩)
  | ok rows =>
    cases lock with
    | none => exact .inl ⟨rfl, rfl⟩
    | some held =>
      simp only [serve]
      rw [if_neg (h held rfl)]
      exact .inr (.inl rfl)

/-- `RELEASE_LOCK` gives back what its session has got once. -/
theorem serve_releaseLock_owner (h : outcome.isOk) :
    (serve (some ⟨me, 1⟩) me .releaseLock outcome).1 = none := by
  cases outcome with
  | error e => cases h
  | ok rows => simp [serve]

theorem serve_releaseLock_other
    (h : ∀ held, lock = some held → ¬(held.owner = me ∧ outcome.isOk)) :
    (serve lock me .releaseLock outcome).1 = lock := by
  cases outcome with
  | error e => rfl
  | ok rows =>
    cases lock with
    | none => rfl
    | some held =>
      simp only [serve]
      rw [if_neg fun hown => h held rfl ⟨hown, rfl⟩]

end HeldLock

namespace Cluster

variable {z : Zone} {tableName : String} {s t : Cluster} {i j slot : Nat} {outcome : QueryOutcome}

theorem step_query (h : step z tableName s (.query i slot outcome) = some t) :
    ∃ (sql : Sql) (k : Except QueryError sql.Rows → Maintenance Unit),
      s.runs i = .call (.query sql) k ∧ slot < API_LOG_POOL_SIZE ∧
        t.lock = (HeldLock.serve s.lock ⟨i, slot⟩ sql outcome).1 ∧
        t.runs = Function.update s.runs i (k (HeldLock.serve s.lock ⟨i, slot⟩ sql outcome).2) := by
  simp only [step] at h
  split at h
  · next sql k hk =>
    simp only [Option.ite_none_right_eq_some, Option.some.injEq] at h
    obtain ⟨hslot, rfl⟩ := h
    exact ⟨sql, k, hk, hslot, rfl, rfl⟩
  · cases h

/-- What an instance is doing: it does not own the lock and has no run under way or one that is
about to ask for the lock, or it runs under the lock. -/
inductive Stage (z : Zone) (tableName : String) (s : Cluster) (i : Nat) : Prop where
  | idle (owns : ¬s.Owns i) (run : (s.runs i).Halted)
  | asking (owns : ¬s.Owns i) (run : s.runs i = runMaintenance z tableName)
  | running (run : (s.runs i).Closes LockFree Releases)

structure LockInv (z : Zone) (tableName : String) (s : Cluster) : Prop where
  stage : ∀ i, Stage z tableName s i
  depth : ∀ h, s.lock = some h → h.depth = 1

theorem LockInv.init : LockInv z tableName init where
  stage _ := .idle (by rintro ⟨h, hh, _⟩; cases hh) trivial
  depth h hh := by cases hh

theorem Stage.congr (h : Stage z tableName s j) (hruns : t.runs j = s.runs j)
    (howns : t.Owns j → s.Owns j) : Stage z tableName t j := by
  cases h with
  | idle owns run => exact .idle (mt howns owns) (hruns ▸ run)
  | asking owns run => exact .asking (mt howns owns) (hruns.trans run)
  | running run => exact .running (hruns ▸ run)

/-- A statement of another instance does not make an instance the owner. -/
theorem Owns.of_serve {sql : Sql} (hlock : t.lock = (HeldLock.serve s.lock ⟨i, slot⟩ sql outcome).1)
    (hj : j ≠ i) (h : t.Owns j) : s.Owns j := by
  obtain ⟨held, hheld, howner⟩ := h
  rcases HeldLock.serve_owner (hlock.symm.trans hheld) with hme | hs
  · rw [hme] at howner
    exact absurd howner.symm hj
  · exact ⟨held, hs, howner⟩

theorem Owns.congr (hlock : t.lock = s.lock) (h : t.Owns j) : s.Owns j := by
  obtain ⟨held, hheld, howner⟩ := h
  exact ⟨held, hlock.symm.trans hheld, howner⟩

theorem not_halted_runMaintenance : ¬(runMaintenance z tableName).Halted := by
  obtain ⟨k, hk, _⟩ := runMaintenance_eq z tableName
  rw [hk]
  exact id

theorem LockInv.start (hI : LockInv z tableName s) (hrun : (s.runs i).Halted) :
    LockInv z tableName
      { s with runs := Function.update s.runs i (runMaintenance z tableName) } := by
  refine ⟨?_, hI.depth⟩
  intro j
  by_cases hj : j = i
  · subst hj
    cases hI.stage j with
    | idle owns => exact .asking owns (Function.update_self ..)
    | asking _ run => exact absurd (run ▸ hrun) not_halted_runMaintenance
    | running run => exact absurd hrun run.not_halted
  · exact (hI.stage j).congr (Function.update_of_ne hj ..) id

theorem LockInv.now {k : Int → Maintenance Unit} (hI : LockInv z tableName s)
    (hrun : s.runs i = .call .now k) (τ : Int) :
    LockInv z tableName { s with runs := Function.update s.runs i (k τ) } := by
  refine ⟨?_, hI.depth⟩
  intro j
  by_cases hj : j = i
  · subst hj
    cases hI.stage j with
    | idle _ run => exact (hrun ▸ run).elim
    | asking _ run =>
      obtain ⟨k', hk', _⟩ := runMaintenance_eq z tableName
      cases hrun.symm.trans (run.trans hk')
    | running run =>
      rw [hrun] at run
      rcases run with ⟨_, hk⟩ | ⟨hr, _⟩
      · exact .running (by simpa using hk τ)
      · cases hr
  · exact (hI.stage j).congr (Function.update_of_ne hj ..) id

theorem LockInv.disconnect (hI : LockInv z tableName s) :
    LockInv z tableName { s with lock := s.lock.filter fun h => h.owner ≠ ⟨i, slot⟩ } := by
  constructor
  · intro j
    refine (hI.stage j).congr rfl ?_
    rintro ⟨held, hheld, howner⟩
    exact ⟨held, (Option.filter_eq_some_iff.mp hheld).1, howner⟩
  · intro held hheld
    exact hI.depth held (Option.filter_eq_some_iff.mp hheld).1

/-- What the instance of a statement has to keep. -/
def Kept (z : Zone) (tableName : String) (t : Cluster) (i : Nat) : Prop :=
  Stage z tableName t i ∧ ∀ held, t.lock = some held → held.depth = 1

/-- A run that has ended and does not touch the lock leaves the instance idle. -/
theorem LockInv.kept_idle (hI : LockInv z tableName s) (hlock : t.lock = s.lock)
    (howns : ¬s.Owns i) (hrun : (t.runs i).Halted) : Kept z tableName t i :=
  ⟨.idle (mt (.congr hlock) howns) hrun, hlock ▸ hI.depth⟩

theorem LockInv.kept_ask (hI : LockInv z tableName s) (howns : ¬s.Owns i)
    {k : Except QueryError (Option Nat) → Maintenance Unit}
    (hk : runMaintenance z tableName = .call (.query .getLock) k)
    (hlock : t.lock = (HeldLock.serve s.lock ⟨i, slot⟩ .getLock outcome).1)
    (hself : t.runs i = k (HeldLock.serve s.lock ⟨i, slot⟩ .getLock outcome).2) :
    Kept z tableName t i := by
  obtain ⟨k', hk', hgot, hmissed, herror⟩ := runMaintenance_eq z tableName
  cases hk.symm.trans hk'
  have hother : ∀ held, s.lock = some held → held.owner ≠ ⟨i, slot⟩ := by
    intro held hheld howner
    exact howns ⟨held, hheld, by rw [howner]⟩
  have hnext (r) (hr : HeldLock.serve s.lock ⟨i, slot⟩ .getLock outcome = r) :
      t.lock = r.1 ∧ t.runs i = k r.2 := by
    subst hr
    exact ⟨hlock, hself⟩
  rcases HeldLock.serve_getLock hother with ⟨_, hserve⟩ | hserve | ⟨e, hserve⟩
  · obtain ⟨hlock, hrun⟩ := hnext _ hserve
    refine ⟨.running ((hrun.trans hgot).symm ▸ closes_maintain z tableName), ?_⟩
    intro held hheld
    cases hlock.symm.trans hheld
    rfl
  · obtain ⟨hlock, hrun⟩ := hnext _ hserve
    exact hI.kept_idle hlock howns ((hrun.trans hmissed).symm ▸ trivial)
  · obtain ⟨hlock, hrun⟩ := hnext _ hserve
    exact hI.kept_idle hlock howns ((hrun.trans (herror e)).symm ▸ trivial)

theorem LockInv.kept_release (hI : LockInv z tableName s)
    (hC : ∀ held, s.lock = some held → held.owner.pool = i →
      held.owner.slot = slot ∧ outcome.isOk)
    (hlock : t.lock = (HeldLock.serve s.lock ⟨i, slot⟩ .releaseLock outcome).1)
    (hrun : (t.runs i).Halted) : Kept z tableName t i := by
  by_cases howns : s.Owns i
  · obtain ⟨⟨⟨i', slot'⟩, depth⟩, hheld, rfl⟩ := howns
    obtain ⟨rfl, hok⟩ := hC _ hheld rfl
    cases hI.depth _ hheld
    rw [hheld, HeldLock.serve_releaseLock_owner hok] at hlock
    refine ⟨.idle ?_ hrun, by simp [hlock]⟩
    rintro ⟨held, hheld, _⟩
    cases hlock.symm.trans hheld
  · rw [HeldLock.serve_releaseLock_other] at hlock
    · exact hI.kept_idle hlock howns hrun
    · rintro held hheld ⟨hme, _⟩
      exact howns ⟨held, hheld, by rw [hme]⟩

theorem LockInv.query (hI : LockInv z tableName s)
    (hC : ReleasedByOwner s (.query i slot outcome))
    (h : step z tableName s (.query i slot outcome) = some t) : LockInv z tableName t := by
  obtain ⟨sql, k, hk, _, hlock, hruns⟩ := step_query h
  have hself : t.runs i = k (HeldLock.serve s.lock ⟨i, slot⟩ sql outcome).2 := by
    rw [hruns, Function.update_self]
  suffices hi : Kept z tableName t i by
    refine ⟨?_, hi.2⟩
    intro j
    by_cases hj : j = i
    · exact hj ▸ hi.1
    · exact (hI.stage j).congr (by rw [hruns, Function.update_of_ne hj]) (.of_serve hlock hj)
  cases hI.stage i with
  | idle _ run => exact (hk ▸ run).elim
  | asking owns run =>
    obtain ⟨k', hk', _⟩ := runMaintenance_eq z tableName
    cases hk.symm.trans (run.trans hk')
    exact hI.kept_ask owns hk' hlock hself
  | running run =>
    rw [hk] at run
    rcases run with ⟨hfree, hrest⟩ | ⟨hr, hrest⟩
    · rw [HeldLock.serve_lockFree hfree] at hlock
      exact ⟨.running (hself ▸ hrest _), hlock ▸ hI.depth⟩
    · cases hr
      exact hI.kept_release (hC (by rw [hk]; rfl)) hlock (hself ▸ hrest _)

theorem LockInv.step {e : Event} (hI : LockInv z tableName s) (hC : ReleasedByOwner s e)
    (h : step z tableName s e = some t) : LockInv z tableName t := by
  cases e with
  | start i =>
    simp only [Cluster.step, Option.ite_none_right_eq_some, Option.some.injEq] at h
    exact h.2 ▸ hI.start h.1
  | now i τ =>
    simp only [Cluster.step] at h
    split at h
    · next k hk =>
      cases h
      exact hI.now hk τ
    · cases h
  | query i slot outcome => exact hI.query hC h
  | disconnect i slot =>
    cases h
    exact hI.disconnect

theorem LockInv.givenBack (hI : LockInv z tableName s) : GivenBack z tableName s := by
  have hsettled : ∀ i, (s.runs i).Halted → ¬s.Owns i := by
    intro i hi
    cases hI.stage i with
    | idle owns => exact owns
    | asking owns => exact owns
    | running run => exact absurd hi run.not_halted
  refine ⟨hsettled, ?_⟩
  intro hall i slot rows hslot
  have hlock : s.lock = none := by
    rw [Option.eq_none_iff_forall_ne_some]
    intro held hheld
    exact hsettled held.owner.pool (hall _) ⟨held, hheld, rfl⟩
  obtain ⟨k, hk, _⟩ := runMaintenance_eq z tableName
  simp [Run.exec, Cluster.step, hall i, hk, hslot, HeldLock.serve, hlock]

/-- An instance whose release misses the lock owns it after its run. -/
theorem LockInv.missed {e : Event} (hI : LockInv z tableName s)
    (h : Cluster.step z tableName s e = some t) (hback : GivenBack z tableName t) :
    ReleasedByOwner s e := by
  cases e with
  | start | now | disconnect => trivial
  | query i slot outcome =>
    intro hat held hheld howner
    obtain ⟨sql, k, hk, _, hlock, hruns⟩ := step_query h
    rw [hk] at hat
    cases sql with
    | releaseLock =>
      by_contra hmiss
      have hrun : (t.runs i).Halted := by
        cases hI.stage i with
        | idle _ run => exact (hk ▸ run).elim
        | asking _ run =>
          obtain ⟨k', hk', _⟩ := runMaintenance_eq z tableName
          cases hk.symm.trans (run.trans hk')
        | running run =>
          rw [hk] at run
          rcases run with ⟨hfree, _⟩ | ⟨_, hrest⟩
          · exact hfree.elim
          · rw [hruns, Function.update_self]
            exact hrest _
      rw [HeldLock.serve_releaseLock_other] at hlock
      · exact hback.settled i hrun ⟨held, hlock.trans hheld, howner⟩
      · rintro held' hheld' ⟨hme, hok⟩
        cases hheld.symm.trans hheld'
        exact hmiss ⟨by rw [hme], hok⟩
    | getLock | partitionNames | partitionByRange | reorganizePmax | dropPartition => cases hat

theorem lock_given_back_iff {ls : List Event} (h : Run.exec (step z tableName) init ls = some s) :
    Run.Always (step z tableName) (GivenBack z tableName) init ls ↔
      Run.Along (step z tableName) ReleasedByOwner init ls :=
  Run.always_iff_along LockInv.givenBack LockInv.step LockInv.missed h .init

/-! ### Sample runs -/

/-- 2026-04-15 in UTC. -/
def april : Int := 1776211200000

/-- A run that finds the partitions of `april` up to date, and gets and releases the lock on the
given sessions. -/
def quietRun (i got released : Nat) : List Event :=
  let names := ["p202604", "p202605", "p202606", "p202607", "pmax"]
  [.start i, .query i got (.ok []), .query i 1 (.ok names), .now i april, .now i april,
    .query i 2 (.ok names), .query i released (.ok [])]

/-- Two instances one after the other, each releasing the lock on the session that got it. -/
def inTurn : List Event := quietRun 0 0 0 ++ quietRun 1 3 3

def afterTurns : Cluster := (Run.exec (step utc "t_api_log") init inTurn).get (by decide +kernel)

theorem lock_given_back_iff_sample :
    Run.exec (step utc "t_api_log") init inTurn = some afterTurns ∧
      (∀ i < 2, (afterTurns.runs i).Halted) ∧
      Run.Always (step utc "t_api_log") (GivenBack utc "t_api_log") init inTurn := by
  have h : Run.exec (step utc "t_api_log") init inTurn = some afterTurns := (Option.some_get _).symm
  exact ⟨h, by decide +kernel, (lock_given_back_iff h).mpr (by decide +kernel)⟩

/-- An instance that got the lock on session 0 and has run `RELEASE_LOCK` on session 4. -/
def keptLock : Cluster :=
  (Run.exec (step utc "t_api_log") init (quietRun 0 0 4)).get (by decide +kernel)

def skipped : Cluster :=
  (Run.exec (step utc "t_api_log") keptLock [.start 1, .query 1 0 (.ok [])]).get (by decide +kernel)

/-- The lock stays with the instance after its run, and the run of another one is skipped. -/
theorem lock_kept :
    Run.exec (step utc "t_api_log") init (quietRun 0 0 4) = some keptLock ∧
      (keptLock.runs 0).Halted ∧ keptLock.lock = some ⟨⟨0, 0⟩, 1⟩ ∧
      ¬GivenBack utc "t_api_log" keptLock ∧
      Run.exec (step utc "t_api_log") keptLock [.start 1, .query 1 0 (.ok [])] = some skipped ∧
      (skipped.runs 1).Halted ∧ skipped.lock = some ⟨⟨0, 0⟩, 1⟩ := by
  have hrun : (keptLock.runs 0).Halted := by decide +kernel
  have hlock : keptLock.lock = some ⟨⟨0, 0⟩, 1⟩ := by decide +kernel
  refine ⟨(Option.some_get _).symm, hrun, hlock, ?_, (Option.some_get _).symm, by decide +kernel,
    by decide +kernel⟩
  intro hback
  exact hback.settled 0 hrun ⟨_, hlock, rfl⟩

end Cluster

end NestHarness
