import NestHarness.ApiLog.Lock
import NestHarness.ApiLog.Upkeep

/-!
# The maintenance by many instances

Any number of instances run `runMaintenance` against one server and one table, statement by
statement in any order. As long as no session that owns the lock ends while its instance goes on
under it, and the clocks of the instances agree on the month, the instances work one after the
other, and what they do to the table is what the runs of a single instance do.
-/

namespace NestHarness

open Calendar Maintenance

variable {z : Zone} {tableName : String}

/-- The table, the lock and what is left of the last run of every instance. `now` is the local time
that the last run sees that has got the lock. -/
structure Fleet where
  table : List Partition
  now : Int
  lock : Option HeldLock
  runs : Nat → Maintenance Unit

/-- The run goes on under the lock: it has something left to do and is not about to ask for the
lock. -/
def UnderLock : Maintenance Unit → Prop
  | .ret _ | .raise _ | .call (.query .getLock) _ => False
  | .call .now _ | .call (.query .releaseLock) _ | .call (.query (.partitionNames _)) _
  | .call (.query (.partitionByRange _ _)) _ | .call (.query (.reorganizePmax _ _)) _
  | .call (.query (.dropPartition _ _)) _ => True

instance : DecidablePred UnderLock
  | .ret _ | .raise _ | .call (.query .getLock) _ => isFalse id
  | .call .now _ | .call (.query .releaseLock) _ | .call (.query (.partitionNames _)) _
  | .call (.query (.partitionByRange _ _)) _ | .call (.query (.reorganizePmax _ _)) _
  | .call (.query (.dropPartition _ _)) _ => isTrue trivial

namespace Fleet

inductive Event where
  | start (i : Nat)
  | clock (i : Nat)
  /-- An instance issues its next statement in one of its sessions. A `GET_LOCK` comes with the time
  that the run sees if it gets the lock. -/
  | query (i slot : Nat) (t : Int) (answered : ServerAnswer)
  /-- The process of an instance ends, and its sessions with it. -/
  | abort (i : Nat)
  | disconnect (i slot : Nat)

def init (t : Int) : Fleet where
  table := []
  now := t
  lock := none
  runs _ := .ret ()

/-- The lock after a statement that was carried out, if it was. -/
def relock (s : Fleet) (me : PoolSession) (sql : Sql) (answered : ServerAnswer) : Option HeldLock :=
  match answered with
  | .done _ _ | .failed _ true => (HeldLock.serve s.lock me sql (.ok [])).1
  | .failed _ false => s.lock

/-- A statement of a session. -/
def serve (s : Fleet) (me : PoolSession) (t : Int) :
    (sql : Sql) → ServerAnswer → Option (Fleet × Except QueryError sql.Rows)
  | .getLock, answered =>
    let s' := { s with lock := s.relock me .getLock answered }
    match answered with
    | .failed e _ => some (s', .error e)
    | .done _ _ =>
      match (HeldLock.serve s.lock me .getLock (.ok [])).2 with
      | .ok (some 1) => some ({ s' with now := t }, .ok (some 1))
      | x => some (s', x)
  | .releaseLock, answered =>
    (Server.serve ⟨s.table, s.now, true⟩ .releaseLock answered).map fun (_, x) =>
      ({ s with lock := s.relock me .releaseLock answered }, x)
  | sql, answered =>
    (Server.serve ⟨s.table, s.now, true⟩ sql answered).map fun (server, x) =>
      ({ s with table := server.table }, x)

variable (z tableName) in
def step (s : Fleet) : Event → Option Fleet
  | .start i =>
    if (s.runs i).Halted then
      some { s with runs := Function.update s.runs i (runMaintenance z tableName) }
    else none
  | .clock i =>
    match s.runs i with
    | .call .now k => some { s with runs := Function.update s.runs i (k s.now) }
    | _ => none
  | .query i slot t answered =>
    match s.runs i with
    | .call (.query sql) k =>
      if slot < API_LOG_POOL_SIZE then
        (s.serve ⟨i, slot⟩ t sql answered).map fun (s', x) =>
          { s' with runs := Function.update s.runs i (k x) }
      else none
    | _ => none
  | .abort i =>
    some { s with
      lock := s.lock.filter fun h => h.owner.pool ≠ i
      runs := Function.update s.runs i (.raise ⟨none⟩) }
  | .disconnect i slot => some { s with lock := s.lock.filter fun h => h.owner ≠ ⟨i, slot⟩ }

/-- A session that owns the lock does not end while its instance goes on under the lock. -/
def SessionKept (s : Fleet) : Event → Prop
  | .disconnect i slot => UnderLock (s.runs i) → ∀ h ∈ s.lock, h.owner ≠ ⟨i, slot⟩
  | .start _ | .clock _ | .query _ _ _ _ | .abort _ => True

instance (s : Fleet) (e : Event) : Decidable (s.SessionKept e) :=
  match e with
  | .disconnect i slot =>
    inferInstanceAs (Decidable (UnderLock (s.runs i) → ∀ h ∈ s.lock, h.owner ≠ ⟨i, slot⟩))
  | .start _ | .clock _ | .query _ _ _ _ | .abort _ => isTrue trivial

/-- A run that asks for the lock sees a year of four digits, and no month before that of the run
that has got the lock last. -/
def InTurn (z : Zone) (s : Fleet) : Event → Prop
  | .query i _ t _ => UnderLock (s.runs i) ∨
    z.monthOf s.now ≤ z.monthOf t ∧ 12 * 1000 ≤ z.monthOf t ∧ z.monthOf t < 12 * 10000
  | .start _ | .clock _ | .abort _ | .disconnect _ _ => True

instance (z : Zone) (s : Fleet) (e : Event) : Decidable (s.InTurn z e) :=
  match e with
  | .query i _ t _ => inferInstanceAs (Decidable (UnderLock (s.runs i) ∨
    z.monthOf s.now ≤ z.monthOf t ∧ 12 * 1000 ≤ z.monthOf t ∧ z.monthOf t < 12 * 10000))
  | .start _ | .clock _ | .abort _ | .disconnect _ _ => isTrue trivial

def Owns (s : Fleet) (i : Nat) : Prop := ∃ h, s.lock = some h ∧ h.owner.pool = i

/-- The statement the instance is about to issue. -/
def Issues (s : Fleet) (i : Nat) (sql : Sql) : Prop :=
  ∃ k : Except QueryError sql.Rows → Maintenance Unit, s.runs i = .call (.query sql) k

/-! ## Statements -/

variable {s s' : Fleet} {i j slot : Nat} {me : PoolSession} {t : Int} {answered : ServerAnswer}

theorem Owns.unique (hi : s.Owns i) (hj : s.Owns j) : i = j := by
  obtain ⟨h, hlock, rfl⟩ := hi
  obtain ⟨h', hlock', rfl⟩ := hj
  cases hlock.symm.trans hlock'
  rfl

/-- What `GET_LOCK` can do: the session gets the lock that is free or its own already, or the run
does not go on. Another session's lock stays. -/
theorem serve_getLock {x : Except QueryError (Option Nat)}
    (h : s.serve me t .getLock answered = some (s', x)) :
    s'.table = s.table ∧ s'.runs = s.runs ∧
    (∀ held, s.lock = some held → held.owner ≠ me → s'.lock = some held) ∧
    ((x = .ok (some 1) ∧ s'.now = t ∧ (∃ held, s'.lock = some held ∧ held.owner = me)) ∨
      (s'.now = s.now ∧ (x = .ok (some 0) ∨ ∃ e, x = .error e))) := by
  have hother : ∀ held, s.lock = some held → held.owner ≠ me →
      (HeldLock.serve s.lock me .getLock (.ok [])).1 = some held := by
    intro held hheld howner
    rw [hheld, HeldLock.serve, if_neg howner]
  have hrelock : ∀ held, s.lock = some held → held.owner ≠ me →
      s.relock me .getLock answered = some held := by
    intro held hheld howner
    cases answered with
    | done => exact hother held hheld howner
    | failed e applied =>
      cases applied with
      | true => exact hother held hheld howner
      | false => exact hheld
  simp only [serve] at h
  split at h
  · cases h
    exact ⟨rfl, rfl, hrelock, .inr ⟨rfl, .inr ⟨_, rfl⟩⟩⟩
  · split at h
    · next hgot =>
      cases h
      refine ⟨rfl, rfl, hrelock, .inl ⟨rfl, rfl, ?_⟩⟩
      simp only [relock]
      cases hlock : s.lock with
      | none => exact ⟨_, rfl, rfl⟩
      | some held =>
        by_cases howner : held.owner = me
        · simp only [HeldLock.serve, if_pos howner]
          exact ⟨_, rfl, rfl⟩
        · rw [hlock, HeldLock.serve, if_neg howner] at hgot
          cases hgot
    · next x hnot =>
      cases h
      refine ⟨rfl, rfl, hrelock, .inr ⟨rfl, ?_⟩⟩
      cases hlock : s.lock with
      | none =>
        rw [hlock] at hnot
        exact absurd rfl hnot
      | some held =>
        by_cases howner : held.owner = me
        · rw [hlock, HeldLock.serve, if_pos howner] at hnot
          exact absurd rfl hnot
        · rw [HeldLock.serve, if_neg howner]
          exact .inl rfl

theorem serve_releaseLock {x : Except QueryError Unit}
    (h : s.serve me t .releaseLock answered = some (s', x)) :
    s'.table = s.table ∧ s'.now = s.now ∧ s'.runs = s.runs ∧
      Server.serve ⟨s.table, s.now, true⟩ .releaseLock answered =
        some (⟨s.table, s.now, true⟩, x) := by
  obtain ⟨⟨server, x'⟩, hserve, he⟩ := Option.map_eq_some_iff.mp h
  cases he
  refine ⟨rfl, rfl, rfl, ?_⟩
  cases answered with
  | done acquired rows =>
    cases hserve
    rfl
  | failed e applied =>
    rw [hserve]
    simp only [Server.serve, Option.ite_none_right_eq_some, Option.some.injEq,
      Prod.mk.injEq] at hserve
    obtain ⟨_, rfl, _⟩ := hserve
    cases applied <;> rfl

/-- A statement on the table is that of a single instance. -/
theorem serve_lockFree {sql : Sql} {x : Except QueryError sql.Rows} (hfree : LockFree (.query sql))
    (h : s.serve me t sql answered = some (s', x)) :
    s'.lock = s.lock ∧ s'.now = s.now ∧ s'.runs = s.runs ∧
      Server.serve ⟨s.table, s.now, true⟩ sql answered = some (⟨s'.table, s.now, true⟩, x) := by
  have hserver : (Server.serve ⟨s.table, s.now, true⟩ sql answered).map
      (fun p : Server × Except QueryError sql.Rows => ({ s with table := p.1.table }, p.2)) =
        some (s', x) := by
    cases sql with
    | getLock | releaseLock => exact hfree.elim
    | partitionNames | partitionByRange | reorganizePmax | dropPartition => exact h
  obtain ⟨⟨server, x'⟩, hserve, he⟩ := Option.map_eq_some_iff.mp hserver
  cases he
  refine ⟨rfl, rfl, rfl, ?_⟩
  have hnow := (Server.serve_spec hserve).1
  have hacquired : server.acquired = true := by
    cases answered with
    | failed e applied =>
      simp only [Server.serve, Option.ite_none_right_eq_some, Option.some.injEq,
        Prod.mk.injEq] at hserve
      obtain ⟨_, rfl, _⟩ := hserve
      cases applied <;> rfl
    | done acquired rows =>
      cases sql with
      | getLock | releaseLock => exact hfree.elim
      | partitionNames | partitionByRange | reorganizePmax | dropPartition =>
        simp only [Server.serve, Option.ite_none_right_eq_some, Option.some.injEq,
          Prod.mk.injEq] at hserve
        obtain ⟨_, rfl, _⟩ := hserve
        rfl
  obtain ⟨table, now, acquired⟩ := server
  cases hnow
  cases hacquired
  exact hserve

/-! ## One instance at a time -/

/-- What an instance is doing, seen beside a single instance `u`: when it runs under the lock, it
owns the lock and its run is that of `u`. -/
inductive Stage (z : Zone) (tableName : String) (s : Fleet) (u : Upkeep) (i : Nat) : Prop where
  | idle (run : (s.runs i).Halted)
  | asking (run : s.runs i = runMaintenance z tableName)
  | working (run : (s.runs i).Closes LockFree Releases) (owns : s.Owns i)
    (same : u.run = s.runs i) (acquired : u.server.acquired = true)

/-- The fleet is doing what the single instance `u` does. -/
structure Matches (z : Zone) (tableName : String) (s : Fleet) (u : Upkeep) : Prop where
  table : u.server.table = s.table
  now : u.server.now = s.now
  stage : ∀ i, Stage z tableName s u i
  quiet : (∀ i, ¬UnderLock (s.runs i)) → u.run.Halted

variable {u u' : Upkeep}

theorem not_underLock_halted {run : Maintenance Unit} (h : run.Halted) : ¬UnderLock run := by
  cases run with
  | ret | raise => exact id
  | call => exact h.elim

theorem not_underLock_runMaintenance : ¬UnderLock (runMaintenance z tableName) := by
  obtain ⟨k, hk, _⟩ := runMaintenance_eq z tableName
  rw [hk]
  exact id

theorem underLock_closes {run : Maintenance Unit} (h : run.Closes LockFree Releases) :
    UnderLock run := by
  cases run with
  | ret | raise => exact h.elim
  | call o k =>
    cases o with
    | now => trivial
    | query sql =>
      cases sql with
      | getLock =>
        rcases h with ⟨hfree, _⟩ | ⟨hr, _⟩
        · exact hfree.elim
        · cases hr
      | releaseLock | partitionNames | partitionByRange | reorganizePmax | dropPartition => trivial

theorem Matches.init (t : Int) : Matches z tableName (init t) (Upkeep.init t) where
  table := rfl
  now := rfl
  stage _ := .idle trivial
  quiet _ := trivial

theorem Stage.owns (h : Stage z tableName s u i) (hi : UnderLock (s.runs i)) : s.Owns i := by
  cases h with
  | idle run => exact absurd hi (not_underLock_halted run)
  | asking run => exact absurd (run ▸ hi) not_underLock_runMaintenance
  | working _ owns => exact owns

/-- No other instance runs under the lock. -/
theorem Matches.alone (h : Matches z tableName s u) (hi : s.Owns i) (hj : j ≠ i) :
    ¬UnderLock (s.runs j) := by
  intro hwork
  exact hj (((h.stage j).owns hwork).unique hi)

/-- An instance that is not under the lock stays as it is when its run does. -/
theorem Stage.still (h : Stage z tableName s u i) (hi : ¬UnderLock (s.runs i))
    (hrun : s'.runs i = s.runs i) : Stage z tableName s' u' i := by
  cases h with
  | idle run => exact .idle (hrun ▸ run)
  | asking run => exact .asking (hrun.trans run)
  | working run => exact absurd (underLock_closes run) hi

/-- The single instance has nothing to do. -/
theorem Matches.stutter (h : Matches z tableName s u) (ht : s'.table = s.table)
    (hn : s'.now = s.now) (hi : ¬UnderLock (s.runs i)) (hstage : Stage z tableName s' u i)
    (hruns : ∀ j, j ≠ i → s'.runs j = s.runs j)
    (howns : ∀ j, j ≠ i → UnderLock (s.runs j) → s.Owns j → s'.Owns j) :
    Matches z tableName s' u where
  table := h.table.trans ht.symm
  now := h.now.trans hn.symm
  stage j := by
    by_cases hj : j = i
    · exact hj ▸ hstage
    have hrun := hruns j hj
    cases h.stage j with
    | idle run => exact .idle (hrun ▸ run)
    | asking run => exact .asking (hrun.trans run)
    | working run owns same acquired =>
      exact .working (hrun ▸ run) (howns j hj (underLock_closes run) owns) (same.trans hrun.symm)
        acquired
  quiet hnone := by
    refine h.quiet fun j => ?_
    by_cases hj : j = i
    · exact hj ▸ hi
    · exact hruns j hj ▸ hnone j

/-- The instance under the lock and the single instance go on alike. -/
theorem Matches.advance (h : Matches z tableName s u) (howns : s.Owns i)
    (ht : u'.server.table = s'.table) (hn : u'.server.now = s'.now)
    (hsame : u'.run = s'.runs i) (hacquired : u'.server.acquired = true)
    (hruns : ∀ j, j ≠ i → s'.runs j = s.runs j)
    (hnext : (s'.runs i).Halted ∨ (s'.runs i).Closes LockFree Releases ∧ s'.Owns i) :
    Matches z tableName s' u' where
  table := ht
  now := hn
  stage j := by
    by_cases hj : j = i
    · subst hj
      rcases hnext with hhalted | ⟨hrun, hown⟩
      · exact .idle hhalted
      · exact .working hrun hown hsame hacquired
    · exact (h.stage j).still (h.alone howns hj) (hruns j hj)
  quiet hnone := by
    rcases hnext with hhalted | ⟨hrun, _⟩
    · exact hsame ▸ hhalted
    · exact absurd (underLock_closes hrun) (hnone i)

/-- The lock moves, and stays with an instance that runs under it. -/
theorem Matches.relock (h : Matches z tableName s u) (ht : s'.table = s.table)
    (hn : s'.now = s.now) (hruns : s'.runs = s.runs)
    (howns : ∀ j, UnderLock (s.runs j) → s.Owns j → s'.Owns j) : Matches z tableName s' u where
  table := h.table.trans ht.symm
  now := h.now.trans hn.symm
  stage j := by
    cases h.stage j with
    | idle run => exact .idle (hruns ▸ run)
    | asking run => exact .asking (hruns ▸ run)
    | working run owns same acquired =>
      exact .working (hruns ▸ run) (howns j (underLock_closes run) owns) (hruns ▸ same) acquired
  quiet hnone := h.quiet (hruns ▸ hnone)

theorem Owns.filter (h : s.Owns j) {keep : HeldLock → Bool}
    (hkeep : ∀ held, s.lock = some held → held.owner.pool = j → keep held = true)
    (hlock : s'.lock = s.lock.filter keep) : s'.Owns j := by
  obtain ⟨held, hheld, howner⟩ := h
  exact ⟨held, hlock.trans (Option.filter_eq_some_iff.mpr ⟨hheld, hkeep held hheld howner⟩), howner⟩

theorem Stage.ask (h : Stage z tableName s u i) {o : maintenance.Op}
    {k : maintenance.Ans o → Maintenance Unit} (hk : s.runs i = .call o k) :
    s.runs i = runMaintenance z tableName ∨
      (s.runs i).Closes LockFree Releases ∧ s.Owns i ∧ u.run = s.runs i ∧
        u.server.acquired = true := by
  cases h with
  | idle run => exact (hk ▸ run : Prog.Halted (.call o k)).elim
  | asking run => exact .inl run
  | working run owns same acquired => exact .inr ⟨run, owns, same, acquired⟩

theorem Matches.server (h : Matches z tableName s u) (hacquired : u.server.acquired = true) :
    u.server = ⟨s.table, s.now, true⟩ := by
  obtain ⟨⟨table, now, acquired⟩, run⟩ := u
  cases h.table
  cases h.now
  cases hacquired
  rfl

/-! ## Steps -/

/-- The steps of a single instance that match those of the fleet. -/
def Follows (z : Zone) (tableName : String) (s' : Fleet) (u : Upkeep) : Prop :=
  ∃ events u', Run.exec (Upkeep.step z tableName) u events = some u' ∧ Matches z tableName s' u'

theorem Matches.follows (h : Matches z tableName s' u) : Follows z tableName s' u :=
  ⟨[], u, rfl, h⟩

theorem Follows.one {e : Upkeep.Event} (hs : u.step z tableName e = some u')
    (h : Matches z tableName s' u') : Follows z tableName s' u :=
  ⟨[e], u', Run.exec_cons_iff.mpr ⟨u', hs, rfl⟩, h⟩

theorem Matches.start (h : Matches z tableName s u) (hrun : (s.runs i).Halted)
    (hs : s' = { s with runs := Function.update s.runs i (runMaintenance z tableName) }) :
    Matches z tableName s' u := by
  subst hs
  refine h.stutter (i := i) rfl rfl (not_underLock_halted hrun) ?_ ?_ ?_
  · exact .asking (Function.update_self ..)
  · intro j hj
    exact Function.update_of_ne hj ..
  · intro j _ _ howns
    exact howns

theorem Matches.clock (h : Matches z tableName s u) {k : Int → Maintenance Unit}
    (hk : s.runs i = .call .now k)
    (hs : s' = { s with runs := Function.update s.runs i (k s.now) }) :
    Follows z tableName s' u := by
  rcases (h.stage i).ask hk with hask | ⟨hcloses, howns, hsame, hacquired⟩
  · obtain ⟨k', hk', _⟩ := runMaintenance_eq z tableName
    cases hk.symm.trans (hask.trans hk')
  have hself : s'.runs i = k s.now := by simp [hs]
  have hrest : (s'.runs i).Closes LockFree Releases := by
    rw [hk] at hcloses
    rw [hself]
    rcases hcloses with ⟨_, hrest⟩ | ⟨hr, _⟩
    · exact hrest s.now
    · cases hr
  have hstep : u.step z tableName .clock = some { u with run := k u.server.now } := by
    simp only [Upkeep.step, hsame, hk]
  have hown : s'.Owns i := hs ▸ howns
  refine .one hstep (h.advance howns ?_ ?_ ?_ hacquired ?_ (.inr ⟨hrest, hown⟩))
  · exact hs ▸ h.table
  · exact hs ▸ h.now
  · rw [hself, ← h.now]
  · intro j hj
    simp [hs, hj]

theorem Matches.abort (h : Matches z tableName s u)
    (hs : s' = { s with
      lock := s.lock.filter fun h => h.owner.pool ≠ i
      runs := Function.update s.runs i (.raise ⟨none⟩) }) : Follows z tableName s' u := by
  have hruns : ∀ j, j ≠ i → s'.runs j = s.runs j := by
    intro j hj
    simp [hs, hj]
  have hself : s'.runs i = .raise ⟨none⟩ := by simp [hs]
  have hhalted : (s'.runs i).Halted := by
    rw [hself]
    trivial
  have htable : s'.table = s.table := by rw [hs]
  have hnow : s'.now = s.now := by rw [hs]
  by_cases hwork : UnderLock (s.runs i)
  · cases h.stage i with
    | idle run => exact absurd hwork (not_underLock_halted run)
    | asking run => exact absurd (run ▸ hwork) not_underLock_runMaintenance
    | working run owns same acquired =>
      have hstep : u.step z tableName .abort = some { u with run := .raise ⟨none⟩ } := rfl
      exact .one hstep (h.advance owns (h.table.trans htable.symm) (h.now.trans hnow.symm)
        hself.symm acquired hruns (.inl hhalted))
  · have hkept : ∀ j, j ≠ i → UnderLock (s.runs j) → s.Owns j → s'.Owns j := by
      intro j hj _ howns
      have hlock : s'.lock = s.lock.filter fun h => h.owner.pool ≠ i := by rw [hs]
      refine howns.filter ?_ hlock
      rintro held _ rfl
      exact decide_eq_true hj
    exact (h.stutter (i := i) htable hnow hwork (.idle hhalted) hruns hkept).follows

theorem Matches.disconnect (h : Matches z tableName s u)
    (hC : s.SessionKept (.disconnect i slot))
    (hs : s' = { s with lock := s.lock.filter fun h => h.owner ≠ ⟨i, slot⟩ }) :
    Matches z tableName s' u := by
  refine h.relock (by rw [hs]) (by rw [hs]) (by rw [hs]) ?_
  intro j hwork howns
  have hlock : s'.lock = s.lock.filter fun h => h.owner ≠ ⟨i, slot⟩ := by rw [hs]
  refine howns.filter ?_ hlock
  intro held hheld howner
  refine decide_eq_true ?_
  intro he
  have hji : i = j := (congrArg PoolSession.pool he).symm.trans howner
  subst hji
  exact hC hwork held hheld he

/-- A run asks for the lock, and goes on under it when it gets it. -/
theorem Matches.getLock (h : Matches z tableName s u)
    {k : Except QueryError (Option Nat) → Maintenance Unit}
    (hk : s.runs i = .call (.query .getLock) k) (hask : s.runs i = runMaintenance z tableName)
    (hT : s.InTurn z (.query i slot t answered)) {s₁ : Fleet} {x : Except QueryError (Option Nat)}
    (hserve : s.serve ⟨i, slot⟩ t .getLock answered = some (s₁, x))
    (hs : s' = { s₁ with runs := Function.update s.runs i (k x) }) : Follows z tableName s' u := by
  obtain ⟨k', hk', hgot, hmissed, herror⟩ := runMaintenance_eq z tableName
  cases hk.symm.trans (hask.trans hk')
  obtain ⟨htable, hruns₁, hother, hcase⟩ := serve_getLock hserve
  have hruns : ∀ j, j ≠ i → s'.runs j = s.runs j := by
    intro j hj
    simp [hs, hj]
  have hself : s'.runs i = k x := by simp [hs]
  have hidle : ¬UnderLock (s.runs i) := hask ▸ not_underLock_runMaintenance
  have hkept : ∀ j, j ≠ i → s.Owns j → s'.Owns j := by
    rintro j hj ⟨held, hheld, rfl⟩
    refine ⟨held, ?_, rfl⟩
    rw [hs]
    exact hother held hheld fun he => hj (congrArg PoolSession.pool he)
  have hmonth := hT.resolve_left hidle
  rcases hcase with ⟨rfl, hnow, ⟨held, hheld, howner⟩⟩ | ⟨hnow, hx⟩
  · have howns : s'.Owns i := ⟨held, by rw [hs]; exact hheld, by rw [howner]⟩
    have hnone : ∀ j, ¬UnderLock (s.runs j) := by
      intro j hwork
      by_cases hj : j = i
      · exact hidle (hj ▸ hwork)
      · exact hj ((hkept j hj ((h.stage j).owns hwork)).unique howns)
    have hrest : (s'.runs i).Closes LockFree Releases := by
      rw [hself, hgot]
      exact closes_maintain z tableName
    have hstart : u.step z tableName (.start t) =
        some ⟨{ u.server with now := t, acquired := false }, runMaintenance z tableName⟩ := by
      refine if_pos ⟨h.quiet hnone, ?_, hmonth.2⟩
      rw [h.now]
      exact hmonth.1
    refine ⟨[.start t, .query (.done (some 1) [])],
      ⟨⟨u.server.table, t, true⟩, k (.ok (some 1))⟩, ?_, ?_⟩
    · rw [Run.exec_cons_iff]
      refine ⟨_, hstart, ?_⟩
      rw [Run.exec_cons_iff]
      refine ⟨_, ?_, rfl⟩
      simp only [Upkeep.step, hk']
      rfl
    · refine ⟨?_, ?_, ?_, fun hquiet => absurd (underLock_closes hrest) (hquiet i)⟩
      · exact h.table.trans (by rw [hs]; exact htable.symm)
      · exact hnow.symm.trans (by rw [hs])
      · intro j
        by_cases hj : j = i
        · subst hj
          exact .working hrest howns hself.symm rfl
        · exact (h.stage j).still (hnone j) (hruns j hj)
  · have hhalted : (s'.runs i).Halted := by
      rw [hself]
      rcases hx with rfl | ⟨e, rfl⟩
      · exact hmissed ▸ trivial
      · exact herror e ▸ trivial
    refine (h.stutter (i := i) ?_ ?_ hidle (.idle hhalted) hruns fun j hj _ => hkept j hj).follows
    · rw [hs]
      exact htable
    · rw [hs]
      exact hnow

/-- A statement under the lock. -/
theorem Matches.locked (h : Matches z tableName s u) {sql : Sql}
    {k : Except QueryError sql.Rows → Maintenance Unit} (hk : s.runs i = .call (.query sql) k)
    (hcloses : (s.runs i).Closes LockFree Releases) (howns : s.Owns i) (hsame : u.run = s.runs i)
    (hacquired : u.server.acquired = true) {s₁ : Fleet} {x : Except QueryError sql.Rows}
    (hserve : s.serve ⟨i, slot⟩ t sql answered = some (s₁, x))
    (hs : s' = { s₁ with runs := Function.update s.runs i (k x) }) : Follows z tableName s' u := by
  have hruns : ∀ j, j ≠ i → s'.runs j = s.runs j := by
    intro j hj
    simp [hs, hj]
  have hself : s'.runs i = k x := by simp [hs]
  -- the same statement of the single instance
  have hone (table : List Partition) (htable : s₁.table = table) (hnow : s₁.now = s.now)
      (hx : Server.serve ⟨s.table, s.now, true⟩ sql answered = some (⟨table, s.now, true⟩, x))
      (hnext : (s'.runs i).Halted ∨ (s'.runs i).Closes LockFree Releases ∧ s'.Owns i) :
      Follows z tableName s' u := by
    have hstep : u.step z tableName (.query answered) = some ⟨⟨table, s.now, true⟩, k x⟩ := by
      simp only [Upkeep.step, hsame, hk, h.server hacquired, hx, Option.map_some]
    refine .one hstep (h.advance howns ?_ ?_ hself.symm rfl hruns hnext)
    · rw [hs]
      exact htable.symm
    · rw [hs]
      exact hnow.symm
  rw [hk] at hcloses
  rcases hcloses with ⟨hfree, hrest⟩ | ⟨hr, hrest⟩
  · obtain ⟨hlock, hnow, _, hx⟩ := serve_lockFree hfree hserve
    refine hone s₁.table rfl hnow hx (.inr ⟨hself ▸ hrest x, ?_⟩)
    obtain ⟨held, hheld, howner⟩ := howns
    exact ⟨held, by rw [hs]; exact hlock.trans hheld, howner⟩
  · cases hr
    obtain ⟨htable, hnow, _, hx⟩ := serve_releaseLock hserve
    exact hone s.table htable hnow hx (.inl (hself ▸ hrest x))

theorem Matches.step {e : Event} (h : Matches z tableName s u) (hC : s.SessionKept e)
    (hT : s.InTurn z e) (hs : s.step z tableName e = some s') : Follows z tableName s' u := by
  cases e with
  | start i =>
    simp only [Fleet.step, Option.ite_none_right_eq_some, Option.some.injEq] at hs
    exact (h.start hs.1 hs.2.symm).follows
  | clock i =>
    simp only [Fleet.step] at hs
    split at hs
    · next k hk =>
      cases hs
      exact h.clock hk rfl
    · cases hs
  | query i slot t answered =>
    simp only [Fleet.step] at hs
    split at hs
    swap
    · cases hs
    rename_i sql k hk
    simp only [Option.ite_none_right_eq_some] at hs
    obtain ⟨⟨s₁, x⟩, hserve, hs⟩ := Option.map_eq_some_iff.mp hs.2
    rcases (h.stage i).ask hk with hask | ⟨hcloses, howns, hsame, hacquired⟩
    · obtain ⟨k', hk', _⟩ := runMaintenance_eq z tableName
      cases hk.symm.trans (hask.trans hk')
      exact h.getLock hk hask hT hserve hs.symm
    · exact h.locked hk hcloses howns hsame hacquired hserve hs.symm
  | abort i =>
    cases hs
    exact h.abort rfl
  | disconnect i slot =>
    cases hs
    exact (h.disconnect hC rfl).follows

/-- **The instances work one after the other**: in any run of any number of instances in which no
session that owns the lock ends while its instance goes on under it, and the month does not go back
from one run that asks for the lock to the next, at most one instance is under the lock at a time,
and what they do is what the runs of one instance do. So the partitions stay legal, and up to August
9999 every statement that an instance issues is. -/
theorem fleet_kept (z : Zone) (tableName : String) (t : Int) {events : List Event}
    (h : Run.exec (step z tableName) (init t) events = some s)
    (hC : Run.Along (step z tableName) (fun s e => s.SessionKept e ∧ s.InTurn z e) (init t)
      events) :
    (∀ i j, UnderLock (s.runs i) → UnderLock (s.runs j) → i = j) ∧
      (∃ single u, Run.exec (Upkeep.step z tableName) (Upkeep.init t) single = some u ∧
        u.server.table = s.table ∧ ∀ i, UnderLock (s.runs i) → u.run = s.runs i) ∧
      (s.table = [] ∨ Layout s.table) ∧
      ∀ i sql, s.Issues i sql → Datable (z.monthOf s.now) → Legal s.table sql := by
  have hstep {s : Fleet} {e : Event} {s' : Fleet} {u : Upkeep} (hR : Matches z tableName s u)
      (hC : s.SessionKept e ∧ s.InTurn z e) (hs : step z tableName s e = some s') :=
    hR.step hC.1 hC.2 hs
  obtain ⟨single, u, hu, hmatches⟩ := Run.simulates_along hstep h hC (.init t)
  have hsame (i : Nat) (hi : UnderLock (s.runs i)) : u.run = s.runs i := by
    cases hmatches.stage i with
    | idle run => exact absurd hi (not_underLock_halted run)
    | asking run => exact absurd (run ▸ hi) not_underLock_runMaintenance
    | working _ _ same => exact same
  obtain ⟨hlayout, hlegal, _⟩ := Upkeep.partitions_kept z tableName t hu
  refine ⟨?_, ⟨single, u, hu, hmatches.table, hsame⟩, hmatches.table ▸ hlayout, ?_⟩
  · intro i j hi hj
    exact ((hmatches.stage i).owns hi).unique ((hmatches.stage j).owns hj)
  · rintro i sql ⟨k, hk⟩ hdate
    rcases (hmatches.stage i).ask hk with hask | ⟨_, _, hrun, _⟩
    · obtain ⟨k', hk', _⟩ := runMaintenance_eq z tableName
      cases hk.symm.trans (hask.trans hk')
      trivial
    · exact hmatches.table ▸ hlegal sql ⟨k, hrun.trans hk⟩ (hmatches.now.symm ▸ hdate)

/-- A statement of an instance that is carried out. -/
def carriedOut (i : Nat) (t : Int) (rows : List String) : Event := .query i 0 t (.done none rows)

/-- Two seconds apart: 2024-01-31 23:59:59 and 2024-02-01 00:00:01 in UTC. -/
def lastOfJanuary : Int := 1706745599000

def firstOfFebruary : Int := 1706745601000

/-- Two instances start; one gets the lock and partitions the table, the other does not get it. -/
def sampleEvents : List Event :=
  [.start 0, .start 1, carriedOut 0 lastOfJanuary [], carriedOut 1 lastOfJanuary [],
    carriedOut 0 0 [], .clock 0, carriedOut 0 0 [], .start 1, carriedOut 1 firstOfFebruary [],
    .clock 0, carriedOut 0 0 ["p202401", "p202402", "p202403", "p202404", "pmax"]]

def sampled : Fleet :=
  (Run.exec (step utc "t_api_log") (init 0) sampleEvents).get (by decide +kernel)

/-- The session that owns the lock ends while its instance goes on. -/
def lostSession : List Event :=
  [.start 0, carriedOut 0 lastOfJanuary [], .disconnect 0 0, .start 1,
    carriedOut 1 lastOfJanuary []]

def overlapped : Fleet :=
  (Run.exec (step utc "t_api_log") (init 0) lostSession).get (by decide +kernel)

/-- After the run of an instance in February comes one whose clock is two seconds behind. -/
def clockBehind : List Event :=
  [.start 0, carriedOut 0 firstOfFebruary [], carriedOut 0 0 [], .clock 0, carriedOut 0 0 [],
    .clock 0, carriedOut 0 0 ["p202402", "p202403", "p202404", "p202405", "pmax"],
    carriedOut 0 0 [], .start 1, carriedOut 1 lastOfJanuary [],
    carriedOut 1 0 ["p202402", "p202403", "p202404", "p202405", "pmax"], .clock 1]

def setBack : Fleet :=
  (Run.exec (step utc "t_api_log") (init 0) clockBehind).get (by decide +kernel)

/-- Both conditions are needed: without the one on the sessions two instances are under the lock,
and without the one on the clocks a partition is to be added before those that are there. -/
theorem fleet_kept_sample :
    (sampled.table.map (·.name) = ["p202401", "p202402", "p202403", "p202404", "pmax"] ∧
      UnderLock (sampled.runs 0) ∧ (∀ j, UnderLock (sampled.runs j) → 0 = j) ∧
      ∀ i sql, sampled.Issues i sql → Legal sampled.table sql) ∧
    (Run.exec (step utc "t_api_log") (init 0) lostSession = some overlapped ∧
      UnderLock (overlapped.runs 0) ∧ UnderLock (overlapped.runs 1)) ∧
    Run.exec (step utc "t_api_log") (init 0) clockBehind = some setBack ∧
      Run.Along (step utc "t_api_log") SessionKept (init 0) clockBehind ∧
      ∃ sql, setBack.Issues 1 sql ∧ ¬Legal setBack.table sql := by
  have h : Run.exec (step utc "t_api_log") (init 0) sampleEvents = some sampled :=
    (Option.some_get _).symm
  obtain ⟨halone, _, _, hlegal⟩ := fleet_kept utc "t_api_log" 0 h (by decide +kernel)
  have hwork : UnderLock (sampled.runs 0) := by decide +kernel
  have hdate : Datable (utc.monthOf sampled.now) := by decide +kernel
  have hlost : Run.exec (step utc "t_api_log") (init 0) lostSession = some overlapped :=
    (Option.some_get _).symm
  have hbehind : Run.exec (step utc "t_api_log") (init 0) clockBehind = some setBack :=
    (Option.some_get _).symm
  refine ⟨⟨?_, hwork, fun j hj => halone 0 j hwork hj, fun i sql hi => hlegal i sql hi hdate⟩,
    ⟨hlost, ?_, ?_⟩, hbehind, ?_, ?_⟩
  · decide +kernel
  · decide +kernel
  · decide +kernel
  · decide +kernel
  · refine ⟨.reorganizePmax "t_api_log" [("p202401", "2024-02-01")], ⟨_, rfl⟩, ?_⟩
    decide +kernel

end Fleet

end NestHarness
