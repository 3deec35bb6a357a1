import NestHarness.ApiLog.Interceptor
import NestHarness.ApiLog.Upkeep

/-!
# The logs under the maintenance

The rows of `t_api_log` while runs of the maintenance come and go and end as they may. MySQL keeps a
row in the partition that the day of its `create_at` falls into, whatever statements have made the
partitions; only `DROP PARTITION` deletes rows, with the partitions that hold them.
-/

namespace NestHarness

open Calendar Maintenance

variable {z : Zone} {tableName : String}

/-- A stored row; `create_at` is set when it is inserted. -/
structure StoredLog where
  createAt : Int
  entity : ApiLogEntity

/-- Whether a statement has been carried out. -/
def ServerAnswer.applied : ServerAnswer → Bool
  | .done _ _ => true
  | .failed _ applied => applied

def ServerAnswer.isError : ServerAnswer → Bool
  | .done _ _ => false
  | .failed _ _ => true

/-- The partitions that the statement drops that the run is about to issue. -/
def Upkeep.dropping (s : Upkeep) : List String :=
  match s.run with
  | .call (.query sql) _ => Sql.dropped sql
  | .call .now _ | .ret _ | .raise _ => []

/-- The row is in one of the partitions. -/
def heldIn (z : Zone) (table : List Partition) (names : List String) (row : StoredLog) : Bool :=
  (holder table (z.dayOf row.createAt)).any (·.name ∈ names)

/-- The table with its rows. `lost` are the rows that were deleted, each with the time that the run
saw which deleted it; `dropFailed` tells that a `DROP PARTITION` of the run has failed. -/
structure LogTable where
  upkeep : Upkeep
  rows : List StoredLog
  lost : List (StoredLog × Int)
  dropFailed : Bool

namespace LogTable

inductive Event where
  | insert (row : StoredLog)
  | upkeep (e : Upkeep.Event)

def init (t : Int) : LogTable := ⟨Upkeep.init t, [], [], false⟩

/-- The partitions that are gone after the event. -/
def dropped (s : LogTable) : Upkeep.Event → List String
  | .query answered => if answered.applied then s.upkeep.dropping else []
  | .start _ | .clock | .abort => []

def failing (s : LogTable) : Upkeep.Event → Bool
  | .start _ => false
  | .query answered => s.dropFailed || answered.isError && !s.upkeep.dropping.isEmpty
  | .clock | .abort => s.dropFailed

def step (z : Zone) (tableName : String) (s : LogTable) : Event → Option LogTable
  | .insert row => some { s with rows := s.rows ++ [row] }
  | .upkeep e =>
    (s.upkeep.step z tableName e).map fun upkeep =>
      let gone := heldIn z s.upkeep.server.table (s.dropped e)
      { upkeep
        rows := s.rows.filter fun row => !gone row
        lost := s.lost ++ (s.rows.filter gone).map fun row => (row, s.upkeep.server.now)
        dropFailed := s.failing e }

/-- The row that an event inserts. -/
def Event.inserted : Event → List StoredLog
  | .insert row => [row]
  | .upkeep _ => []

end LogTable

/-! ## What a run drops -/

/-- A run drops only partitions that have expired by the time it sees. The second component tells
that a `DROP PARTITION` has failed. -/
def retainEnv (z : Zone) : Env maintenance (Server × Bool) where
  needs s o := match o with
    | .now => True
    | .query sql => ∀ name ∈ Sql.dropped sql, isExpired z (cutoff z s.1.now) name = true
  answers s o x s' := match o, x with
    | .now, t => t = s.1.now ∧ s' = s
    | .query sql, x => ∃ answered, s.1.serve sql answered = some (s'.1, x) ∧
      s'.2 = (s.2 || answered.isError && !(Sql.dropped sql).isEmpty)

/-- No partition of the table has expired. -/
def Server.NoneExpired (z : Zone) (s : Server) : Prop :=
  ∀ p ∈ s.table, isExpired z (cutoff z s.now) p.name = false

/-- What a run leaves that has had the lock and whose `DROP PARTITION` has not failed. -/
def RetainPost (z : Zone) (s : Server × Bool) (r : Except QueryError Unit) : Prop :=
  r = .ok () → s.1.acquired = true → s.2 = false → s.1.NoneExpired z

/-- An operation that drops no partition. -/
def DropsNothing : maintenance.Op → Prop
  | .now => True
  | .query sql => Sql.dropped sql = []

variable {s : Server × Bool}

theorem dropsNothing_query {sql : Sql} (h : Sql.dropped sql = []) :
    (query sql).Only DropsNothing := by
  refine ⟨h, ?_⟩
  intro x
  cases x <;> trivial

theorem dropsNothing_now : now.Only DropsNothing := ⟨trivial, fun _ => trivial⟩

theorem dropsNothing_getExistingPartitions :
    (getExistingPartitions tableName).Only DropsNothing :=
  (dropsNothing_query rfl).bind fun _ => trivial

theorem dropsNothing_initialPartitioning : (initialPartitioning z tableName).Only DropsNothing :=
  dropsNothing_now.bind fun _ => dropsNothing_query rfl

theorem dropsNothing_ensureFuturePartitions {existing : List String} :
    (ensureFuturePartitions z tableName existing).Only DropsNothing := by
  refine dropsNothing_now.bind ?_
  intro now
  dsimp only
  split
  · trivial
  · refine Prog.Only.bind (dropsNothing_query rfl).attempt ?_
    intro r
    cases r with
    | ok => trivial
    | error e =>
      dsimp only
      split <;> trivial

/-- A part of a run that drops nothing. -/
theorem wp_dropsNothing {p : Maintenance α} {Q : Server × Bool → Except QueryError α → Prop}
    (hp : p.Only DropsNothing) (h : ∀ s r, Q s r) : p.wp (retainEnv z) Q s := by
  refine hp.wp (I := fun _ => True) ?_ (fun _ _ _ _ _ _ _ => trivial) trivial fun s r _ => h s r
  intro s o _ ho
  cases o with
  | now => trivial
  | query sql =>
    intro name hname
    rw [show Sql.dropped sql = [] from ho] at hname
    cases hname

theorem retain_now {f : Int → Maintenance α} {Q : Server × Bool → Except QueryError α → Prop}
    (h : (f s.1.now).wp (retainEnv z) Q s) : (now.bind f).wp (retainEnv z) Q s := by
  refine ⟨trivial, ?_⟩
  rintro t s' ⟨rfl, rfl⟩
  exact h

theorem retain_query {sql : Sql} {Q : Server × Bool → Except QueryError sql.Rows → Prop}
    (hneeds : ∀ name ∈ Sql.dropped sql, isExpired z (cutoff z s.1.now) name = true)
    (h : ∀ (answered : ServerAnswer) (s' : Server × Bool) x,
      s.1.serve sql answered = some (s'.1, x) →
      s'.2 = (s.2 || answered.isError && !(Sql.dropped sql).isEmpty) → Q s' x) :
    (query sql).wp (retainEnv z) Q s := by
  refine ⟨hneeds, ?_⟩
  rintro x s' ⟨answered, hserve, hfailed⟩
  exact Prog.wp_ended.mpr (h answered s' x hserve hfailed)

/-- A statement that fails is answered with an error. -/
theorem serve_isError {server server' : Server} {sql : Sql} {answered : ServerAnswer}
    {e : QueryError} (h : server.serve sql answered = some (server', .error e)) :
    answered.isError = true := by
  cases answered with
  | failed => rfl
  | done acquired rows => cases sql <;> simp [Server.serve] at h

theorem wp_dropExpired :
    (dropExpiredPartitions z tableName).wp (retainEnv z)
      (fun s r => r = .ok () → s.2 = false → s.1.NoneExpired z) s := by
  refine retain_now (Prog.wp_bind (Prog.wp_bind
    (retain_query (fun name hname => by cases hname) ?_)))
  intro answered s₁ x hserve _
  obtain ⟨hnow, htable⟩ := Server.serve_reads hserve rfl
  cases x with
  | error e => exact fun h => by cases h
  | ok rows =>
    have hnames {p : Partition} (hp : p ∈ s₁.1.table) : p.name ∈ rows.eraseDups := by
      rw [List.mem_eraseDups, (Server.serve_partitionNames hserve).mem_iff]
      rw [show s₁.1.table = s.1.table from htable] at hp
      exact List.mem_map_of_mem hp
    dsimp only [Prog.wp, Prog.pure_eq]
    split
    · next hempty =>
      intro _ _ p hp
      rw [hnow, ← Bool.not_eq_true]
      intro hexpired
      have hmem := List.mem_filter.mpr ⟨hnames hp, hexpired⟩
      rw [List.isEmpty_iff.mp hempty] at hmem
      cases hmem
    · next hne =>
      refine Prog.wp_tryCatch (retain_query ?_ ?_)
      · intro name hname
        rw [hnow]
        exact (List.mem_filter.mp hname).2
      · intro answered s₂ x hserve hfailed
        obtain ⟨hnow', htable'⟩ := Server.serve_spec hserve
        cases x with
        | error e =>
          intro _ hok
          rw [hok, serve_isError hserve] at hfailed
          simp [Sql.dropped, hne] at hfailed
        | ok =>
          intro _ _ p hp
          rw [htable'.2, alter, List.mem_filter] at hp
          rw [hnow', hnow, ← Bool.not_eq_true]
          intro hexpired
          exact of_decide_eq_true hp.2 (List.mem_filter.mpr ⟨hnames hp.1, hexpired⟩)

theorem wp_maintain_retain :
    (maintain z tableName).wp (retainEnv z)
      (fun s r => r = .ok () → s.2 = false → s.1.NoneExpired z) s := by
  refine Prog.wp_bind (wp_dropsNothing dropsNothing_getExistingPartitions ?_)
  intro s₁ r
  cases r with
  | error e => exact fun h => by cases h
  | ok existing =>
    dsimp only
    split
    · refine Prog.wp_bind (wp_dropsNothing dropsNothing_initialPartitioning ?_)
      intro s₂ r
      cases r with
      | error e => exact fun h => by cases h
      | ok => exact wp_dropExpired
    · refine Prog.wp_bind (wp_dropsNothing dropsNothing_ensureFuturePartitions ?_)
      intro s₂ r
      cases r with
      | error e => exact fun h => by cases h
      | ok => exact wp_dropExpired

theorem wp_releaseLock_retain {Q : Server × Bool → Except QueryError Unit → Prop}
    (h : ∀ s' : Server × Bool, s'.1.now = s.1.now → s'.1.table = s.1.table → s'.2 = s.2 →
      Q s' (.ok ())) : releaseLock.wp (retainEnv z) Q s := by
  refine Prog.wp_tryCatch (retain_query (fun name hname => by cases hname) ?_)
  intro answered s' x hserve hfailed
  obtain ⟨hnow, htable⟩ := Server.serve_reads hserve rfl
  have hflag : s'.2 = s.2 := by simpa [Sql.dropped] using hfailed
  cases x with
  | ok | error => exact h s' hnow htable hflag

theorem wp_runMaintenance_retain :
    (runMaintenance z tableName).wp (retainEnv z) (RetainPost z) s := by
  refine Prog.wp_bind (Prog.wp_bind (retain_query (fun name hname => by cases hname) ?_))
  intro answered s₁ x hserve _
  cases x with
  | error e => exact fun h => by cases h
  | ok acquired =>
    have hgot := Server.serve_getLock hserve
    dsimp only [Prog.wp, Prog.pure_eq]
    split
    · next hnot =>
      intro _ hacquired
      rw [hgot] at hacquired
      rw [hacquired] at hnot
      cases hnot
    · refine Prog.wp_andFinally (wp_maintain_retain.mono ?_)
      intro s₂ r hpost
      refine wp_releaseLock_retain ?_
      intro s₃ hnow htable hflag hr _ hok p hp
      rw [hnow]
      exact hpost hr (hflag ▸ hok) p (htable ▸ hp)

/-! ## Rows and partitions -/

theorem monthOf_le_of_dayOf_lt {t k : Int} (h : z.dayOf t < upperDay z k) : z.monthOf t ≤ k := by
  by_contra hlater
  have hbegun : z.firstOf (k + 1) ≤ t := z.firstOf_le_iff.mpr (by omega)
  have hstart : z.startOf (upperDay z k) ≤ z.firstOf (k + 1) :=
    (z.startOf_le _ _).mpr (Int.le_refl _)
  have hday := (z.startOf_le _ _).mp (Int.le_trans hstart hbegun)
  omega

/-- A row that goes with an expired partition is of a month before the cutoff. -/
theorem month_of_heldIn {server : Server} {names : List String} {row : StoredLog}
    (hk : server.Kept z) (hnames : ∀ name ∈ names, isExpired z (cutoff z server.now) name = true)
    (h : heldIn z server.table names row = true) :
    z.monthOf row.createAt < cutoffMonth z server.now := by
  obtain ⟨p, hp, hname⟩ := (Option.any_eq_true _ _).mp h
  have hexpired := hnames p.name (of_decide_eq_true hname)
  rcases hk with hempty | ⟨m, ks, _, hks, htable⟩
  · rw [hempty] at hp
    cases hp
  rw [htable] at hp
  have hbelow := List.find?_some hp
  rcases List.mem_append.mp (List.mem_of_find?_eq_some hp) with hmem | hmem
  · obtain ⟨k, hmonth, rfl⟩ := List.mem_map.mp hmem
    have hle : z.monthOf row.createAt ≤ k := monthOf_le_of_dayOf_lt (of_decide_eq_true hbelow)
    rw [isExpired, show (monthPartition z k).name = monthName k from rfl,
      parse_monthName (hks.years k hmonth)] at hexpired
    split at hexpired
    · simp only [Option.any_some, Bool.and_eq_true, decide_eq_true_eq] at hexpired
      have hlt := hexpired.2
      rw [cutoff_eq, Zone.firstOf_lt_iff] at hlt
      exact Int.lt_of_le_of_lt hle hlt
    · simp at hexpired
  · cases List.mem_singleton.mp hmem
    cases (isExpired_pmax (z := z) (cutoff z server.now)).symm.trans hexpired

/-! ## All runs -/

namespace LogTable

variable {s s' : LogTable} {events : List Event}

/-- The rows are those that were inserted, but for the lost ones, whose months had expired. -/
structure Accounts (z : Zone) (s : LogTable) (inserted : List StoredLog) : Prop where
  upkeep : s.upkeep.Inv z
  run : s.upkeep.run.wp (retainEnv z) (RetainPost z) (s.upkeep.server, s.dropFailed)
  perm : (s.rows ++ s.lost.map Prod.fst).Perm inserted
  expired : ∀ row now, (row, now) ∈ s.lost → z.monthOf row.createAt < cutoffMonth z now

theorem Accounts.init (t : Int) : (init t).Accounts z [] where
  upkeep := .init t
  run h := by
    intro hacquired
    cases hacquired
  perm := .nil
  expired row now h := by cases h

/-- What the statement needs that the run is about to issue. -/
theorem Accounts.dropped (h : s.Accounts z inserted) (e : Upkeep.Event) :
    ∀ name ∈ s.dropped e, isExpired z (cutoff z s.upkeep.server.now) name = true := by
  intro name hname
  cases e with
  | start | clock | abort => cases hname
  | query answered =>
    rw [LogTable.dropped] at hname
    split at hname
    swap
    · cases hname
    have hrun := h.run
    rw [Upkeep.dropping] at hname
    split at hname
    · next hcall =>
      rw [hcall] at hrun
      exact hrun.1 name hname
    · cases hname
    · cases hname
    · cases hname

theorem Accounts.run_step {e : Upkeep.Event} {u : Upkeep} (h : s.Accounts z inserted)
    (hs : s.upkeep.step z tableName e = some u) :
    u.run.wp (retainEnv z) (RetainPost z) (u.server, s.failing e) := by
  obtain ⟨⟨server, run⟩, rows, lost, dropFailed⟩ := s
  have hrun : run.wp (retainEnv z) (RetainPost z) (server, dropFailed) := h.run
  cases e with
  | start t =>
    simp only [Upkeep.step, Option.ite_none_right_eq_some, Option.some.injEq] at hs
    obtain ⟨_, rfl⟩ := hs
    exact wp_runMaintenance_retain
  | clock =>
    simp only [Upkeep.step] at hs
    split at hs
    · cases hs
      exact hrun.2 _ _ ⟨rfl, rfl⟩
    · cases hs
  | query answered =>
    simp only [Upkeep.step] at hs
    split at hs
    · obtain ⟨⟨server', x⟩, hserve, rfl⟩ := Option.map_eq_some_iff.mp hs
      exact hrun.2 x (server', _) ⟨answered, hserve, rfl⟩
    · cases hs
  | abort =>
    cases hs
    exact fun hr => by cases hr

theorem Accounts.step {e : Event} (h : s.Accounts z inserted)
    (hs : step z tableName s e = some s') : s'.Accounts z (inserted ++ e.inserted) := by
  cases e with
  | insert row =>
    cases hs
    refine ⟨h.upkeep, h.run, ?_, h.expired⟩
    refine List.Perm.trans ?_ (h.perm.append_right [row])
    rw [List.append_assoc, List.append_assoc]
    exact List.perm_append_comm.append_left _
  | upkeep e =>
    obtain ⟨u, hu, rfl⟩ := Option.map_eq_some_iff.mp hs
    refine ⟨h.upkeep.step hu, h.run_step hu, ?_, ?_⟩
    · simp only [Event.inserted, List.append_nil, List.map_append, List.map_map]
      refine List.Perm.trans ?_ h.perm
      generalize hgone : heldIn z s.upkeep.server.table (s.dropped e) = gone
      have hsplit := List.filter_append_perm gone s.rows
      have hmap : List.map (Prod.fst ∘ fun row => (row, s.upkeep.server.now)) (s.rows.filter gone) =
          s.rows.filter gone := List.map_id _
      rw [hmap]
      refine List.perm_append_comm.trans ?_
      rw [List.append_assoc]
      exact List.perm_append_comm.trans (hsplit.append_right _)
    · intro row now hmem
      rcases List.mem_append.mp hmem with hmem | hmem
      · exact h.expired row now hmem
      · obtain ⟨row', hrow, he⟩ := List.mem_map.mp hmem
        cases he
        exact month_of_heldIn h.upkeep.kept (h.dropped e) (List.mem_filter.mp hrow).2

theorem Accounts.exec (h : s.Accounts z inserted)
    (hs : Run.exec (LogTable.step z tableName) s events = some s') :
    s'.Accounts z (inserted ++ events.flatMap Event.inserted) := by
  induction events generalizing s inserted with
  | nil =>
    cases hs
    rw [List.flatMap_nil, List.append_nil]
    exact h
  | cons e events ih =>
    obtain ⟨t, ht, hs⟩ := Run.exec_cons_iff.mp hs
    have := ih (h.step ht) hs
    rwa [List.append_assoc, ← List.flatMap_cons] at this

/-- **No log is lost before its time**: over any sequence of inserts and runs, however the
statements end, the rows are those that were inserted but for the deleted ones; a row was only
deleted by a run whose month was more than the retention after the row's, or just the retention
after it on a 29th of February; and after a run that has had the lock and ended without an error,
and whose `DROP PARTITION` has not failed, no row is in a partition that has expired. -/
theorem logs_retained (z : Zone) (tableName : String) (t : Int)
    (h : Run.exec (LogTable.step z tableName) (init t) events = some s) :
    (s.rows ++ s.lost.map Prod.fst).Perm (events.flatMap Event.inserted) ∧
      (∀ row now, (row, now) ∈ s.lost →
        z.monthOf row.createAt + API_LOG_RETENTION_MONTHS < z.monthOf now ∨
          LeapDay z now ∧ z.monthOf row.createAt + API_LOG_RETENTION_MONTHS = z.monthOf now) ∧
      (s.upkeep.Succeeded → s.dropFailed = false → ∀ row ∈ s.rows, ∀ p,
        holder s.upkeep.server.table (z.dayOf row.createAt) = some p →
          isExpired z (cutoff z s.upkeep.server.now) p.name = false) := by
  have hacc : s.Accounts z ([] ++ events.flatMap Event.inserted) := (Accounts.init t).exec h
  refine ⟨hacc.perm, ?_, ?_⟩
  · intro row now hmem
    have hlt := hacc.expired row now hmem
    rw [cutoffMonth_eq] at hlt
    split at hlt
    · next hleap =>
      by_cases heq : z.monthOf row.createAt + API_LOG_RETENTION_MONTHS = z.monthOf now
      · exact .inr ⟨hleap, heq⟩
      · exact .inl (by omega)
    · exact .inl (by omega)
  · intro hsucceeded hok row _ p hp
    have hrun := hacc.run
    rw [hsucceeded.1] at hrun
    exact hrun rfl hsucceeded.2 hok p (List.mem_of_find?_eq_some hp)

def sampleLog (t : Int) : StoredLog where
  createAt := t
  entity := {
    method := "GET", path := "/", requestParam := none, requestQuery := none, requestBody := none
    statusCode := 200, responseBody := none, errorStack := none, userId := none, ip := none
    userAgent := none, durationMs := 0 }

/-- A log of January 2024 and one of March 2026; the second run drops the partition of the first. -/
def storedEvents : List Event :=
  .insert (sampleLog Upkeep.endOfJanuary) :: .insert (sampleLog Upkeep.firstOfMarch) ::
    Upkeep.sampleEvents.map .upkeep

theorem logs_retained_sample : ∃ s,
    Run.exec (step utc "t_api_log") (init 0) storedEvents = some s ∧
    s.rows.map (·.createAt) = [Upkeep.firstOfMarch] ∧
    s.lost.map (fun x => (x.1.createAt, x.2)) = [(Upkeep.endOfJanuary, Upkeep.firstOfMarch)] ∧
    (s.rows ++ s.lost.map Prod.fst).Perm (storedEvents.flatMap Event.inserted) := by
  let s := (Run.exec (step utc "t_api_log") (init 0) storedEvents).get (by decide +kernel)
  have h : Run.exec (step utc "t_api_log") (init 0) storedEvents = some s :=
    (Option.some_get _).symm
  exact ⟨s, h, by decide +kernel, by decide +kernel, (logs_retained utc "t_api_log" 0 h).1⟩

end LogTable

end NestHarness
