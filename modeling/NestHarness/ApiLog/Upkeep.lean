import Mathlib.Data.List.Nodup
import NestHarness.ApiLog.Partitions
import NestHarness.ApiLog.Retention
import NestHarness.Lib.Run
import NestHarness.Lib.Wp

/-!
# The partitions over all runs of the maintenance

`runMaintenance` runs again and again, at any time and however its queries end. The partitions of
the table are those of some months and `pmax`, and the last months of them are the ones that the
last run has provided for: a later run adds later months only. From September 9999 on the statements
have a bound after the last date of MySQL; the server refuses them, and the table stays as it is.
-/

namespace NestHarness

open Calendar Maintenance

/-! ## The server -/

/-- The table, and the run under way: the local time it sees and whether it has got the lock. -/
structure Server where
  table : List Partition
  now : Int
  acquired : Bool

/-- How a query ends. One that fails may have been carried out all the same. -/
inductive ServerAnswer where
  | done (acquired : Option Nat) (rows : List String)
  | failed (e : QueryError) (applied : Bool)

namespace Server

/-- Only a statement that defines a partition name twice fails with 1517. -/
def MayFail (s : Server) (sql : Sql) (e : QueryError) (applied : Bool) : Prop :=
  (applied = true → Legal s.table sql) ∧
    (e.errno = some 1517 → applied = false ∧ DuplicateName s.table sql)

instance (s : Server) (sql : Sql) (e : QueryError) (applied : Bool) :
    Decidable (s.MayFail sql e applied) :=
  inferInstanceAs (Decidable ((applied = true → Legal s.table sql) ∧
    (e.errno = some 1517 → applied = false ∧ DuplicateName s.table sql)))

def serve (s : Server) : (sql : Sql) → ServerAnswer → Option (Server × Except QueryError sql.Rows)
  | sql, .failed e applied =>
    if s.MayFail sql e applied then
      some (if applied then { s with table := alter s.table sql } else s, .error e)
    else none
  | .getLock, .done acquired _ => some ({ s with acquired := acquired == some 1 }, .ok acquired)
  | .releaseLock, .done _ _ => some (s, .ok ())
  | .partitionNames _, .done _ rows =>
    if rows.Perm (s.table.map (·.name)) then some (s, .ok rows) else none
  | .partitionByRange name partitions, .done _ _ =>
    if Legal s.table (.partitionByRange name partitions) then
      some ({ s with table := alter s.table (.partitionByRange name partitions) }, .ok ())
    else none
  | .reorganizePmax name partitions, .done _ _ =>
    if Legal s.table (.reorganizePmax name partitions) then
      some ({ s with table := alter s.table (.reorganizePmax name partitions) }, .ok ())
    else none
  | .dropPartition name names, .done _ _ =>
    if Legal s.table (.dropPartition name names) then
      some ({ s with table := alter s.table (.dropPartition name names) }, .ok ())
    else none

end Server

/-- The server and what is left of the current run. -/
structure Upkeep where
  server : Server
  run : Maintenance Unit

namespace Upkeep

inductive Event where
  /-- The next run starts, at a local time. -/
  | start (t : Int)
  /-- The run reads the clock. -/
  | clock
  | query (answered : ServerAnswer)
  /-- The process of the run ends. -/
  | abort

def init (t : Int) : Upkeep where
  server := { table := [], now := t, acquired := false }
  run := .ret ()

/-- Runs follow each other in years of four digits; the month does not go back. -/
def step (z : Zone) (tableName : String) (s : Upkeep) : Event → Option Upkeep
  | .start t =>
    if s.run.Halted ∧ z.monthOf s.server.now ≤ z.monthOf t ∧
        12 * 1000 ≤ z.monthOf t ∧ z.monthOf t < 12 * 10000 then
      some ⟨{ s.server with now := t, acquired := false }, runMaintenance z tableName⟩
    else none
  | .clock =>
    match s.run with
    | .call .now k => some { s with run := k s.server.now }
    | _ => none
  | .query answered =>
    match s.run with
    | .call (.query sql) k => (s.server.serve sql answered).map fun (server, x) => ⟨server, k x⟩
    | _ => none
  | .abort => some { s with run := .raise ⟨none⟩ }

/-- The statement the run is about to issue. -/
def Issues (s : Upkeep) (sql : Sql) : Prop :=
  ∃ k : Except QueryError sql.Rows → Maintenance Unit, s.run = .call (.query sql) k

/-- The run has got the lock and ended without an error. -/
def Succeeded (s : Upkeep) : Prop := s.run = .ret () ∧ s.server.acquired = true

end Upkeep

/-- The partitions that a run in the month `m` provides for: each has its month as name and bound,
and a row created up to the end of the last month is not in `pmax`. -/
structure Provides (z : Zone) (table : List Partition) (m : Int) : Prop where
  months : ∀ i ≤ API_LOG_AHEAD_PARTITIONS, ∃ p ∈ table, p.name = monthName (m + i) ∧
    p.bound = .day (z.dayOf (z.firstOf (m + i + 1)))
  rows : ∀ t, z.monthOf t ≤ m + API_LOG_AHEAD_PARTITIONS →
    ∃ p, holder table (z.dayOf t) = some p ∧ p.name ≠ "pmax"

/-- MySQL has the bounds of all partitions that a run in the month `m` provides for. -/
def Datable (m : Int) : Prop := m + API_LOG_AHEAD_PARTITIONS + 1 < 12 * 10000

instance (m : Int) : Decidable (Datable m) :=
  inferInstanceAs (Decidable (m + API_LOG_AHEAD_PARTITIONS + 1 < 12 * 10000))

/-! ## Monthly partitions -/

variable {z : Zone} {tableName : String} {ks ks' : List Int} {k k' m m' : Int}

/-- The first day after a month that begins it in local time. -/
def upperDay (z : Zone) (k : Int) : Int := z.dayOf (z.firstOf (k + 1))

def monthPartition (z : Zone) (k : Int) : Partition := ⟨monthName k, .day (upperDay z k)⟩

def monthTable (z : Zone) (ks : List Int) : List Partition := ks.map (monthPartition z) ++ [pmax]

/-- The months `ks` end with the months that a run in the month `m` provides for. -/
structure EndsAhead (ks : List Int) (m : Int) : Prop where
  increasing : ks.Pairwise (· < ·)
  years : ∀ k ∈ ks, 12000 ≤ k
  dates : ∀ k ∈ ks, k + 1 < 12 * 10000
  le : ∀ k ∈ ks, k ≤ m + API_LOG_AHEAD_PARTITIONS
  ahead : ∀ i ≤ API_LOG_AHEAD_PARTITIONS, m + (i : Nat) ∈ ks

theorem upperDay_lt (h : k < k') : upperDay z k < upperDay z k' := by
  have hnext := firstDay_le (Int.add_one_le_iff.mpr h)
  have hlen := (daysInMonth_pos (k + 1)).1
  have hupper := (z.dayOf_startOf (firstDay (k + 1))).2
  have hupper' := (z.dayOf_startOf (firstDay (k' + 1))).1
  have hsucc := firstDay_succ (k + 1)
  have hle := firstDay_le (show k + 1 + 1 ≤ k' + 1 by omega)
  rw [upperDay, upperDay, Zone.firstOf, Zone.firstOf]
  omega

theorem dayOf_lt_upperDay {t : Int} (h : z.monthOf t ≤ k) : z.dayOf t < upperDay z k := by
  have hbefore : ¬z.firstOf (k + 1) ≤ t := by
    rw [Zone.firstOf_le_iff]
    omega
  rw [Zone.firstOf, Zone.startOf_le] at hbefore
  have hupper := (z.dayOf_startOf (firstDay (k + 1))).1
  rw [upperDay, Zone.firstOf]
  omega

/-- Increasing months make a legal table. -/
theorem layout_monthTable (h : ks.Pairwise (· < ·)) (h0 : ∀ k ∈ ks, 12000 ≤ k) :
    Layout (monthTable z ks) where
  names := by
    rw [monthTable, List.map_append, List.map_map]
    refine List.nodup_append'.mpr ⟨?_, List.nodup_singleton _, ?_⟩
    · have hnodup : ks.Nodup := h.imp Int.ne_of_lt
      refine hnodup.map_on ?_
      intro k hk k' hk' he
      have hyear := h0 k hk
      have hyear' := h0 k' hk'
      exact monthName_injective (by omega) (by omega) he
    · intro name hname hpmax
      obtain ⟨k, hk, rfl⟩ := List.mem_map.mp hname
      have hyear := h0 k hk
      exact monthName_ne_pmax (by omega) (List.mem_singleton.mp hpmax)
  bounds := by
    refine List.pairwise_append.mpr ⟨?_, List.pairwise_singleton .., ?_⟩
    · exact h.map _ fun _ _ => upperDay_lt
    · intro p hp q hq
      obtain ⟨k, _, rfl⟩ := List.mem_map.mp hp
      cases List.mem_singleton.mp hq
      trivial
  last := List.getLast?_concat

theorem getLast?_monthTable : (monthTable z ks).getLast? = some pmax := List.getLast?_concat

theorem dropLast_monthTable : (monthTable z ks).dropLast = ks.map (monthPartition z) :=
  List.dropLast_concat

theorem splitPmax_monthTable :
    splitPmax (monthTable z ks) (ks'.map (monthPartition z)) = monthTable z (ks ++ ks') := by
  rw [splitPmax, dropLast_monthTable, monthTable, List.map_append, List.append_assoc]

theorem mem_names {name : String} : name ∈ (monthTable z ks).map (·.name) ↔
    (∃ k ∈ ks, name = monthName k) ∨ name = "pmax" := by
  simp [monthTable, monthPartition, pmax, eq_comm]

theorem monthName_mem_names (h0 : ∀ k ∈ ks, 12000 ≤ k) (hk : 0 ≤ k) :
    monthName k ∈ (monthTable z ks).map (·.name) ↔ k ∈ ks := by
  rw [mem_names]
  constructor
  · rintro (⟨k', hk', he⟩ | he)
    · have hyear := h0 k' hk'
      rwa [monthName_injective hk (by omega) he]
    · exact absurd he (monthName_ne_pmax hk)
  · intro h
    exact .inl ⟨k, h, rfl⟩

/-- Months of the table that a run at the end of them provides for. -/
theorem EndsAhead.provides (h : EndsAhead ks m) : Provides z (monthTable z ks) m where
  months i hi := by
    refine ⟨monthPartition z (m + i), ?_, rfl, rfl⟩
    exact List.mem_append_left _ (List.mem_map_of_mem (h.ahead i hi))
  rows t ht := by
    have hmem := List.mem_map_of_mem (f := monthPartition z)
      (h.ahead API_LOG_AHEAD_PARTITIONS (Nat.le_refl _))
    cases hfind : (ks.map (monthPartition z)).find? fun p =>
      PartitionBound.Below (.day (z.dayOf t)) p.bound with
    | none =>
      have hnone := List.find?_eq_none.mp hfind _ hmem
      exact absurd (decide_eq_true (dayOf_lt_upperDay ht)) hnone
    | some p =>
      refine ⟨p, ?_, ?_⟩
      · rw [holder, monthTable, List.find?_append, hfind]
        rfl
      · obtain ⟨k, hk, rfl⟩ := List.mem_map.mp (List.mem_of_find?_eq_some hfind)
        have hyear := h.years k hk
        exact monthName_ne_pmax (by omega)

/-! ## The statements of a run -/

/-- The months from `m` on that a run provides for. -/
def monthsAhead (m : Int) : List Int :=
  (List.range (API_LOG_AHEAD_PARTITIONS + 1)).map fun i : Nat => m + i

theorem mem_monthsAhead : k ∈ monthsAhead m ↔ m ≤ k ∧ k ≤ m + API_LOG_AHEAD_PARTITIONS := by
  simp only [monthsAhead, List.mem_map, List.mem_range]
  constructor
  · rintro ⟨i, hi, rfl⟩
    omega
  · rintro ⟨hle, hle'⟩
    exact ⟨(k - m).toNat, by omega, by omega⟩

theorem monthsAhead_increasing : (monthsAhead m).Pairwise (· < ·) := by
  refine List.Pairwise.map _ ?_ List.pairwise_lt_range
  intro i j h
  omega

/-- The name and the bound that the service writes for a month. -/
def monthDefinition (z : Zone) (k : Int) : String × String :=
  (monthName k, toDateStr z (z.firstOf (k + 1)))

theorem partitionsAhead {now : Int} (h : 12000 ≤ z.monthOf now) :
    (List.range (API_LOG_AHEAD_PARTITIONS + 1)).map (partitionAhead z now) =
      (monthsAhead (z.monthOf now)).map (monthDefinition z) := by
  rw [monthsAhead, List.map_map]
  refine List.map_congr_left ?_
  intro i _
  have htarget : z.newDate (z.getFullYear now) (z.getMonth now + i) =
      z.firstOf (z.monthOf now + i) := z.newDate_of_month (by omega) i
  have hupper : z.newDate (z.getFullYear (z.firstOf (z.monthOf now + i)))
      (z.getMonth (z.firstOf (z.monthOf now + i)) + 1) = z.firstOf (z.monthOf now + i + 1) := by
    rw [Zone.getFullYear, Zone.getMonth, Zone.monthOf_firstOf]
    exact z.newDate_of_month (by omega) 1
  simp only [partitionAhead, monthDefinition, Function.comp]
  rw [htarget, hupper, partitionName_eq, Zone.monthOf_firstOf]

theorem definitions_months (z : Zone) (ks : List Int) (h : ∀ k ∈ ks, 0 ≤ k)
    (hdates : ∀ k ∈ ks, k + 1 < 12 * 10000) :
    definitions (ks.map (monthDefinition z)) = some (ks.map (monthPartition z)) := by
  induction ks with
  | nil => rfl
  | cons k ks ih =>
    have hk := h k List.mem_cons_self
    rw [List.map_cons, monthDefinition, definitions, toDays_toDateStr (by omega),
      if_pos (hdates k List.mem_cons_self), ih (fun k hk => h k (List.mem_cons_of_mem _ hk))
        (fun k hk => hdates k (List.mem_cons_of_mem _ hk))]
    rfl

/-- The month `k` needs a bound that is no date of MySQL. -/
theorem definitions_late (h : ∀ k ∈ ks, 0 ≤ k) (hk : k ∈ ks) (hlate : 12 * 10000 ≤ k + 1) :
    definitions (ks.map (monthDefinition z)) = none := by
  induction ks with
  | nil => cases hk
  | cons k' ks ih =>
    have hk' := h k' List.mem_cons_self
    rw [List.map_cons, monthDefinition, definitions, toDays_toDateStr (by omega)]
    split
    · next hdate =>
      rcases List.mem_cons.mp hk with rfl | hk
      · omega
      · rw [ih (fun k hk => h k (List.mem_cons_of_mem _ hk)) hk]
        rfl
    · rfl

/-- The months that a run in the month `m` adds to the months `ks`. -/
def missing (ks : List Int) (m : Int) : List Int := (monthsAhead m).filter (· ∉ ks)

theorem missing_nil : missing [] m = monthsAhead m := List.filter_eq_self.mpr fun _ _ => rfl

theorem nodup_missing (h : ks.Nodup) : (ks ++ missing ks m).Nodup := by
  have hahead : (monthsAhead m).Nodup := monthsAhead_increasing.imp Int.ne_of_lt
  refine List.nodup_append'.mpr ⟨h, hahead.filter _, ?_⟩
  intro k hk hmissing
  exact of_decide_eq_true (List.mem_filter.mp hmissing).2 hk

theorem missing_spec (h : EndsAhead ks m) (hm : m ≤ m') (hdate : Datable m') :
    EndsAhead (ks ++ missing ks m') m' ∧ ∀ k ∈ ks, ∀ k' ∈ missing ks m', k < k' := by
  have hnew : ∀ k ∈ missing ks m', m + API_LOG_AHEAD_PARTITIONS < k ∧ m' ≤ k ∧
      k ≤ m' + API_LOG_AHEAD_PARTITIONS := by
    intro k hk
    obtain ⟨hk, hnot⟩ := List.mem_filter.mp hk
    obtain ⟨hle, hle'⟩ := mem_monthsAhead.mp hk
    refine ⟨?_, hle, hle'⟩
    by_contra hsmall
    -- it would be one of the months that the last run has provided for
    have hahead := h.ahead (k - m).toNat (by omega)
    rw [Int.toNat_of_nonneg (by omega), add_sub_cancel] at hahead
    exact of_decide_eq_true hnot hahead
  have hlt : ∀ k ∈ ks, ∀ k' ∈ missing ks m', k < k' := by
    intro k hk k' hk'
    have hle := h.le k hk
    have hgt := (hnew k' hk').1
    omega
  refine ⟨⟨?_, ?_, ?_, ?_, ?_⟩, hlt⟩
  · exact List.pairwise_append.mpr ⟨h.increasing, monthsAhead_increasing.filter _, hlt⟩
  · intro k hk
    rcases List.mem_append.mp hk with hk | hk
    · exact h.years k hk
    · have hfirst := h.years (m + (0 : Nat)) (h.ahead 0 (Nat.zero_le _))
      have hle := (hnew k hk).2.1
      omega
  · intro k hk
    rcases List.mem_append.mp hk with hk | hk
    · exact h.dates k hk
    · have hle := (hnew k hk).2.2
      rw [Datable] at hdate
      omega
  · intro k hk
    rcases List.mem_append.mp hk with hk | hk
    · have hle := h.le k hk
      omega
    · exact (hnew k hk).2.2
  · intro i hi
    by_cases hmem : m' + (i : Nat) ∈ ks
    · exact List.mem_append_left _ hmem
    · refine List.mem_append_right _ (List.mem_filter.mpr ⟨?_, by simpa using hmem⟩)
      exact mem_monthsAhead.mpr ⟨by omega, by omega⟩

/-- The last month ahead of a late run is missing, and has no bound. -/
theorem definitions_missing_late (h : ∀ k ∈ ks, k + 1 < 12 * 10000) (hm : 12000 ≤ m)
    (hlate : ¬Datable m) : definitions ((missing ks m).map (monthDefinition z)) = none := by
  rw [Datable] at hlate
  refine definitions_late (k := m + API_LOG_AHEAD_PARTITIONS) ?_ ?_ (by omega)
  · intro k hk
    have hle := (mem_monthsAhead.mp (List.mem_of_mem_filter hk)).1
    omega
  · refine List.mem_filter.mpr ⟨mem_monthsAhead.mpr ⟨by omega, Int.le_refl _⟩, decide_eq_true ?_⟩
    intro hmem
    exact hlate (h _ hmem)

theorem endsAhead_initial (h : 12000 ≤ m) (hdate : Datable m) : EndsAhead (monthsAhead m) m where
  increasing := monthsAhead_increasing
  years k hk := by
    have := mem_monthsAhead.mp hk
    omega
  dates k hk := by
    have hle := (mem_monthsAhead.mp hk).2
    rw [Datable] at hdate
    omega
  le k hk := (mem_monthsAhead.mp hk).2
  ahead i hi := mem_monthsAhead.mpr ⟨by omega, by omega⟩

/-- An expired month is before the month of the run. -/
theorem lt_of_isExpired {now : Int} (hk : 12000 ≤ k)
    (h : isExpired z (cutoff z now) (monthName k) = true) : k < z.monthOf now := by
  rw [isExpired, parse_monthName hk] at h
  split at h
  · simp only [Option.any_some, Bool.and_eq_true, decide_eq_true_eq] at h
    have hlt := h.2
    rw [cutoff_eq, Zone.firstOf_lt_iff, cutoffMonth_eq, API_LOG_RETENTION_MONTHS] at hlt
    split at hlt <;> omega
  · simp at h

/-- The months that are left when the partitions `names` are dropped. -/
def remaining (ks : List Int) (names : List String) : List Int :=
  ks.filter fun k => monthName k ∉ names

theorem alter_dropPartition {names : List String} (h : "pmax" ∉ names) :
    alter (monthTable z ks) (.dropPartition tableName names) =
      monthTable z (remaining ks names) := by
  rw [alter, monthTable, List.filter_append, List.filter_map, monthTable, remaining]
  congr 1
  exact List.filter_eq_self.mpr fun p hp => by
    cases List.mem_singleton.mp hp
    exact decide_eq_true h

theorem EndsAhead.remaining {names : List String} {now : Int} (h : EndsAhead ks (z.monthOf now))
    (hnames : ∀ name ∈ names, isExpired z (cutoff z now) name = true) :
    EndsAhead (NestHarness.remaining ks names) (z.monthOf now) where
  increasing := h.increasing.filter _
  years k hk := h.years k (List.mem_of_mem_filter hk)
  dates k hk := h.dates k (List.mem_of_mem_filter hk)
  le k hk := h.le k (List.mem_of_mem_filter hk)
  ahead i hi := by
    refine List.mem_filter.mpr ⟨h.ahead i hi, decide_eq_true ?_⟩
    intro hdrop
    have hlt := lt_of_isExpired (h.years _ (h.ahead i hi)) (hnames _ hdrop)
    omega

/-! ## Queries -/

namespace Server

variable {s s' : Server} {sql : Sql} {answered : ServerAnswer} {x : Except QueryError sql.Rows}

/-- What a query does to the table, and when it may fail with 1517. -/
theorem serve_spec (h : s.serve sql answered = some (s', x)) : s'.now = s.now ∧ match x with
    | .ok _ => Legal s.table sql ∧ s'.table = alter s.table sql
    | .error e => (s'.table = s.table ∨ Legal s.table sql ∧ s'.table = alter s.table sql) ∧
      (e.errno = some 1517 → DuplicateName s.table sql) := by
  cases answered with
  | failed e applied =>
    simp only [serve, Option.ite_none_right_eq_some, Option.some.injEq, Prod.mk.injEq] at h
    obtain ⟨⟨hlegal, hdup⟩, rfl, rfl⟩ := h
    cases applied with
    | false => exact ⟨rfl, .inl rfl, fun he => (hdup he).2⟩
    | true => exact ⟨rfl, .inr ⟨hlegal rfl, rfl⟩, fun he => (hdup he).2⟩
  | done acquired rows =>
    cases sql with
    | getLock | releaseLock =>
      cases h
      exact ⟨rfl, trivial, rfl⟩
    | partitionNames =>
      simp only [serve, Option.ite_none_right_eq_some, Option.some.injEq, Prod.mk.injEq] at h
      obtain ⟨_, rfl, rfl⟩ := h
      exact ⟨rfl, trivial, rfl⟩
    | partitionByRange | reorganizePmax | dropPartition =>
      simp only [serve, Option.ite_none_right_eq_some, Option.some.injEq, Prod.mk.injEq] at h
      obtain ⟨hlegal, rfl, rfl⟩ := h
      exact ⟨rfl, hlegal, rfl⟩

/-- A query that alters nothing leaves the table, whether it fails or not. -/
theorem serve_reads (h : s.serve sql answered = some (s', x))
    (hreads : alter s.table sql = s.table) : s'.now = s.now ∧ s'.table = s.table := by
  obtain ⟨hnow, htable⟩ := serve_spec h
  refine ⟨hnow, ?_⟩
  cases x with
  | ok => exact htable.2.trans hreads
  | error => exact htable.1.elim id fun ht => ht.2.trans hreads

/-- The server refuses a statement that is not legal. -/
theorem serve_refused (h : s.serve sql answered = some (s', x)) (hlegal : ¬Legal s.table sql) :
    s'.now = s.now ∧ s'.table = s.table ∧
      ∃ e, x = .error e ∧ (e.errno = some 1517 → DuplicateName s.table sql) := by
  obtain ⟨hnow, htable⟩ := serve_spec h
  cases x with
  | ok => exact absurd htable.1 hlegal
  | error e => exact ⟨hnow, htable.1.resolve_right fun ht => hlegal ht.1, e, rfl, htable.2⟩

theorem serve_partitionNames {rows : List String}
    (h : s.serve (.partitionNames tableName) answered = some (s', .ok rows)) :
    rows.Perm (s.table.map (·.name)) := by
  cases answered with
  | failed e applied => simp [serve] at h
  | done acquired rows' =>
    simp only [serve, Option.ite_none_right_eq_some, Option.some.injEq, Prod.mk.injEq,
      Except.ok.injEq] at h
    obtain ⟨hperm, _, rfl⟩ := h
    exact hperm

theorem serve_getLock {acquired : Option Nat}
    (h : s.serve .getLock answered = some (s', .ok acquired)) :
    s'.acquired = (acquired == some 1) := by
  cases answered with
  | failed e applied => simp [serve] at h
  | done acquired' rows =>
    cases h
    rfl

/-- The table is not partitioned, or its last months are those that an earlier run provided for. -/
def Kept (z : Zone) (s : Server) : Prop :=
  s.table = [] ∨ ∃ m ks, m ≤ z.monthOf s.now ∧ EndsAhead ks m ∧ s.table = monthTable z ks

/-- The table has the months that a run at this time provides for. -/
def Ahead (z : Zone) (s : Server) : Prop :=
  ∃ ks, EndsAhead ks (z.monthOf s.now) ∧ s.table = monthTable z ks

theorem Ahead.kept (h : s.Ahead z) : s.Kept z :=
  let ⟨ks, hks, ht⟩ := h
  .inr ⟨_, ks, Int.le_refl _, hks, ht⟩

theorem Kept.congr (h : s.Kept z) (hnow : z.monthOf s.now ≤ z.monthOf s'.now)
    (ht : s'.table = s.table) : s'.Kept z := by
  rcases h with h | ⟨m, ks, hm, hks, h⟩
  · exact .inl (ht.trans h)
  · exact .inr ⟨m, ks, Int.le_trans hm hnow, hks, ht.trans h⟩

theorem Ahead.congr (h : s.Ahead z) (hnow : s'.now = s.now) (ht : s'.table = s.table) :
    s'.Ahead z := by
  obtain ⟨ks, hks, h⟩ := h
  exact ⟨ks, hnow ▸ hks, ht.trans h⟩

end Server

/-! ## The precondition of a run -/

/-- What holds before every operation: the table is kept, and the statement is legal if the bounds
of the month are dates. -/
def upkeepEnv (z : Zone) : Env maintenance Server where
  needs s o := s.Kept z ∧ match o with
    | .now => True
    | .query sql => Datable (z.monthOf s.now) → Legal s.table sql
  answers s o x s' := match o, x with
    | .now, t => t = s.now ∧ s' = s
    | .query sql, x => ∃ answered, s.serve sql answered = some (s', x)

/-- What a run leaves: a kept table, and the partitions ahead when it has had the lock. -/
def RunPost (z : Zone) (s : Server) (r : Except QueryError Unit) : Prop :=
  s.Kept z ∧ (r = .ok () → s.acquired = true → s.Ahead z)

/-- What a part of a run under the lock leaves. -/
def LockedPost (z : Zone) (m : Int) (s : Server) (r : Except QueryError Unit) : Prop :=
  z.monthOf s.now = m ∧ s.Kept z ∧ (r = .ok () → s.Ahead z)

variable {s : Server}

theorem wp_now {f : Int → Maintenance α} {Q : Server → Except QueryError α → Prop}
    (hk : s.Kept z) (h : (f s.now).wp (upkeepEnv z) Q s) :
    (now.bind f).wp (upkeepEnv z) Q s := by
  refine ⟨⟨hk, trivial⟩, ?_⟩
  rintro x s' ⟨rfl, rfl⟩
  exact h

theorem wp_query {sql : Sql} {Q : Server → Except QueryError sql.Rows → Prop} (hk : s.Kept z)
    (hl : Datable (z.monthOf s.now) → Legal s.table sql)
    (h : ∀ answered s' x, s.serve sql answered = some (s', x) → Q s' x) :
    (query sql).wp (upkeepEnv z) Q s := by
  refine ⟨⟨hk, hl⟩, ?_⟩
  rintro x s' ⟨answered, hserve⟩
  exact Prog.wp_ended.mpr (h answered s' x hserve)

theorem nodup_eraseDups (names : List String) : names.eraseDups.Nodup := by
  induction hn : names.length using Nat.strongRecOn generalizing names with
  | ind n ih =>
    cases names with
    | nil => exact List.nodup_nil
    | cons name names =>
      subst hn
      rw [List.eraseDups_cons]
      have hlt := Nat.lt_succ_of_le (List.length_filter_le (fun b => !b == name) names)
      exact List.nodup_cons.mpr ⟨by simp [List.mem_eraseDups], ih _ hlt _ rfl⟩

theorem wp_getExistingPartitions {Q : Server → Except QueryError (List String) → Prop}
    (hk : s.Kept z) (herror : ∀ s' e, s'.now = s.now → s'.table = s.table → Q s' (.error e))
    (hok : ∀ s' existing, s'.now = s.now → s'.table = s.table → existing.Nodup →
      (∀ name, name ∈ existing ↔ name ∈ s.table.map (·.name)) → Q s' (.ok existing)) :
    (getExistingPartitions tableName).wp (upkeepEnv z) Q s := by
  refine Prog.wp_bind (wp_query hk (fun _ => trivial) ?_)
  intro answered s' x h
  obtain ⟨hnow, htable⟩ := Server.serve_reads h rfl
  cases x with
  | error e => exact herror s' e hnow htable
  | ok rows =>
    refine hok s' rows.eraseDups hnow htable (nodup_eraseDups _) ?_
    intro name
    rw [List.mem_eraseDups, (Server.serve_partitionNames h).mem_iff]

theorem wp_initialPartitioning (tableName : String) (h : s.table = [])
    (hm : 12000 ≤ z.monthOf s.now) :
    (initialPartitioning z tableName).wp (upkeepEnv z) (LockedPost z (z.monthOf s.now)) s := by
  have hk : s.Kept z := .inl h
  have hdefs (hdate : Datable (z.monthOf s.now)) := definitions_months z
    (monthsAhead (z.monthOf s.now)) (fun k hk => by
      have := mem_monthsAhead.mp hk
      omega) (endsAhead_initial hm hdate).dates
  have hlegal (hdate : Datable (z.monthOf s.now)) : Legal s.table (.partitionByRange tableName
      ((monthsAhead (z.monthOf s.now)).map (monthDefinition z))) := by
    have hends := endsAhead_initial hm hdate
    exact ⟨_, hdefs hdate, layout_monthTable hends.increasing hends.years⟩
  refine wp_now hk ?_
  dsimp only
  rw [partitionsAhead hm]
  refine wp_query hk hlegal ?_
  intro answered s' x hserve
  obtain ⟨hnow, htable⟩ := Server.serve_spec hserve
  refine ⟨by rw [hnow], ?_⟩
  by_cases hdate : Datable (z.monthOf s.now)
  · have halter : alter s.table (.partitionByRange tableName
        ((monthsAhead (z.monthOf s.now)).map (monthDefinition z))) =
        monthTable z (monthsAhead (z.monthOf s.now)) := by
      rw [alter, hdefs hdate]
      rfl
    rw [halter] at htable
    have hahead (ht : s'.table = monthTable z (monthsAhead (z.monthOf s.now))) : s'.Ahead z := by
      refine ⟨_, ?_, ht⟩
      rw [hnow]
      exact endsAhead_initial hm hdate
    cases x with
    | ok => exact ⟨(hahead htable.2).kept, fun _ => hahead htable.2⟩
    | error e =>
      refine ⟨?_, nofun⟩
      rcases htable.1 with ht | ht
      · exact hk.congr (by rw [hnow]) ht
      · exact (hahead ht.2).kept
  · have hnone : definitions ((missing [] (z.monthOf s.now)).map (monthDefinition z)) = none :=
      definitions_missing_late (by simp) hm hdate
    rw [missing_nil] at hnone
    have hillegal : ¬Legal s.table (.partitionByRange tableName
        ((monthsAhead (z.monthOf s.now)).map (monthDefinition z))) := by
      rintro ⟨new, hnew, _⟩
      cases hnone.symm.trans hnew
    obtain ⟨_, ht, e, rfl, _⟩ := Server.serve_refused hserve hillegal
    exact ⟨hk.congr (by rw [hnow]) ht, nofun⟩

/-- A statement that adds later months defines no name twice. -/
theorem not_duplicate_reorganizePmax (z : Zone) (tableName : String)
    (hnodup : (ks ++ ks').Nodup) (h0 : ∀ k ∈ ks ++ ks', 0 ≤ k) :
    ¬DuplicateName (monthTable z ks)
      (.reorganizePmax tableName (ks'.map (monthDefinition z))) := by
  intro hdup
  refine hdup ?_
  have hnames : (monthTable z ks).dropLast.map (·.name) ++
      (ks'.map (monthDefinition z)).map Prod.fst = (ks ++ ks').map monthName := by
    rw [dropLast_monthTable]
    simp [Function.comp_def, monthPartition, monthDefinition]
  rw [hnames]
  exact hnodup.map_on fun k hk k' hk' => monthName_injective (h0 k hk) (h0 k' hk')

/-- The statement that adds the months `ks'` is legal. -/
theorem legal_reorganizePmax (z : Zone) (tableName : String) (h : EndsAhead (ks ++ ks') m)
    (hlt : ∀ k ∈ ks, ∀ k' ∈ ks', k < k') :
    let sql : Sql := .reorganizePmax tableName (ks'.map (monthDefinition z))
    Legal (monthTable z ks) sql ∧ alter (monthTable z ks) sql = monthTable z (ks ++ ks') := by
  have hdefs := definitions_months z ks' (fun k hk => by
    have := h.years k (List.mem_append_right _ hk)
    omega) fun k hk => h.dates k (List.mem_append_right _ hk)
  have hlayout : Layout (monthTable z (ks ++ ks')) := layout_monthTable h.increasing h.years
  refine ⟨⟨_, hdefs, getLast?_monthTable, ?_, ?_⟩, ?_⟩
  · intro p hp q hq
    rw [dropLast_monthTable] at hp
    obtain ⟨k, hk, rfl⟩ := List.mem_map.mp hp
    obtain ⟨k', hk', rfl⟩ := List.mem_map.mp hq
    exact upperDay_lt (hlt k hk k' hk')
  · rw [splitPmax_monthTable]
    exact hlayout
  · rw [alter, hdefs, Option.map_some, Option.getD_some, splitPmax_monthTable]

theorem wp_ensureFuturePartitions (tableName : String) {existing : List String}
    (hks : EndsAhead ks m) (ht : s.table = monthTable z ks) (hle : m ≤ z.monthOf s.now)
    (hexisting : ∀ name, name ∈ existing ↔ name ∈ s.table.map (·.name)) :
    (ensureFuturePartitions z tableName existing).wp (upkeepEnv z)
      (LockedPost z (z.monthOf s.now)) s := by
  have hk : s.Kept z := .inr ⟨m, ks, hle, hks, ht⟩
  have hfirst := hks.years (m + (0 : Nat)) (hks.ahead 0 (Nat.zero_le _))
  have hm : 12000 ≤ z.monthOf s.now := by omega
  have hadd : ((List.range (API_LOG_AHEAD_PARTITIONS + 1)).map (partitionAhead z s.now)).filter
      (fun p => !existing.contains p.1) =
        (missing ks (z.monthOf s.now)).map (monthDefinition z) := by
    rw [partitionsAhead hm, List.filter_map, missing]
    congr 1
    refine List.filter_congr ?_
    intro k hk
    have hyear := (mem_monthsAhead.mp hk).1
    have hmem := monthName_mem_names (z := z) hks.years (k := k) (by omega)
    rw [← ht, ← hexisting] at hmem
    simp [hmem, monthDefinition]
  have hdup : ¬DuplicateName s.table (.reorganizePmax tableName
      ((missing ks (z.monthOf s.now)).map (monthDefinition z))) := by
    rw [ht]
    refine not_duplicate_reorganizePmax z tableName
      (nodup_missing (hks.increasing.imp Int.ne_of_lt)) ?_
    intro k hk
    rcases List.mem_append.mp hk with hk | hk
    · have hyear := hks.years k hk
      omega
    · have hyear := (mem_monthsAhead.mp (List.mem_of_mem_filter hk)).1
      omega
  have hlegal (hdate : Datable (z.monthOf s.now)) := by
    have hspec := missing_spec hks hle hdate
    exact legal_reorganizePmax z tableName hspec.1 hspec.2
  have hahead (hdate : Datable (z.monthOf s.now)) (s' : Server) (hnow : s'.now = s.now)
      (ht' : s'.table = monthTable z (ks ++ missing ks (z.monthOf s.now))) : s'.Ahead z :=
    ⟨_, hnow ▸ (missing_spec hks hle hdate).1, ht'⟩
  refine wp_now hk ?_
  dsimp only
  rw [hadd]
  split
  · next hempty =>
    have hnone : missing ks (z.monthOf s.now) = [] := by simpa using hempty
    have hdate : Datable (z.monthOf s.now) := by
      by_contra hlate
      have hlast := definitions_missing_late (z := z) hks.dates hm hlate
      rw [hnone] at hlast
      cases hlast
    have hstays : s.Ahead z := hahead hdate s rfl (by rw [hnone, List.append_nil, ht])
    exact ⟨rfl, hk, fun _ => hstays⟩
  · refine Prog.wp_tryCatch (wp_query hk (fun hdate => ht ▸ (hlegal hdate).1) ?_)
    intro answered s' x hserve
    obtain ⟨hnow, htable⟩ := Server.serve_spec hserve
    have hmonth : z.monthOf s'.now = z.monthOf s.now := by rw [hnow]
    by_cases hdate : Datable (z.monthOf s.now)
    · rw [ht, (hlegal hdate).2, ← ht] at htable
      cases x with
      | ok =>
        have hdone : s'.Ahead z := hahead hdate s' hnow htable.2
        exact ⟨hmonth, hdone.kept, fun _ => hdone⟩
      | error e =>
        dsimp only
        rw [if_neg fun he => hdup (htable.2 he)]
        refine ⟨hmonth, ?_, nofun⟩
        rcases htable.1 with ht' | ht'
        · exact hk.congr (by rw [hnow]) ht'
        · exact (hahead hdate s' hnow ht'.2).kept
    · have hillegal : ¬Legal s.table (.reorganizePmax tableName
          ((missing ks (z.monthOf s.now)).map (monthDefinition z))) := by
        rintro ⟨new, hnew, _⟩
        cases (definitions_missing_late (z := z) hks.dates hm hdate).symm.trans hnew
      obtain ⟨_, ht', e, rfl, he⟩ := Server.serve_refused hserve hillegal
      dsimp only
      rw [if_neg fun herr => hdup (he herr)]
      exact ⟨hmonth, hk.congr (by rw [hnow]) ht', nofun⟩

/-- The statement that drops expired partitions is legal, and leaves the months ahead. -/
theorem legal_dropPartition (tableName : String) {names : List String} (h : s.Ahead z)
    (hne : names ≠ []) (hnodup : names.Nodup)
    (hmem : ∀ name ∈ names, name ∈ s.table.map (·.name))
    (hexpired : ∀ name ∈ names, isExpired z (cutoff z s.now) name = true) :
    Legal s.table (.dropPartition tableName names) ∧ ∀ s' : Server, s'.now = s.now →
      s'.table = alter s.table (.dropPartition tableName names) → s'.Ahead z := by
  have hpmax : "pmax" ∉ names := fun hp => by
    have := hexpired _ hp
    rw [isExpired_pmax] at this
    cases this
  refine ⟨⟨hne, hnodup, hpmax, hmem⟩, ?_⟩
  intro s' hnow ht'
  obtain ⟨ks, hks, ht⟩ := h
  rw [ht, alter_dropPartition hpmax] at ht'
  exact ⟨_, hnow ▸ hks.remaining hexpired, ht'⟩

theorem wp_dropExpiredPartitions (tableName : String) (h : s.Ahead z) :
    (dropExpiredPartitions z tableName).wp (upkeepEnv z) (LockedPost z (z.monthOf s.now)) s := by
  refine wp_now h.kept (Prog.wp_bind (wp_getExistingPartitions h.kept ?_ ?_))
  · intro s' e hnow ht
    exact ⟨by rw [hnow], (h.congr hnow ht).kept, nofun⟩
  intro s₁ existing hnow ht hnodup hexisting
  have h₁ : s₁.Ahead z := h.congr hnow ht
  have hmonth : z.monthOf s₁.now = z.monthOf s.now := by rw [hnow]
  dsimp only
  split
  · exact ⟨hmonth, h₁.kept, fun _ => h₁⟩
  · next hne =>
    obtain ⟨hlegal, hdropped⟩ := legal_dropPartition tableName h₁
      (by simpa using hne : existing.filter (isExpired z (cutoff z s.now)) ≠ [])
      (hnodup.filter _)
      (fun name hname => by
        rw [ht]
        exact (hexisting name).mp (List.mem_of_mem_filter hname))
      (fun name hname => by
        rw [hnow]
        exact (List.mem_filter.mp hname).2)
    refine Prog.wp_tryCatch (wp_query h₁.kept (fun _ => hlegal) ?_)
    intro answered s' x hserve
    obtain ⟨hnow', htable⟩ := Server.serve_spec hserve
    have hmonth' : z.monthOf s'.now = z.monthOf s.now := by rw [hnow', hnow]
    have hahead : s'.Ahead z := by
      cases x with
      | ok => exact hdropped s' hnow' htable.2
      | error e =>
        rcases htable.1 with ht' | ht'
        · exact h₁.congr hnow' ht'
        · exact hdropped s' hnow' ht'.2
    cases x with
    | ok | error => exact ⟨hmonth', hahead.kept, fun _ => hahead⟩

/-- Both ways to provide for the months ahead go on with the expired partitions. -/
theorem wp_thenDrop {p : Maintenance Unit} (h : p.wp (upkeepEnv z) (LockedPost z m) s) :
    (p.bind fun _ => dropExpiredPartitions z tableName).wp (upkeepEnv z) (LockedPost z m) s := by
  refine Prog.wp_bind (h.mono ?_)
  intro s' r hpost
  cases r with
  | error e => exact hpost
  | ok =>
    have hwp := wp_dropExpiredPartitions tableName (hpost.2.2 rfl)
    rwa [hpost.1] at hwp

theorem wp_maintain (hk : s.Kept z) (hm : 12000 ≤ z.monthOf s.now) :
    (maintain z tableName).wp (upkeepEnv z) (LockedPost z (z.monthOf s.now)) s := by
  refine Prog.wp_bind (wp_getExistingPartitions hk ?_ ?_)
  · intro s' e hnow ht
    exact ⟨by rw [hnow], hk.congr (by rw [hnow]) ht, nofun⟩
  intro s₁ existing hnow ht hnodup hexisting
  have hmonth : z.monthOf s₁.now = z.monthOf s.now := by rw [hnow]
  dsimp only
  split
  · next hempty =>
    have hnone : s₁.table = [] := by
      rw [ht, ← List.map_eq_nil_iff (f := (·.name)), List.eq_nil_iff_forall_not_mem]
      intro name hname
      rw [List.isEmpty_iff.mp hempty] at hexisting
      cases (hexisting name).mpr hname
    have hwp := wp_initialPartitioning tableName hnone (by rw [hmonth]; exact hm)
    rw [hmonth] at hwp
    exact wp_thenDrop hwp
  · next hsome =>
    rcases hk with hnone | ⟨m, ks, hle, hks, ht₀⟩
    · refine absurd ?_ hsome
      rw [List.isEmpty_iff, List.eq_nil_iff_forall_not_mem]
      intro name hname
      rw [hexisting, hnone] at hname
      cases hname
    · rw [← ht] at hexisting
      have hwp := wp_ensureFuturePartitions tableName hks (ht.trans ht₀)
        (by rw [hmonth]; exact hle) hexisting
      rw [hmonth] at hwp
      exact wp_thenDrop hwp

theorem wp_releaseLock (hk : s.Kept z) {Q : Server → Except QueryError Unit → Prop}
    (h : ∀ s', s'.now = s.now → s'.table = s.table → Q s' (.ok ())) :
    releaseLock.wp (upkeepEnv z) Q s := by
  refine Prog.wp_tryCatch (wp_query hk (fun _ => trivial) ?_)
  intro answered s' x hserve
  obtain ⟨hnow, htable⟩ := Server.serve_reads hserve rfl
  cases x with
  | ok | error => exact h s' hnow htable

theorem wp_runMaintenance (hk : s.Kept z) (hm : 12000 ≤ z.monthOf s.now) :
    (runMaintenance z tableName).wp (upkeepEnv z) (RunPost z) s := by
  refine Prog.wp_bind (Prog.wp_bind (wp_query hk (fun _ => trivial) ?_))
  intro answered s₁ x hserve
  obtain ⟨hnow, htable⟩ := Server.serve_reads hserve rfl
  cases x with
  | error e => exact ⟨hk.congr (by rw [hnow]) htable, nofun⟩
  | ok acquired =>
    have hk₁ : s₁.Kept z := hk.congr (by rw [hnow]) htable
    have hgot := Server.serve_getLock hserve
    dsimp only [Prog.wp, Prog.pure_eq]
    split
    · next hnot =>
      refine ⟨hk₁, fun _ hacquired => ?_⟩
      rw [hgot] at hacquired
      rw [hacquired] at hnot
      cases hnot
    · refine Prog.wp_andFinally ((wp_maintain hk₁ (by rw [hnow]; exact hm)).mono ?_)
      intro s₂ r hpost
      refine wp_releaseLock hpost.2.1 ?_
      intro s₃ hnow₃ ht₃
      exact ⟨hpost.2.1.congr (by rw [hnow₃]) ht₃, fun hr _ => (hpost.2.2 hr).congr hnow₃ ht₃⟩

/-! ## All runs -/

namespace Upkeep

variable {s s' : Upkeep} {events : List Event}

/-- The rest of the run gets what it needs. -/
def Inv (z : Zone) (s : Upkeep) : Prop := s.run.wp (upkeepEnv z) (RunPost z) s.server

theorem Inv.kept (h : s.Inv z) : s.server.Kept z := by
  obtain ⟨server, run⟩ := s
  cases run with
  | ret | raise => exact h.1
  | call => exact h.1.1

theorem Inv.step {e : Event} (h : s.Inv z) (hs : step z tableName s e = some s') : s'.Inv z := by
  cases e with
  | start t =>
    simp only [Upkeep.step, Option.ite_none_right_eq_some, Option.some.injEq] at hs
    obtain ⟨⟨_, hmonth, hyear, _⟩, rfl⟩ := hs
    exact wp_runMaintenance (h.kept.congr hmonth rfl) hyear
  | clock =>
    obtain ⟨server, run⟩ := s
    simp only [Upkeep.step] at hs
    split at hs
    · cases hs
      exact h.2 _ _ ⟨rfl, rfl⟩
    · cases hs
  | query answered =>
    obtain ⟨server, run⟩ := s
    simp only [Upkeep.step] at hs
    split at hs
    · obtain ⟨⟨server', x⟩, hserve, rfl⟩ := Option.map_eq_some_iff.mp hs
      exact h.2 _ _ ⟨answered, hserve⟩
    · cases hs
  | abort =>
    cases hs
    exact ⟨h.kept, nofun⟩

theorem Inv.init (t : Int) : (init t).Inv z := ⟨.inl rfl, nofun⟩

/-- **The partitions of the table over any sequence of runs**: they are a legal list, every
statement that is issued up to August 9999 is legal, and a run that has got the lock and ended
without an error has provided for its month and the months ahead. -/
theorem partitions_kept (z : Zone) (tableName : String) (t : Int)
    (h : Run.exec (step z tableName) (init t) events = some s) :
    (s.server.table = [] ∨ Layout s.server.table) ∧
      (∀ sql, s.Issues sql → Datable (z.monthOf s.server.now) → Legal s.server.table sql) ∧
      (s.Succeeded → Provides z s.server.table (z.monthOf s.server.now)) := by
  have hinv : s.Inv z := Run.invariant Inv.step h (Inv.init t)
  refine ⟨?_, ?_, ?_⟩
  · rcases hinv.kept with h | ⟨m, ks, _, hks, h⟩
    · exact .inl h
    · rw [h]
      exact .inr (layout_monthTable hks.increasing hks.years)
  · rintro sql ⟨k, hrun⟩
    rw [Inv, hrun] at hinv
    exact hinv.1.2
  · rintro ⟨hrun, hacquired⟩
    rw [Inv, hrun] at hinv
    obtain ⟨ks, hks, h⟩ := hinv.2 rfl hacquired
    rw [h]
    exact hks.provides

/-- Noon of 9999-09-01 in UTC. -/
def september9999 : Int := 253391803200000

/-- The run of a September has got the lock and the names of the partitions: there are none. -/
def lateEvents : List Event :=
  [.start september9999, .query (.done (some 1) []), .query (.done none []), .clock]

/-- In September 9999 the service asks for a partition of December, whose bound is the first day of
the year 10000. MySQL has no such date. -/
theorem not_legal_late : ∃ s sql, Run.exec (step utc "t_api_log") (init 0) lateEvents = some s ∧
    12 * 1000 ≤ utc.monthOf s.server.now ∧ utc.monthOf s.server.now < 12 * 10000 ∧
    s.Issues sql ∧ ¬Legal s.server.table sql := by
  let s := (Run.exec (step utc "t_api_log") (init 0) lateEvents).get (by decide +kernel)
  have h : Run.exec (step utc "t_api_log") (init 0) lateEvents = some s := (Option.some_get _).symm
  refine ⟨s, .partitionByRange "t_api_log" [("p999909", "9999-10-01"), ("p999910", "9999-11-01"),
    ("p999911", "9999-12-01"), ("p999912", "10000-01-01")], h, ?_, ?_, ⟨_, rfl⟩, ?_⟩
  · decide +kernel
  · decide +kernel
  · decide +kernel

/-- Noon of 2024-01-31 and of 2026-03-01 in UTC. -/
def endOfJanuary : Int := 1706702400000

def firstOfMarch : Int := 1772366400000

def done (rows : List String) : Event := .query (.done (some 1) rows)

/-- The table is partitioned; the next run comes after more than two years. -/
def sampleEvents : List Event :=
  [.start endOfJanuary, done [], done [], .clock, done [], .clock,
    done ["p202401", "p202402", "p202403", "p202404", "pmax"], done [],
    .start firstOfMarch, done [], done ["pmax", "p202404", "p202403", "p202402", "p202401"], .clock,
    done [], .clock, done ["p202401", "p202402", "p202403", "p202404", "p202603", "p202604",
      "p202605", "p202606", "pmax"], done [], done []]

theorem partitions_kept_sample : ∃ s,
    Run.exec (step utc "t_api_log") (init 0) sampleEvents = some s ∧ s.Succeeded ∧
    s.server.table.map (·.name) =
      ["p202403", "p202404", "p202603", "p202604", "p202605", "p202606", "pmax"] ∧
    Provides utc s.server.table (utc.monthOf s.server.now) := by
  let s := (Run.exec (step utc "t_api_log") (init 0) sampleEvents).get (by decide +kernel)
  have h : Run.exec (step utc "t_api_log") (init 0) sampleEvents = some s :=
    (Option.some_get _).symm
  have hsucceeded : s.Succeeded := ⟨by rfl, by decide +kernel⟩
  exact ⟨s, h, hsucceeded, by decide +kernel,
    (partitions_kept utc "t_api_log" 0 h).2.2 hsucceeded⟩

end Upkeep

end NestHarness
