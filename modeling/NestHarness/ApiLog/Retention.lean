import NestHarness.ApiLog.MonthNames

/-!
# The retention of monthly partitions

The cutoff of `dropExpiredPartitions` is the month of the run minus the retention, or one month more
on the 29th of February: `setMonth` keeps the day of the month, which the February two years earlier
does not have, and moves on to March.
-/

namespace NestHarness

open Calendar Maintenance

namespace Maintenance

/-! ## The statements of a run -/

/-- The answer of a server on which everything succeeds and the table has the partitions `rows`. -/
def answer (rows : List String) : (sql : Sql) → sql.Rows
  | .getLock => some 1
  | .partitionNames _ => rows
  | .releaseLock | .partitionByRange _ _ | .reorganizePmax _ _ | .dropPartition _ _ => ()

/-- The statements that a run at `now` issues. -/
def issued (now : Int) (rows : List String) : Maintenance α → List Sql
  | .ret _ | .raise _ => []
  | .call .now k => issued now rows (k now)
  | .call (.query sql) k => sql :: issued now rows (k (.ok (answer rows sql)))

def Sql.dropped : Sql → List String
  | .dropPartition _ names => names
  | .getLock | .releaseLock | .partitionNames _ | .partitionByRange _ _ | .reorganizePmax _ _ => []

variable (z : Zone) (tableName : String)

/-- The partitions `dropExpiredPartitions` drops at `now`. -/
def dropped (now : Int) (rows : List String) : List String :=
  (issued now rows (dropExpiredPartitions z tableName)).flatMap Sql.dropped

/-- The month before which partitions are dropped. -/
def cutoffMonth (now : Int) : Int :=
  monthOfDay (setMonth (z.dayOf now) (z.getMonth now - API_LOG_RETENTION_MONTHS))

/-- The 29th of February. -/
def LeapDay (now : Int) : Prop := z.getMonth now = 1 ∧ z.getDate now = 29

instance (now : Int) : Decidable (LeapDay z now) :=
  inferInstanceAs (Decidable (z.getMonth now = 1 ∧ z.getDate now = 29))

variable {z tableName} {now now' : Int} {rows : List String}

theorem issued_dropExpiredPartitions : issued now rows (dropExpiredPartitions z tableName) =
    .partitionNames tableName ::
      if (rows.eraseDups.filter (isExpired z (cutoff z now))).isEmpty then []
      else [.dropPartition tableName (rows.eraseDups.filter (isExpired z (cutoff z now)))] := by
  have hissued : issued now rows (dropExpiredPartitions z tableName) =
      .partitionNames tableName :: issued now rows
        (if (rows.eraseDups.filter (isExpired z (cutoff z now))).isEmpty then pure ()
        else tryCatch (query (.dropPartition tableName
          (rows.eraseDups.filter (isExpired z (cutoff z now))))) fun _ => pure ()) := rfl
  rw [hissued]
  split <;> rfl

theorem mem_dropped {name : String} :
    name ∈ dropped z tableName now rows ↔ name ∈ rows ∧ isExpired z (cutoff z now) name := by
  have hfilter : dropped z tableName now rows =
      rows.eraseDups.filter (isExpired z (cutoff z now)) := by
    rw [dropped, issued_dropExpiredPartitions]
    split
    · next hempty => exact (List.isEmpty_iff.mp hempty).symm
    · simp [Sql.dropped]
  rw [hfilter, List.mem_filter, List.mem_eraseDups]

/-! ## The cutoff -/

theorem cutoff_eq : cutoff z now = z.firstOf (cutoffMonth z now) := rfl

theorem monthOfDay_add {k i : Int} (h₀ : 0 ≤ i) (h : i < daysInMonth k) :
    monthOfDay (firstDay k + i) = k := by
  refine Int.le_antisymm ?_ (firstDay_le_iff.mp (by omega))
  rw [← Int.lt_add_one_iff, ← Int.not_le, ← firstDay_le_iff, firstDay_succ]
  omega

theorem daysInMonth_two_years {k : Int} (h : k % 12 ≠ 1) :
    daysInMonth (k - 24) = daysInMonth k := by
  have hm : (k - 24) % 12 = k % 12 := by omega
  simp only [daysInMonth, hm, if_neg h]

theorem february_two_years {k : Int} (h : k % 12 = 1) : 28 ≤ daysInMonth k ∧
    daysInMonth k ≤ 29 ∧ (daysInMonth k = 29 → daysInMonth (k - 24) = 28) := by
  have hm : (k - 24) % 12 = 1 := by omega
  simp only [daysInMonth, hm, h, if_true]
  by_cases hl : isLeap (k / 12)
  · have hl' : ¬isLeap ((k - 24) / 12) := by
      simp only [isLeap] at hl ⊢
      omega
    simp [hl, hl']
  · simp [hl]

theorem leapDay_iff : LeapDay z now ↔
    z.monthOf now % 12 = 1 ∧ z.dayOf now = firstDay (z.monthOf now) + 28 := by
  simp only [LeapDay, Zone.getMonth, Zone.getDate]
  omega

theorem cutoffMonth_eq (now : Int) : cutoffMonth z now =
    z.monthOf now - API_LOG_RETENTION_MONTHS + if LeapDay z now then 1 else 0 := by
  obtain ⟨hle, hlt⟩ : firstDay (z.monthOf now) ≤ z.dayOf now ∧
      z.dayOf now < firstDay (z.monthOf now + 1) := monthOfDay_spec (z.dayOf now)
  rw [firstDay_succ] at hlt
  have hset : setMonth (z.dayOf now) (z.getMonth now - API_LOG_RETENTION_MONTHS) =
      firstDay (z.monthOf now - 24) + (z.dayOf now - firstDay (z.monthOf now)) := by
    rw [setMonth, ← Zone.monthOf, Zone.getMonth, API_LOG_RETENTION_MONTHS]
    congr 2
    omega
  rw [cutoffMonth, hset, API_LOG_RETENTION_MONTHS]
  by_cases hleap : LeapDay z now
  · obtain ⟨hfeb, hday⟩ := leapDay_iff.mp hleap
    obtain ⟨_, h29, hshort⟩ := february_two_years hfeb
    -- the 29th day of a month of 28 days is the first of the next
    have hmarch : firstDay (z.monthOf now - 24) + (z.dayOf now - firstDay (z.monthOf now)) =
        firstDay (z.monthOf now - 24 + 1) + 0 := by
      rw [firstDay_succ, hshort (by omega)]
      omega
    have hlen := (daysInMonth_pos (z.monthOf now - 24 + 1)).1
    rw [hmarch, monthOfDay_add (Int.le_refl 0) (by omega), if_pos hleap]
  · rw [if_neg hleap, Int.add_zero]
    rw [leapDay_iff] at hleap
    refine monthOfDay_add (by omega) ?_
    by_cases hfeb : z.monthOf now % 12 = 1
    · have h28 := (daysInMonth_pos (z.monthOf now - 24)).1
      obtain ⟨_, h29, _⟩ := february_two_years hfeb
      omega
    · rw [daysInMonth_two_years hfeb]
      omega

theorem cutoff_eq_iff (h : z.monthOf now = z.monthOf now') :
    cutoff z now = cutoff z now' ↔ (LeapDay z now ↔ LeapDay z now') := by
  have hinj : cutoff z now = cutoff z now' ↔ cutoffMonth z now = cutoffMonth z now' := by
    rw [cutoff_eq, cutoff_eq]
    exact ⟨fun he => by simpa using congrArg z.monthOf he, congrArg z.firstOf⟩
  rw [hinj, cutoffMonth_eq, cutoffMonth_eq, h]
  by_cases hleap : LeapDay z now <;> by_cases hleap' : LeapDay z now' <;> simp [hleap, hleap']

/-! ## Expired partitions -/

/-- A month that a name of the form `pYYYYMM` can be of. -/
structure IsMonth (year month : Nat) : Prop where
  year : year < 10000
  one_le : 1 ≤ month
  le : month ≤ 12

/-- The number of a month of the calendar. -/
def monthNumber (year month : Nat) : Int := 12 * year + month - 1

/-- The retention of the month has run out. -/
def PastRetention (z : Zone) (now : Int) (year month : Nat) : Prop :=
  monthNumber year month < z.monthOf now - API_LOG_RETENTION_MONTHS

instance (year month : Nat) : Decidable (PastRetention z now year month) :=
  inferInstanceAs (Decidable (monthNumber year month < z.monthOf now - API_LOG_RETENTION_MONTHS))

/-- The month is misjudged at `now`: it is the first month of the retention and today is the 29th
of February, or it is past the retention, of one of the years 0 to 99, and 1900 years later it would
be retained. -/
def Misjudged (z : Zone) (now : Int) (year month : Nat) : Prop :=
  if year ≤ 99 then PastRetention z now year month ∧
    cutoffMonth z now ≤ monthNumber (1900 + year) month
  else LeapDay z now ∧ monthNumber year month = z.monthOf now - API_LOG_RETENTION_MONTHS

theorem isExpired_pmax (t : Int) : isExpired z t "pmax" = false := rfl

/-- The year that JavaScript reads. -/
def readYear (year : Nat) : Nat := if year ≤ 99 then 1900 + year else year

theorem isExpired_iff {year month : Nat} (h : IsMonth year month) :
    isExpired z (cutoff z now) (monthlyName year month) = true ↔
      monthNumber (readYear year) month < cutoffMonth z now := by
  have hpmax : monthlyName year month ≠ "pmax" := by
    intro he
    have hparse := parse_monthlyName (z := z) h.year (Nat.lt_of_le_of_lt h.le (by decide))
    rw [he] at hparse
    cases hparse
  have hdate : z.newDate year (month - 1) = z.firstOf (monthNumber (readYear year) month) := by
    rw [Zone.newDate, monthNumber, readYear]
    congr 1
    split <;> split <;> omega
  have hbne : (monthlyName year month != "pmax") = true := bne_iff_ne.mpr hpmax
  rw [isExpired, hbne, parse_monthlyName h.year (Nat.lt_of_le_of_lt h.le (by decide)), hdate,
    Bool.true_and, Option.any_some, decide_eq_true_iff, cutoff_eq, Zone.firstOf_lt_iff]

theorem expired_iff {year month : Nat} (h : IsMonth year month) :
    (isExpired z (cutoff z now) (monthlyName year month) = true ↔ PastRetention z now year month) ↔
      ¬Misjudged z now year month := by
  rw [isExpired_iff h, Misjudged, PastRetention, readYear, cutoffMonth_eq]
  simp only [monthNumber]
  by_cases hleap : LeapDay z now <;> split <;> simp [hleap] <;> omega

/-- **Which partitions are dropped**: `dropExpiredPartitions` drops exactly the months past the
retention, and never `pmax`, just when it misjudges none of the months that have a partition; two
runs in one month have one cutoff just when both or neither is on a 29th of February. -/
theorem dropped_iff (z : Zone) (tableName : String) (now : Int) (rows : List String) :
    (("pmax" ∉ dropped z tableName now rows ∧
      ∀ year month, IsMonth year month → monthlyName year month ∈ rows →
        (monthlyName year month ∈ dropped z tableName now rows ↔ PastRetention z now year month)) ↔
      ∀ year month, IsMonth year month → monthlyName year month ∈ rows →
        ¬Misjudged z now year month) ∧
    ∀ now', z.monthOf now = z.monthOf now' →
      (cutoff z now = cutoff z now' ↔ (LeapDay z now ↔ LeapDay z now')) := by
  refine ⟨?_, fun now' h => cutoff_eq_iff h⟩
  have hpmax : "pmax" ∉ dropped z tableName now rows := by
    rw [mem_dropped, isExpired_pmax]
    simp
  have hmem {year month : Nat} (h : IsMonth year month) (hrow : monthlyName year month ∈ rows) :
      (monthlyName year month ∈ dropped z tableName now rows ↔ PastRetention z now year month) ↔
        ¬Misjudged z now year month := by
    rw [mem_dropped, and_iff_right hrow]
    exact expired_iff h
  constructor
  · intro h year month hm hrow
    exact (hmem hm hrow).mp (h.2 year month hm hrow)
  · intro h
    exact ⟨hpmax, fun year month hm hrow => (hmem hm hrow).mpr (h year month hm hrow)⟩

/-- Noon of 2024-02-29 in UTC. -/
def leapNoon : Int := 1709208000000

/-- On the 29th of February 2024 the logs of February 2022 are dropped, which a run on the day
before keeps. -/
theorem leap_day_drops : LeapDay utc leapNoon ∧ IsMonth 2022 2 ∧
    "p202202" = monthlyName 2022 2 ∧
    "p202202" ∈ dropped utc "t_api_log" leapNoon ["p202202", "p202203", "pmax"] ∧
    ¬PastRetention utc leapNoon 2022 2 ∧
    utc.monthOf leapNoon = utc.monthOf (leapNoon - msPerDay) ∧
    dropped utc "t_api_log" (leapNoon - msPerDay) ["p202202", "p202203", "pmax"] = [] ∧
    cutoff utc leapNoon ≠ cutoff utc (leapNoon - msPerDay) := by
  refine ⟨?_, ⟨?_, ?_, ?_⟩, ?_, ?_, ?_, ?_, ?_, ?_⟩
  all_goals decide +kernel

end Maintenance

end NestHarness
