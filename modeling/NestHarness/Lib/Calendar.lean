import Mathlib.Logic.Basic

/-!
# Calendar months

Days are numbered from 0000-01-01 of the proleptic Gregorian calendar and months from January of
year 0, so that month `k` is month `k % 12` of year `k / 12`. A time zone relates local days to
instants, counted in milliseconds from 1970-01-01 00:00 UTC.
-/

namespace Calendar

def isLeap (year : Int) : Prop := year % 4 = 0 ∧ (year % 100 ≠ 0 ∨ year % 400 = 0)

instance (year : Int) : Decidable (isLeap year) :=
  inferInstanceAs (Decidable (year % 4 = 0 ∧ (year % 100 ≠ 0 ∨ year % 400 = 0)))

def daysInMonth (k : Int) : Int :=
  if k % 12 = 1 then if isLeap (k / 12) then 29 else 28
  else if k % 12 = 3 ∨ k % 12 = 5 ∨ k % 12 = 8 ∨ k % 12 = 10 then 30
  else 31

/-- The days before a year. -/
def daysBeforeYear (year : Int) : Int :=
  365 * year + (year + 3) / 4 - (year + 99) / 100 + (year + 399) / 400

/-- The days of a common year before its month `m`. -/
def daysBeforeMonth (m : Int) : Int := if m < 2 then 31 * m else (153 * m - 9) / 5

/-- The number of the first day of a month. -/
def firstDay (k : Int) : Int :=
  daysBeforeYear (k / 12) + daysBeforeMonth (k % 12) + if 2 ≤ k % 12 ∧ isLeap (k / 12) then 1 else 0

/-- The number of days of a year. -/
theorem daysBeforeYear_succ (year : Int) :
    daysBeforeYear (year + 1) = daysBeforeYear year + if isLeap year then 366 else 365 := by
  by_cases h : isLeap year
  · rw [if_pos h]
    simp only [isLeap] at h
    simp only [daysBeforeYear]
    omega
  · rw [if_neg h]
    simp only [isLeap] at h
    simp only [daysBeforeYear]
    omega

theorem firstDay_succ (k : Int) : firstDay (k + 1) = firstDay k + daysInMonth k := by
  obtain ⟨y, m, hk, hm, hm'⟩ : ∃ y m, k = 12 * y + m ∧ 0 ≤ m ∧ m < 12 :=
    ⟨k / 12, k % 12, by omega, by omega, by omega⟩
  have hy : k / 12 = y := by omega
  have hr : k % 12 = m := by omega
  by_cases h : m = 11
  · have hy' : (k + 1) / 12 = y + 1 := by omega
    have hr' : (k + 1) % 12 = 0 := by omega
    simp only [firstDay, daysInMonth, daysBeforeMonth, hy, hr, hy', hr', daysBeforeYear_succ, h]
    by_cases hl : isLeap y <;> simp [hl] <;> omega
  · have hy' : (k + 1) / 12 = y := by omega
    have hr' : (k + 1) % 12 = m + 1 := by omega
    simp only [firstDay, daysInMonth, daysBeforeMonth, hy, hr, hy', hr']
    by_cases hl : isLeap y <;> simp only [hl, and_true, and_false, if_true, if_false] <;> grind

theorem daysInMonth_pos (k : Int) : 28 ≤ daysInMonth k ∧ daysInMonth k ≤ 31 := by
  unfold daysInMonth
  split
  · split <;> omega
  · split <;> omega

theorem firstDay_lt {k k' : Int} (h : k < k') : firstDay k < firstDay k' := by
  obtain ⟨n, rfl⟩ := Int.le.dest (Int.add_one_le_iff.mpr h)
  induction n with
  | zero =>
    have hpos := (daysInMonth_pos k).1
    rw [Int.natCast_zero, Int.add_zero, firstDay_succ]
    omega
  | succ n ih =>
    have hpos := (daysInMonth_pos (k + 1 + n)).1
    rw [Int.natCast_succ, ← Int.add_assoc, firstDay_succ]
    have hlt := ih (by omega)
    omega

theorem firstDay_le {k k' : Int} (h : k ≤ k') : firstDay k ≤ firstDay k' := by
  rcases Int.lt_or_eq_of_le h with h | rfl
  · exact Int.le_of_lt (firstDay_lt h)
  · exact Int.le_refl _

theorem lt_of_firstDay_lt {k k' : Int} (h : firstDay k < firstDay k') : k < k' :=
  Int.not_le.mp fun hle => Int.not_le.mpr h (firstDay_le hle)

/-- A month starts within four days of its average position in the 400-year cycle. -/
theorem firstDay_near (k : Int) :
    146097 * k - 4 * 4800 ≤ 4800 * firstDay k ∧ 4800 * firstDay k ≤ 146097 * k + 4 * 4800 := by
  have hl : (0 : Int) ≤ if 2 ≤ k % 12 ∧ isLeap (k / 12) then 1 else 0 := by split <;> decide
  have hl' : (if 2 ≤ k % 12 ∧ isLeap (k / 12) then (1 : Int) else 0) ≤ 1 := by split <;> decide
  simp only [firstDay, daysBeforeYear, daysBeforeMonth]
  generalize (if 2 ≤ k % 12 ∧ isLeap (k / 12) then (1 : Int) else 0) = l at hl hl' ⊢
  split <;> omega

/-- The month a day is in. -/
def monthOfDay (d : Int) : Int :=
  let k := 4800 * d / 146097
  if firstDay (k + 1) ≤ d then k + 1 else if firstDay k ≤ d then k else k - 1

theorem monthOfDay_spec (d : Int) :
    firstDay (monthOfDay d) ≤ d ∧ d < firstDay (monthOfDay d + 1) := by
  simp only [monthOfDay]
  have h₁ := firstDay_near (4800 * d / 146097 - 1)
  have h₂ := firstDay_near (4800 * d / 146097 + 1 + 1)
  split
  · omega
  · split
    · omega
    · rw [Int.sub_add_cancel]
      omega

/-- The months that have begun by a day are those up to its own. -/
theorem firstDay_le_iff {k d : Int} : firstDay k ≤ d ↔ k ≤ monthOfDay d := by
  obtain ⟨h, h'⟩ := monthOfDay_spec d
  constructor
  · intro hk
    exact Int.lt_add_one_iff.mp (lt_of_firstDay_lt (by omega))
  · intro hk
    exact Int.le_trans (firstDay_le hk) h

/-- The number of 1970-01-01. -/
def epochDay : Int := 719528

def msPerDay : Int := 86400000

/-! ## Time zones -/

/-- A time zone: the local day of an instant and the first instant of a local day. -/
structure Zone where
  dayOf : Int → Int
  startOf : Int → Int
  /-- A local day has begun by an instant just when it is not after the day of the instant. -/
  startOf_le : ∀ n t, startOf n ≤ t ↔ n ≤ dayOf t
  /-- Local time is less than a day away from UTC. -/
  dayOf_near : ∀ t, epochDay + t / msPerDay - 1 ≤ dayOf t ∧ dayOf t ≤ epochDay + t / msPerDay + 1

def utc : Zone where
  dayOf t := epochDay + t / msPerDay
  startOf n := (n - epochDay) * msPerDay
  startOf_le n t := by
    simp only [epochDay, msPerDay]
    omega
  dayOf_near t := by omega

namespace Zone

variable (z : Zone)

def monthOf (t : Int) : Int := monthOfDay (z.dayOf t)

/-- The first instant of a month. -/
def firstOf (k : Int) : Int := z.startOf (firstDay k)

theorem firstOf_le_iff {k t : Int} : z.firstOf k ≤ t ↔ k ≤ z.monthOf t := by
  rw [firstOf, z.startOf_le, firstDay_le_iff, monthOf]

theorem lt_firstOf_iff {k t : Int} : t < z.firstOf k ↔ z.monthOf t < k := by
  rw [← Int.not_le, firstOf_le_iff, Int.not_le]

theorem firstOf_monthOf_le (t : Int) : z.firstOf (z.monthOf t) ≤ t :=
  z.firstOf_le_iff.mpr (Int.le_refl _)

theorem lt_firstOf_succ (t : Int) : t < z.firstOf (z.monthOf t + 1) :=
  z.lt_firstOf_iff.mpr (Int.lt_succ _)

theorem monthOf_mono {t t' : Int} (h : t ≤ t') : z.monthOf t ≤ z.monthOf t' :=
  z.firstOf_le_iff.mp (Int.le_trans (z.firstOf_monthOf_le t) h)

theorem firstOf_mono {k k' : Int} (h : k ≤ k') : z.firstOf k ≤ z.firstOf k' :=
  z.firstOf_le_iff.mpr (Int.le_trans h (z.firstOf_le_iff.mp (Int.le_refl _)))

/-- A local day begins at most two days after the one before it has ended. -/
theorem dayOf_startOf (n : Int) : n ≤ z.dayOf (z.startOf n) ∧ z.dayOf (z.startOf n) ≤ n + 2 := by
  refine ⟨(z.startOf_le _ _).mp (Int.le_refl _), ?_⟩
  have hnear := z.dayOf_near ((n + 1 - epochDay) * msPerDay)
  rw [Int.mul_ediv_cancel _ (by decide)] at hnear
  have hbegun : z.startOf n ≤ (n + 1 - epochDay) * msPerDay := (z.startOf_le _ _).mpr (by omega)
  have hstart : z.startOf (z.dayOf (z.startOf n)) ≤ z.startOf n :=
    (z.startOf_le _ _).mpr (Int.le_refl _)
  have hday := (z.startOf_le _ _).mp (Int.le_trans hstart hbegun)
  omega

@[simp] theorem monthOf_firstOf (k : Int) : z.monthOf (z.firstOf k) = k := by
  refine Int.le_antisymm ?_ (z.firstOf_le_iff.mp (Int.le_refl _))
  rw [← Int.lt_add_one_iff, monthOf, ← Int.not_le, ← firstDay_le_iff, firstDay_succ]
  have hday := (z.dayOf_startOf (firstDay k)).2
  have hlen := (daysInMonth_pos k).1
  rw [firstOf]
  omega

theorem firstOf_lt_iff {k k' : Int} : z.firstOf k < z.firstOf k' ↔ k < k' := by
  rw [lt_firstOf_iff, monthOf_firstOf]

/-! ### Dates of JavaScript in local time -/

def getFullYear (t : Int) : Int := z.monthOf t / 12

def getMonth (t : Int) : Int := z.monthOf t % 12

def getDate (t : Int) : Int := z.dayOf t - firstDay (z.monthOf t) + 1

/-- `new Date(year, month, 1)`: a month outside of `0..11` moves to another year, and a year of two
digits is one of the twentieth century. -/
def newDate (year month : Int) : Int :=
  z.firstOf (12 * (if 0 ≤ year ∧ year ≤ 99 then 1900 + year else year) + month)

/-- The first of the month `i` months after one whose year has three digits or more. -/
theorem newDate_of_month {k : Int} (h : 1200 ≤ k) (i : Int) :
    z.newDate (k / 12) (k % 12 + i) = z.firstOf (k + i) := by
  rw [newDate, if_neg (by omega)]
  congr 1
  omega

theorem getFullYear_since_epoch {t : Int} (h : 0 ≤ t) : 1969 ≤ z.getFullYear t := by
  have hd : firstDay (12 * 1969 + 11) ≤ z.dayOf t := by
    have h₁ := (z.dayOf_near t).1
    have h₂ : 0 ≤ t / msPerDay := Int.ediv_nonneg h (by decide)
    have h₃ : firstDay (12 * 1969 + 11) = epochDay - 31 := rfl
    omega
  have hk := firstDay_le_iff.mp hd
  rw [getFullYear, monthOf]
  omega

/-- The first of the month `i` months after that of an instant. -/
theorem newDate_getMonth {t : Int} (h : 0 ≤ t) (i : Int) :
    z.newDate (z.getFullYear t) (z.getMonth t + i) = z.firstOf (z.monthOf t + i) := by
  have hy := z.getFullYear_since_epoch h
  rw [getFullYear] at hy
  exact z.newDate_of_month (by omega) i

end Zone

end Calendar
