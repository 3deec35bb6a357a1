import NestHarness.ApiLog.MonthNames

/-!
# RANGE partitions of MySQL

The partitions of a table, in their order, which `ALTER TABLE` statements on them are legal and what
they do. The upper bound of a partition is the first day that is not in it.
-/

namespace NestHarness

open Calendar Maintenance

/-- `VALUES LESS THAN`: the bound of a partition. -/
inductive PartitionBound where
  | day (n : Int)
  | maxvalue
deriving DecidableEq

/-- The order of bounds; `MAXVALUE` is above every day. -/
def PartitionBound.Below : PartitionBound → PartitionBound → Prop
  | .day n, .day n' => n < n'
  | .day _, .maxvalue => True
  | .maxvalue, _ => False

instance : DecidableRel PartitionBound.Below
  | .day n, .day n' => inferInstanceAs (Decidable (n < n'))
  | .day _, .maxvalue => isTrue trivial
  | .maxvalue, _ => isFalse id

structure Partition where
  name : String
  bound : PartitionBound
deriving DecidableEq

/-- `PARTITION pmax VALUES LESS THAN MAXVALUE` -/
def pmax : Partition := ⟨"pmax", .maxvalue⟩

/-- `TO_DAYS` of a date `Y-MM-DD`. A date after the year 9999 is none, and gives `NULL`. -/
def toDays (date : String) : Option Int :=
  match (date.toList.splitOn '-').map parseDigits with
  | [year, month, day] =>
    let k := 12 * year + month - 1
    if year ≤ 9999 ∧ 1 ≤ month ∧ month ≤ 12 ∧ 1 ≤ day ∧ day ≤ daysInMonth k then
      some (firstDay k + day - 1)
    else none
  | _ => none

/-- The partitions a statement defines, without `pmax`. -/
def definitions : List (String × String) → Option (List Partition)
  | [] => some []
  | (name, date) :: rest => do
    let day ← toDays date
    let partitions ← definitions rest
    return ⟨name, .day day⟩ :: partitions

/-- A legal list of partitions. -/
structure Layout (table : List Partition) : Prop where
  names : (table.map (·.name)).Nodup
  bounds : table.Pairwise (·.bound.Below ·.bound)
  last : table.getLast? = some pmax

instance (table : List Partition) : Decidable (Layout table) :=
  decidable_of_iff ((table.map (·.name)).Nodup ∧ table.Pairwise (·.bound.Below ·.bound) ∧
      table.getLast? = some pmax)
    ⟨fun ⟨h₁, h₂, h₃⟩ => ⟨h₁, h₂, h₃⟩, fun ⟨h₁, h₂, h₃⟩ => ⟨h₁, h₂, h₃⟩⟩

/-- `table` with `pmax` split into the partitions `new` and `pmax`. -/
def splitPmax (table new : List Partition) : List Partition := table.dropLast ++ (new ++ [pmax])

/-- The statement is legal for the table. A split of `pmax` needs that `pmax` is the last partition
and that each new bound is above every other one that exists. -/
def Legal (table : List Partition) : Sql → Prop
  | .partitionByRange _ partitions =>
    ∃ new ∈ definitions partitions, Layout (new ++ [pmax])
  | .reorganizePmax _ partitions =>
    ∃ new ∈ definitions partitions, table.getLast? = some pmax ∧
      (∀ p ∈ table.dropLast, ∀ q ∈ new, p.bound.Below q.bound) ∧ Layout (splitPmax table new)
  | .dropPartition _ names =>
    names ≠ [] ∧ names.Nodup ∧ "pmax" ∉ names ∧ ∀ name ∈ names, name ∈ table.map (·.name)
  | .getLock | .releaseLock | .partitionNames _ => True

instance (table : List Partition) : (sql : Sql) → Decidable (Legal table sql)
  | .partitionByRange _ partitions =>
    inferInstanceAs (Decidable (∃ new ∈ definitions partitions, Layout (new ++ [pmax])))
  | .reorganizePmax _ partitions =>
    inferInstanceAs (Decidable (∃ new ∈ definitions partitions, table.getLast? = some pmax ∧
      (∀ p ∈ table.dropLast, ∀ q ∈ new, p.bound.Below q.bound) ∧ Layout (splitPmax table new)))
  | .dropPartition _ names =>
    inferInstanceAs (Decidable (names ≠ [] ∧ names.Nodup ∧ "pmax" ∉ names ∧
      ∀ name ∈ names, name ∈ table.map (·.name)))
  | .getLock | .releaseLock | .partitionNames _ => isTrue trivial

/-- The table after a statement that succeeds. -/
def alter (table : List Partition) : Sql → List Partition
  | .partitionByRange _ partitions => ((definitions partitions).map (· ++ [pmax])).getD table
  | .reorganizePmax _ partitions => ((definitions partitions).map (splitPmax table)).getD table
  | .dropPartition _ names => table.filter fun p => p.name ∉ names
  | .getLock | .releaseLock | .partitionNames _ => table

/-- The statement defines a partition with a name that is already there, or the same name twice. -/
def DuplicateName (table : List Partition) : Sql → Prop
  | .partitionByRange _ partitions => ¬(partitions.map Prod.fst).Nodup
  | .reorganizePmax _ partitions =>
    ¬((table.dropLast.map (·.name)) ++ partitions.map Prod.fst).Nodup
  | .getLock | .releaseLock | .partitionNames _ | .dropPartition _ _ => False

instance (table : List Partition) : (sql : Sql) → Decidable (DuplicateName table sql)
  | .partitionByRange _ partitions => inferInstanceAs (Decidable ¬(partitions.map Prod.fst).Nodup)
  | .reorganizePmax _ partitions =>
    inferInstanceAs (Decidable ¬((table.dropLast.map (·.name)) ++ partitions.map Prod.fst).Nodup)
  | .getLock | .releaseLock | .partitionNames _ | .dropPartition _ _ => isFalse id

/-- The partition that a row of a day is in. -/
def holder (table : List Partition) (day : Int) : Option Partition :=
  table.find? fun p => PartitionBound.Below (.day day) p.bound

/-! ## Dates -/

theorem parseDigits_toDigits (n : Nat) : parseDigits (Nat.toDigits 10 n) = n := by
  induction n using Nat.strongRecOn with
  | ind n ih =>
    have hlast : Nat.digitChar (n % 10) = digit n := rfl
    by_cases h : n < 10
    · rw [Nat.toDigits_of_lt_base h, ← Nat.mod_eq_of_lt h, hlast]
      simp only [parseDigits, List.foldl_cons, List.foldl_nil, digit_value]
      omega
    · have hinit := ih (n / 10) (by omega)
      rw [parseDigits] at hinit
      rw [Nat.toDigits_of_base_le (by decide) (by omega), parseDigits, List.foldl_append, hinit,
        hlast]
      simp only [List.foldl_cons, List.foldl_nil, digit_value]
      omega

theorem digits_ne_dash {n : Nat} : ∀ c ∈ Nat.toDigits 10 n, (c == '-') = false := by
  intro c hc
  have hdigit := Nat.isDigit_of_mem_toDigits (by decide) (by decide) hc
  rw [beq_eq_false_iff_ne]
  rintro rfl
  cases hdigit

theorem digit_ne_dash (n : Nat) : digit n ≠ '-' := by
  have hdigit := digit_isDigit n
  intro h
  rw [h] at hdigit
  cases hdigit

theorem toDateStr_toList {z : Zone} {t : Int} (year month day : Nat)
    (hy : z.getFullYear t = year) (hm : z.getMonth t + 1 = month) (hd : z.getDate t = day)
    (hm' : month < 100) (hd' : day < 100) :
    (toDateStr z t).toList = Nat.toDigits 10 year ++ '-' ::
      ([digit (month / 10), digit month] ++ '-' :: [digit (day / 10), digit day]) := by
  rw [toDateStr, hy, hm, hd]
  simp only [String.toList_append, padStart2_toList hm', padStart2_toList hd']
  change (Nat.repr year).toList ++ "-".toList ++ _ ++ "-".toList ++ _ = _
  rw [Nat.toList_repr]
  simp

/-- MySQL reads the date that the service writes for the first instant of a month, up to the end of
the year 9999. -/
theorem toDays_toDateStr {z : Zone} {k : Int} (h : 0 ≤ k) :
    toDays (toDateStr z (z.firstOf k)) =
      if k < 12 * 10000 then some (z.dayOf (z.firstOf k)) else none := by
  obtain ⟨hday, hday'⟩ := z.dayOf_startOf (firstDay k)
  have hlen := (daysInMonth_pos k).1
  obtain ⟨year, hy⟩ := Int.eq_ofNat_of_zero_le (Int.ediv_nonneg h (by decide : (0 : Int) ≤ 12))
  obtain ⟨month, hm⟩ := Int.eq_ofNat_of_zero_le (a := k % 12 + 1) (by omega)
  obtain ⟨day, hd⟩ := Int.eq_ofNat_of_zero_le
    (a := z.dayOf (z.firstOf k) - firstDay k + 1) (by rw [Zone.firstOf]; omega)
  rw [Zone.firstOf] at hd
  have hlist := toDateStr_toList (z := z) (t := z.firstOf k) year month day
    (by rw [Zone.getFullYear, Zone.monthOf_firstOf, hy])
    (by rw [Zone.getMonth, Zone.monthOf_firstOf, hm])
    (by rw [Zone.getDate, Zone.monthOf_firstOf]; exact hd) (by omega) (by omega)
  have hsplit : ((toDateStr z (z.firstOf k)).toList.splitOn '-').map parseDigits =
      [(year : Int), month, day] := by
    rw [hlist, List.splitOn_eq_splitOnP,
      List.splitOnP_append_cons_of_forall_mem digits_ne_dash _ rfl,
      List.splitOnP_append_cons_of_forall_mem (by simp [digit_ne_dash]) _ rfl,
      List.splitOnP_eq_singleton (by simp [digit_ne_dash])]
    simp [parseDigits_toDigits, parseDigits_two (n := month) (by omega),
      parseDigits_two (n := day) (by omega)]
  have hk : (12 * year + month - 1 : Int) = k := by omega
  rw [toDays, hsplit]
  simp only [hk]
  by_cases hlate : k < 12 * 10000
  · rw [if_pos (by omega), if_pos hlate]
    congr 1
    rw [Zone.firstOf]
    omega
  · rw [if_neg (by omega), if_neg hlate]

end NestHarness
