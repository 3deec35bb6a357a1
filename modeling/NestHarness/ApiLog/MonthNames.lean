import Mathlib.Tactic.IntervalCases
import NestHarness.ApiLog.Maintenance

/-!
# Names of monthly partitions

The partition of a month is named by its year and its month. A name of a year of four digits is
read back as the first instant of the month, but for the years 0 to 99, which JavaScript moves to
the twentieth century.
-/

namespace NestHarness

open Calendar Maintenance

variable {z : Zone}

/-- The decimal digit of a number. -/
def digit (n : Nat) : Char := Nat.digitChar (n % 10)

/-- `pYYYYMM`. -/
def monthlyName (year month : Nat) : String :=
  .ofList ['p', digit (year / 1000), digit (year / 100), digit (year / 10), digit year,
    digit (month / 10), digit month]

/-- The partition of the month `k`. -/
def monthName (k : Int) : String := "p" ++ toString (k / 12) ++ padStart2 (k % 12 + 1)

theorem partitionName_eq (t : Int) : partitionName z t = monthName (z.monthOf t) := rfl

/-! ## Digits -/

theorem digit_value (n : Nat) : ((digit n).toNat - '0'.toNat : Int) = n % 10 := by
  have h : ∀ d < 10, ((Nat.digitChar d).toNat - '0'.toNat : Int) = d := by decide
  rw [digit, h _ (Nat.mod_lt _ (by decide))]
  rfl

theorem digit_isDigit (n : Nat) : (digit n).isDigit = true := by
  have h : ∀ d < 10, (Nat.digitChar d).isDigit = true := by decide
  exact h _ (Nat.mod_lt _ (by decide))

theorem padStart2_toList {n : Nat} (h : n < 100) :
    (padStart2 n).toList = [digit (n / 10), digit n] := by
  have hall : ∀ n < 100, (padStart2 (n : Nat)).toList = [digit (n / 10), digit n] := by
    decide +kernel
  exact hall n h

theorem parseDigits_two {n : Nat} (h : n < 100) : parseDigits [digit (n / 10), digit n] = n := by
  simp only [parseDigits, List.foldl_cons, List.foldl_nil, digit_value]
  omega

theorem toDigits_four {n : Nat} (h : 1000 ≤ n) (h' : n < 10000) :
    Nat.toDigits 10 n = [digit (n / 1000), digit (n / 100), digit (n / 10), digit n] := by
  rw [Nat.toDigits_of_base_le (by decide) (by omega),
    Nat.toDigits_of_base_le (by decide) (by omega),
    Nat.toDigits_of_base_le (by decide) (by omega), Nat.toDigits_of_lt_base (by omega)]
  simp only [digit, Nat.div_div_eq_div_mul, List.cons_append, List.nil_append]
  rw [Nat.mod_eq_of_lt (a := n / 1000) (by omega)]

/-! ## Reading a name -/

/-- A name of the form `pYYYYMM` is read as the month that JavaScript makes of it. -/
theorem parse_monthlyName {year month : Nat} (hy : year < 10000) (hm : month < 100) :
    parsePartitionName z (monthlyName year month) = some (z.newDate year (month - 1)) := by
  have hyear :
      parseDigits [digit (year / 1000), digit (year / 100), digit (year / 10), digit year] =
        year := by
    simp only [parseDigits, List.foldl_cons, List.foldl_nil, digit_value]
    omega
  simp only [parsePartitionName, monthlyName, String.toList_ofList, List.all_cons, List.all_nil,
    digit_isDigit, Bool.and_self, if_true, hyear, parseDigits_two hm]

theorem monthName_toList {k : Int} (h : 0 ≤ k) :
    (monthName k).toList = 'p' :: Nat.toDigits 10 (k / 12).toNat ++
      [digit ((k % 12 + 1).toNat / 10), digit (k % 12 + 1).toNat] := by
  obtain ⟨y, hy⟩ := Int.eq_ofNat_of_zero_le (Int.ediv_nonneg h (by decide : (0 : Int) ≤ 12))
  obtain ⟨m, hm⟩ := Int.eq_ofNat_of_zero_le (a := k % 12 + 1) (by omega)
  rw [monthName, hy, hm, String.toList_append, String.toList_append, padStart2_toList (by omega)]
  simp only [Int.toNat_natCast]
  change "p".toList ++ (Nat.repr y).toList ++ _ = _
  rw [Nat.toList_repr]
  rfl

theorem monthName_eq {k : Int} (h : 12000 ≤ k) (h' : k < 120000) :
    monthName k = monthlyName (k / 12).toNat (k % 12 + 1).toNat := by
  apply String.toList_injective
  rw [monthName_toList (by omega), monthlyName, String.toList_ofList,
    toDigits_four (by omega) (by omega)]
  rfl

theorem monthName_injective {k k' : Int} (h : 0 ≤ k) (h' : 0 ≤ k')
    (he : monthName k = monthName k') : k = k' := by
  have hl := congrArg String.toList he
  rw [monthName_toList h, monthName_toList h', List.cons_append, List.cons_append] at hl
  obtain ⟨hyear, hmonth⟩ := List.append_inj' (List.cons.inj hl).2 rfl
  have hy := congrArg (Nat.ofDigitChars 10 · 0) hyear
  simp only [Nat.ofDigitChars_ten_toDigits] at hy
  obtain ⟨htens, hones⟩ := List.cons.inj hmonth
  have h₁ := congrArg (fun c : Char => (c.toNat - '0'.toNat : Int)) htens
  have h₂ := congrArg (fun c : Char => (c.toNat - '0'.toNat : Int)) (List.cons.inj hones).1
  simp only [digit_value] at h₁ h₂
  omega

theorem monthName_ne_pmax {k : Int} (h : 0 ≤ k) : monthName k ≠ "pmax" := by
  intro he
  have hl := congrArg (fun s : String => s.toList.getLast?) he
  rw [monthName_toList h, List.getLast?_append] at hl
  have hx : digit (k % 12 + 1).toNat = 'x' := Option.some.inj hl
  have hdigit := digit_isDigit (k % 12 + 1).toNat
  rw [hx] at hdigit
  cases hdigit

theorem parse_eq_none {name : String} (h : name.toList.length ≠ 7) :
    parsePartitionName z name = none := by
  unfold parsePartitionName
  split
  · next hl => exact absurd (by rw [hl]; rfl) h
  · rfl

theorem monthName_length {k : Int} (h : 120000 ≤ k) : (monthName k).toList.length ≠ 7 := by
  rw [monthName_toList (by omega)]
  have hdigits := Nat.length_toDigits_le_iff (n := (k / 12).toNat) (b := 10) (k := 4)
    (by decide) (by decide)
  simp only [List.length_cons, List.length_append, List.length_nil]
  omega

/-- The name of a month is read back as its first instant, if its year has four digits. -/
theorem parse_monthName {k : Int} (h : 12000 ≤ k) :
    parsePartitionName z (monthName k) = if k < 120000 then some (z.firstOf k) else none := by
  split
  · next h' =>
    rw [monthName_eq h h', parse_monthlyName (by omega) (by omega)]
    have hmonth : (((k % 12 + 1).toNat : Int) - 1) = k % 12 + 0 := by omega
    have hyear : ((k / 12).toNat : Int) = k / 12 := by omega
    rw [hmonth, hyear, z.newDate_of_month (by omega), Int.add_zero]
  · exact parse_eq_none (monthName_length (by omega))

end NestHarness
