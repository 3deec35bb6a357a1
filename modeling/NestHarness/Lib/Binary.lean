import Mathlib.Algebra.Order.Floor.Ring
import Mathlib.Data.Int.Log
import Mathlib.Data.Rat.Floor
import Mathlib.Tactic.Linarith
import Mathlib.Tactic.Positivity
import Mathlib.Tactic.Ring

/-!
# Rounding to a binary format

Rationals rounded to the nearest number of a binary floating-point format, ties to even, without a
bound on the exponent from above. A rounded number compares with the numbers of the format as the
exact one does (`round_le`, `le_round`), which is all that most proofs about floating-point code
need.
-/

/-- The significand has `precision` bits and the last of them stands for `2 ^ minExponent` or
more. -/
structure BinaryFormat where
  precision : ℕ
  minExponent : ℤ
  precision_pos : 0 < precision := by decide

/-- The nearest integer, the even one of two. -/
def roundEven (x : ℚ) : ℤ :=
  if x - ⌊x⌋ < 1 / 2 ∨ x - ⌊x⌋ = 1 / 2 ∧ ⌊x⌋ % 2 = 0 then ⌊x⌋ else ⌊x⌋ + 1

theorem roundEven_cases (x : ℚ) : roundEven x = ⌊x⌋ ∧ x - ⌊x⌋ ≤ 1 / 2 ∨
    roundEven x = ⌊x⌋ + 1 ∧ 1 / 2 ≤ x - ⌊x⌋ := by
  unfold roundEven
  split
  · next h =>
    rcases h with h | h
    · exact .inl ⟨rfl, h.le⟩
    · exact .inl ⟨rfl, h.1.le⟩
  · next h =>
    push Not at h
    exact .inr ⟨rfl, h.1⟩

theorem abs_roundEven_sub_le (x : ℚ) : |(roundEven x : ℚ) - x| ≤ 1 / 2 := by
  have hfloor := Int.floor_le x
  rcases roundEven_cases x with ⟨h, hle⟩ | ⟨h, hle⟩
  · rw [h, abs_le]
    constructor <;> linarith
  · have hlt := Int.lt_floor_add_one x
    rw [h, abs_le]
    push_cast
    constructor <;> linarith

theorem roundEven_le {x : ℚ} {n : ℤ} (h : x ≤ n) : roundEven x ≤ n := by
  rcases roundEven_cases x with ⟨he, _⟩ | ⟨he, hle⟩
  · rw [he]
    exact_mod_cast (Int.floor_le x).trans h
  · rw [he]
    have hlt : (⌊x⌋ : ℚ) < n := by linarith
    exact Int.add_one_le_of_lt (by exact_mod_cast hlt)

theorem le_roundEven {x : ℚ} {n : ℤ} (h : n ≤ x) : n ≤ roundEven x := by
  have hfloor : n ≤ ⌊x⌋ := Int.le_floor.mpr h
  rcases roundEven_cases x with ⟨he, _⟩ | ⟨he, _⟩ <;> omega

theorem roundEven_mono {x y : ℚ} (h : x ≤ y) : roundEven x ≤ roundEven y := by
  rcases roundEven_cases y with ⟨hy, hle⟩ | ⟨hy, hle⟩
  · rcases lt_or_ge ⌊x⌋ ⌊y⌋ with hlt | hge
    · refine (roundEven_le (n := ⌊x⌋ + 1) ?_).trans (by omega)
      exact_mod_cast (Int.lt_floor_add_one x).le
    · have heq : ⌊x⌋ = ⌊y⌋ := le_antisymm (Int.floor_le_floor h) hge
      unfold roundEven at hy ⊢
      rw [heq]
      split at hy
      · next hround =>
        rw [if_pos, if_pos hround]
        rcases hround with hr | hr
        · exact .inl (by linarith)
        · rcases h.lt_or_eq with hlt | rfl
          · exact .inl (by linarith)
          · exact .inr hr
      · omega
  · rw [hy]
    refine roundEven_le ?_
    push_cast
    linarith [Int.lt_floor_add_one y]

namespace BinaryFormat

variable (F : BinaryFormat)

/-- The exponent of the last bit at `x`. -/
def unitExponent (x : ℚ) : ℤ := max (Int.log 2 |x| + 1 - F.precision) F.minExponent

/-- What the last bit stands for at `x`. -/
def unit (x : ℚ) : ℚ := 2 ^ F.unitExponent x

def round (x : ℚ) : ℚ := roundEven (x / F.unit x) * F.unit x

/-- A number of the format. -/
def Representable (d : ℚ) : Prop :=
  ∃ k e : ℤ, |k| ≤ 2 ^ F.precision ∧ F.minExponent ≤ e ∧ d = k * 2 ^ e

variable {F} {x d : ℚ}

theorem unit_pos : 0 < F.unit x := zpow_pos two_pos _

/-- Away from the least exponent the significand is full. -/
theorem unitExponent_cases (F : BinaryFormat) (hx : x ≠ 0) : F.unitExponent x = F.minExponent ∨
    2 ^ (F.precision - 1) * F.unit x ≤ |x| := by
  unfold unit unitExponent
  rcases le_total (Int.log 2 |x| + 1 - F.precision) F.minExponent with h | h
  · exact .inl (max_eq_right h)
  · rw [max_eq_left h]
    have hlog := Int.zpow_log_le_self (b := 2) one_lt_two (abs_pos.mpr hx)
    have hp := F.precision_pos
    rw [← zpow_natCast, ← zpow_add₀ two_ne_zero,
      show ((F.precision - 1 : ℕ) : ℤ) + (Int.log 2 |x| + 1 - F.precision) = Int.log 2 |x| by omega]
    exact .inr (by exact_mod_cast hlog)

theorem abs_lt_unit (F : BinaryFormat) (x : ℚ) : |x| < 2 ^ F.precision * F.unit x := by
  have hlog := Int.lt_zpow_succ_log_self (b := 2) one_lt_two |x|
  push_cast at hlog
  refine hlog.trans_le ?_
  rw [unit, ← zpow_natCast, ← zpow_add₀ two_ne_zero]
  refine zpow_le_zpow_right₀ one_le_two ?_
  have := le_max_left (Int.log 2 |x| + 1 - F.precision) F.minExponent
  unfold unitExponent
  omega

theorem abs_round_sub_le (F : BinaryFormat) (x : ℚ) : |F.round x - x| ≤ F.unit x / 2 := by
  have hu : 0 < F.unit x := unit_pos
  have h := abs_roundEven_sub_le (x / F.unit x)
  have heq : F.round x - x = (roundEven (x / F.unit x) - x / F.unit x) * F.unit x := by
    rw [round, sub_mul, div_mul_cancel₀ _ hu.ne']
  rw [heq, abs_mul, abs_of_pos hu]
  linarith [mul_le_mul_of_nonneg_right h hu.le]

/-! ## Comparison with the numbers of the format -/

theorem round_le_of_mul {k : ℤ} (h : x ≤ k * F.unit x) : F.round x ≤ k * F.unit x := by
  have hu : 0 < F.unit x := unit_pos
  have hle := roundEven_le ((div_le_iff₀ hu).mpr h)
  exact mul_le_mul_of_nonneg_right (by exact_mod_cast hle) hu.le

theorem le_round_of_mul {k : ℤ} (h : k * F.unit x ≤ x) : k * F.unit x ≤ F.round x := by
  have hu : 0 < F.unit x := unit_pos
  have hle := le_roundEven ((le_div_iff₀ hu).mpr h)
  exact mul_le_mul_of_nonneg_right (by exact_mod_cast hle) hu.le

/-- A number of the format is a multiple of the last bit at `x`, or nearer to zero than `x`. -/
theorem Representable.multiple (hd : F.Representable d) (hx : x ≠ 0) :
    (∃ k : ℤ, d = k * F.unit x) ∨
      |d| ≤ 2 ^ (F.precision - 1) * F.unit x ∧ 2 ^ (F.precision - 1) * F.unit x ≤ |x| := by
  obtain ⟨k, e, hk, he, rfl⟩ := hd
  rcases le_or_gt (F.unitExponent x) e with hle | hlt
  · refine .inl ⟨k * 2 ^ (e - F.unitExponent x).toNat, ?_⟩
    push_cast
    rw [mul_assoc, unit, ← zpow_natCast, ← zpow_add₀ two_ne_zero]
    congr 2
    omega
  · rcases F.unitExponent_cases hx with hmin | hfull
    · omega
    · refine .inr ⟨?_, hfull⟩
      have hpos : (0 : ℚ) < 2 ^ e := zpow_pos two_pos e
      have hk' : |(k : ℚ)| ≤ 2 ^ F.precision := by exact_mod_cast hk
      have hp := F.precision_pos
      calc |(k : ℚ) * 2 ^ e| = |(k : ℚ)| * 2 ^ e := by rw [abs_mul, abs_of_pos hpos]
        _ ≤ 2 ^ F.precision * 2 ^ e := mul_le_mul_of_nonneg_right hk' hpos.le
        _ = 2 ^ (F.precision - 1) * 2 ^ (e + 1) := by
          rw [zpow_add_one₀ two_ne_zero, ← mul_assoc, mul_right_comm, ← pow_succ,
            Nat.sub_add_cancel hp]
        _ ≤ 2 ^ (F.precision - 1) * F.unit x :=
          mul_le_mul_of_nonneg_left (zpow_le_zpow_right₀ one_le_two hlt) (by positivity)

@[simp] theorem round_zero : F.round 0 = 0 := by
  simp [round, roundEven]

theorem round_le (hd : F.Representable d) (h : x ≤ d) : F.round x ≤ d := by
  rcases eq_or_ne x 0 with rfl | hx
  · rwa [round_zero]
  rcases hd.multiple hx with ⟨k, rfl⟩ | ⟨hdu, hux⟩
  · exact round_le_of_mul h
  rcases le_total 0 x with h0 | h0
  · -- `x` is not above `d` and not nearer to zero, so it is the bound between the two
    rw [abs_of_nonneg h0] at hux
    have heq : x = ((2 ^ (F.precision - 1) : ℤ) : ℚ) * F.unit x := by
      push_cast
      linarith [le_abs_self d]
    calc F.round x ≤ ((2 ^ (F.precision - 1) : ℤ) : ℚ) * F.unit x := round_le_of_mul heq.le
      _ = x := heq.symm
      _ ≤ d := h
  · rw [abs_of_nonpos h0] at hux
    have hle : x ≤ ((-2 ^ (F.precision - 1) : ℤ) : ℚ) * F.unit x := by
      push_cast
      linarith
    have hround := round_le_of_mul hle
    push_cast at hround
    linarith [neg_abs_le d]

theorem le_round (hd : F.Representable d) (h : d ≤ x) : d ≤ F.round x := by
  rcases eq_or_ne x 0 with rfl | hx
  · rwa [round_zero]
  rcases hd.multiple hx with ⟨k, rfl⟩ | ⟨hdu, hux⟩
  · exact le_round_of_mul h
  rcases le_total 0 x with h0 | h0
  · rw [abs_of_nonneg h0] at hux
    have hle : ((2 ^ (F.precision - 1) : ℤ) : ℚ) * F.unit x ≤ x := by
      push_cast
      exact hux
    have hround := le_round_of_mul hle
    push_cast at hround
    linarith [le_abs_self d]
  · rw [abs_of_nonpos h0] at hux
    have heq : x = ((-2 ^ (F.precision - 1) : ℤ) : ℚ) * F.unit x := by
      push_cast
      linarith [neg_abs_le d]
    calc d ≤ x := h
      _ = ((-2 ^ (F.precision - 1) : ℤ) : ℚ) * F.unit x := heq
      _ ≤ F.round x := le_round_of_mul heq.ge

theorem Representable.two_mul (hd : F.Representable d) : F.Representable (2 * d) := by
  obtain ⟨k, e, hk, he, rfl⟩ := hd
  exact ⟨k, e + 1, hk, by omega, by rw [zpow_add_one₀ two_ne_zero]; ring⟩

theorem representable_two_zpow {e : ℤ} (he : F.minExponent ≤ e) : F.Representable (2 ^ e) :=
  ⟨1, e, by simpa using one_le_pow₀ (by norm_num : (1 : ℤ) ≤ 2), he, by simp⟩

/-- Rounding keeps the order. -/
theorem round_mono {y : ℚ} (h₀ : 0 ≤ x) (h : x ≤ y) : F.round x ≤ F.round y := by
  rcases h₀.eq_or_lt with rfl | hpos
  · rw [round_zero]
    simpa using le_round_of_mul (F := F) (k := 0) (by simpa using h)
  have hlog : Int.log 2 |x| ≤ Int.log 2 |y| := by
    rw [abs_of_pos hpos, abs_of_pos (hpos.trans_le h)]
    exact Int.log_mono_right hpos h
  have hexp : F.unitExponent x ≤ F.unitExponent y := max_le_max (by omega) le_rfl
  rcases hexp.eq_or_lt with heq | hlt
  · have hunit : F.unit x = F.unit y := by rw [unit, heq, unit]
    have hu : 0 < F.unit y := unit_pos
    have hle := roundEven_mono (div_le_div_of_nonneg_right h hu.le)
    rw [round, round, hunit]
    exact mul_le_mul_of_nonneg_right (by exact_mod_cast hle) hu.le
  · -- a power of two of the format lies between the two
    have hfull : 2 ^ (F.precision - 1) * F.unit y ≤ y := by
      rcases F.unitExponent_cases (hpos.trans_le h).ne' with hmin | hfull
      · have := le_max_right (Int.log 2 |x| + 1 - F.precision) F.minExponent
        unfold unitExponent at hlt hmin
        omega
      · rwa [abs_of_pos (hpos.trans_le h)] at hfull
    have hhalf : F.unit x * 2 ≤ F.unit y := by
      rw [unit, ← zpow_add_one₀ two_ne_zero]
      exact zpow_le_zpow_right₀ one_le_two hlt
    have hlow : x ≤ 2 ^ (F.precision - 1) * F.unit y := by
      have hx := F.abs_lt_unit x
      rw [abs_of_pos hpos, ← Nat.sub_add_cancel F.precision_pos, pow_succ] at hx
      calc x ≤ 2 ^ (F.precision - 1) * 2 * F.unit x := hx.le
        _ = 2 ^ (F.precision - 1) * (F.unit x * 2) := by ring
        _ ≤ 2 ^ (F.precision - 1) * F.unit y := mul_le_mul_of_nonneg_left hhalf (by positivity)
    have hrep : F.Representable (2 ^ (F.precision - 1) * F.unit y) := by
      rw [unit, ← zpow_natCast, ← zpow_add₀ two_ne_zero]
      refine representable_two_zpow ?_
      have := le_max_right (Int.log 2 |y| + 1 - F.precision) F.minExponent
      unfold unitExponent
      omega
    exact (round_le hrep hlow).trans (le_round hrep hfull)

/-- A number of the format is its own rounding. -/
theorem round_eq (hd : F.Representable d) : F.round d = d :=
  le_antisymm (round_le hd le_rfl) (le_round hd le_rfl)

theorem representable_round (F : BinaryFormat) (x : ℚ) : F.Representable (F.round x) := by
  refine ⟨roundEven (x / F.unit x), F.unitExponent x, ?_, le_max_right .., rfl⟩
  have hu : 0 < F.unit x := unit_pos
  have habs : |x / F.unit x| ≤ 2 ^ F.precision := by
    rw [abs_div, abs_of_pos hu]
    exact (div_le_iff₀ hu).mpr (F.abs_lt_unit x).le
  rw [abs_le] at habs ⊢
  constructor
  · exact le_roundEven (by push_cast; exact habs.1)
  · exact roundEven_le (by push_cast; exact habs.2)

/-! ## Numbers of the format -/

theorem Representable.neg (hd : F.Representable d) : F.Representable (-d) := by
  obtain ⟨k, e, hk, he, rfl⟩ := hd
  exact ⟨-k, e, by rwa [abs_neg], he, by push_cast; ring⟩

theorem Representable.abs (hd : F.Representable d) : F.Representable |d| := by
  rcases abs_choice d with h | h
  · rwa [h]
  · rw [h]
    exact hd.neg

/-- Integers of up to `precision` bits. -/
theorem representable_intCast {n : ℤ} (hF : F.minExponent ≤ 0) (hn : |n| ≤ 2 ^ F.precision) :
    F.Representable n :=
  ⟨n, 0, hn, hF, by simp⟩

theorem abs_round_le (hd : F.Representable d) (h : |x| ≤ d) : |F.round x| ≤ d := by
  rw [abs_le] at h ⊢
  exact ⟨le_round hd.neg h.1, round_le hd h.2⟩

/-- The rounding of an integer is an integer. -/
theorem round_intCast (hF : F.minExponent ≤ 0) (n : ℤ) : ∃ m : ℤ, F.round n = m := by
  rcases le_or_gt 0 (F.unitExponent n) with hu | hu
  · refine ⟨roundEven (n / F.unit n) * 2 ^ (F.unitExponent n).toNat, ?_⟩
    push_cast
    rw [round, unit, ← zpow_natCast, Int.toNat_of_nonneg hu]
  · refine ⟨n, round_eq (representable_intCast hF ?_)⟩
    have hlt := F.abs_lt_unit n
    have hunit : F.unit (n : ℚ) ≤ 1 := zpow_le_one_of_nonpos₀ one_le_two hu.le
    have hle : |(n : ℚ)| ≤ 2 ^ F.precision :=
      hlt.le.trans (mul_le_of_le_one_right (by positivity) hunit)
    exact_mod_cast hle

/-- The largest number below a power of two. -/
theorem Representable.abs_le_of_lt {E : ℤ} (hd : F.Representable d)
    (h : |d| < 2 ^ E) : |d| ≤ 2 ^ E - 2 ^ (E - F.precision) := by
  obtain ⟨k, e, hk, he, rfl⟩ := hd
  have hpos : (0 : ℚ) < 2 ^ e := zpow_pos two_pos e
  have hk' : |(k : ℚ)| ≤ 2 ^ F.precision := by exact_mod_cast hk
  have hp := F.precision_pos
  have hunit : (2 : ℚ) ^ F.precision * 2 ^ (E - F.precision) = 2 ^ E := by
    rw [← zpow_natCast, ← zpow_add₀ two_ne_zero]
    congr 1
    omega
  have hpos' : (0 : ℚ) < 2 ^ (E - F.precision) := zpow_pos two_pos _
  rw [abs_mul, abs_of_pos hpos] at h ⊢
  rcases le_or_gt (E - F.precision) e with hle | hgt
  · -- a multiple of the last bit that is below the power is a whole bit below it
    have hm : |(k : ℚ)| * 2 ^ e = (|k| * 2 ^ (e - (E - F.precision)).toNat : ℤ) *
        2 ^ (E - F.precision) := by
      push_cast
      rw [mul_assoc, ← zpow_natCast, ← zpow_add₀ two_ne_zero]
      congr 2
      omega
    rw [hm] at h ⊢
    generalize |k| * 2 ^ (e - (E - F.precision)).toNat = m at h ⊢
    rw [← hunit, mul_lt_mul_iff_left₀ hpos'] at h
    have hm₁ : (m : ℚ) + 1 ≤ 2 ^ F.precision := by
      exact_mod_cast Int.add_one_le_of_lt (by exact_mod_cast h)
    rw [← hunit]
    linarith [mul_le_mul_of_nonneg_right hm₁ hpos'.le]
  · have htwo : (2 : ℚ) ≤ 2 ^ F.precision := by
      calc (2 : ℚ) = 2 ^ 1 := (pow_one 2).symm
        _ ≤ 2 ^ F.precision := pow_le_pow_right₀ one_le_two hp
    have hhalf : (2 : ℚ) ^ e * 2 ≤ 2 ^ (E - F.precision) := by
      rw [← zpow_add_one₀ two_ne_zero]
      exact zpow_le_zpow_right₀ one_le_two hgt
    have hle := mul_le_mul_of_nonneg_right hk' hpos.le
    have hstep := mul_le_mul_of_nonneg_left hhalf (by positivity : (0 : ℚ) ≤ 2 ^ F.precision)
    have hlast := mul_le_mul_of_nonneg_right htwo hpos'.le
    linarith

/-- What lies next to a number below a power of two is rounded below it. -/
theorem Representable.abs_round_lt_of_near {E : ℤ} (hd : F.Representable d)
    (hE : F.minExponent ≤ E - F.precision) (h : |d| < 2 ^ E)
    (hx : |x - d| < 2 ^ (E - F.precision - 1)) : |F.round x| < 2 ^ E := by
  rcases eq_or_ne x 0 with rfl | h₀
  · rw [round_zero, abs_zero]
    exact zpow_pos two_pos E
  have hle := hd.abs_le_of_lt h
  have hhalf : (2 : ℚ) ^ (E - F.precision) = 2 * 2 ^ (E - F.precision - 1) := by
    rw [← zpow_one_add₀ two_ne_zero]
    congr 1
    omega
  have hxd : |x| ≤ |x - d| + |d| := by simpa using abs_add_le (x - d) d
  have hxE : |x| < 2 ^ E := by linarith
  have hunit : F.unit x ≤ 2 ^ (E - F.precision) := by
    have hlog : Int.log 2 |x| < E := by
      rw [← Int.lt_zpow_iff_log_lt one_lt_two (abs_pos.mpr h₀)]
      exact_mod_cast hxE
    exact zpow_le_zpow_right₀ one_le_two (max_le (by omega) hE)
  have herr := F.abs_round_sub_le x
  have htri : |F.round x| ≤ |F.round x - x| + |x| := by simpa using abs_add_le (F.round x - x) x
  linarith

/-- Away from zero the significand is full. -/
theorem two_pow_mul_unit_le (hF : F.minExponent ≤ -F.precision) (hx : 1 / 2 ≤ x) :
    2 ^ (F.precision - 1) * F.unit x ≤ x := by
  have habs : |x| = x := abs_of_nonneg (by linarith)
  rcases F.unitExponent_cases (x := x) (by linarith) with hmin | hfull
  · have hp := F.precision_pos
    calc (2 : ℚ) ^ (F.precision - 1) * F.unit x
        = 2 ^ (((F.precision - 1 : ℕ) : ℤ) + F.minExponent) := by
          rw [unit, hmin, zpow_add₀ two_ne_zero, zpow_natCast]
      _ ≤ 2 ^ (-1 : ℤ) := zpow_le_zpow_right₀ one_le_two (by omega)
      _ ≤ x := by rwa [zpow_neg_one, ← one_div]
  · rwa [habs] at hfull

/-- The quotient of natural numbers, the first of up to `precision` bits, is rounded within its
integer part. -/
theorem floor_round_div (hF : F.minExponent ≤ -F.precision) {a b : ℕ} (ha : a ≤ 2 ^ F.precision) :
    ⌊F.round (a / b)⌋ = (a / b : ℕ) := by
  have hint {n : ℕ} (hn : n ≤ a) : F.Representable n := by
    refine representable_intCast (n := n) (by omega) ?_
    rw [abs_of_nonneg (Int.natCast_nonneg n)]
    exact_mod_cast hn.trans ha
  rcases Nat.eq_zero_or_pos b with rfl | hb
  · simp
  have hb' : (0 : ℚ) < b := by exact_mod_cast hb
  have hk : ((a / b : ℕ) : ℚ) ≤ a / b := by
    rw [le_div_iff₀ hb']
    exact_mod_cast Nat.div_mul_le_self a b
  have hlt : (a : ℚ) / b + 1 / b ≤ (a / b : ℕ) + 1 := by
    rw [← add_div, div_le_iff₀ hb']
    have := Nat.lt_mul_div_succ a hb
    rw [mul_comm] at this
    exact_mod_cast this
  have hb₁ : (0 : ℚ) < 1 / b := by positivity
  rw [Int.floor_eq_iff, Int.cast_natCast]
  refine ⟨le_round (hint (Nat.div_le_self a b)) hk, ?_⟩
  generalize hx : (a : ℚ) / b = x at *
  rcases le_or_gt x (1 / 2) with hsmall | hlarge
  · have hhalf : F.Representable (1 / 2) := by
      have hp := F.precision_pos
      simpa using representable_two_zpow (F := F) (e := -1) (by omega)
    have hround := round_le hhalf hsmall
    have hnonneg : (0 : ℚ) ≤ (a / b : ℕ) := Nat.cast_nonneg _
    linarith
  · by_contra hge
    push Not at hge
    -- rounding up to the next integer takes the largest error, and then `x` is a power of two
    have herr := (abs_le.mp (F.abs_round_sub_le x)).2
    have hfull := two_pow_mul_unit_le hF hlarge.le
    have hup : x ≤ 2 ^ (F.precision - 1) * F.unit x := by
      have hp := F.precision_pos
      have hunit : (1 : ℚ) / b ≤ F.unit x / 2 := by linarith
      have hpow : (2 : ℚ) ^ F.precision = 2 ^ (F.precision - 1) * 2 := by
        rw [← pow_succ, Nat.sub_add_cancel hp]
      calc x = a * (1 / b) := by rw [← hx]; ring
        _ ≤ 2 ^ F.precision * (1 / b) :=
          mul_le_mul_of_nonneg_right (by exact_mod_cast ha) hb₁.le
        _ ≤ 2 ^ F.precision * (F.unit x / 2) := mul_le_mul_of_nonneg_left hunit (by positivity)
        _ = 2 ^ (F.precision - 1) * F.unit x := by rw [hpow]; ring
    have hle : F.round x ≤ ((2 ^ (F.precision - 1) : ℤ) : ℚ) * F.unit x :=
      round_le_of_mul (by push_cast; exact hup)
    push_cast at hle
    linarith

end BinaryFormat
