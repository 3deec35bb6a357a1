import NestHarness.Common.Pagination
import NestHarness.Lib.Blocks

/-!
# The window of a pagination

`LIMIT` and `OFFSET` are a window of the result for every page asked for, if the page size and the
tab size can be divided by. Numbers are rounded, and above `2 ^ 53` rows a page can begin after the
last of them.
-/

namespace NestHarness

open Js Number

variable {x y : Number} {a b : ℚ}

/-! ## Quotients -/

/-- `quotientUp` on rationals, but for its last rounding. -/
def quotientStep (a b : ℚ) : ℚ :=
  let quotient := binary64.round ⌊binary64.round (a / b)⌋
  if 0 < binary64.round (a - b * truncate (a / b)) then quotient + 1 else quotient

theorem abs_quotientStep_le {n : ℕ} (h : |a / b| ≤ 2 ^ n) : |quotientStep a b| ≤ 2 ^ (n + 1) := by
  have hle := BinaryFormat.abs_round_le (two_pow_representable n) (abs_floor_round_le h)
  have hone : (1 : ℚ) ≤ 2 ^ n := one_le_pow₀ one_le_two
  rw [pow_succ]
  rw [abs_le] at hle ⊢
  unfold quotientStep
  dsimp only
  split <;> constructor <;> linarith

theorem value_quotientUp {n : ℕ} (hx : x.value = some a) (hy : y.value = some b) (hb : b ≠ 0)
    (h : |a / b| ≤ 2 ^ n) (hn : n + 1 < 1024) :
    (quotientUp x y).value = some (binary64.round (quotientStep a b)) := by
  have hdiv := value_div hx hy hb (abs_round_lt h (by omega))
  have hfloor := value_floor hdiv (abs_round_lt (abs_floor_round_le h) (by omega))
  have hrem := lt_iff (value_ofNat (n := 0) (by omega)) (value_rem hx hy hb)
  have hstep := abs_quotientStep_le h
  unfold quotientUp
  unfold quotientStep at hstep ⊢
  dsimp only at hstep ⊢
  split at hstep
  · next hlt =>
    rw [if_pos hlt, if_pos (hrem.mpr (by simpa using hlt))]
    exact value_add hfloor (value_ofNat (n := 1) (by omega))
      (abs_round_lt (by simpa using hstep) hn)
  · next hle =>
    rw [if_neg hle, if_neg (hrem.not.mpr (by simpa using hle)), hfloor]
    exact congrArg some (BinaryFormat.round_eq (BinaryFormat.representable_round _ _)).symm

theorem quotientStep_integer (a b : ℚ) : ∃ n : ℤ, quotientStep a b = n := by
  obtain ⟨n, hn⟩ := round_intCast ⌊binary64.round (a / b)⌋
  unfold quotientStep
  dsimp only
  rw [hn]
  split
  · exact ⟨n + 1, by push_cast; rfl⟩
  · exact ⟨n, rfl⟩

/-- A number below one half is divided into nothing or into a rest. -/
theorem quotientStep_of_small (ha : binary64.Representable a) (hnonneg : 0 ≤ a)
    (h : |a / b| ≤ 1 / 2) : quotientStep a b = 0 ∨ quotientStep a b = 1 := by
  have hhalf : binary64.Representable (1 / 2) := by
    simpa using BinaryFormat.representable_two_zpow (F := binary64) (e := -1) (by decide)
  have hround := abs_le.mp (BinaryFormat.abs_round_le hhalf h)
  have htrunc : truncate (a / b) = 0 := by
    rw [abs_le] at h
    unfold truncate
    split
    · exact Int.floor_eq_zero_iff.mpr ⟨by assumption, by linarith⟩
    · exact Int.ceil_eq_zero_iff.mpr ⟨by linarith, by linarith⟩
  unfold quotientStep
  simp only [htrunc, Int.cast_zero, mul_zero, sub_zero, BinaryFormat.round_eq ha]
  rcases le_or_gt 0 (binary64.round (a / b)) with h₀ | h₀
  · have hfloor : ⌊binary64.round (a / b)⌋ = 0 := Int.floor_eq_zero_iff.mpr ⟨h₀, by linarith⟩
    rw [hfloor]
    split <;> simp
  · have hfloor : ⌊binary64.round (a / b)⌋ = -1 :=
      Int.floor_eq_iff.mpr ⟨by push_cast; linarith, by push_cast; linarith⟩
    have hpos : 0 < a := by
      refine lt_of_le_of_ne hnonneg ?_
      rintro rfl
      simp at h₀
    rw [hfloor, if_pos hpos, show ((-1 : ℤ) : ℚ) = -1 by simp,
      BinaryFormat.round_eq one_representable.neg]
    simp

/-! ## Quotients of natural numbers -/

section Naturals

variable {m n : ℕ}

theorem truncate_div (m n : ℕ) : truncate ((m : ℚ) / n) = (m / n : ℕ) := by
  rw [truncate, if_pos (by positivity)]
  exact Rat.floor_natCast_div_natCast m n

theorem sub_mul_truncate (m n : ℕ) : (m : ℚ) - n * truncate ((m : ℚ) / n) = (m % n : ℕ) := by
  have h : (m : ℚ) = (m % n : ℕ) + n * (m / n : ℕ) := by exact_mod_cast (Nat.mod_add_div m n).symm
  rw [truncate_div, Int.cast_natCast]
  linarith

theorem quotientStep_nonneg (m n : ℕ) : 0 ≤ quotientStep m n := by
  have hdiv := BinaryFormat.le_round zero_representable (by positivity : (0 : ℚ) ≤ (m : ℚ) / n)
  have hfloor : (0 : ℚ) ≤ ⌊binary64.round ((m : ℚ) / n)⌋ := by
    exact_mod_cast Int.floor_nonneg.mpr hdiv
  have hquotient := BinaryFormat.le_round zero_representable hfloor
  unfold quotientStep
  dsimp only
  split <;> linarith

/-- Something is divided into one part or more. -/
theorem one_le_quotientStep (hm : 0 < m) (hn : 0 < n) : 1 ≤ quotientStep m n := by
  have hn' : (0 : ℚ) < n := by exact_mod_cast hn
  rcases Nat.eq_zero_or_pos (m % n) with hrem | hrem
  · -- without a rest the quotient itself is one or more
    have hle : (1 : ℚ) ≤ (m : ℚ) / n := by
      rw [one_le_div hn']
      exact_mod_cast Nat.le_of_dvd hm (Nat.dvd_of_mod_eq_zero hrem)
    have hdiv := BinaryFormat.le_round one_representable hle
    have hfloor : (1 : ℚ) ≤ ⌊binary64.round ((m : ℚ) / n)⌋ := by
      have : (1 : ℤ) ≤ ⌊binary64.round ((m : ℚ) / n)⌋ := Int.le_floor.mpr (by exact_mod_cast hdiv)
      exact_mod_cast this
    have hquotient := BinaryFormat.le_round one_representable hfloor
    unfold quotientStep
    dsimp only
    split <;> linarith
  · have hround : (0 : ℚ) < binary64.round ((m % n : ℕ) : ℚ) :=
      one_pos.trans_le (BinaryFormat.le_round one_representable (by exact_mod_cast hrem))
    have hdiv := BinaryFormat.le_round zero_representable (by positivity : (0 : ℚ) ≤ (m : ℚ) / n)
    have hfloor : (0 : ℚ) ≤ ⌊binary64.round ((m : ℚ) / n)⌋ := by
      exact_mod_cast Int.floor_nonneg.mpr hdiv
    have hquotient := BinaryFormat.le_round zero_representable hfloor
    unfold quotientStep
    rw [sub_mul_truncate, if_pos hround]
    linarith

/-- Up to `2 ^ 53` the quotient is exact. -/
theorem quotientStep_natCast (hm : m ≤ 2 ^ 53) (hn : 0 < n) :
    quotientStep m n = (m ⌈/⌉ n : ℕ) := by
  have hdiv := (Nat.div_le_self m n).trans hm
  have hrem := (Nat.mod_le m n).trans hm
  have hfloor : ⌊binary64.round ((m : ℚ) / n)⌋ = (m / n : ℕ) :=
    BinaryFormat.floor_round_div (by decide) hm
  have hpos : (0 < ((m % n : ℕ) : ℚ)) ↔ 0 < m % n := Nat.cast_pos
  unfold quotientStep
  rw [sub_mul_truncate, hfloor, Int.cast_natCast, round_natCast hdiv, round_natCast hrem,
    ceilDiv_eq_div_add hn]
  simp only [hpos]
  split <;> push_cast <;> ring

/-- So is the number that `quotientUp` gives. -/
theorem value_quotientUp_eq (hx : x.value = some (m : ℚ)) (hy : y.value = some (n : ℚ))
    (hm : m ≤ 2 ^ 53) (hn : 1 ≤ n) : (quotientUp x y).value = some ((m ⌈/⌉ n : ℕ) : ℚ) := by
  have hn' : (1 : ℚ) ≤ n := by exact_mod_cast hn
  have hm' : (m : ℚ) ≤ 2 ^ 53 := by exact_mod_cast hm
  have hdiv : |(m : ℚ) / n| ≤ 2 ^ 53 := by
    rw [abs_of_nonneg (by positivity)]
    exact (div_le_self (by positivity) hn').trans hm'
  have hceil : m ⌈/⌉ n ≤ m := (ceilDiv_le_iff_le_mul hn).mpr (Nat.le_mul_of_pos_left m hn)
  have hvalue := value_quotientUp hx hy (by positivity) hdiv (by decide)
  rwa [quotientStep_natCast hm hn, round_natCast (hceil.trans hm)] at hvalue

end Naturals

/-! ## Parsed arguments -/

variable {data : PaginationData} {v : Param}

/-- A parsed argument is an integer, if it is finite. -/
theorem integer_parseOr {n : ℕ} (hn : n ≤ 2 ^ 53) (h : (v.parseOr (OfNat.ofNat n)).value = some a) :
    ∃ m : ℤ, a = m := by
  unfold Param.parseOr at h
  split at h
  · rw [value_ofNat hn] at h
    cases h
    exact ⟨n, rfl⟩
  · cases v with
    | absent => exact integer_parseInt (s := "undefined") h
    | text s => exact integer_parseInt (s := s) h
    | number x => exact Number.integer_parseInt h

theorem isNaN_parseOr {other : Number} (h : other.isNaN = false) :
    (v.parseOr other).isNaN = false := by
  unfold Param.parseOr
  split
  · exact h
  · next hv => exact eq_false_of_ne_true hv

theorem requestedPage_cases (data : PaginationData) : data.requestedPage = .infinity false ∨
    ∃ k : ℕ, 1 ≤ k ∧ data.requestedPage.value = some (k : ℚ) := by
  have hone : (1 : Number).value = some ((1 : ℕ) : ℚ) := value_ofNat (n := 1) (by decide)
  have hnan : (data.page.parseOr 1).isNaN = false := isNaN_parseOr (by decide +kernel)
  have hint {q : ℚ} (h : (data.page.parseOr 1).value = some q) :=
    integer_parseOr (n := 1) (by decide) h
  unfold PaginationData.requestedPage
  dsimp only
  generalize data.page.parseOr 1 = page at *
  split
  · exact .inr ⟨1, le_rfl, hone⟩
  · next hle =>
    rcases value_cases page with rfl | ⟨negative, rfl⟩ | ⟨q, hq⟩
    · cases hnan
    · cases negative with
      | false => exact .inl rfl
      | true => exact (hle (by decide +kernel)).elim
    · obtain ⟨n, rfl⟩ := hint hq
      have hpos : 0 < n := by
        rw [le_iff hq (value_ofNat (n := 0) (by decide)), not_le] at hle
        exact_mod_cast hle
      obtain ⟨k, rfl⟩ := Int.eq_ofNat_of_zero_le hpos.le
      exact .inr ⟨k, by omega, by exact_mod_cast hq⟩

/-! ## The last page and the page shown -/

/-- The last page; an empty result has one. -/
def lastPage (total size : Number) : Number :=
  let maxPage := quotientUp total size
  if maxPage.isZero then 1 else maxPage

def clampPage (page last : Number) : Number := if last.lt page then last else page

theorem new_of_all (data : PaginationData) (h : data.searchesAll = true) : Pagination.new data =
    { searchesAll := true
      size := data.totalCount.parseOr 1
      pageSize := data.pageSize.parseOr 10
      totalCount := data.totalCount.parseOr 1
      page := 1
      maxPage := 1
      pageRange := .around 1 1 (data.pageSize.parseOr 10)
      limit := data.totalCount.parseOr 1
      offset := pageOffset 1 (data.totalCount.parseOr 1) } := by
  have hone : (1 : Number).value = some ((1 : ℕ) : ℚ) := value_ofNat (n := 1) (by decide)
  have hzero : (1 : Number).isZero = false := by
    rw [Bool.eq_false_iff, ne_eq, isZero_iff hone]
    decide
  have hlt : (1 : Number).lt 1 = false := by
    rw [Bool.eq_false_iff, ne_eq, lt_iff hone hone]
    exact lt_irrefl _
  simp [Pagination.new, h, hzero, hlt]

theorem new_of_pages (data : PaginationData) (h : data.searchesAll = false) :
    let last := lastPage (data.totalCount.parseOr 1) (data.size.parseOr 20)
    Pagination.new data =
    { searchesAll := false
      size := data.size.parseOr 20
      pageSize := data.pageSize.parseOr 10
      totalCount := data.totalCount.parseOr 1
      page := clampPage data.requestedPage last
      maxPage := last
      pageRange := .around (clampPage data.requestedPage last) last (data.pageSize.parseOr 10)
      limit := data.size.parseOr 20
      offset := pageOffset (clampPage data.requestedPage last) (data.size.parseOr 20) } := by
  unfold Pagination.new
  rw [h]
  rfl

section Window

variable {total size page last : Number} {t s m k : ℕ}

theorem abs_pages_le (hlt : t < 10 ^ 21) (hpos : 1 ≤ s) : |(t : ℚ) / s| ≤ 2 ^ 80 := by
  have hs' : (1 : ℚ) ≤ s := by exact_mod_cast hpos
  rw [abs_of_nonneg (by positivity)]
  calc (t : ℚ) / s ≤ t := div_le_self (by positivity) hs'
    _ ≤ 10 ^ 21 := by exact_mod_cast hlt.le
    _ ≤ 2 ^ 80 := by norm_num

theorem value_quotientUp_round (ht : total.value = some (t : ℚ)) (hs : size.value = some (s : ℚ))
    (hlt : t < 10 ^ 21) (hpos : 1 ≤ s) :
    (quotientUp total size).value = some (binary64.round (quotientStep t s)) :=
  value_quotientUp ht hs (by positivity) (abs_pages_le hlt hpos) (by decide)

theorem value_quotientUp_natCast (ht : total.value = some (t : ℚ)) (hs : size.value = some (s : ℚ))
    (hlt : t < 10 ^ 21) (hpos : 1 ≤ s) :
    ∃ m : ℕ, (quotientUp total size).value = some (m : ℚ) ∧ m ≤ 2 ^ 81 ∧ (0 < t → 1 ≤ m) := by
  have hdiv := abs_pages_le hlt hpos
  have hvalue := value_quotientUp_round ht hs hlt hpos
  obtain ⟨n, hn⟩ := quotientStep_integer t s
  obtain ⟨r, hr⟩ := round_intCast n
  have hnonneg := BinaryFormat.le_round zero_representable (quotientStep_nonneg t s)
  have hle :=
    (abs_le.mp (BinaryFormat.abs_round_le (two_pow_representable 81) (abs_quotientStep_le hdiv))).2
  have hone (h : 0 < t) := BinaryFormat.le_round one_representable (one_le_quotientStep h hpos)
  rw [hn, hr] at hnonneg hle hvalue
  rw [hn, hr] at hone
  obtain ⟨m, rfl⟩ := Int.eq_ofNat_of_zero_le (by exact_mod_cast hnonneg : 0 ≤ r)
  refine ⟨m, hvalue, ?_, ?_⟩
  · exact_mod_cast hle
  · intro h
    exact_mod_cast hone h

theorem value_lastPage (ht : total.value = some (t : ℚ)) (hs : size.value = some (s : ℚ))
    (hlt : t < 10 ^ 21) (hpos : 1 ≤ s) :
    ∃ m : ℕ, (lastPage total size).value = some (m : ℚ) ∧ 1 ≤ m ∧ m ≤ 2 ^ 81 := by
  obtain ⟨m, hm, hle, -⟩ := value_quotientUp_natCast ht hs hlt hpos
  have hzero := isZero_iff hm
  unfold lastPage
  dsimp only
  split
  · exact ⟨1, value_ofNat (n := 1) (by decide), le_rfl, by decide⟩
  · next h =>
    refine ⟨m, hm, Nat.one_le_iff_ne_zero.mpr fun h₀ => h (hzero.mpr ?_), hle⟩
    rw [h₀, Nat.cast_zero]

/-- The page shown is a page of the result, and not one after the page asked for. -/
theorem value_clampPage (hm : last.value = some (m : ℚ)) (hpos : 1 ≤ m)
    (hpage : page = .infinity false ∨ ∃ k : ℕ, 1 ≤ k ∧ page.value = some (k : ℚ)) :
    ∃ k : ℕ, (clampPage page last).value = some (k : ℚ) ∧ 1 ≤ k ∧ k ≤ m ∧
      (page = .infinity false ∨ ∃ k' : ℕ, k ≤ k' ∧ page.value = some (k' : ℚ)) := by
  unfold clampPage
  rcases hpage with rfl | ⟨k, hk, hvalue⟩
  · rw [lt_infinity hm, if_pos Bool.not_false]
    exact ⟨m, hm, hpos, le_rfl, .inl rfl⟩
  · have hlt := lt_iff hm hvalue
    split
    · next h =>
      exact ⟨m, hm, hpos, le_rfl, .inr ⟨k, by exact_mod_cast (hlt.mp h).le, hvalue⟩⟩
    · next h =>
      rw [hlt, not_lt] at h
      exact ⟨k, hvalue, hk, by exact_mod_cast h, .inr ⟨k, le_rfl, hvalue⟩⟩

theorem value_pageOffset {n : ℕ} (hk : page.value = some (k : ℚ)) (hs : size.value = some (s : ℚ))
    (h : |binary64.round (k - 1) * s| ≤ 2 ^ n) (hn : n < 1024) :
    (pageOffset page size).value = some (binary64.round (binary64.round (k - 1) * s)) := by
  have hsub := value_sub hk value_one (abs_round_lt_of_near hk (by simp))
  exact value_mul hsub hs (abs_round_lt h hn)

/-- The tabs are finite if the last of them is, and its distance to the first. -/
theorem range_finite_of_end {e b : ℚ} (hm : last.IsFinite) (hsize : size.value = some b)
    (he : (quotientUp page size * size).value = some e)
    (hsub : |binary64.round (e - binary64.round (b - 1))| < 2 ^ 1024) :
    (PageRange.around page last size).start.IsFinite ∧
      (PageRange.around page last size).end_.IsFinite := by
  have hpred := value_sub hsize value_one (abs_round_lt_of_near hsize (by simp))
  refine ⟨⟨_, value_sub he hpred hsub⟩, ?_⟩
  unfold PageRange.around
  dsimp only
  split
  · exact hm
  · exact ⟨e, he⟩

theorem range_finite_of_small {b : ℤ} (hk : page.value = some (k : ℚ)) (hle : |(k : ℚ)| ≤ 2 ^ 81)
    (hm : last.IsFinite) (hsize : size.value = some (b : ℚ)) (hb : b ≠ 0)
    (hsmall : |(b : ℚ)| ≤ 2 ^ 100) :
    (PageRange.around page last size).start.IsFinite ∧
      (PageRange.around page last size).end_.IsFinite := by
  have hb' : (b : ℚ) ≠ 0 := by exact_mod_cast hb
  have hone_le : 1 ≤ |(b : ℚ)| := by exact_mod_cast Int.one_le_abs hb
  have hdiv : |(k : ℚ) / b| ≤ 2 ^ 81 := by
    rw [abs_div]
    exact (div_le_self (abs_nonneg _) hone_le).trans hle
  have hquotient := value_quotientUp hk hsize hb' hdiv (by decide)
  have habs := BinaryFormat.abs_round_le (two_pow_representable 82) (abs_quotientStep_le hdiv)
  have hend : |binary64.round (quotientStep k b) * b| ≤ 2 ^ 182 := by
    rw [abs_mul, show (2 : ℚ) ^ 182 = 2 ^ 82 * 2 ^ 100 by norm_num]
    exact mul_le_mul habs hsmall (abs_nonneg _) (by positivity)
  refine range_finite_of_end hm hsize
    (value_mul hquotient hsize (abs_round_lt hend (by decide)))
    (abs_round_lt (n := 183) ?_ (by decide))
  have hend' := BinaryFormat.abs_round_le (two_pow_representable 182) hend
  have hpred' : |binary64.round (b - 1)| ≤ 2 ^ 101 := by
    refine BinaryFormat.abs_round_le (two_pow_representable 101) ?_
    calc |(b : ℚ) - 1| ≤ |(b : ℚ)| + |1| := abs_sub _ _
      _ ≤ 2 ^ 101 := by
        rw [abs_one]
        linarith
  calc |binary64.round (binary64.round (quotientStep k b) * b) - binary64.round (b - 1)|
      ≤ |binary64.round (binary64.round (quotientStep k b) * b)| + |binary64.round (b - 1)| :=
        abs_sub _ _
    _ ≤ 2 ^ 182 + 2 ^ 101 := add_le_add hend' hpred'
    _ ≤ 2 ^ 183 := by norm_num

/-- Between a large number and the number before it there is no more than the number itself. -/
theorem abs_sub_round_pred_le {b : ℚ} (hrep : binary64.Representable b) (hlarge : 2 ^ 100 < |b|) :
    |b - binary64.round (b - 1)| ≤ |b| := by
  have hup : binary64.round (b - 1) ≤ b := BinaryFormat.round_le hrep (by linarith)
  have hone : (1 : ℚ) ≤ 2 ^ 100 := by norm_num
  rcases le_or_gt b 0 with hneg | hpos
  · rw [abs_of_nonpos hneg] at hlarge ⊢
    have hlow : 2 * b ≤ binary64.round (b - 1) := BinaryFormat.le_round hrep.two_mul (by linarith)
    rw [abs_of_nonneg] <;> linarith
  · rw [abs_of_pos hpos] at hlarge ⊢
    have hlow : 0 ≤ binary64.round (b - 1) :=
      BinaryFormat.le_round zero_representable (by linarith)
    rw [abs_of_nonneg] <;> linarith

/-- The page lies in the first block, before or after zero. -/
theorem range_finite_of_large {b : ℚ} (hk : page.value = some (k : ℚ)) (hle : |(k : ℚ)| ≤ 2 ^ 81)
    (hm : last.IsFinite) (hsize : size.value = some b) (hlarge : 2 ^ 100 < |b|) :
    (PageRange.around page last size).start.IsFinite ∧
      (PageRange.around page last size).end_.IsFinite := by
  have hpos : 0 < |b| := (by positivity : (0 : ℚ) < 2 ^ 100).trans hlarge
  have hrep := representable_value hsize
  have hdiv : |(k : ℚ) / b| ≤ 1 / 2 := by
    rw [abs_div, div_le_iff₀ hpos]
    have : (2 : ℚ) ^ 81 ≤ 1 / 2 * 2 ^ 100 := by norm_num
    linarith
  have hquotient := value_quotientUp (n := 0) hk hsize (abs_pos.mp hpos)
    (hdiv.trans (by norm_num)) (by decide)
  rcases quotientStep_of_small (representable_value hk) (Nat.cast_nonneg k) hdiv with h | h
  · rw [h, BinaryFormat.round_zero] at hquotient
    have hend := value_mul hquotient hsize (by simp)
    rw [zero_mul, BinaryFormat.round_zero] at hend
    refine range_finite_of_end hm hsize hend ?_
    rw [zero_sub, BinaryFormat.round_eq (BinaryFormat.representable_round _ _).neg, abs_neg]
    exact abs_value_lt (value_sub hsize value_one (abs_round_lt_of_near hsize (by simp)))
  · rw [h, BinaryFormat.round_eq one_representable] at hquotient
    have hend := value_mul hquotient hsize (by
      rw [one_mul, BinaryFormat.round_eq hrep]
      exact abs_value_lt hsize)
    rw [one_mul, BinaryFormat.round_eq hrep] at hend
    have hdistance := BinaryFormat.abs_round_le hrep.abs (abs_sub_round_pred_le hrep hlarge)
    exact range_finite_of_end hm hsize hend (hdistance.trans_lt (abs_value_lt hsize))

/-- The tabs are finite for every page size other than zero. -/
theorem range_finite {b : ℤ} (hk : page.value = some (k : ℚ)) (hle : k ≤ 2 ^ 81)
    (hm : last.IsFinite) (hsize : size.value = some (b : ℚ)) (hb : b ≠ 0) :
    (PageRange.around page last size).start.IsFinite ∧
      (PageRange.around page last size).end_.IsFinite := by
  have hk' : |(k : ℚ)| ≤ 2 ^ 81 := by
    rw [abs_of_nonneg (Nat.cast_nonneg k)]
    exact_mod_cast hle
  rcases le_or_gt |(b : ℚ)| (2 ^ 100) with hsmall | hlarge
  · exact range_finite_of_small hk hk' hm hsize hb hsmall
  · exact range_finite_of_large hk hk' hm hsize hlarge

/-- Up to `2 ^ 53` rows the last page is exact. -/
theorem value_lastPage_eq (ht : total.value = some (t : ℚ)) (hs : size.value = some (s : ℚ))
    (hle : t ≤ 2 ^ 53) (hpos : 1 ≤ s) :
    (lastPage total size).value = some ((max (t ⌈/⌉ s) 1 : ℕ) : ℚ) := by
  have hvalue := value_quotientUp_eq ht hs hle hpos
  have hzero := isZero_iff hvalue
  unfold lastPage
  dsimp only
  split
  · next h =>
    have h₀ : t ⌈/⌉ s = 0 := by exact_mod_cast hzero.mp h
    rw [h₀]
    exact value_ofNat (n := 1) (by decide)
  · next h =>
    have hne : t ⌈/⌉ s ≠ 0 := fun h₀ => h (hzero.mpr (by rw [h₀, Nat.cast_zero]))
    rw [hvalue, max_eq_left (Nat.one_le_iff_ne_zero.mpr hne)]

/-- A page below the first one of a block beyond the result does not begin. -/
theorem pred_mul_le (hpos : 1 ≤ s) (hle : k ≤ max (t ⌈/⌉ s) 1) : (k - 1) * s ≤ t := by
  rcases Nat.lt_or_ge (k - 1) (t ⌈/⌉ s) with hlt | hge
  · exact ((lt_ceilDiv_iff hpos).mp hlt).le
  · have : k - 1 = 0 := by omega
    rw [this, Nat.zero_mul]
    exact Nat.zero_le t

theorem value_pageOffset_eq (hk : page.value = some (k : ℚ)) (hs : size.value = some (s : ℚ))
    (ht : t ≤ 2 ^ 53) (hs₁ : 1 ≤ s) (hk₁ : 1 ≤ k) (hle : k ≤ max (t ⌈/⌉ s) 1) :
    (pageOffset page size).value = some (((k - 1) * s : ℕ) : ℚ) := by
  have hmul := (pred_mul_le hs₁ hle).trans ht
  have hpred : k - 1 ≤ 2 ^ 53 := (Nat.le_mul_of_pos_right _ hs₁).trans hmul
  have hone : (1 : Number).value = some ((1 : ℕ) : ℚ) := value_ofNat (by decide)
  exact value_mul_natCast (value_sub_natCast hk hone hk₁ hpred) hs hmul

/-- A page larger than the result is the only one. -/
theorem value_lastPage_of_large (ht : total.value = some (t : ℚ)) (hs : size.value = some (s : ℚ))
    (hlt : t < 10 ^ 21) (hlarge : 2 ^ 100 < s) : (lastPage total size).value = some (1 : ℚ) := by
  have hs' : (2 : ℚ) ^ 100 < s := by exact_mod_cast hlarge
  have ht' : (t : ℚ) < 10 ^ 21 := by exact_mod_cast hlt
  have hpos : (0 : ℚ) < s := (by positivity : (0 : ℚ) < 2 ^ 100).trans hs'
  have hdiv : |(t : ℚ) / s| ≤ 1 / 2 := by
    rw [abs_of_nonneg (by positivity), div_le_iff₀ hpos]
    have : (10 : ℚ) ^ 21 ≤ 1 / 2 * 2 ^ 100 := by norm_num
    linarith
  have hvalue := value_quotientUp (n := 0) ht hs hpos.ne' (hdiv.trans (by norm_num)) (by decide)
  have hzero := isZero_iff hvalue
  unfold lastPage
  dsimp only
  split
  · exact value_one
  · next h =>
    rcases quotientStep_of_small (representable_value ht) (Nat.cast_nonneg t) hdiv with h₀ | h₁
    · rw [h₀, BinaryFormat.round_zero] at hzero
      exact (h (hzero.mpr rfl)).elim
    · rw [hvalue, h₁, BinaryFormat.round_eq one_representable]

/-- The window of a page of the result begins at an integer. -/
theorem value_pageOffset_of_le (ht : total.value = some (t : ℚ)) (hs : size.value = some (s : ℚ))
    (hlt : t < 10 ^ 21) (hm : (lastPage total size).value = some (m : ℚ)) (hm₁ : m ≤ 2 ^ 81)
    (hk : page.value = some (k : ℚ)) (hk₁ : 1 ≤ k) (hle : k ≤ m) :
    (pageOffset page size).value = some (binary64.round (binary64.round (k - 1) * s)) := by
  have hk₁' : (1 : ℚ) ≤ k := by exact_mod_cast hk₁
  rcases le_or_gt s (2 ^ 100) with hsmall | hlarge
  · have hpred : |binary64.round ((k : ℚ) - 1)| ≤ 2 ^ 81 := by
      refine BinaryFormat.abs_round_le (two_pow_representable 81) ?_
      rw [abs_of_nonneg (by linarith)]
      have : (k : ℚ) ≤ 2 ^ 81 := by exact_mod_cast hle.trans hm₁
      linarith
    refine value_pageOffset (n := 181) hk hs ?_ (by decide)
    rw [abs_mul, abs_of_nonneg (Nat.cast_nonneg s : (0 : ℚ) ≤ s),
      show (2 : ℚ) ^ 181 = 2 ^ 81 * 2 ^ 100 by norm_num]
    exact mul_le_mul hpred (by exact_mod_cast hsmall) (Nat.cast_nonneg s) (by positivity)
  · rw [value_lastPage_of_large ht hs hlt hlarge] at hm
    have hm' : m = 1 := by exact_mod_cast (Option.some.inj hm).symm
    have hk' : k = 1 := by omega
    refine value_pageOffset (n := 0) hk hs ?_ (by decide)
    rw [hk']
    simp

/-- The row `(page - 1) * size` that a page begins with, as it is rounded. -/
def firstRow (page size : ℚ) : ℚ := binary64.round (binary64.round (page - 1) * size)

/-- A later page does not begin before. -/
theorem firstRow_mono {k k' : ℕ} (hk₁ : 1 ≤ k) (hle : k ≤ k') (s : ℕ) :
    firstRow k s ≤ firstRow k' s := by
  have hk₁' : (1 : ℚ) ≤ k := by exact_mod_cast hk₁
  have hle' : (k : ℚ) ≤ k' := by exact_mod_cast hle
  have hpred : 0 ≤ binary64.round ((k : ℚ) - 1) :=
    BinaryFormat.le_round zero_representable (by linarith)
  have hmono : binary64.round ((k : ℚ) - 1) ≤ binary64.round (k' - 1) :=
    BinaryFormat.round_mono (by linarith) (by linarith)
  exact BinaryFormat.round_mono (mul_nonneg hpred (Nat.cast_nonneg s))
    (mul_le_mul_of_nonneg_right hmono (Nat.cast_nonneg s))

end Window

/-! ## Bounded windows -/

/-- `LIMIT` and `OFFSET` are a window of the result, and the page is one of its pages. -/
structure Pagination.Bounded (p : Pagination) : Prop where
  integers : p.size.IsInteger ∧ p.pageSize.IsInteger ∧ p.totalCount.IsInteger ∧ p.page.IsInteger ∧
    p.maxPage.IsInteger ∧ p.limit.IsInteger ∧ p.offset.IsInteger
  one_le_page : 1 ≤ p.page.rational
  page_le : p.page.rational ≤ p.maxPage.rational
  offset_nonneg : 0 ≤ p.offset.rational
  offset_lt : 0 < p.totalCount.rational → p.offset.rational < p.totalCount.rational
  offset_eq_zero : p.totalCount.rational = 0 → p.offset.rational = 0
  range_finite : p.pageRange.start.IsFinite ∧ p.pageRange.end_.IsFinite
  one_le_limit : ¬(p.searchesAll = true ∧ p.totalCount.rational = 0) → 1 ≤ p.limit.rational

/-- The page asked for, or the last page, begins below `totalCount`, which rounding can miss for
more than `2 ^ 53` rows. -/
def PaginationData.RowsBelow (data : PaginationData) : Prop :=
  let total := (data.totalCount.parseOr 1).rational
  let size := (data.size.parseOr 20).rational
  total ≤ 2 ^ 53 ∨ (∃ page, data.requestedPage.value = some page ∧ firstRow page size < total) ∨
    firstRow (binary64.round (quotientStep total size)) size < total

/-- The arguments that a window can be made of. -/
structure PaginationData.Usable (data : PaginationData) : Prop where
  pageSize : ∃ b, (data.pageSize.parseOr 10).value = some b ∧ b ≠ 0
  size : data.searchesAll = false → ∃ s, (data.size.parseOr 20).value = some s ∧ 1 ≤ s
  rows : data.searchesAll = false → data.RowsBelow

variable {n : ℕ}

theorem value_totalCount (h : data.totalCount = .number x) (hx : x.value = some (n : ℚ)) :
    ∃ t : ℕ, t < 10 ^ 21 ∧ (data.totalCount.parseOr 1).value = some (t : ℚ) := by
  obtain ⟨t, hlt, ht⟩ := Number.parseInt_lt hx
  refine ⟨t, hlt, ?_⟩
  have hnan := isNaN_of_value ht
  unfold Param.parseOr
  rw [h]
  change (if x.parseInt.isNaN = true then (1 : Number) else x.parseInt).value = some (t : ℚ)
  rw [hnan]
  exact ht

/-- Divided by zero, the tabs have no bounds. -/
theorem not_finite_of_zero {page last size : Number} (hk : page.value = some a) (ha : 0 < a)
    (hsize : size.value = some 0) : ¬(PageRange.around page last size).start.IsFinite := by
  intro ⟨c, hc⟩
  cases page with
  | nan | infinity => cases hk
  | zero =>
    cases hk
    exact lt_irrefl _ ha
  | finite k h =>
    cases size with
    | nan | infinity => cases hsize
    | finite b hb =>
      cases hsize
      exact hb.ne_zero rfl
    | zero negative =>
      have hlt : Number.lt 0 (finite k h % zero negative) = false := lt_nan 0
      unfold PageRange.around quotientUp at hc
      rw [hlt] at hc
      cases hc

theorem bounded_of_all (hall : data.searchesAll = true) {t : ℕ}
    (ht : (data.totalCount.parseOr 1).value = some (t : ℚ)) {b : ℤ}
    (hb : (data.pageSize.parseOr 10).value = some (b : ℚ)) (hb₀ : b ≠ 0) :
    (Pagination.new data).Bounded := by
  have hone : (1 : Number).value = some ((1 : ℕ) : ℚ) := value_ofNat (n := 1) (by decide)
  have hoffset := value_pageOffset (n := 0) hone ht (by simp) (by decide)
  simp only [Nat.cast_one, sub_self, BinaryFormat.round_zero, zero_mul] at hoffset
  have hrange := range_finite hone (by decide) ⟨_, hone⟩ hb hb₀
  have hT := rational_of_value ht
  have h₁ := rational_of_value hone
  have h₀ := rational_of_value hoffset
  have hint : (data.totalCount.parseOr 1).IsInteger := ⟨t, by exact_mod_cast ht⟩
  have hint₁ : (1 : Number).IsInteger := ⟨1, by exact_mod_cast hone⟩
  rw [new_of_all data hall]
  refine ⟨⟨hint, ⟨b, hb⟩, hint, hint₁, hint₁, hint, ⟨0, by exact_mod_cast hoffset⟩⟩,
    ?_, le_rfl, h₀.ge, fun h => h₀.trans_lt h, fun _ => h₀, hrange, ?_⟩
  · rw [h₁, Nat.cast_one]
  · intro h
    have hne : t ≠ 0 := by
      rintro rfl
      exact h ⟨rfl, by rw [hT, Nat.cast_zero]⟩
    rw [hT]
    exact_mod_cast Nat.one_le_iff_ne_zero.mpr hne

theorem isInteger_row (k s : ℕ) : ∃ o : ℤ, binary64.round (binary64.round (k - 1) * s) = o := by
  obtain ⟨p, hp⟩ := round_intCast (k - 1)
  obtain ⟨o, ho⟩ := round_intCast (p * s)
  push_cast at hp ho
  exact ⟨o, by rw [hp, ho]⟩

section Pages

variable {t s : ℕ} (ht : (data.totalCount.parseOr 1).value = some (t : ℚ)) (hlt : t < 10 ^ 21)
  (hs : (data.size.parseOr 20).value = some (s : ℚ)) (hs₁ : 1 ≤ s)

include ht hlt hs hs₁

theorem lastPage_eq_quotientUp (hpos : 0 < t) :
    lastPage (data.totalCount.parseOr 1) (data.size.parseOr 20) =
      quotientUp (data.totalCount.parseOr 1) (data.size.parseOr 20) := by
  obtain ⟨q, hq, -, hq₁⟩ := value_quotientUp_natCast ht hs hlt hs₁
  refine if_neg ?_
  rw [isZero_iff hq]
  have := hq₁ hpos
  exact_mod_cast (by omega : q ≠ 0)

/-- A page of the result that is not after the page asked for begins below the row count. -/
theorem offset_lt_of_rows {m k : ℕ}
    (hm : (lastPage (data.totalCount.parseOr 1) (data.size.parseOr 20)).value = some (m : ℚ))
    (hk₁ : 1 ≤ k) (hkm : k ≤ m)
    (hk : data.requestedPage = .infinity false ∨
      ∃ k' : ℕ, k ≤ k' ∧ data.requestedPage.value = some (k' : ℚ))
    (hpos : 0 < t) (hrows : data.RowsBelow) : firstRow k s < t := by
  unfold PaginationData.RowsBelow at hrows
  rw [rational_of_value ht, rational_of_value hs] at hrows
  rcases hrows with hle | ⟨page, hpage, hbelow⟩ | hbelow
  · have hle' : t ≤ 2 ^ 53 := by exact_mod_cast hle
    have heq : m = max (t ⌈/⌉ s) 1 := by
      have := hm.symm.trans (value_lastPage_eq ht hs hle' hs₁)
      exact_mod_cast Option.some.inj this
    have hkt : (k - 1) * s < t := by
      have hceil := (lt_ceilDiv_iff (i := 0) hs₁).mpr (by omega : 0 * s < t)
      rw [← lt_ceilDiv_iff hs₁]
      omega
    have hpred : binary64.round ((k : ℚ) - 1) = (k - 1 : ℕ) := by
      have hk53 : k - 1 ≤ 2 ^ 53 := (Nat.le_mul_of_pos_right _ hs₁).trans (hkt.le.trans hle')
      rw [← round_natCast hk53, Nat.cast_sub hk₁, Nat.cast_one]
    rw [firstRow, hpred, ← Nat.cast_mul, round_natCast (hkt.le.trans hle')]
    exact_mod_cast hkt
  · rcases hk with hinf | ⟨k', hle, hk'⟩
    · rw [hinf] at hpage
      cases hpage
    · cases hk'.symm.trans hpage
      exact (firstRow_mono hk₁ hle s).trans_lt hbelow
  · rw [lastPage_eq_quotientUp ht hlt hs hs₁ hpos] at hm
    rw [← Option.some.inj (hm.symm.trans (value_quotientUp_round ht hs hlt hs₁))] at hbelow
    exact (firstRow_mono hk₁ hkm s).trans_lt hbelow

theorem bounded_of_pages (hall : data.searchesAll = false) {b : ℤ}
    (hb : (data.pageSize.parseOr 10).value = some (b : ℚ)) (hb₀ : b ≠ 0) (hrows : data.RowsBelow) :
    (Pagination.new data).Bounded := by
  obtain ⟨m, hm, hm₁, hm₂⟩ := value_lastPage ht hs hlt hs₁
  obtain ⟨k, hk, hk₁, hkm, hreq⟩ := value_clampPage hm hm₁ (requestedPage_cases data)
  have hoffset := value_pageOffset_of_le ht hs hlt hm hm₂ hk hk₁ hkm
  have hnonneg : 0 ≤ binary64.round (binary64.round ((k : ℚ) - 1) * s) := by
    have hpred := BinaryFormat.le_round zero_representable
      (by linarith [show (1 : ℚ) ≤ k by exact_mod_cast hk₁] : (0 : ℚ) ≤ (k : ℚ) - 1)
    exact BinaryFormat.le_round zero_representable (mul_nonneg hpred (Nat.cast_nonneg s))
  obtain ⟨o, ho⟩ := isInteger_row k s
  have hrange := range_finite hk (hkm.trans hm₂) ⟨_, hm⟩ hb hb₀
  have hT := rational_of_value ht
  have hS := rational_of_value hs
  have hM := rational_of_value hm
  have hK := rational_of_value hk
  have hO := rational_of_value hoffset
  rw [new_of_pages data hall]
  refine ⟨⟨⟨s, by exact_mod_cast hs⟩, ⟨b, hb⟩, ⟨t, by exact_mod_cast ht⟩, ⟨k, by exact_mod_cast hk⟩,
    ⟨m, by exact_mod_cast hm⟩, ⟨s, by exact_mod_cast hs⟩, ⟨o, by rw [hoffset, ho]⟩⟩,
    ?_, ?_, ?_, ?_, ?_, hrange, ?_⟩
  · rw [hK]
    exact_mod_cast hk₁
  · rw [hK, hM]
    exact_mod_cast hkm
  · rw [hO]
    exact hnonneg
  · intro h
    rw [hT] at h
    rw [hO, hT]
    exact offset_lt_of_rows ht hlt hs hs₁ hm hk₁ hkm hreq (by exact_mod_cast h) hrows
  · intro h
    rw [hT] at h
    have h₀ : t = 0 := by exact_mod_cast h
    subst h₀
    have heq : m = 1 := by
      have := hm.symm.trans (value_lastPage_eq ht hs (Nat.zero_le _) hs₁)
      simpa using Option.some.inj this
    have hk₀ : k = 1 := by omega
    rw [hO, hk₀]
    simp
  · intro _
    rw [hS]
    exact_mod_cast hs₁

end Pages

theorem pageRange_new (data : PaginationData) : (Pagination.new data).pageRange =
    .around (Pagination.new data).page (Pagination.new data).maxPage
      (data.pageSize.parseOr 10) := by
  cases hall : data.searchesAll with
  | true => rw [new_of_all data hall]
  | false => rw [new_of_pages data hall]

theorem pageSize_new (data : PaginationData) :
    (Pagination.new data).pageSize = data.pageSize.parseOr 10 := by
  cases hall : data.searchesAll with
  | true => rw [new_of_all data hall]
  | false => rw [new_of_pages data hall]

theorem Pagination.Bounded.pageSize_ne_zero (hb : (Pagination.new data).Bounded) :
    ∃ b, (data.pageSize.parseOr 10).value = some b ∧ b ≠ 0 := by
  obtain ⟨-, ⟨b, hsize⟩, -, ⟨k, hk⟩, -⟩ := hb.integers
  have hpage := hb.one_le_page
  rw [rational_of_value hk] at hpage
  rw [pageSize_new] at hsize
  refine ⟨b, hsize, ?_⟩
  intro h₀
  rw [h₀] at hsize
  have hrange := hb.range_finite
  rw [pageRange_new] at hrange
  exact not_finite_of_zero hk (by linarith) hsize hrange.1

theorem Pagination.Bounded.one_le_size (hb : (Pagination.new data).Bounded)
    (hall : data.searchesAll = false) : ∃ s, (data.size.parseOr 20).value = some s ∧ 1 ≤ s := by
  obtain ⟨⟨s, hs⟩, -⟩ := hb.integers
  have hlimit := hb.one_le_limit
  rw [new_of_pages data hall] at hs hlimit
  dsimp only at hs hlimit
  rw [rational_of_value hs] at hlimit
  exact ⟨s, hs, hlimit (by simp)⟩

theorem Pagination.Bounded.rowsBelow (hb : (Pagination.new data).Bounded) {t s : ℕ}
    (ht : (data.totalCount.parseOr 1).value = some (t : ℚ)) (hlt : t < 10 ^ 21)
    (hs : (data.size.parseOr 20).value = some (s : ℚ)) (hs₁ : 1 ≤ s)
    (hall : data.searchesAll = false) : data.RowsBelow := by
  unfold PaginationData.RowsBelow
  rw [rational_of_value ht, rational_of_value hs]
  rcases le_or_gt (t : ℚ) (2 ^ 53) with hle | hgt
  · exact .inl hle
  refine .inr ?_
  have hpos : (0 : ℚ) < t := (by positivity : (0 : ℚ) < 2 ^ 53).trans hgt
  have hrow := hb.offset_lt
  rw [new_of_pages data hall] at hrow
  dsimp only at hrow
  obtain ⟨m, hm, hm₁, hm₂⟩ := value_lastPage ht hs hlt hs₁
  obtain ⟨k, hk, hk₁, hkm, _⟩ := value_clampPage hm hm₁ (requestedPage_cases data)
  rw [rational_of_value ht, rational_of_value (value_pageOffset_of_le ht hs hlt hm hm₂ hk hk₁ hkm)]
    at hrow
  have hbelow : firstRow k s < t := hrow hpos
  -- the page shown is the one asked for, or the last one
  unfold clampPage at hk
  split at hk
  · rw [lastPage_eq_quotientUp ht hlt hs hs₁ (by exact_mod_cast hpos),
      value_quotientUp_round ht hs hlt hs₁] at hk
    rw [← Option.some.inj hk] at hbelow
    exact .inr hbelow
  · exact .inl ⟨k, hk, hbelow⟩

/-- The window of a pagination is bounded for the usable arguments only. -/
theorem bounded_iff (h : data.totalCount = .number x) (hx : x.value = some (n : ℚ)) :
    (Pagination.new data).Bounded ↔ data.Usable := by
  obtain ⟨t, hlt, ht⟩ := value_totalCount h hx
  constructor
  · intro hb
    refine ⟨hb.pageSize_ne_zero, hb.one_le_size, ?_⟩
    intro hall
    obtain ⟨r, hr, hr₁⟩ := hb.one_le_size hall
    obtain ⟨i, rfl⟩ := integer_parseOr (n := 20) (by decide) hr
    have hi : 1 ≤ i := by exact_mod_cast hr₁
    obtain ⟨s, rfl⟩ := Int.eq_ofNat_of_zero_le (by omega : 0 ≤ i)
    exact hb.rowsBelow ht hlt (by exact_mod_cast hr) (by omega) hall
  · intro hu
    obtain ⟨q, hq, hq₀⟩ := hu.pageSize
    obtain ⟨b, rfl⟩ := integer_parseOr (n := 10) (by decide) hq
    have hb₀ : b ≠ 0 := by exact_mod_cast hq₀
    cases hall : data.searchesAll with
    | true => exact bounded_of_all hall ht hq hb₀
    | false =>
      obtain ⟨r, hr, hr₁⟩ := hu.size hall
      obtain ⟨i, rfl⟩ := integer_parseOr (n := 20) (by decide) hr
      have hi : 1 ≤ i := by exact_mod_cast hr₁
      obtain ⟨s, rfl⟩ := Int.eq_ofNat_of_zero_le (by omega : 0 ≤ i)
      exact bounded_of_pages ht hlt (by exact_mod_cast hr) (by omega) hall hq hb₀ (hu.rows hall)

/-- The third page of ten rows. -/
def thirdPage : PaginationData where
  totalCount := .number 45
  page := .text "3"
  size := .text "10"

theorem bounded_thirdPage : (Pagination.new thirdPage).Bounded := by
  refine (bounded_iff (n := 45) rfl (value_ofNat (by decide))).mpr ⟨⟨10, ?_, by norm_num⟩, ?_, ?_⟩
  · decide +kernel
  · exact fun _ => ⟨10, by decide +kernel, by norm_num⟩
  · exact fun _ => .inl (by decide +kernel)

/-- `?size=0` -/
theorem not_bounded_of_size_zero :
    ¬(Pagination.new { totalCount := .number 1, size := .text "0" }).Bounded := by
  intro hb
  obtain ⟨s, hs, hle⟩ := hb.one_le_size rfl
  have h₀ : ((Param.text "0").parseOr 20).value = some 0 := by decide +kernel
  have := Option.some.inj (hs.symm.trans h₀)
  linarith

end NestHarness
