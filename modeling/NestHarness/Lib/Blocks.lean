import Mathlib.Algebra.Order.Floor.Div
import Mathlib.Order.CompletePartialOrder
import Mathlib.Order.Lattice.Nat
import Mathlib.Data.Set.Function
import Mathlib.Order.Interval.Set.Disjoint

/-!
# Blocks of equal width

The natural numbers cut into blocks of `w`, and the first `total` of them into `total ⌈/⌉ w` blocks.
-/

variable {w i j n total : ℕ}

def block (w i : ℕ) : Set ℕ := Set.Ico (i * w) ((i + 1) * w)

theorem mem_block_iff (hw : 0 < w) : n ∈ block w i ↔ n / w = i := by
  rw [block, Set.mem_Ico, Nat.div_eq_iff hw, Nat.add_one_mul]
  omega

/-- Two blocks are the same or have nothing in common. -/
theorem block_eq_or_disjoint (hw : 0 < w) (i j : ℕ) :
    block w i = block w j ∨ Disjoint (block w i) (block w j) := by
  rcases eq_or_ne i j with rfl | hne
  · exact .inl rfl
  · refine .inr (Set.disjoint_left.mpr fun n hi hj => hne ?_)
    rw [← (mem_block_iff hw).mp hi, (mem_block_iff hw).mp hj]

/-- The block of the last of `n + 1` numbers. -/
theorem succ_ceilDiv (hw : 0 < w) (n : ℕ) : (n + 1) ⌈/⌉ w = n / w + 1 := by
  rw [Nat.ceilDiv_eq_add_pred_div, show n + 1 + w - 1 = n + w by omega, Nat.add_div_right n hw]

/-- The quotient rounded up. -/
theorem ceilDiv_eq_div_add (hw : 0 < w) (n : ℕ) :
    n ⌈/⌉ w = n / w + if 0 < n % w then 1 else 0 := by
  cases n with
  | zero => simp
  | succ n =>
    rw [succ_ceilDiv hw, Nat.succ_div]
    have hdvd := Nat.dvd_iff_mod_eq_zero (n := n + 1) (m := w)
    split <;> split <;> omega

theorem lt_ceilDiv_iff (hw : 0 < w) : i < n ⌈/⌉ w ↔ i * w < n := by
  rw [← not_le, ceilDiv_le_iff_le_mul hw, not_le, mul_comm]

/-- The first `total` numbers are tiled by their blocks. -/
theorem existsUnique_block (hw : 0 < w) (h : n < total) :
    ∃! i, i < total ⌈/⌉ w ∧ n ∈ block w i := by
  refine ⟨n / w, ⟨?_, (mem_block_iff hw).mpr rfl⟩, ?_⟩
  · rw [lt_ceilDiv_iff hw]
    exact (Nat.div_mul_le_self n w).trans_lt h
  · intro i hi
    exact ((mem_block_iff hw).mp hi.2).symm

/-- Where every number below `total` is in one of the windows of `K`, the pairs of a window and a
number in it are as many as the numbers. -/
theorem bijOn_snd {W : ℕ → Set ℕ} {K : Set ℕ}
    (h : ∀ n < total, ∃! k, k ∈ K ∧ n ∈ W k) :
    Set.BijOn Prod.snd {kn : ℕ × ℕ | kn.1 ∈ K ∧ kn.2 < total ∧ kn.2 ∈ W kn.1} (Set.Iio total) := by
  refine ⟨fun kn hkn => hkn.2.1, ?_, ?_⟩
  · rintro ⟨k, n⟩ ⟨hk, hn, hkW⟩ ⟨k', n'⟩ ⟨hk', hn', hkW'⟩ heq
    cases heq
    exact congrArg (·, n) ((h n hn).unique ⟨hk, hkW⟩ ⟨hk', hkW'⟩)
  · intro n hn
    obtain ⟨k, ⟨hk, hkW⟩, -⟩ := h n hn
    exact ⟨(k, n), ⟨hk, hn, hkW⟩, rfl⟩
