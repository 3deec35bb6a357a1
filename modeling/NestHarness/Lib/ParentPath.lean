import Mathlib.Data.List.Nodup
import Mathlib.Logic.Relation

/-!
# Rows linked by a parent key

A list of rows, each with a key and the key of its parent if it has one, is a path when the first
row has no parent and every other row's parent is the row before it. With distinct keys the path is
simple: the parent relation determines the positions, and following it strictly advances.
-/

/-- The rows of `l` are linked one after the other, starting from a row without a parent. -/
structure IsPath (key : ρ → κ) (parent : ρ → Option κ) (l : List ρ) : Prop where
  nonempty : l ≠ []
  root : ∀ {r}, l[0]? = some r → parent r = none
  link : ∀ {i a b}, l[i]? = some a → l[i + 1]? = some b → parent b = some (key a)

namespace IsPath

variable {ρ κ : Type*} {key : ρ → κ} {parent : ρ → Option κ} {l : List ρ}

theorem singleton {r : ρ} (h : parent r = none) : IsPath key parent [r] where
  nonempty := by simp
  root := by simp [h]
  link := by simp

/-- A row whose parent is the last row extends the path. -/
theorem snoc {a b : ρ} (h : IsPath key parent l) (ha : l.getLast? = some a)
    (hb : parent b = some (key a)) : IsPath key parent (l ++ [b]) where
  nonempty := by simp
  root {r} hr := by
    rw [List.getElem?_append_left (List.length_pos_iff.mpr h.nonempty)] at hr
    exact h.root hr
  link {i x y} hx hy := by
    rcases Nat.lt_or_ge (i + 1) l.length with hi | hi
    · rw [List.getElem?_append_left (by omega)] at hx hy
      exact h.link hx hy
    · have hy' := (List.getElem?_eq_some_iff.mp hy).1
      rw [List.length_append, List.length_singleton] at hy'
      obtain rfl : i = l.length - 1 := by omega
      rw [List.getElem?_append_right (by omega)] at hy
      rw [List.getElem?_append_left (by omega), ← List.getLast?_eq_getElem?, ha] at hx
      cases hx
      simp only [show l.length - 1 + 1 - l.length = 0 by omega, List.getElem?_cons_zero,
        Option.some.injEq] at hy
      exact hy ▸ hb

/-- The only row without a parent is the first. -/
theorem root_eq {r : ρ} (h : IsPath key parent l) (hr : r ∈ l) (hp : parent r = none) :
    l[0]? = some r := by
  obtain ⟨i, hi⟩ := List.mem_iff_getElem?.mp hr
  cases i with
  | zero => exact hi
  | succ i =>
    have hlt := (List.getElem?_eq_some_iff.mp hi).1
    have := h.link (List.getElem?_eq_getElem (by omega)) hi
    rw [hp] at this
    cases this

/-- The row before a row with a parent is that parent. -/
theorem exists_parent {b : ρ} (h : IsPath key parent l) (hb : b ∈ l) (hp : parent b = some k) :
    ∃ i a, l[i]? = some a ∧ l[i + 1]? = some b ∧ key a = k := by
  obtain ⟨i, hi⟩ := List.mem_iff_getElem?.mp hb
  cases i with
  | zero => rw [h.root hi] at hp; cases hp
  | succ i =>
    have hlt := (List.getElem?_eq_some_iff.mp hi).1
    have ha := List.getElem?_eq_getElem (l := l) (i := i) (by omega)
    have := h.link ha hi
    rw [hp, Option.some.injEq] at this
    exact ⟨i, _, ha, hi, this.symm⟩

/-- A row that no row has as its parent is the last. -/
theorem last_eq {a : ρ} (h : IsPath key parent l) (ha : a ∈ l)
    (hno : ∀ b ∈ l, parent b ≠ some (key a)) : l.getLast? = some a := by
  obtain ⟨i, hi⟩ := List.mem_iff_getElem?.mp ha
  have hlt := (List.getElem?_eq_some_iff.mp hi).1
  rcases Nat.lt_or_ge (i + 1) l.length with hi' | hi'
  · have hb := List.getElem?_eq_getElem hi'
    exact absurd (h.link hi hb) (hno _ (List.mem_of_getElem? hb))
  · rw [List.getLast?_eq_getElem?, show l.length - 1 = i by omega, hi]

theorem index_unique {i j : Nat} {a b : ρ} (hn : (l.map key).Nodup) (ha : l[i]? = some a)
    (hb : l[j]? = some b) (hk : key a = key b) : i = j := by
  have hi := (List.getElem?_eq_some_iff.mp ha).1
  refine (List.getElem?_inj (by simpa using hi) hn).mp ?_
  simp [List.getElem?_map, ha, hb, hk]

/-- The child of a row is the row after it. -/
theorem succ_eq {i : Nat} {a b : ρ} (h : IsPath key parent l) (hn : (l.map key).Nodup)
    (ha : l[i]? = some a) (hb : b ∈ l) (hp : parent b = some (key a)) : l[i + 1]? = some b := by
  obtain ⟨j, a', ha', hb', hk⟩ := h.exists_parent hb hp
  rw [index_unique hn ha ha' hk.symm]
  exact hb'

/-- Following the parent relation within a path advances along it. -/
theorem lt_of_transGen {i : Nat} {a b : ρ} (h : IsPath key parent l) (hn : (l.map key).Nodup)
    (hab : Relation.TransGen (fun a b => b ∈ l ∧ parent b = some (key a)) a b)
    (ha : l[i]? = some a) : ∃ j, i < j ∧ l[j]? = some b := by
  induction hab with
  | single hb => exact ⟨i + 1, Nat.lt_succ_self i, h.succ_eq hn ha hb.1 hb.2⟩
  | tail _ hb ih =>
    obtain ⟨j, hij, hj⟩ := ih
    exact ⟨j + 1, by omega, h.succ_eq hn hj hb.1 hb.2⟩

theorem acyclic {a : ρ} (h : IsPath key parent l) (hn : (l.map key).Nodup) :
    ¬ Relation.TransGen (fun a b => b ∈ l ∧ parent b = some (key a)) a a := by
  intro haa
  have ha : a ∈ l := by cases haa with | single h => exact h.1 | tail _ h => exact h.1
  obtain ⟨i, hi⟩ := List.mem_iff_getElem?.mp ha
  obtain ⟨j, hij, hj⟩ := h.lt_of_transGen hn haa hi
  exact absurd (index_unique hn hi hj rfl) (by omega)

end IsPath
