import Mathlib.Data.List.Infix

/-!
# Patterns with stars

A pattern is given by the texts around its stars, and a star stands for any text.
-/

namespace Glob

variable {α : Type*} [DecidableEq α]

def accepts : List (List α) → List α → Bool
  | [], _ => false
  | [p], s => s = p
  | p :: q :: ps, s => p.isPrefixOf s && (s.drop p.length).tails.any (accepts (q :: ps))

/-- The texts of a pattern with something at each star. -/
inductive Fills : List (List α) → List α → Prop
  | last (p : List α) : Fills [p] p
  | star (p gap : List α) {q : List α} {ps : List (List α)} {s : List α} (h : Fills (q :: ps) s) :
    Fills (p :: q :: ps) (p ++ (gap ++ s))

theorem accepts_iff {ps : List (List α)} {s : List α} : accepts ps s = true ↔ Fills ps s := by
  constructor
  · intro h
    induction ps generalizing s with
    | nil => cases h
    | cons p ps ih =>
      cases ps with
      | nil =>
        obtain rfl : s = p := of_decide_eq_true h
        exact .last s
      | cons q ps =>
        obtain ⟨hp, hrest⟩ := Bool.and_eq_true_iff.mp h
        obtain ⟨rest, rfl⟩ := List.isPrefixOf_iff_prefix.mp hp
        obtain ⟨t, ht, hfills⟩ := List.any_eq_true.mp hrest
        obtain ⟨gap, hgap⟩ := (List.mem_tails _ _).mp ht
        rw [List.drop_left] at hgap
        exact hgap ▸ .star p gap (ih hfills)
  · intro h
    induction h with
    | last p => exact decide_eq_true rfl
    | star p gap h ih =>
      refine Bool.and_eq_true_iff.mpr ⟨List.isPrefixOf_iff_prefix.mpr (List.prefix_append ..), ?_⟩
      rw [List.drop_left]
      exact List.any_eq_true.mpr ⟨_, (List.mem_tails _ _).mpr (List.suffix_append ..), ih⟩

end Glob
