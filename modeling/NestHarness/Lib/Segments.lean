import Mathlib.Data.List.Basic

/-!
# Segments between separators

The parts of a list between its separators, without the empty ones. Two lists that have the same
segments differ only in leading, trailing and repeated separators, and `normalize` picks one of
them.
-/

namespace Segments

variable {α : Type*} [DecidableEq α] (sep : α)

def segments (l : List α) : List (List α) := (l.splitOn sep).filter (· ≠ [])

/-- Each segment after a separator, and a single separator when there is no segment. -/
def rooted (segs : List (List α)) : List α :=
  if segs = [] then [sep] else segs.flatMap (sep :: ·)

def normalize (l : List α) : List α := rooted sep (segments sep l)

@[simp] theorem segments_nil : segments sep [] = [] := rfl

theorem segments_append_cons (l l' : List α) :
    segments sep (l ++ sep :: l') = segments sep l ++ segments sep l' := by
  unfold segments
  rw [List.splitOn_append_cons_self, List.filter_append]

@[simp] theorem segments_cons_sep (l : List α) : segments sep (sep :: l) = segments sep l :=
  segments_append_cons sep [] l

theorem segments_of_notMem {l : List α} (hne : l ≠ []) (h : sep ∉ l) : segments sep l = [l] := by
  rw [segments, List.splitOn_eq_singleton h]
  simp [hne]

theorem of_mem_segments {l s : List α} (h : s ∈ segments sep l) : s ≠ [] ∧ sep ∉ s := by
  obtain ⟨hmem, hne⟩ := List.mem_filter.mp h
  refine ⟨of_decide_eq_true hne, ?_⟩
  clear h hne
  induction l generalizing s with
  | nil =>
    cases List.mem_singleton.mp hmem
    exact List.not_mem_nil
  | cons x l ih =>
    rw [List.splitOn_cons_eq_if_modifyHead] at hmem
    split at hmem
    · obtain rfl | hmem := List.mem_cons.mp hmem
      · exact List.not_mem_nil
      · exact ih hmem
    · next hx =>
      obtain ⟨t, ts, hts⟩ := List.exists_cons_of_ne_nil (List.splitOn_ne_nil sep l)
      rw [hts] at hmem ih
      obtain rfl | hmem := List.mem_cons.mp hmem
      · have hx' : sep ≠ x := fun hsep => hx (beq_iff_eq.mpr hsep.symm)
        exact List.not_mem_cons_of_ne_of_not_mem hx' (ih (List.mem_cons_self ..))
      · exact ih (List.mem_cons_of_mem _ hmem)

theorem segments_flatMap {segs : List (List α)} (h : ∀ s ∈ segs, s ≠ [] ∧ sep ∉ s) :
    segments sep (segs.flatMap (sep :: ·)) = segs := by
  induction segs with
  | nil => rfl
  | cons s segs ih =>
    obtain ⟨⟨hne, hsep⟩, hsegs⟩ := List.forall_mem_cons.mp h
    rw [List.flatMap_cons, List.cons_append, segments_cons_sep]
    cases segs with
    | nil => rw [List.flatMap_nil, List.append_nil, segments_of_notMem sep hne hsep]
    | cons t segs =>
      have htail := ih hsegs
      rw [List.flatMap_cons, List.cons_append, segments_cons_sep] at htail
      rw [List.flatMap_cons, List.cons_append, segments_append_cons, htail,
        segments_of_notMem sep hne hsep]
      rfl

@[simp] theorem segments_normalize (l : List α) :
    segments sep (normalize sep l) = segments sep l := by
  unfold normalize rooted
  split
  · next h => rw [h, segments_cons_sep, segments_nil]
  · exact segments_flatMap sep fun s hs => of_mem_segments sep hs

theorem normalize_eq_iff {l l' : List α} :
    normalize sep l = normalize sep l' ↔ segments sep l = segments sep l' := by
  constructor
  · intro h
    rw [← segments_normalize sep l, h, segments_normalize]
  · intro h
    rw [normalize, h, normalize]

end Segments
