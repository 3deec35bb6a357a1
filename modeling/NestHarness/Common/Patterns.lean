import NestHarness.ApiLog.Maintenance
import NestHarness.ApiLog.Interceptor
import NestHarness.Harness.ValidateRequest
import NestHarness.Lib.RegexSyntax
import NestHarness.User.Validation

/-!
# The regular expressions of the code

Where the code matches a regular expression, the model takes the text apart by hand. Both come to
the same, whatever the text is.
-/

namespace NestHarness

open RegExp Pattern

/-! ## Fields of a body -/

/-- The items of a class are ranges. -/
def ofRanges (ranges : List (Char × Char)) : CharClass :=
  ⟨false, ranges.map fun r => .range r.1 r.2⟩

theorem contains_ofRanges (ranges : List (Char × Char)) (ch : Char) :
    (ofRanges ranges).contains ch = ranges.any fun r => inRange r.1 r.2 ch := by
  simp only [CharClass.contains, ofRanges, Bool.bne_false, List.any_map]
  rfl

/-- `^[…]+$` -/
theorem test_ranges {p : Pattern} {ranges : List (Char × Char)} {cls : Char → Bool}
    (hp : p = .seq .start
      (.seq (.quantified 1 none true (.set (ofRanges ranges))) (.seq .finish .empty)))
    (hcls : ∀ ch, (ranges.any fun r => inRange r.1 r.2 ch) = cls ch) (s : String) :
    test false p s.toList = matchesAll cls s := by
  rw [Bool.eq_iff_iff, hp, test_all, matchesAll]
  simp [contains_ofRanges, hcls]

namespace AdminUserCreateDto

/-- `/^[a-z0-9]+$/` -/
def loginIdPattern : Pattern := (parse "^[a-z0-9]+$".toList).get (by decide +kernel)

/-- `/^[가-힣a-zA-Z]+$/` -/
def namePattern : Pattern := (parse "^[가-힣a-zA-Z]+$".toList).get (by decide +kernel)

/-- `/^[가-힣a-zA-Z0-9]+$/` -/
def nicknamePattern : Pattern := (parse "^[가-힣a-zA-Z0-9]+$".toList).get (by decide +kernel)

theorem test_loginIdPattern (s : String) :
    test false loginIdPattern s.toList = matchesAll loginIdClass s := by
  have hpattern : loginIdPattern = .seq .start (.seq (.quantified 1 none true
      (.set (ofRanges [('a', 'z'), ('0', '9')]))) (.seq .finish .empty)) := by
    decide +kernel
  exact test_ranges hpattern (fun ch => by simp [loginIdClass]) s

theorem test_namePattern (s : String) :
    test false namePattern s.toList = matchesAll nameClass s := by
  have hpattern : namePattern = .seq .start (.seq (.quantified 1 none true
      (.set (ofRanges [('가', '힣'), ('a', 'z'), ('A', 'Z')]))) (.seq .finish .empty)) := by
    decide +kernel
  exact test_ranges hpattern (fun ch => by simp [nameClass, Bool.or_assoc]) s

theorem test_nicknamePattern (s : String) :
    test false nicknamePattern s.toList = matchesAll nicknameClass s := by
  have hpattern : nicknamePattern = .seq .start (.seq (.quantified 1 none true
      (.set (ofRanges [('가', '힣'), ('a', 'z'), ('A', 'Z'), ('0', '9')])))
      (.seq .finish .empty)) := by
    decide +kernel
  exact test_ranges hpattern (fun ch => by simp [nicknameClass, nameClass, Bool.or_assoc]) s

end AdminUserCreateDto

/-! ## Names of partitions -/

namespace Maintenance

/-- `/^p(\d{4})(\d{2})$/` -/
def namePattern : Pattern := (parse "^p(\\d{4})(\\d{2})$".toList).get (by decide +kernel)

/-- `pYYYYMM` -/
def IsMonthly (s : Text) : Prop :=
  s.head? = some 'p' ∧ s.length = 7 ∧ s.tail.all Char.isDigit = true

instance (s : Text) : Decidable (IsMonthly s) := inferInstanceAs (Decidable (_ ∧ _ ∧ _))

/-- What the parts of the pattern ask of a name. -/
theorem isMonthly_iff {s : Text} : IsMonthly s ↔ ['p'] <+: s ∧
    (4 ≤ (s.drop 1).length ∧ ((s.drop 1).take 4).all Char.isDigit = true) ∧
    (2 ≤ (s.drop 5).length ∧ ((s.drop 5).take 2).all Char.isDigit = true) ∧ s.drop 7 = [] := by
  cases s with
  | nil => simp [IsMonthly]
  | cons c s =>
    have hall : s.all Char.isDigit =
        ((s.take 4).all Char.isDigit && (s.drop 4).all Char.isDigit) := by
      rw [← List.all_append, List.take_append_drop]
    simp only [IsMonthly, List.head?_cons, Option.some.injEq, List.length_cons, List.tail_cons,
      hall, Bool.and_eq_true, List.cons_prefix_cons, List.nil_prefix, and_true, List.drop_succ_cons,
      List.drop_zero, List.length_drop, List.drop_eq_nil_iff]
    constructor
    · intro h
      obtain ⟨hhead, hlength, hyear, hmonth⟩ := h
      have htake : (s.drop 4).take 2 = s.drop 4 := List.take_of_length_le (by simp; omega)
      exact ⟨hhead.symm, ⟨by omega, hyear⟩, ⟨by omega, by rw [htake]; exact hmonth⟩, by omega⟩
    · intro h
      obtain ⟨hhead, ⟨_, hyear⟩, ⟨_, hmonth⟩, _⟩ := h
      have htake : (s.drop 4).take 2 = s.drop 4 := List.take_of_length_le (by simp; omega)
      exact ⟨hhead.symm, by omega, hyear, htake ▸ hmonth⟩

theorem exec_namePattern (s : Text) :
    (exec false namePattern s).map Match.groups =
      if IsMonthly s then some [(2, (s.drop 5).take 2), (1, (s.drop 1).take 4)] else none := by
  have hpattern : namePattern = .seq .start (.followed ['p'] (.seq (.group 1 (.seq
      (.quantified 4 (some 4) true (.set ⟨false, [.digit]⟩)) .empty)) (.seq (.group 2 (.seq
      (.quantified 2 (some 2) true (.set ⟨false, [.digit]⟩)) .empty)) (.seq .finish .empty)))) := by
    decide +kernel
  have hdigit : CharClass.contains ⟨false, [.digit]⟩ = Char.isDigit := by
    funext ch
    simp [CharClass.contains, ClassItem.contains]
  rw [hpattern, exec_start, run_followed, run_group_exactly, run_group_exactly, hdigit,
    run_seq_empty, run_finish]
  simp only [Cursor.skip_rest, Cursor.capture, Cursor.upTo_skip, List.length_singleton,
    List.drop_drop, Nat.reduceAdd]
  by_cases h : IsMonthly s
  · obtain ⟨hfirst, hyear, hmonth, hrest⟩ := isMonthly_iff.mp h
    rw [if_pos h, if_pos hfirst, if_pos hyear, if_pos hmonth, if_pos hrest]
    rfl
  · rw [if_neg h, isMonthly_iff] at *
    split
    · rename_i hfirst
      split
      · rename_i hyear
        split
        · rename_i hmonth
          rw [if_neg fun hrest => h ⟨hfirst, hyear, hmonth, hrest⟩]
          rfl
        · rfl
      · rfl
    · rfl

theorem parsePartitionName_eq (z : Calendar.Zone) (name : String) : parsePartitionName z name =
    ((exec false namePattern name.toList).map Match.groups).bind fun groups => do
      return z.newDate (parseDigits (← groups.lookup 1)) (parseDigits (← groups.lookup 2) - 1) := by
  rw [exec_namePattern, parsePartitionName]
  by_cases h : IsMonthly name.toList
  · rw [if_pos h]
    generalize name.toList = s at h ⊢
    obtain ⟨hhead, hlength, hall⟩ := h
    match s, hlength with
    | [c, y₁, y₂, y₃, y₄, m₁, m₂], _ =>
      obtain rfl : c = 'p' := Option.some.inj hhead
      exact if_pos hall
  · rw [if_neg h]
    split
    · rename_i hname
      refine if_neg fun hall => h ?_
      rw [hname]
      exact ⟨rfl, rfl, hall⟩
    · rfl

end Maintenance

/-! ## Paths of routes -/

namespace ApiLogInterceptor

/-- `/\/+/g` -/
def slashes : Pattern := (parse "\\/+".toList).get (by decide +kernel)

theorem collapseSlashes_true (s : Text) :
    collapseSlashes true s = collapseSlashes false (s.dropWhile (· = '/')) := by
  induction s with
  | nil => rfl
  | cons c s ih =>
    by_cases hc : c = '/'
    · subst hc
      exact ih
    · simp [collapseSlashes, hc]

theorem replaceAll_slashes (s : Text) :
    replaceAll slashes (fun _ => ['/']) s = collapseSlashes false s := by
  have hslashes : slashes =
      .seq (.quantified 1 none true (.set ⟨false, [.range '/' '/']⟩)) .empty := by
    decide +kernel
  have hcontains : CharClass.contains ⟨false, [.range '/' '/']⟩ = fun x => decide (x = '/') := by
    funext x
    simp [CharClass.contains]
  have hscans := (scans_plus ⟨false, [.range '/' '/']⟩).seq_empty
  rw [hcontains] at hscans
  rw [hslashes]
  apply hscans.replaceAll_eq
  · rfl
  · intro x s hx
    simp [collapseSlashes, of_decide_eq_false hx]
  · intro x s hx
    obtain rfl : x = '/' := of_decide_eq_true hx
    have hdrop : s.drop (s.takeWhile (· = '/')).length = s.dropWhile (· = '/') := by
      have h : (s.takeWhile (· = '/') ++ s.dropWhile (· = '/')).drop
          (s.takeWhile (· = '/')).length = s.dropWhile (· = '/') := List.drop_left
      rwa [List.takeWhile_append_dropWhile] at h
    have htake : ('/' :: s).takeWhile (· = '/') = '/' :: s.takeWhile (· = '/') :=
      List.takeWhile_cons_of_pos hx
    rw [htake, List.length_cons, List.drop_succ_cons, hdrop, ← collapseSlashes_true]
    exact ⟨Nat.succ_pos _, rfl⟩

end ApiLogInterceptor

/-! ## Frontmatters -/

namespace ValidateRequest

/-- `^---\n([\s\S]*?)\n---` -/
def fmPattern : Pattern := (RegExp.parse "^---\\n([\\s\\S]*?)\\n---".toList).get (by decide +kernel)

/-- The shortest text before a fence. -/
theorem findSome_fence (s : Text) :
    ((List.range (s.length + 1)).findSome? fun n =>
      if "\n---".toList <+: s.drop n then some (s.take n) else none) = untilFence s := by
  induction s with
  | nil => decide +kernel
  | cons c s ih =>
    rw [untilFence, ← ih, List.length_cons, List.range_succ_eq_map, List.findSome?_cons,
      List.drop_zero, List.take_zero]
    by_cases hfence : "\n---".toList <+: c :: s
    · rw [if_pos hfence, if_pos (List.isPrefixOf_iff_prefix.mpr hfence)]
    · rw [if_neg hfence, if_neg (mt List.isPrefixOf_iff_prefix.mp hfence), List.findSome?_map,
        List.map_findSome?]
      change List.findSome? _ _ = _
      congr 1
      funext n
      simp only [Function.comp_apply, List.drop_succ_cons, List.take_succ_cons]
      split <;> rfl

theorem exec_fmPattern (content : Text) :
    (exec false fmPattern content).map Match.groups =
      (frontmatter content).map fun text => [(1, text)] := by
  have hpattern : fmPattern = .seq .start (.followed "---\n".toList (.seq (.group 1
      (.seq (.quantified 0 none false (.set ⟨false, [.space, .notSpace]⟩)) .empty))
      (.literal "\n---".toList))) := by
    decide +kernel
  have hany (ch : Char) : CharClass.contains ⟨false, [.space, .notSpace]⟩ ch = true := by
    simp [CharClass.contains, ClassItem.contains]
  rw [hpattern, exec_start, run_followed, frontmatter]
  by_cases hfirst : "---\n".toList <+: content
  · rw [if_pos hfirst, if_pos (List.isPrefixOf_iff_prefix.mpr hfirst), head?_lazy hany,
      ← findSome_fence, List.map_findSome?, List.map_findSome?, List.map_findSome?]
    congr 1
    funext n
    have hlength : "---\n".toList.length = 4 := rfl
    simp only [Function.comp_apply, Cursor.skip_rest, hlength]
    by_cases hfence : "\n---".toList <+: (content.drop 4).drop n
    · rw [if_pos hfence, if_pos hfence]
      simp only [Option.map_some, Cursor.skip_groups, Cursor.capture, Cursor.upTo_skip,
        Cursor.skip_rest]
    · rw [if_neg hfence, if_neg hfence]
      rfl
  · rw [if_neg hfirst, if_neg (mt List.isPrefixOf_iff_prefix.mp hfirst)]
    rfl

end ValidateRequest

open AdminUserCreateDto in
/-- **What the regular expressions of the code match**, for every text: the fields of a body are not
empty and have only characters of their class, the name of a partition is `pYYYYMM` with the year
and the month in the groups, runs of slashes become one, and a frontmatter ends at the first
fence. -/
theorem patterns_match :
    (∀ s : String, test false loginIdPattern s.toList = matchesAll loginIdClass s ∧
      test false namePattern s.toList = matchesAll nameClass s ∧
      test false nicknamePattern s.toList = matchesAll nicknameClass s) ∧
    (∀ (z : Calendar.Zone) (name : String), Maintenance.parsePartitionName z name =
      ((exec false Maintenance.namePattern name.toList).map Match.groups).bind fun groups => do
        return z.newDate (Maintenance.parseDigits (← groups.lookup 1))
          (Maintenance.parseDigits (← groups.lookup 2) - 1)) ∧
    (∀ s : Text, replaceAll ApiLogInterceptor.slashes (fun _ => ['/']) s =
      ApiLogInterceptor.collapseSlashes false s) ∧
    ∀ content : Text, (exec false ValidateRequest.fmPattern content).map Match.groups =
      (ValidateRequest.frontmatter content).map fun text => [(1, text)] := by
  refine ⟨?_, Maintenance.parsePartitionName_eq, ApiLogInterceptor.replaceAll_slashes,
    ValidateRequest.exec_fmPattern⟩
  intro s
  exact ⟨test_loginIdPattern s, test_namePattern s, test_nicknamePattern s⟩

end NestHarness
