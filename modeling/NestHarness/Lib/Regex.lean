import Mathlib.Data.List.TakeWhile
import NestHarness.Lib.Text

/-!
# Regular expressions

Patterns of ECMAScript without look-around and back references. A pattern is run from a position and
gives the positions where a match may end, in the order in which they are tried; the match of a text
is the first one from the first position that has any.
-/

namespace RegExp

/-! ## Patterns -/

inductive ClassItem where
  | range (first last : Char)
  /-- `\d` -/
  | digit
  /-- `\s` -/
  | space
  /-- `\S` -/
  | notSpace
deriving DecidableEq

def ClassItem.contains (c : Char) : ClassItem → Bool
  | range first last => first ≤ c && c ≤ last
  | digit => c.isDigit
  | space => Js.isSpace c
  | notSpace => !Js.isSpace c

structure CharClass where
  negated : Bool
  items : List ClassItem
deriving DecidableEq

def CharClass.contains (k : CharClass) (c : Char) : Bool := k.items.any (·.contains c) != k.negated

inductive Pattern where
  | empty
  | set (k : CharClass)
  /-- `^` -/
  | start
  /-- `$` -/
  | finish
  | seq (p q : Pattern)
  | alt (p q : Pattern)
  | group (index : Nat) (p : Pattern)
  | quantified (min : Nat) (max : Option Nat) (greedy : Bool) (p : Pattern)
deriving DecidableEq

def isLineTerminator (c : Char) : Bool := c ∈ ['\n', '\r', '\u2028', '\u2029']

/-- A character that stands for itself. -/
def Pattern.char (c : Char) : Pattern := .set ⟨false, [.range c c]⟩

/-- `.` -/
def Pattern.dot : Pattern :=
  .set ⟨true, [.range '\n' '\n', .range '\r' '\r', .range '\u2028' '\u2029']⟩

/-- A text and the pattern after it. -/
def Pattern.followed (s : List Char) (p : Pattern) : Pattern :=
  s.foldr (fun c p => .seq (.char c) p) p

def Pattern.literal (s : List Char) : Pattern := .followed s .empty

/-- The groups of a pattern. -/
def Pattern.indices : Pattern → List Nat
  | empty | set _ | start | finish => []
  | seq p q | alt p q => p.indices ++ q.indices
  | group index p => index :: p.indices
  | quantified _ _ _ p => p.indices

/-! ## Positions -/

/-- A position in a text: what stands before it, read backwards, what stands after it, and what the
groups have matched on the way. -/
structure Cursor where
  before : List Char
  rest : List Char
  groups : List (Nat × List Char)
deriving DecidableEq

namespace Cursor

def skip (c : Cursor) (n : Nat) : Cursor :=
  { c with before := (c.rest.take n).reverse ++ c.before, rest := c.rest.drop n }

/-- The text from one position to a later one. -/
def upTo (c c' : Cursor) : List Char := c.rest.take (c.rest.length - c'.rest.length)

/-- A group that has been entered at `c` is left at `c'`. -/
def capture (index : Nat) (c c' : Cursor) : Cursor :=
  { c' with groups := (index, c.upTo c') :: c'.groups }

/-- An iteration begins without what its groups have matched before. -/
def clear (c : Cursor) (indices : List Nat) : Cursor :=
  { c with groups := c.groups.filter (·.1 ∉ indices) }

@[simp] theorem skip_zero (c : Cursor) : c.skip 0 = c := rfl

@[simp] theorem skip_groups (c : Cursor) (n : Nat) : (c.skip n).groups = c.groups := rfl

@[simp] theorem skip_rest (c : Cursor) (n : Nat) : (c.skip n).rest = c.rest.drop n := rfl

@[simp] theorem skip_skip (c : Cursor) (m n : Nat) : (c.skip m).skip n = c.skip (m + n) := by
  simp only [skip, List.take_add, List.drop_drop, List.reverse_append, List.append_assoc]

theorem upTo_skip (c : Cursor) (n : Nat) : c.upTo (c.skip n) = c.rest.take n := by
  rw [upTo, skip_rest, List.length_drop, List.take_eq_take_iff]
  omega

@[simp] theorem clear_nil (c : Cursor) : c.clear [] = c := by
  simp [clear]

end Cursor

/-! ## Matching -/

/-- `step` again and again, from `min` to `max` times; an optional iteration that matches nothing is
no way to match. -/
def iterate (step : Cursor → List Cursor) (greedy : Bool) :
    (fuel min : Nat) → Option Nat → Cursor → List Cursor
  | _, _, some 0, c => [c]
  | 0, _, _, _ => []
  | fuel + 1, min, max, c =>
    let more := (step c).flatMap fun c' =>
      if min = 0 ∧ c'.rest.length = c.rest.length then []
      else iterate step greedy fuel (min - 1) (max.map (· - 1)) c'
    if min ≠ 0 then more
    else if greedy then more ++ [c] else c :: more

def atStart (multiline : Bool) (c : Cursor) : Bool :=
  match c.before with
  | [] => true
  | ch :: _ => multiline && isLineTerminator ch

def atFinish (multiline : Bool) (c : Cursor) : Bool :=
  match c.rest with
  | [] => true
  | ch :: _ => multiline && isLineTerminator ch

/-- Where the pattern may end when it is matched from the cursor on. Each iteration of a quantified
pattern makes `min` or the rest of the text smaller, which bounds their number. -/
def Pattern.run (multiline : Bool) : Pattern → Cursor → List Cursor
  | empty, c => [c]
  | set k, c =>
    match c.rest with
    | ch :: _ => if k.contains ch then [c.skip 1] else []
    | [] => []
  | start, c => if atStart multiline c then [c] else []
  | finish, c => if atFinish multiline c then [c] else []
  | seq p q, c => (p.run multiline c).flatMap (q.run multiline)
  | alt p q, c => p.run multiline c ++ q.run multiline c
  | group index p, c => (p.run multiline c).map (c.capture index)
  | quantified min max greedy p, c =>
    iterate (fun c => p.run multiline (c.clear p.indices)) greedy (min + c.rest.length + 1) min
      max c

/-- The first match, from the first position on that has one. -/
def searchFrom (multiline : Bool) (p : Pattern) (before : List Char) :
    List Char → Option (Cursor × Cursor)
  | [] => ((p.run multiline ⟨before, [], []⟩).head?).map (⟨before, [], []⟩, ·)
  | ch :: rest =>
    match p.run multiline ⟨before, ch :: rest, []⟩ with
    | c :: _ => some (⟨before, ch :: rest, []⟩, c)
    | [] => searchFrom multiline p (ch :: before) rest

/-- What `exec` gives: the matched text and what the groups have matched. -/
structure Match where
  text : List Char
  groups : List (Nat × List Char)
deriving DecidableEq

def Match.group (m : Match) (index : Nat) : Option (List Char) := m.groups.lookup index

def exec (multiline : Bool) (p : Pattern) (s : List Char) : Option Match :=
  (searchFrom multiline p [] s).map fun x => ⟨x.1.upTo x.2, x.2.groups⟩

def test (multiline : Bool) (p : Pattern) (s : List Char) : Bool := (exec multiline p s).isSome

/-- The matches that `replace` finds with the flag `g`, from the cursor on: the next search begins
where the last match has ended, after an empty one a character later. -/
def replaceFrom (p : Pattern) (f : List Char → List Char) :
    (fuel : Nat) → (before rest : List Char) → List Char
  | 0, _, rest => rest
  | fuel + 1, before, rest =>
    match searchFrom false p before rest with
    | none => rest
    | some (c, c') =>
      rest.take (rest.length - c.rest.length) ++ f (c.upTo c') ++
        if c'.rest.length < c.rest.length then replaceFrom p f fuel c'.before c'.rest
        else
          match c'.rest with
          | [] => []
          | ch :: after => ch :: replaceFrom p f fuel (ch :: c'.before) after

/-- `s.replace(p, f)` with the flag `g`. -/
def replaceAll (p : Pattern) (f : List Char → List Char) (s : List Char) : List Char :=
  replaceFrom p f (s.length + 1) [] s

section
open Pattern
variable {multiline greedy : Bool} {p : Pattern} {k : CharClass} {c : Cursor} {s : List Char}

/-! ## Runs of patterns -/

@[simp] theorem contains_char (ch x : Char) :
    ClassItem.contains x (.range ch ch) = decide (x = ch) := by
  rw [ClassItem.contains, Bool.eq_iff_iff, Bool.and_eq_true, decide_eq_true_iff, decide_eq_true_iff,
    decide_eq_true_iff]
  constructor
  · intro h
    exact Char.le_antisymm h.2 h.1
  · rintro rfl
    exact ⟨Char.le_refl x, Char.le_refl x⟩

/-- A class that lists its characters. -/
theorem contains_chars (cs : List Char) (x : Char) :
    CharClass.contains ⟨false, cs.map fun c => .range c c⟩ x = decide (x ∈ cs) := by
  simp only [CharClass.contains, Bool.bne_false]
  induction cs with
  | nil => simp
  | cons c cs ih =>
    rw [List.map_cons, List.any_cons, ih, contains_char]
    simp [List.mem_cons]

theorem run_char (ch : Char) (c : Cursor) :
    (char ch).run multiline c = if c.rest.head? = some ch then [c.skip 1] else [] := by
  rw [char, run]
  cases hrest : c.rest with
  | nil => rfl
  | cons x rest => simp [CharClass.contains]

@[simp] theorem run_seq_empty (p : Pattern) : (seq p empty).run multiline = p.run multiline := by
  funext c
  rw [run]
  exact List.flatMap_singleton' _

theorem run_followed (s : List Char) (p : Pattern) (c : Cursor) :
    (followed s p).run multiline c =
      if s <+: c.rest then p.run multiline (c.skip s.length) else [] := by
  induction s generalizing c with
  | nil => simp [followed]
  | cons ch s ih =>
    change (seq (char ch) (followed s p)).run multiline c = _
    rw [run, run_char]
    cases hrest : c.rest with
    | nil => simp
    | cons x rest =>
      by_cases hx : x = ch
      · subst hx
        simp [ih, hrest, Nat.add_comm]
      · simp [hx, Ne.symm hx]

theorem run_literal (s : List Char) (c : Cursor) :
    (literal s).run multiline c = if s <+: c.rest then [c.skip s.length] else [] :=
  run_followed s empty c

/-- How many characters a quantified class may take of `n` that are in the class. -/
def atMost : Option Nat → Nat → Nat
  | none, n => n
  | some max, n => min max n

theorem filter_range_succ (lo n : Nat) :
    (List.range (n + 1)).filter (lo ≤ ·) =
      (if lo = 0 then [0] else []) ++ ((List.range n).filter (lo - 1 ≤ ·)).map (· + 1) := by
  rw [List.range_succ_eq_map, List.filter_cons, List.filter_map]
  have hcongr : (List.range n).filter ((decide <| lo ≤ ·) ∘ Nat.succ) =
      (List.range n).filter (lo - 1 ≤ ·) := by
    refine List.filter_congr ?_
    intro x _
    simp only [Function.comp_apply, Nat.succ_eq_add_one, decide_eq_decide]
    omega
  rw [hcongr]
  cases lo <;> simp

theorem atMost_succ {hi : Option Nat} (h : hi ≠ some 0) (n : Nat) :
    atMost hi (n + 1) = atMost (hi.map (· - 1)) n + 1 := by
  cases hi with
  | none => rfl
  | some max =>
    have hmax : max ≠ 0 := fun hmax => h (congrArg some hmax)
    simp only [atMost, Option.map_some]
    omega

/-- The numbers of iterations, in the order in which they are tried. -/
def counts (greedy : Bool) (lo : Nat) (hi : Option Nat) (n : Nat) : List Nat :=
  let ns := (List.range (atMost hi n + 1)).filter (lo ≤ ·)
  if greedy then ns.reverse else ns

theorem mem_counts {lo n x : Nat} {hi : Option Nat} :
    x ∈ counts greedy lo hi n ↔ lo ≤ x ∧ x ≤ atMost hi n := by
  have hmem : x ∈ (List.range (atMost hi n + 1)).filter (lo ≤ ·) ↔ lo ≤ x ∧ x ≤ atMost hi n := by
    rw [List.mem_filter, List.mem_range, Nat.lt_succ_iff, decide_eq_true_iff, and_comm]
  cases greedy with
  | true => exact List.mem_reverse.trans hmem
  | false => exact hmem

theorem counts_zero (greedy : Bool) (lo : Nat) (hi : Option Nat) :
    counts greedy lo hi 0 = if lo = 0 then [0] else [] := by
  have hhi : atMost hi 0 = 0 := by
    cases hi <;> simp [atMost]
  cases lo <;> cases greedy <;> simp [counts, hhi]

theorem counts_succ {lo : Nat} {hi : Option Nat} (h : hi ≠ some 0) (n : Nat) :
    counts greedy lo hi (n + 1) =
      let more := (counts greedy (lo - 1) (hi.map (· - 1)) n).map (· + 1)
      if lo ≠ 0 then more else if greedy then more ++ [0] else 0 :: more := by
  rw [counts, atMost_succ h, filter_range_succ]
  cases lo <;> cases greedy <;> simp [counts]

theorem run_set_nil (h : c.rest.takeWhile k.contains = []) : (set k).run multiline c = [] := by
  rw [run]
  cases hrest : c.rest with
  | nil => rfl
  | cons x rest =>
    rw [hrest, List.takeWhile_cons] at h
    split at h
    · cases h
    · rename_i hx
      exact if_neg hx

theorem run_set_cons {x : Char} {rest : List Char} (hrest : c.rest = x :: rest)
    (hx : k.contains x = true) : (set k).run multiline c = [c.skip 1] := by
  rw [run, hrest]
  exact if_pos hx

/-- An iteration that cannot begin ends the others. -/
theorem iterate_stuck {step : Cursor → List Cursor} (hstep : step c = []) {fuel lo : Nat}
    {hi : Option Nat} (hhi : hi ≠ some 0) :
    iterate step greedy (fuel + 1) lo hi c = if lo = 0 then [c] else [] := by
  rw [iterate.eq_3 _ _ _ _ _ _ hhi, hstep]
  cases lo <;> simp

/-- The number of iterations over a class is bounded by the characters of the class that follow. -/
theorem iterate_set {step : Cursor → List Cursor} (hstep : ∀ c, step c = (set k).run multiline c)
    {fuel lo : Nat} {hi : Option Nat} (hfuel : c.rest.length < fuel) (hle : ∀ b ∈ hi, lo ≤ b) :
    iterate step greedy fuel lo hi c =
      (counts greedy lo hi (c.rest.takeWhile k.contains).length).map c.skip := by
  induction fuel generalizing lo hi c with
  | zero => exact absurd hfuel (Nat.not_lt_zero _)
  | succ fuel ih =>
    by_cases hhi : hi = some 0
    · subst hhi
      obtain rfl := Nat.le_zero.mp (hle 0 rfl)
      cases greedy <;> simp [iterate, counts, atMost]
    by_cases hstuck : c.rest.takeWhile k.contains = []
    · rw [iterate_stuck ((hstep c).trans (run_set_nil hstuck)) hhi, hstuck, List.length_nil,
        counts_zero]
      cases lo <;> rfl
    obtain ⟨x, rest, hrest, hx⟩ : ∃ x rest, c.rest = x :: rest ∧ k.contains x = true := by
      cases hrest : c.rest with
      | nil => exact absurd (by rw [hrest]; rfl) hstuck
      | cons x rest =>
        refine ⟨x, rest, rfl, ?_⟩
        by_contra hx
        exact hstuck (by rw [hrest, List.takeWhile_cons, if_neg hx])
    have hskip : (c.skip 1).rest = rest := by
      rw [Cursor.skip_rest, hrest]
      rfl
    have hmore : iterate step greedy fuel (lo - 1) (hi.map (· - 1)) (c.skip 1) =
        ((counts greedy (lo - 1) (hi.map (· - 1)) (rest.takeWhile k.contains).length).map
          (· + 1)).map c.skip := by
      rw [ih (c := c.skip 1), hskip, List.map_map]
      · refine List.map_congr_left ?_
        intro n _
        rw [Cursor.skip_skip, Nat.add_comm]
        rfl
      · rw [hskip]
        rw [hrest, List.length_cons] at hfuel
        exact Nat.lt_of_succ_lt_succ hfuel
      · intro b hb
        obtain ⟨b', hb', rfl⟩ := Option.map_eq_some_iff.mp hb
        exact Nat.sub_le_sub_right (hle b' hb') 1
    have hlonger : ¬(lo = 0 ∧ (c.skip 1).rest.length = c.rest.length) := by
      rw [hskip, hrest, List.length_cons]
      omega
    have htake : (c.rest.takeWhile k.contains).length = (rest.takeWhile k.contains).length + 1 := by
      rw [hrest, List.takeWhile_cons, if_pos hx, List.length_cons]
    rw [iterate.eq_3 _ _ _ _ _ _ hhi, hstep, run_set_cons hrest hx, htake, counts_succ hhi]
    simp only [List.flatMap_cons, List.flatMap_nil, List.append_nil, if_neg hlonger, hmore]
    split
    · rfl
    · split <;> simp

/-- How often a quantified class is matched. -/
theorem run_quantified_set {lo : Nat} {hi : Option Nat} (hle : ∀ b ∈ hi, lo ≤ b) (c : Cursor) :
    (quantified lo hi greedy (set k)).run multiline c =
      (counts greedy lo hi (c.rest.takeWhile k.contains).length).map c.skip := by
  have hstep (c : Cursor) :
      (set k).run multiline (c.clear (set k).indices) = (set k).run multiline c := by
    rw [indices, Cursor.clear_nil]
  exact iterate_set hstep (by omega) hle

theorem run_exactly (n : Nat) (c : Cursor) :
    (quantified n (some n) greedy (set k)).run multiline c =
      if n ≤ (c.rest.takeWhile k.contains).length then [c.skip n] else [] := by
  have hcounts (n' : Nat) :
      (List.range (min n n' + 1)).filter (n ≤ ·) = if n ≤ n' then [n] else [] := by
    have hless : (List.range (min n n')).filter (n ≤ ·) = [] := by
      refine List.filter_eq_nil_iff.mpr ?_
      intro x hx
      have hlt := List.mem_range.mp hx
      exact decide_eq_true_iff.not.mpr (by omega)
    rw [List.range_succ, List.filter_append, hless, List.nil_append, List.filter_singleton]
    have hmin : n ≤ min n n' ↔ n ≤ n' := by omega
    by_cases h : n ≤ n'
    · simp [h]
    · simp [h, hmin]
  rw [run_quantified_set (by simp), counts, atMost, hcounts]
  by_cases h : n ≤ (c.rest.takeWhile k.contains).length <;> cases greedy <;> simp [h]

theorem le_length_takeWhile {f : Char → Bool} {n : Nat} :
    n ≤ (s.takeWhile f).length ↔ n ≤ s.length ∧ (s.take n).all f = true := by
  induction n generalizing s with
  | zero => simp
  | succ n ih =>
    cases s with
    | nil => simp
    | cons ch s =>
      by_cases hch : f ch = true
      · simp [List.takeWhile_cons_of_pos hch, ih, hch]
      · simp [List.takeWhile_cons_of_neg hch, hch]

theorem run_finish (c : Cursor) : finish.run false c = if c.rest = [] then [c] else [] := by
  rw [run, atFinish]
  cases c.rest <;> simp

/-- A group of `n` characters of a class, and what follows it. -/
theorem run_group_exactly (index n : Nat) (q : Pattern) (c : Cursor) :
    (seq (group index (seq (quantified n (some n) greedy (set k)) empty)) q).run multiline c =
      if n ≤ c.rest.length ∧ (c.rest.take n).all k.contains = true then
        q.run multiline (c.capture index (c.skip n))
      else [] := by
  rw [run, run, run_seq_empty, run_exactly]
  simp only [le_length_takeWhile]
  split
  · rw [List.map_singleton, List.flatMap_singleton]
  · rfl

/-- A lazy group of any characters ends where what follows it stands first. -/
theorem head?_lazy (hk : ∀ ch, k.contains ch = true) (index : Nat) (t : List Char) (c : Cursor) :
    ((seq (group index (seq (quantified 0 none false (set k)) empty)) (literal t)).run
        multiline c).head? =
      (List.range (c.rest.length + 1)).findSome? fun n =>
        if t <+: c.rest.drop n then some ((c.capture index (c.skip n)).skip t.length)
        else none := by
  have hcounts : counts false 0 none (c.rest.takeWhile k.contains).length =
      List.range (c.rest.length + 1) := by
    rw [List.takeWhile_eq_self_iff.mpr fun ch _ => hk ch]
    simp [counts, atMost]
  rw [run, run, run_seq_empty, run_quantified_set (by simp), hcounts, List.head?_flatMap,
    List.findSome?_map, List.findSome?_map]
  congr 1
  funext n
  simp only [Function.comp_apply, run_literal]
  split <;> simp_all [Cursor.capture]

/-! ## Searching -/

theorem searchFrom_isSome (before rest : List Char) :
    (searchFrom multiline p before rest).isSome = true ↔
      ∃ pre post, rest = pre ++ post ∧ p.run multiline ⟨pre.reverse ++ before, post, []⟩ ≠ [] := by
  induction rest generalizing before with
  | nil =>
    rw [searchFrom, Option.isSome_map, List.isSome_head?]
    constructor
    · intro h
      exact ⟨[], [], rfl, by simpa using h⟩
    · intro h
      obtain ⟨pre, post, hrest, h⟩ := h
      obtain ⟨rfl, rfl⟩ := List.append_eq_nil_iff.mp hrest.symm
      simpa using h
  | cons ch rest ih =>
    rw [searchFrom]
    cases hrun : p.run multiline ⟨before, ch :: rest, []⟩ with
    | cons c cs =>
      refine iff_of_true rfl ⟨[], ch :: rest, rfl, ?_⟩
      rw [List.reverse_nil, List.nil_append, hrun]
      exact List.cons_ne_nil _ _
    | nil =>
      refine (ih (ch :: before)).trans ?_
      constructor
      · intro h
        obtain ⟨pre, post, rfl, h⟩ := h
        exact ⟨ch :: pre, post, rfl, by simpa using h⟩
      · intro h
        obtain ⟨pre, post, hrest, h⟩ := h
        cases pre with
        | nil =>
          cases hrest
          exact absurd hrun h
        | cons x pre =>
          obtain ⟨rfl, rfl⟩ := List.cons.inj hrest
          exact ⟨pre, post, rfl, by simpa using h⟩

theorem test_iff : test multiline p s = true ↔
    ∃ pre post, s = pre ++ post ∧ p.run multiline ⟨pre.reverse, post, []⟩ ≠ [] := by
  rw [test, exec, Option.isSome_map, searchFrom_isSome]
  simp

/-- A text is found where it stands. -/
theorem test_literal (t : List Char) : test multiline (literal t) s = true ↔ t <:+: s := by
  rw [test_iff]
  constructor
  · intro h
    obtain ⟨pre, post, rfl, h⟩ := h
    rw [run_literal] at h
    have hprefix : t <+: post := by
      by_contra hno
      exact h (if_neg hno)
    exact hprefix.isInfix.trans (List.suffix_append pre post).isInfix
  · intro h
    obtain ⟨pre, post, rfl⟩ := h
    refine ⟨pre, t ++ post, List.append_assoc .., ?_⟩
    rw [run_literal, if_pos (List.prefix_append t post)]
    exact List.cons_ne_nil _ _

theorem atStart_iff (pre post : List Char) (groups : List (Nat × List Char)) :
    atStart multiline ⟨pre.reverse, post, groups⟩ = true ↔
      ∀ ch ∈ pre.getLast?, multiline = true ∧ isLineTerminator ch = true := by
  rw [← List.head?_reverse, atStart]
  cases pre.reverse <;> simp

/-- With the flag `m` the text may stand at the beginning of any line. -/
theorem test_start_literal (t : List Char) : test multiline (seq start (literal t)) s = true ↔
    ∃ pre post, s = pre ++ post ∧
      (∀ ch ∈ pre.getLast?, multiline = true ∧ isLineTerminator ch = true) ∧ t <+: post := by
  rw [test_iff]
  refine exists_congr fun pre => exists_congr fun post => and_congr_right fun _ => ?_
  rw [← atStart_iff pre post [], run, run]
  split
  · rename_i hstart
    rw [List.flatMap_cons, List.flatMap_nil, List.append_nil, run_literal]
    split <;> simp_all
  · rename_i hstart
    exact iff_of_false (by simp) fun h => hstart h.1

/-- `^[…]+$` -/
theorem test_all (k : CharClass) :
    test false (seq start (seq (quantified 1 none true (set k)) (seq finish empty))) s = true ↔
      s ≠ [] ∧ ∀ ch ∈ s, k.contains ch = true := by
  have hfinish (c : Cursor) : (seq finish empty).run false c ≠ [] ↔ c.rest = [] := by
    rw [run_seq_empty, run_finish]
    split <;> simp_all
  have hrun (before rest : List Char) :
      (seq start (seq (quantified 1 none true (set k)) (seq finish empty))).run false
        ⟨before, rest, []⟩ ≠ [] ↔
      before = [] ∧ rest ≠ [] ∧ ∀ ch ∈ rest, k.contains ch = true := by
    rw [run, run]
    cases before with
    | cons ch before => simp [atStart]
    | nil =>
      have hflat : (if atStart false ⟨[], rest, []⟩ then [(⟨[], rest, []⟩ : Cursor)] else []) =
          [⟨[], rest, []⟩] := rfl
      rw [hflat, List.flatMap_cons, List.flatMap_nil, List.append_nil, run,
        run_quantified_set (by simp)]
      have hmem (n : Nat) : (seq finish empty).run false (Cursor.skip ⟨[], rest, []⟩ n) ≠ [] ↔
          rest.length ≤ n := by
        rw [hfinish, Cursor.skip_rest, List.drop_eq_nil_iff]
      rw [ne_eq, List.flatMap_eq_nil_iff]
      constructor
      · intro h
        push Not at h
        obtain ⟨c, hc, hne⟩ := h
        obtain ⟨n, hn, rfl⟩ := List.mem_map.mp hc
        obtain ⟨hpos, hle⟩ := mem_counts.mp hn
        have hlength := (hmem n).mp hne
        have htake := (List.takeWhile_prefix k.contains).eq_of_length_le (hlength.trans hle)
        refine ⟨rfl, ?_, List.takeWhile_eq_self_iff.mp htake⟩
        rintro rfl
        exact absurd (hpos.trans hle) (Nat.not_succ_le_zero _)
      · intro h hnil
        obtain ⟨_, hne, hall⟩ := h
        refine (hmem rest.length).mpr (Nat.le_refl _) (hnil _ (List.mem_map_of_mem ?_))
        rw [mem_counts, List.takeWhile_eq_self_iff.mpr hall]
        exact ⟨List.length_pos_iff.mpr hne, Nat.le_refl _⟩
  rw [test_iff]
  constructor
  · intro h
    obtain ⟨pre, post, rfl, h⟩ := h
    obtain ⟨hpre, h⟩ := (hrun ..).mp h
    rw [List.reverse_eq_nil_iff.mp hpre]
    exact h
  · intro h
    exact ⟨[], s, rfl, (hrun ..).mpr ⟨rfl, h⟩⟩

theorem searchFrom_start {ch : Char} {before rest : List Char} :
    searchFrom false (seq start p) (ch :: before) rest = none := by
  have hrun (before rest : List Char) :
      (seq start p).run false ⟨ch :: before, rest, []⟩ = [] := by
    simp [run, atStart]
  induction rest generalizing ch before with
  | nil => rw [searchFrom, hrun]; rfl
  | cons x rest ih => rw [searchFrom, hrun]; exact ih fun _ _ => by simp [run, atStart]

/-- A pattern that begins with `^` is matched from the beginning. -/
theorem exec_start (p : Pattern) (s : List Char) : exec false (seq start p) s =
    (p.run false ⟨[], s, []⟩).head?.map fun c => ⟨Cursor.upTo ⟨[], s, []⟩ c, c.groups⟩ := by
  have hrun : (seq start p).run false ⟨[], s, []⟩ = p.run false ⟨[], s, []⟩ := by
    simp [run, atStart]
  rw [exec]
  cases s with
  | nil =>
    rw [searchFrom, hrun, Option.map_map]
    rfl
  | cons ch s =>
    rw [searchFrom, hrun]
    cases p.run false ⟨[], ch :: s, []⟩ with
    | nil => rw [searchFrom_start]; rfl
    | cons => rfl

/-! ## Replacing -/

/-- Wherever the next character is in `k` the pattern takes the next `len` characters first, and
elsewhere it does not match. -/
def Scans (p : Pattern) (k : Char → Bool) (len : List Char → Nat) : Prop :=
  ∀ c : Cursor, (p.run false c).head? =
    if c.rest.head?.any k then some (c.skip (len c.rest)) else none

theorem scans_set (k : CharClass) : Scans (set k) k.contains fun _ => 1 := by
  intro c
  cases hrest : c.rest with
  | nil => rw [run_set_nil (by rw [hrest]; rfl)]; rfl
  | cons x rest =>
    rw [List.head?_cons, Option.any_some]
    split
    · rename_i hx
      rw [run_set_cons hrest hx]
      rfl
    · rename_i hx
      rw [run_set_nil (by rw [hrest, List.takeWhile_cons, if_neg hx])]
      rfl

theorem scans_plus (k : CharClass) :
    Scans (quantified 1 none true (set k)) k.contains fun s => (s.takeWhile k.contains).length := by
  intro c
  rw [run_quantified_set (by simp)]
  cases hrest : c.rest with
  | nil => simp [counts, atMost]
  | cons x rest =>
    rw [List.head?_cons, Option.any_some]
    split
    · rename_i hx
      simp [counts, atMost, List.range_succ, List.filter_append, hx]
    · rename_i hx
      simp [counts, atMost, hx]

theorem Scans.seq_empty {k : Char → Bool} {len : List Char → Nat} (hp : Scans p k len) :
    Scans (seq p empty) k len := by
  intro c
  rw [run_seq_empty]
  exact hp c

section
variable {k : Char → Bool} {len : List Char → Nat} {f : List Char → List Char}

theorem Scans.search_nil (hp : Scans p k len) (before : List Char) :
    searchFrom false p before [] = none := by
  rw [searchFrom, hp]
  rfl

theorem Scans.search_skip (hp : Scans p k len) {x : Char} (hx : k x = false)
    (before rest : List Char) :
    searchFrom false p before (x :: rest) = searchFrom false p (x :: before) rest := by
  have hhead := hp ⟨before, x :: rest, []⟩
  rw [List.head?_cons, Option.any_some, hx] at hhead
  rw [searchFrom, List.head?_eq_none_iff.mp hhead]

theorem Scans.search_found (hp : Scans p k len) {x : Char} (hx : k x = true)
    (before rest : List Char) :
    searchFrom false p before (x :: rest) =
      some (⟨before, x :: rest, []⟩, Cursor.skip ⟨before, x :: rest, []⟩ (len (x :: rest))) := by
  have hhead := hp ⟨before, x :: rest, []⟩
  rw [List.head?_cons, Option.any_some, hx] at hhead
  obtain ⟨cs, hcs⟩ := List.head?_eq_some_iff.mp hhead
  rw [searchFrom, hcs]

/-- What is found after some characters is found behind them. -/
theorem searchFrom_rest {before rest : List Char} {x : Cursor × Cursor}
    (h : searchFrom multiline p before rest = some x) : x.1.rest.length ≤ rest.length := by
  induction rest generalizing before with
  | nil =>
    rw [searchFrom] at h
    obtain ⟨_, _, rfl⟩ := Option.map_eq_some_iff.mp h
    exact Nat.le_refl _
  | cons ch rest ih =>
    rw [searchFrom] at h
    split at h
    · cases h
      exact Nat.le_refl _
    · exact Nat.le_succ_of_le (ih h)

theorem Scans.replace_skip (hp : Scans p k len) {x : Char} (hx : k x = false) (fuel : Nat)
    (before rest : List Char) :
    replaceFrom p f (fuel + 1) before (x :: rest) =
      x :: replaceFrom p f (fuel + 1) (x :: before) rest := by
  rw [replaceFrom, replaceFrom, hp.search_skip hx]
  cases hsearch : searchFrom false p (x :: before) rest with
  | none => rfl
  | some y =>
    have hle := searchFrom_rest hsearch
    simp only [List.length_cons, Nat.succ_sub hle, List.take_succ_cons, List.cons_append]

/-- What a replacement along such a pattern comes to is determined by how it goes on after a
character outside of `k` and after a match. -/
theorem Scans.replaceAll_eq (hp : Scans p k len) {g : List Char → List Char} (hnil : g [] = [])
    (hskip : ∀ x s, k x = false → g (x :: s) = x :: g s)
    (hfound : ∀ x s, k x = true → 0 < len (x :: s) ∧ 
      g (x :: s) = f ((x :: s).take (len (x :: s))) ++ g ((x :: s).drop (len (x :: s))))
    (s : List Char) : replaceAll p f s = g s := by
  have hall : ∀ (fuel : Nat) (before s : List Char), s.length < fuel →
      replaceFrom p f fuel before s = g s := by
    intro fuel
    induction fuel with
    | zero => exact fun _ _ h => absurd h (Nat.not_lt_zero _)
    | succ fuel ih =>
      intro before s hfuel
      induction s generalizing before with
      | nil => rw [replaceFrom, hp.search_nil, hnil]
      | cons x s ihs =>
        cases hx : k x with
        | false =>
          rw [hp.replace_skip hx, hskip x s hx, ihs _ (Nat.lt_of_succ_lt hfuel)]
        | true =>
          obtain ⟨hpos, hg⟩ := hfound x s hx
          have hshorter : ((x :: s).drop (len (x :: s))).length < (x :: s).length := by
            rw [List.length_drop, List.length_cons]
            omega
          have hrest := ih ((Cursor.skip ⟨before, x :: s, []⟩ (len (x :: s))).before) _
            (Nat.lt_of_lt_of_le hshorter (Nat.le_of_lt_succ hfuel))
          rw [replaceFrom, hp.search_found hx]
          simp only [Cursor.upTo_skip, Cursor.skip_rest, Nat.sub_self, List.take_zero,
            List.nil_append, if_pos hshorter, hrest, hg]
  exact hall _ [] s (Nat.lt_succ_self _)

end

end

end RegExp
