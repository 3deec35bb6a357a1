import NestHarness.Lib.Regex

/-!
# The syntax of regular expressions

The pattern of a source text, without named groups, look-around, back references and the escapes
that do not occur. A text whose special characters are quoted is the pattern of just this text.
-/

namespace RegExp

/-! ## Tokens -/

inductive Token where
  | atom (p : Pattern)
  | assertion (p : Pattern)
  | quantifier (min : Nat) (max : Option Nat) (greedy : Bool)
  | opening
  | closing
  | bar
deriving DecidableEq

def syntaxCharacters : List Char := "^$\\.*+?()[]{}|".toList

/-- What a backslash makes of a character. -/
def escaped (c : Char) : Option ClassItem :=
  if c = 'd' then some .digit
  else if c = 's' then some .space
  else if c = 'S' then some .notSpace
  else if c = 'n' then some (.range '\n' '\n')
  else if c ∈ syntaxCharacters ∨ c = '/' ∨ c = '-' then some (.range c c)
  else none

/-- The next member of a class. -/
def classAtom : List Char → Option (ClassItem × List Char)
  | [] => none
  | c :: s =>
    if c = '\\' then
      match s with
      | [] => none
      | c :: s => (escaped c).map (·, s)
    else if c = ']' then none
    else some (.range c c, s)

/-- A range begins and ends with a character. -/
def classRange : ClassItem → ClassItem → Option ClassItem
  | .range first first', .range last last' =>
    if first = first' ∧ last = last' ∧ first ≤ last then some (.range first last) else none
  | _, _ => none

/-- The members of a class, up to its closing bracket. -/
def classItems : (fuel : Nat) → List Char → Option (List ClassItem × List Char)
  | 0, _ => none
  | _, [] => none
  | fuel + 1, c :: s =>
    if c = ']' then some ([], s)
    else do
      let (item, s) ← classAtom (c :: s)
      match s with
      | '-' :: d :: s =>
        if d = ']' then
          let (items, s) ← classItems fuel ('-' :: d :: s)
          return (item :: items, s)
        else
          let (last, s) ← classAtom (d :: s)
          let range ← classRange item last
          let (items, s) ← classItems fuel s
          return (range :: items, s)
      | s =>
        let (items, s) ← classItems fuel s
        return (item :: items, s)

def classToken (s : List Char) : Option (Token × List Char) :=
  match s with
  | '^' :: s => (classItems (s.length + 1) s).map fun x => (.atom (.set ⟨true, x.1⟩), x.2)
  | s => (classItems (s.length + 1) s).map fun x => (.atom (.set ⟨false, x.1⟩), x.2)

def decimal (s : List Char) : Option Nat :=
  if s = [] then none else some (s.foldl (fun n c => 10 * n + (c.toNat - '0'.toNat)) 0)

/-- `n}`, `n,}` or `n,m}` -/
def bounds (s : List Char) : Option ((Nat × Option Nat) × List Char) := do
  let min ← decimal (s.takeWhile Char.isDigit)
  match s.dropWhile Char.isDigit with
  | '}' :: s => return ((min, some min), s)
  | ',' :: '}' :: s => return ((min, none), s)
  | ',' :: s =>
    let max ← decimal (s.takeWhile Char.isDigit)
    match s.dropWhile Char.isDigit with
    | '}' :: s => if min ≤ max then return ((min, some max), s) else none
    | _ => none
  | _ => none

def quantifierToken (bounds : Nat × Option Nat) (s : List Char) : Token × List Char :=
  match s with
  | '?' :: s => (.quantifier bounds.1 bounds.2 false, s)
  | s => (.quantifier bounds.1 bounds.2 true, s)

def token (c : Char) (s : List Char) : Option (Token × List Char) :=
  if c ∉ syntaxCharacters then some (.atom (.char c), s)
  else if c = '^' then some (.assertion .start, s)
  else if c = '$' then some (.assertion .finish, s)
  else if c = '.' then some (.atom .dot, s)
  else if c = '(' then if s.head? = some '?' then none else some (.opening, s)
  else if c = ')' then some (.closing, s)
  else if c = '|' then some (.bar, s)
  else if c = '*' then some (quantifierToken (0, none) s)
  else if c = '+' then some (quantifierToken (1, none) s)
  else if c = '?' then some (quantifierToken (0, some 1) s)
  else if c = '{' then (bounds s).map fun x => quantifierToken x.1 x.2
  else if c = '[' then classToken s
  else if c = '\\' then
    match s with
    | [] => none
    | c :: s => (escaped c).map fun item => (.atom (.set ⟨false, [item]⟩), s)
  else none

def tokens : (fuel : Nat) → List Char → Option (List Token)
  | _, [] => some []
  | 0, _ :: _ => none
  | fuel + 1, c :: s => do
    let (t, s) ← token c s
    return t :: (← tokens fuel s)

/-! ## Patterns -/

/-- What has been read of a group: the alternatives before the last bar, and the terms after it, the
last one first, each with whether a quantifier may follow it. -/
structure Frame where
  index : Nat
  alternatives : List Pattern
  terms : List (Bool × Pattern)

namespace Frame

/-- The terms one after the other. -/
def alternative (f : Frame) : Pattern := f.terms.foldl (fun q t => .seq t.2 q) .empty

def pattern (f : Frame) : Pattern := f.alternatives.foldl (fun q p => .alt p q) f.alternative

def push (f : Frame) (quantifiable : Bool) (p : Pattern) : Frame :=
  { f with terms := (quantifiable, p) :: f.terms }

def bar (f : Frame) : Frame :=
  { f with alternatives := f.alternative :: f.alternatives, terms := [] }

/-- A quantifier binds to the atom before it. -/
def quantify (f : Frame) (min : Nat) (max : Option Nat) (greedy : Bool) : Option Frame :=
  match f.terms with
  | (true, p) :: terms => some { f with terms := (false, .quantified min max greedy p) :: terms }
  | _ => none

end Frame

/-- `opened` groups have been opened, and those of the frames are open. -/
def build (opened : Nat) : List Frame → List Token → Option Pattern
  | [f], [] => some f.pattern
  | f :: fs, .atom p :: ts => build opened (f.push true p :: fs) ts
  | f :: fs, .assertion p :: ts => build opened (f.push false p :: fs) ts
  | f :: fs, .quantifier min max greedy :: ts => do
    build opened ((← f.quantify min max greedy) :: fs) ts
  | fs, .opening :: ts => build (opened + 1) (⟨opened + 1, [], []⟩ :: fs) ts
  | f :: g :: fs, .closing :: ts => build opened (g.push true (.group f.index f.pattern) :: fs) ts
  | f :: fs, .bar :: ts => build opened (f.bar :: fs) ts
  | _, _ => none

def parse (source : List Char) : Option Pattern := do
  build 0 [⟨0, [], []⟩] (← tokens source.length source)

/-! ## Quoted texts -/

/-- A text with a backslash before each special character. -/
def quote (s : List Char) : List Char :=
  s.flatMap fun c => if c ∈ syntaxCharacters then ['\\', c] else [c]

theorem escaped_syntaxCharacter {c : Char} (h : c ∈ syntaxCharacters) :
    escaped c = some (.range c c) := by
  have hne (x : Char) (hx : x ∉ syntaxCharacters) : c ≠ x := by
    rintro rfl
    exact hx h
  rw [escaped, if_neg (hne 'd' (by decide)), if_neg (hne 's' (by decide)),
    if_neg (hne 'S' (by decide)), if_neg (hne 'n' (by decide)), if_pos (.inl h)]

theorem token_backslash (c : Char) (s : List Char) :
    token '\\' (c :: s) = (escaped c).map fun item => (.atom (.set ⟨false, [item]⟩), s) := by
  rfl

theorem tokens_quote (s : List Char) {fuel : Nat} (hfuel : (quote s).length ≤ fuel) :
    tokens fuel (quote s) = some (s.map fun c => .atom (.char c)) := by
  induction s generalizing fuel with
  | nil => cases fuel <;> rfl
  | cons c s ih =>
    have hquote : quote (c :: s) =
        (if c ∈ syntaxCharacters then ['\\', c] else [c]) ++ quote s := List.flatMap_cons
    by_cases hc : c ∈ syntaxCharacters
    · rw [if_pos hc] at hquote
      rw [hquote] at hfuel ⊢
      obtain ⟨fuel, rfl⟩ := Nat.exists_eq_add_of_le' (Nat.le_trans (Nat.le_add_left 1 _) hfuel)
      have hrest : tokens fuel (quote s) = some (s.map fun c => .atom (.char c)) :=
        ih (by simp at hfuel; omega)
      simp [tokens, token_backslash, escaped_syntaxCharacter hc, hrest, Pattern.char]
    · rw [if_neg hc] at hquote
      rw [hquote] at hfuel ⊢
      obtain ⟨fuel, rfl⟩ := Nat.exists_eq_add_of_le' (Nat.le_trans (Nat.le_add_left 1 _) hfuel)
      have hrest : tokens fuel (quote s) = some (s.map fun c => .atom (.char c)) :=
        ih (by simpa using hfuel)
      simp [tokens, token, hc, hrest]

theorem build_atoms (opened : Nat) (f : Frame) (s : List Char) :
    build opened [f] (s.map fun c => .atom (.char c)) =
      some { f with
        terms := (s.map fun c => (true, Pattern.char c)).reverse ++ f.terms }.pattern := by
  induction s generalizing f with
  | nil => rfl
  | cons c s ih =>
    rw [List.map_cons, build, ih]
    simp [Frame.push]

/-- **A quoted text is matched as it is.** -/
theorem parse_start_quote (s : List Char) :
    parse ('^' :: quote s) = some (.seq .start (.literal s)) := by
  have htokens : tokens ((quote s).length + 1) ('^' :: quote s) =
      some (.assertion .start :: s.map fun c => .atom (.char c)) := by
    have hcaret : token '^' (quote s) = some (.assertion .start, quote s) := rfl
    simp [tokens, hcaret, tokens_quote s (Nat.le_refl _)]
  rw [parse, List.length_cons, htokens]
  change build 0 [Frame.push ⟨0, [], []⟩ false .start] _ = _
  rw [build_atoms]
  simp [Frame.pattern, Frame.alternative, Frame.push, Pattern.literal, Pattern.followed,
    List.foldl_reverse, List.foldr_map]

end RegExp
