import NestHarness.Lib.Binary
import NestHarness.Lib.Text

/-!
# Numbers of JavaScript

IEEE 754 double precision: a number is `NaN`, an infinity, a signed zero or a rational of the format
`binary64`, and arithmetic is that of the rationals, rounded.
-/

namespace Js

def binary64 : BinaryFormat where
  precision := 53
  minExponent := -1074

/-- A finite number other than zero. -/
structure IsDouble (x : ℚ) : Prop where
  ne_zero : x ≠ 0
  representable : binary64.Representable x
  abs_lt : |x| < 2 ^ 1024

inductive Number where
  | nan
  | infinity (negative : Bool)
  | zero (negative : Bool)
  | finite (x : ℚ) (h : IsDouble x)

namespace Number

/-- The number next to a rational; a zero gets the given sign. -/
def ofRat (negative : Bool) (q : ℚ) : Number :=
  let r := binary64.round q
  if h₀ : r = 0 then zero negative
  else if h : |r| < 2 ^ 1024 then finite r ⟨h₀, binary64.representable_round q, h⟩
  else infinity (r < 0)

instance (n : ℕ) : OfNat Number n := ⟨ofRat false n⟩
instance : NatCast Number := ⟨fun n => ofRat false n⟩

/-- The rational a finite number stands for. -/
def value : Number → Option ℚ
  | nan | infinity _ => none
  | zero _ => some 0
  | finite x _ => some x

/-- The same, and zero for the other numbers. -/
def rational : Number → ℚ
  | nan | infinity _ | zero _ => 0
  | finite x _ => x

def isNaN : Number → Bool
  | nan => true
  | infinity _ | zero _ | finite .. => false

def signBit : Number → Bool
  | nan => false
  | infinity negative | zero negative => negative
  | finite x _ => x < 0

/-! ## Arithmetic -/

protected def neg : Number → Number
  | nan => nan
  | infinity negative => infinity !negative
  | zero negative => zero !negative
  | finite x h => finite (-x) ⟨neg_ne_zero.mpr h.ne_zero, h.representable.neg, by
      rw [abs_neg]
      exact h.abs_lt⟩

/-- A sum of zeros is negative when both are. -/
protected def add (x y : Number) : Number :=
  match x, y with
  | nan, _ | _, nan => nan
  | infinity s, infinity t => if s = t then infinity s else nan
  | infinity s, _ => infinity s
  | _, infinity t => infinity t
  | x, y => ofRat (x.signBit && y.signBit) (x.rational + y.rational)

protected def mul (x y : Number) : Number :=
  let negative := x.signBit ^^ y.signBit
  match x, y with
  | nan, _ | _, nan => nan
  | infinity _, zero _ | zero _, infinity _ => nan
  | infinity _, _ | _, infinity _ => infinity negative
  | x, y => ofRat negative (x.rational * y.rational)

protected def div (x y : Number) : Number :=
  let negative := x.signBit ^^ y.signBit
  match x, y with
  | nan, _ | _, nan => nan
  | infinity _, infinity _ | zero _, zero _ => nan
  | infinity _, _ | _, zero _ => infinity negative
  | _, infinity _ => zero negative
  | x, y => ofRat negative (x.rational / y.rational)

/-- The integer part, towards zero. -/
def truncate (q : ℚ) : ℤ := if 0 ≤ q then ⌊q⌋ else ⌈q⌉

/-- `x % y` has the sign of `x`. -/
protected def rem (x y : Number) : Number :=
  match x, y with
  | nan, _ | _, nan | infinity _, _ | _, zero _ => nan
  | x, infinity _ => x
  | x, y =>
    let quotient := truncate (x.rational / y.rational)
    ofRat x.signBit (x.rational - y.rational * quotient)

/-- `Math.floor` -/
def floor : Number → Number
  | nan => nan
  | infinity s => infinity s
  | zero s => zero s
  | finite x _ => ofRat false ⌊x⌋

instance : Neg Number := ⟨Number.neg⟩
instance : Add Number := ⟨Number.add⟩
instance : Sub Number := ⟨fun x y => x + -y⟩
instance : Mul Number := ⟨Number.mul⟩
instance : Div Number := ⟨Number.div⟩
instance : Mod Number := ⟨Number.rem⟩

/-! ## Comparison -/

/-- `x < y` -/
def lt (x y : Number) : Bool :=
  match x, y with
  | nan, _ | _, nan => false
  | infinity s, infinity t => s && !t
  | infinity s, _ => s
  | _, infinity t => !t
  | x, y => x.rational < y.rational

/-- `x <= y` -/
def le (x y : Number) : Bool := !x.isNaN && !y.isNaN && !y.lt x

/-- `x === 0` -/
def isZero : Number → Bool
  | zero _ => true
  | nan | infinity _ | finite .. => false

/-! ## Values of results -/

variable {x y : Number} {a b q : ℚ} {negative : Bool}

theorem value_cases (x : Number) :
    x = nan ∨ (∃ negative, x = infinity negative) ∨ ∃ a, x.value = some a := by
  cases x with
  | nan => exact .inl rfl
  | infinity negative => exact .inr (.inl ⟨negative, rfl⟩)
  | zero => exact .inr (.inr ⟨0, rfl⟩)
  | finite x h => exact .inr (.inr ⟨x, rfl⟩)

theorem isNaN_of_value (h : x.value = some a) : x.isNaN = false := by
  cases x <;> cases h <;> rfl

theorem abs_value_lt (h : x.value = some a) : |a| < 2 ^ 1024 := by
  cases x with
  | nan | infinity => cases h
  | zero =>
    cases h
    simp
  | finite x hx =>
    cases h
    exact hx.abs_lt

theorem zero_representable : binary64.Representable 0 :=
  ⟨0, 0, by simp, by decide, by simp⟩

theorem representable_value (h : x.value = some a) : binary64.Representable a := by
  cases x with
  | nan | infinity => cases h
  | zero =>
    cases h
    exact zero_representable
  | finite x hx =>
    cases h
    exact hx.representable

theorem value_ofRat (h : |binary64.round q| < 2 ^ 1024) :
    (ofRat negative q).value = some (binary64.round q) := by
  unfold ofRat
  dsimp only
  split
  · next h₀ => rw [value, h₀]
  · rfl

theorem value_eq_of_ofRat (h : (ofRat negative q).value = some a) : a = binary64.round q := by
  unfold ofRat at h
  dsimp only at h
  split at h
  · next h₀ =>
    cases h
    exact h₀.symm
  · split at h <;> cases h
    rfl

/-- A number that is representable is not rounded. -/
theorem value_ofRat_eq (hq : binary64.Representable q) (h : |q| < 2 ^ 1024) :
    (ofRat negative q).value = some q := by
  rw [value_ofRat (by rwa [BinaryFormat.round_eq hq]), BinaryFormat.round_eq hq]

theorem value_ofNat {n : ℕ} (h : n ≤ 2 ^ 53) : (OfNat.ofNat n : Number).value = some (n : ℚ) := by
  refine value_ofRat_eq (BinaryFormat.representable_intCast (n := n) (by decide) ?_) ?_
  · rw [abs_of_nonneg (Int.natCast_nonneg n)]
    exact_mod_cast h
  · rw [abs_of_nonneg (Nat.cast_nonneg n)]
    calc (n : ℚ) ≤ 2 ^ 53 := by exact_mod_cast h
      _ < 2 ^ 1024 := pow_lt_pow_right₀ one_lt_two (by decide)

theorem value_one : (1 : Number).value = some 1 := by
  exact_mod_cast value_ofNat (n := 1) (by decide)

theorem value_neg (hx : x.value = some a) : (-x).value = some (-a) := by
  cases x with
  | nan | infinity => cases hx
  | zero s =>
    cases hx
    exact congrArg some neg_zero.symm
  | finite x h =>
    cases hx
    rfl

theorem value_add (hx : x.value = some a) (hy : y.value = some b)
    (h : |binary64.round (a + b)| < 2 ^ 1024) : (x + y).value = some (binary64.round (a + b)) := by
  cases x <;> cases y <;> cases hx <;> cases hy <;> exact value_ofRat h

theorem value_sub (hx : x.value = some a) (hy : y.value = some b)
    (h : |binary64.round (a - b)| < 2 ^ 1024) : (x - y).value = some (binary64.round (a - b)) := by
  rw [sub_eq_add_neg] at h ⊢
  exact value_add hx (value_neg hy) h

theorem value_mul (hx : x.value = some a) (hy : y.value = some b)
    (h : |binary64.round (a * b)| < 2 ^ 1024) : (x * y).value = some (binary64.round (a * b)) := by
  cases x <;> cases y <;> cases hx <;> cases hy <;> exact value_ofRat h

theorem value_div (hx : x.value = some a) (hy : y.value = some b) (hb : b ≠ 0)
    (h : |binary64.round (a / b)| < 2 ^ 1024) : (x / y).value = some (binary64.round (a / b)) := by
  cases x <;> cases y <;> cases hx <;> cases hy <;>
    first | exact (hb rfl).elim | exact value_ofRat h

theorem abs_sub_truncate_le (q : ℚ) : |q - truncate q| ≤ |q| := by
  unfold truncate
  split
  · next h =>
    have hfloor : (0 : ℚ) ≤ ⌊q⌋ := by exact_mod_cast Int.floor_nonneg.mpr h
    rw [abs_of_nonneg (sub_nonneg.mpr (Int.floor_le q)), abs_of_nonneg h]
    linarith
  · next h =>
    have hneg : q ≤ 0 := (not_le.mp h).le
    have hceil : (⌈q⌉ : ℚ) ≤ 0 := by exact_mod_cast Int.ceil_le.mpr (by exact_mod_cast hneg)
    rw [abs_of_nonpos (sub_nonpos.mpr (Int.le_ceil q)), abs_of_nonpos hneg]
    linarith

theorem value_rem (hx : x.value = some a) (hy : y.value = some b) (hb : b ≠ 0) :
    (x % y).value = some (binary64.round (a - b * truncate (a / b))) := by
  have habs : |a - b * truncate (a / b)| ≤ |a| := by
    calc |a - b * truncate (a / b)| = |b| * |a / b - truncate (a / b)| := by
          rw [← abs_mul, mul_sub, mul_div_cancel₀ a hb]
      _ ≤ |b| * |a / b| := mul_le_mul_of_nonneg_left (abs_sub_truncate_le _) (abs_nonneg b)
      _ = |a| := by rw [← abs_mul, mul_div_cancel₀ a hb]
  have hle := BinaryFormat.abs_round_le (representable_value hx).abs habs
  have hlt := hle.trans_lt (abs_value_lt hx)
  cases x <;> cases y <;> cases hx <;> cases hy <;>
    first | exact (hb rfl).elim | exact value_ofRat hlt

theorem value_floor (hx : x.value = some a) (h : |binary64.round ⌊a⌋| < 2 ^ 1024) :
    x.floor.value = some (binary64.round ⌊a⌋) := by
  cases x with
  | nan | infinity => cases hx
  | zero s =>
    cases hx
    simp [floor, value]
  | finite x hx' =>
    cases hx
    exact value_ofRat h

theorem lt_iff (hx : x.value = some a) (hy : y.value = some b) : x.lt y = true ↔ a < b := by
  cases x <;> cases y <;> cases hx <;> cases hy <;> simp only [lt, rational] <;>
    exact decide_eq_true_iff

theorem rational_of_value (hx : x.value = some a) : x.rational = a := by
  cases x <;> cases hx <;> rfl

theorem lt_nan (x : Number) : x.lt nan = false := by
  cases x <;> rfl

theorem lt_infinity (hx : x.value = some a) : x.lt (infinity negative) = !negative := by
  cases x <;> cases hx <;> rfl

theorem infinity_lt (hx : x.value = some a) : (infinity negative).lt x = negative := by
  cases x <;> cases hx <;> rfl

theorem le_iff (hx : x.value = some a) (hy : y.value = some b) : x.le y = true ↔ a ≤ b := by
  have hlt := lt_iff hy hx
  rw [← not_lt, ← hlt]
  cases x <;> cases y <;> cases hx <;> cases hy <;> simp [le, isNaN]

theorem isZero_iff (hx : x.value = some a) : x.isZero = true ↔ a = 0 := by
  cases x with
  | nan | infinity => cases hx
  | zero s =>
    cases hx
    exact iff_of_true rfl rfl
  | finite x h =>
    cases hx
    exact iff_of_false nofun h.ne_zero

/-- A number other than zero is determined by its value. -/
theorem eq_of_value (hx : x.value = some a) (hy : y.value = some a) (ha : a ≠ 0) : x = y := by
  cases x <;> cases y <;> cases hx <;> cases hy <;> first | exact (ha rfl).elim | rfl

/-! ## Bounds of results -/

theorem two_pow_representable (n : ℕ) : binary64.Representable (2 ^ n) := by
  rw [← zpow_natCast]
  exact BinaryFormat.representable_two_zpow (by simp [binary64])

theorem one_representable : binary64.Representable 1 := by
  simpa using two_pow_representable 0

/-- A result well below the largest number does not overflow. -/
theorem abs_round_lt {n : ℕ} (h : |q| ≤ 2 ^ n) (hn : n < 1024) :
    |binary64.round q| < 2 ^ 1024 := by
  have hle := BinaryFormat.abs_round_le (two_pow_representable n) h
  exact hle.trans_lt (pow_lt_pow_right₀ one_lt_two hn)

theorem abs_floor_le {q : ℚ} {n : ℕ} (h : |q| ≤ 2 ^ n) : |(⌊q⌋ : ℚ)| ≤ 2 ^ n := by
  rw [abs_le] at h ⊢
  constructor
  · have : -2 ^ n ≤ ⌊q⌋ := Int.le_floor.mpr (by exact_mod_cast h.1)
    exact_mod_cast this
  · exact (Int.floor_le q).trans h.2

theorem abs_floor_round_le {q : ℚ} {n : ℕ} (h : |q| ≤ 2 ^ n) :
    |(⌊binary64.round q⌋ : ℚ)| ≤ 2 ^ n :=
  abs_floor_le (BinaryFormat.abs_round_le (two_pow_representable n) h)

/-- A result next to a number does not overflow. -/
theorem abs_round_lt_of_near (hx : x.value = some a) (h : |q - a| ≤ 1) :
    |binary64.round q| < 2 ^ 1024 := by
  have ha : |a| < 2 ^ (1024 : ℤ) := by exact_mod_cast abs_value_lt hx
  have hone : (1 : ℚ) < 2 ^ ((1024 : ℤ) - binary64.precision - 1) :=
    one_lt_zpow₀ one_lt_two (by decide)
  exact_mod_cast
    (representable_value hx).abs_round_lt_of_near (by decide) ha (h.trans_lt hone)

/-! ## Integers -/

def IsFinite (x : Number) : Prop := ∃ a, x.value = some a

/-- A finite number without a fraction. -/
def IsInteger (x : Number) : Prop := ∃ n : ℤ, x.value = some (n : ℚ)

theorem round_intCast (n : ℤ) : ∃ m : ℤ, binary64.round n = m :=
  BinaryFormat.round_intCast (by decide) n

theorem round_natCast {n : ℕ} (h : n ≤ 2 ^ 53) : binary64.round n = n := by
  refine BinaryFormat.round_eq (BinaryFormat.representable_intCast (n := n) (by decide) ?_)
  rw [abs_of_nonneg (Int.natCast_nonneg n)]
  exact_mod_cast h

/-! Sums, differences and products of natural numbers up to `2 ^ 53` are exact. -/

section Naturals

variable {m n : ℕ}

theorem abs_natCast_le (h : n ≤ 2 ^ 53) : |(n : ℚ)| ≤ 2 ^ 53 := by
  rw [abs_of_nonneg (Nat.cast_nonneg n)]
  exact_mod_cast h

theorem value_add_natCast (hx : x.value = some (m : ℚ)) (hy : y.value = some (n : ℚ))
    (h : m + n ≤ 2 ^ 53) : (x + y).value = some ((m + n : ℕ) : ℚ) := by
  have hvalue := value_add hx hy
  rw [← Nat.cast_add, round_natCast h] at hvalue
  exact hvalue ((abs_natCast_le h).trans_lt (pow_lt_pow_right₀ one_lt_two (by decide)))

theorem value_sub_natCast (hx : x.value = some (m : ℚ)) (hy : y.value = some (n : ℚ))
    (hle : n ≤ m) (h : m - n ≤ 2 ^ 53) : (x - y).value = some ((m - n : ℕ) : ℚ) := by
  have hvalue := value_sub hx hy
  rw [← Nat.cast_sub hle, round_natCast h] at hvalue
  exact hvalue ((abs_natCast_le h).trans_lt (pow_lt_pow_right₀ one_lt_two (by decide)))

theorem value_mul_natCast (hx : x.value = some (m : ℚ)) (hy : y.value = some (n : ℚ))
    (h : m * n ≤ 2 ^ 53) : (x * y).value = some ((m * n : ℕ) : ℚ) := by
  have hvalue := value_mul hx hy
  rw [← Nat.cast_mul, round_natCast h] at hvalue
  exact hvalue ((abs_natCast_le h).trans_lt (pow_lt_pow_right₀ one_lt_two (by decide)))

end Naturals

theorem integer_ofRat {s : Bool} {n : ℤ} (h : (ofRat s n).value = some a) : ∃ m : ℤ, a = m := by
  rw [value_eq_of_ofRat h]
  exact round_intCast n

end Number

/-! ## `parseInt` -/

/-- The value of a digit. -/
def digitValue (radix : ℕ) (c : Char) : Option ℕ :=
  let n := c.toNat
  let digit :=
    if '0'.toNat ≤ n ∧ n ≤ '9'.toNat then some (n - '0'.toNat)
    else if 'a'.toNat ≤ n ∧ n ≤ 'z'.toNat then some (n - 'a'.toNat + 10)
    else if 'A'.toNat ≤ n ∧ n ≤ 'Z'.toNat then some (n - 'A'.toNat + 10)
    else none
  digit.filter (· < radix)

/-- The digits a text begins with. -/
def leadingDigits (radix : ℕ) : List Char → List ℕ
  | [] => []
  | c :: cs =>
    match digitValue radix c with
    | some d => d :: leadingDigits radix cs
    | none => []

def stripSign : List Char → Bool × List Char
  | '-' :: cs => (true, cs)
  | '+' :: cs => (false, cs)
  | cs => (false, cs)

def stripPrefix : List Char → ℕ × List Char
  | '0' :: 'x' :: cs | '0' :: 'X' :: cs => (16, cs)
  | cs => (10, cs)

/-- `parseInt(s)` -/
def parseInt (s : String) : Number :=
  let (negative, cs) := stripSign (trimStart s.toList)
  let (radix, cs) := stripPrefix cs
  match leadingDigits radix cs with
  | [] => .nan
  | ds =>
    let n : ℕ := ds.foldl (fun n d => radix * n + d) 0
    .ofRat negative (if negative then -n else n)

/-- The digits of the shortest decimal number that is rounded to `x`, which is positive; of two the
nearer one. -/
def shortestDigits (x : ℚ) : ℕ :=
  let candidate (k : ℕ) : Option ℕ :=
    let unit : ℚ := 10 ^ (Int.log 10 x - k)
    let n := ⌊x / unit⌋.toNat
    let near := if x / unit - n ≤ 1 / 2 then [n, n + 1] else [n + 1, n]
    near.find? fun (n : ℕ) => binary64.round (n * unit) = x
  ((List.range 17).findSome? candidate).getD 0

def firstDigit (n : ℕ) : ℕ := n / 10 ^ Nat.log 10 n

/-- `parseInt(x)` of a number reads its text: a large or a small number has one digit before the
point or the exponent. -/
def Number.parseInt : Number → Number
  | nan | infinity _ => nan
  | zero _ => zero false
  | finite x _ =>
    let negative : Bool := x < 0
    let digits : ℕ :=
      if 10 ^ 21 ≤ |x| ∨ |x| < 1 / 10 ^ 6 then firstDigit (shortestDigits |x|) else ⌊|x|⌋.toNat
    ofRat negative (if negative then -digits else digits)

variable {a : ℚ}

theorem integer_parseInt {s : String} (h : (parseInt s).value = some a) : ∃ m : ℤ, a = m := by
  unfold parseInt at h
  dsimp only at h
  split at h
  · cases h
  · split at h <;> exact Number.integer_ofRat (by exact_mod_cast h)

theorem Number.integer_parseInt {x : Number} (h : x.parseInt.value = some a) : ∃ m : ℤ, a = m := by
  cases x with
  | nan | infinity => cases h
  | zero =>
    cases h
    exact ⟨0, rfl⟩
  | finite x hx =>
    unfold Number.parseInt at h
    dsimp only at h
    split at h <;> exact integer_ofRat (by exact_mod_cast h)

/-- A natural number of up to 21 digits is read as it is. -/
theorem Number.parseInt_natCast {x : Number} {n : ℕ} (hx : x.value = some (n : ℚ))
    (hn : n < 10 ^ 21) : x.parseInt.value = some (n : ℚ) := by
  cases x with
  | nan | infinity => cases hx
  | zero =>
    rw [← hx]
    rfl
  | finite x h =>
    cases hx
    have hpos : 1 ≤ n := Nat.one_le_iff_ne_zero.mpr (by exact_mod_cast h.ne_zero)
    have hpos' : (1 : ℚ) ≤ n := by exact_mod_cast hpos
    have hlt : (n : ℚ) < 10 ^ 21 := by exact_mod_cast hn
    have habs : |(n : ℚ)| = n := abs_of_nonneg (by linarith)
    have hneg : decide ((n : ℚ) < 0) = false := decide_eq_false (by linarith)
    unfold Number.parseInt
    dsimp only
    rw [hneg, if_neg Bool.false_ne_true, habs, if_neg (by push Not; constructor <;> linarith)]
    have hvalue : (ofRat false (n : ℚ)).value = some (n : ℚ) :=
      value_ofRat_eq h.representable h.abs_lt
    simpa using hvalue

/-- The text of a large number begins with one digit. -/
theorem Number.parseInt_lt {x : Number} {n : ℕ} (hx : x.value = some (n : ℚ)) :
    ∃ m : ℕ, m < 10 ^ 21 ∧ x.parseInt.value = some (m : ℚ) := by
  rcases lt_or_ge n (10 ^ 21) with hn | hn
  · exact ⟨n, hn, parseInt_natCast hx hn⟩
  · cases x with
    | nan | infinity => cases hx
    | zero => exact ⟨0, by norm_num, rfl⟩
    | finite x h =>
      cases hx
      have hn' : (10 : ℚ) ^ 21 ≤ n := by exact_mod_cast hn
      have habs : |(n : ℚ)| = n := abs_of_nonneg (by linarith)
      have hdigit : firstDigit (shortestDigits n) < 10 := by
        rw [firstDigit, Nat.div_lt_iff_lt_mul (by positivity), mul_comm, ← pow_succ]
        exact Nat.lt_pow_succ_log_self (by decide) _
      refine ⟨firstDigit (shortestDigits n), hdigit.trans (by norm_num), ?_⟩
      have hneg : decide ((n : ℚ) < 0) = false := decide_eq_false (by linarith)
      unfold Number.parseInt
      dsimp only
      rw [hneg, if_neg Bool.false_ne_true, habs, if_pos (.inl hn')]
      exact value_ofNat (n := firstDigit (shortestDigits n)) (hdigit.le.trans (by norm_num))

end Js
