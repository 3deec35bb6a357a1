import Mathlib.Data.List.Basic

/-!
# Texts as bytes

The two encodings between texts and bytes: UTF-8, with a decoder that puts a replacement character
for what is not UTF-8, and pairs of hexadecimal digits.
-/

namespace Utf8

def encode (s : List Char) : List UInt8 := s.flatMap String.utf8EncodeChar

/-- Where the decoder stands: between two characters, or in one, with the bits of it so far, the
number of bytes still to come and the bounds of the next one. -/
inductive State where
  | start
  | inside (bits needed lower upper : Nat)

def replacement : Char := '\uFFFD'

/-- The first byte of a character. The bounds of the second one rule out surrogates, overlong forms
and what lies above U+10FFFF. -/
def lead (b : UInt8) : List Char × State :=
  let n := b.toNat
  if n ≤ 0x7F then ([Char.ofNat n], .start)
  else if 0xC2 ≤ n ∧ n ≤ 0xDF then ([], .inside (n - 0xC0) 1 0x80 0xBF)
  else if 0xE0 ≤ n ∧ n ≤ 0xEF then
    ([], .inside (n - 0xE0) 2 (if n = 0xE0 then 0xA0 else 0x80) (if n = 0xED then 0x9F else 0xBF))
  else if 0xF0 ≤ n ∧ n ≤ 0xF4 then
    ([], .inside (n - 0xF0) 3 (if n = 0xF0 then 0x90 else 0x80) (if n = 0xF4 then 0x8F else 0xBF))
  else ([replacement], .start)

/-- A byte that does not continue the character begins the next one. -/
def step : State → UInt8 → List Char × State
  | .start, b => lead b
  | .inside bits needed lower upper, b =>
    if lower ≤ b.toNat ∧ b.toNat ≤ upper then
      let bits' := bits * 64 + (b.toNat - 0x80)
      if needed = 1 then ([Char.ofNat bits'], .start)
      else ([], .inside bits' (needed - 1) 0x80 0xBF)
    else (replacement :: (lead b).1, (lead b).2)

def run : State → List UInt8 → List Char
  | .start, [] => []
  | .inside .., [] => [replacement]
  | state, b :: bs => (step state b).1 ++ run (step state b).2 bs

def decode (bs : List UInt8) : List Char := run .start bs

theorem run_cons (state : State) (b : UInt8) (bs : List UInt8) :
    run state (b :: bs) = (step state b).1 ++ run (step state b).2 bs := by
  cases state <;> rfl

theorem toNat_ofNat {n : Nat} (h : n < 256) : (UInt8.ofNat n).toNat = n := by
  rw [UInt8.toNat_ofNat']
  exact Nat.mod_eq_of_lt h

theorem run_ascii {n : Nat} (h : n ≤ 0x7F) (bs : List UInt8) :
    run .start (UInt8.ofNat n :: bs) = Char.ofNat n :: run .start bs := by
  rw [run_cons, step, lead, toNat_ofNat (by omega), if_pos h]
  rfl

theorem run_lead_two {n : Nat} (h : 0xC2 ≤ n) (h' : n ≤ 0xDF) (bs : List UInt8) :
    run .start (UInt8.ofNat n :: bs) = run (.inside (n - 0xC0) 1 0x80 0xBF) bs := by
  rw [run_cons, step, lead, toNat_ofNat (by omega), if_neg (by omega), if_pos ⟨h, h'⟩]
  rfl

theorem run_lead_three {n : Nat} (h : 0xE0 ≤ n) (h' : n ≤ 0xEF) (bs : List UInt8) :
    run .start (UInt8.ofNat n :: bs) = run (.inside (n - 0xE0) 2
      (if n = 0xE0 then 0xA0 else 0x80) (if n = 0xED then 0x9F else 0xBF)) bs := by
  rw [run_cons, step, lead, toNat_ofNat (by omega), if_neg (by omega), if_neg (by omega),
    if_pos ⟨h, h'⟩]
  rfl

theorem run_lead_four {n : Nat} (h : 0xF0 ≤ n) (h' : n ≤ 0xF4) (bs : List UInt8) :
    run .start (UInt8.ofNat n :: bs) = run (.inside (n - 0xF0) 3
      (if n = 0xF0 then 0x90 else 0x80) (if n = 0xF4 then 0x8F else 0xBF)) bs := by
  rw [run_cons, step, lead, toNat_ofNat (by omega), if_neg (by omega), if_neg (by omega),
    if_neg (by omega), if_pos ⟨h, h'⟩]
  rfl

section
variable {bits lower upper n : Nat}

theorem run_last (hn : n < 256) (h : lower ≤ n ∧ n ≤ upper) (bs : List UInt8) :
    run (.inside bits 1 lower upper) (UInt8.ofNat n :: bs) =
      Char.ofNat (bits * 64 + (n - 0x80)) :: run .start bs := by
  rw [run_cons, step, toNat_ofNat hn, if_pos h, if_pos rfl]
  rfl

theorem run_inner {needed : Nat} (hn : n < 256) (h : lower ≤ n ∧ n ≤ upper) (bs : List UInt8) :
    run (.inside bits (needed + 2) lower upper) (UInt8.ofNat n :: bs) =
      run (.inside (bits * 64 + (n - 0x80)) (needed + 1) 0x80 0xBF) bs := by
  rw [run_cons, step, toNat_ofNat hn, if_pos h, if_neg (by omega)]
  rfl

end

theorem ofNat_eq (c : Char) {n : Nat} (h : n = c.val.toNat) : Char.ofNat n = c := by
  rw [h]
  exact Char.ofNat_toNat c

/-- The bytes of a character are decoded to it, by the number of them. -/
theorem run_encodeChar (c : Char) (bs : List UInt8) :
    run .start (String.utf8EncodeChar c ++ bs) = c :: run .start bs := by
  have hvalid : c.val.toNat < 0xD800 ∨ 0xDFFF < c.val.toNat ∧ c.val.toNat < 0x110000 := c.valid
  unfold String.utf8EncodeChar
  dsimp only
  by_cases h1 : c.val.toNat ≤ 0x7F
  · rw [if_pos h1, List.singleton_append, run_ascii h1, ofNat_eq c rfl]
  rw [if_neg h1]
  by_cases h2 : c.val.toNat ≤ 0x7FF
  · rw [if_pos h2]
    simp only [List.cons_append, List.nil_append]
    rw [run_lead_two (by omega) (by omega), run_last (by omega) (by omega), ofNat_eq c (by omega)]
  rw [if_neg h2]
  by_cases h3 : c.val.toNat ≤ 0xFFFF
  · rw [if_pos h3]
    simp only [List.cons_append, List.nil_append]
    rw [run_lead_three (by omega) (by omega), run_inner (by omega) (by split <;> split <;> omega),
      run_last (by omega) (by omega), ofNat_eq c (by omega)]
  · rw [if_neg h3]
    simp only [List.cons_append, List.nil_append]
    rw [run_lead_four (by omega) (by omega), run_inner (by omega) (by split <;> split <;> omega),
      run_inner (by omega) (by omega), run_last (by omega) (by omega), ofNat_eq c (by omega)]

/-- Every text is read back from its bytes. -/
theorem decode_encode (s : List Char) : decode (encode s) = s := by
  induction s with
  | nil => rfl
  | cons c s ih =>
    rw [encode, List.flatMap_cons, decode, run_encodeChar]
    exact congrArg (c :: ·) ih

end Utf8

namespace Hex

def digit (n : Nat) : Char := if n < 10 then Char.ofNat (48 + n) else Char.ofNat (87 + n)

/-- The value of a digit, in either case. -/
def value (c : Char) : Option Nat :=
  if '0' ≤ c ∧ c ≤ '9' then some (c.toNat - 48)
  else if 'a' ≤ c ∧ c ≤ 'f' then some (c.toNat - 87)
  else if 'A' ≤ c ∧ c ≤ 'F' then some (c.toNat - 55)
  else none

def encode (bs : List UInt8) : List Char :=
  bs.flatMap fun b => [digit (b.toNat / 16), digit (b.toNat % 16)]

/-- The bytes up to the first pair that is not one of two digits. -/
def decode : List Char → List UInt8
  | hi :: lo :: s =>
    match value hi, value lo with
    | some h, some l => UInt8.ofNat (h * 16 + l) :: decode s
    | _, _ => []
  | _ => []

theorem value_digit {n : Nat} (h : n < 16) : value (digit n) = some n := by
  have hall : ∀ n < 16, value (digit n) = some n := by decide
  exact hall n h

theorem decode_encode (bs : List UInt8) : decode (encode bs) = bs := by
  induction bs with
  | nil => rfl
  | cons b bs ih =>
    have hb : b.toNat < 256 := b.toNat_lt
    have hbyte : b.toNat / 16 * 16 + b.toNat % 16 = b.toNat := by omega
    rw [encode, List.flatMap_cons, List.cons_append, List.singleton_append, decode,
      value_digit (by omega), value_digit (by omega)]
    dsimp only
    rw [hbyte, UInt8.ofNat_toNat]
    exact congrArg (b :: ·) ih

/-- Nothing but digits. -/
theorem value_of_mem_encode {bs : List UInt8} {c : Char} (h : c ∈ encode bs) :
    (value c).isSome = true := by
  obtain ⟨b, -, hc⟩ := List.mem_flatMap.mp h
  have hb : b.toNat < 256 := b.toNat_lt
  obtain rfl | hc := List.mem_cons.mp hc
  · rw [value_digit (by omega)]
    rfl
  · obtain rfl := List.mem_singleton.mp hc
    rw [value_digit (by omega)]
    rfl

theorem length_decode {s : List Char} {n : Nat} (hlength : s.length = 2 * n)
    (h : ∀ c ∈ s, (value c).isSome = true) : (decode s).length = n := by
  induction n generalizing s with
  | zero =>
    cases List.eq_nil_of_length_eq_zero hlength
    rfl
  | succ n ih =>
    obtain ⟨hi, s, rfl⟩ := List.exists_cons_of_length_pos (by omega : 0 < s.length)
    obtain ⟨lo, s, rfl⟩ := List.exists_cons_of_length_pos (by simp at hlength; omega : 0 < s.length)
    simp only [List.forall_mem_cons] at h
    obtain ⟨x, hx⟩ := Option.isSome_iff_exists.mp h.1
    obtain ⟨y, hy⟩ := Option.isSome_iff_exists.mp h.2.1
    rw [decode, hx, hy]
    dsimp only
    rw [List.length_cons, ih (by simp at hlength; omega) h.2.2]

end Hex
