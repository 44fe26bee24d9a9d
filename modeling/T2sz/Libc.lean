import Mathlib.Algebra.Group.Int.Defs
import Mathlib.Algebra.Group.Nat.Defs
import Mathlib.Data.Nat.Basic
import Mathlib.Tactic.Common

/-!
What the program takes from the C library and from machine arithmetic: the
unsigned sums and differences of a word of `w` bits, `isspace`, `tolower`,
`strtoull` and `strtol` as the C standard specifies them.

Strings are byte lists. The terminating NUL is not a digit, so a conversion
stops in front of it as in front of any other byte.
-/

namespace T2sz

def UINT64_MAX : Nat := 2 ^ 64 - 1

theorem UINT64_MAX_lt : UINT64_MAX < 2 ^ 64 := by decide

/-- Unsigned addition of two words of `w` bits. -/
def uadd (w a b : Nat) : Nat := (a + b) % 2 ^ w

/-- Unsigned subtraction of two words of `w` bits. -/
def usub (w a b : Nat) : Nat := (a + 2 ^ w - b) % 2 ^ w

theorem uadd_eq {w a b : Nat} (h : a + b < 2 ^ w) : uadd w a b = a + b :=
  Nat.mod_eq_of_lt h

theorem usub_eq {w a b : Nat} (hab : b ≤ a) (ha : a < 2 ^ w) : usub w a b = a - b := by
  have h : a + 2 ^ w - b = (a - b) + 2 ^ w := by omega
  rw [usub, h, Nat.add_mod_right]
  exact Nat.mod_eq_of_lt (by omega)

def isspace (c : UInt8) : Bool :=
  c == 0x20 || (0x09 ≤ c && c ≤ 0x0d)

/-- `c` is a digit of a base of at most ten. -/
def isDigitOf (base : Nat) (c : UInt8) : Bool :=
  0x30 ≤ c.toNat && c.toNat < 0x30 + base

def digitValue (c : UInt8) : Nat := c.toNat - 0x30

/-- The number a string of digits denotes. -/
def digitsValue (base : Nat) (digits : List UInt8) : Nat :=
  digits.foldl (fun value c => value * base + digitValue c) 0

structure StrtoullResult where
  value : Nat
  endptr : List UInt8
  erange : Bool
  deriving DecidableEq

/-- The sign that `strtoull` accepts in front of the digits. -/
def splitSign : List UInt8 → Bool × List UInt8
  | 0x2d :: rest => (true, rest)
  | 0x2b :: rest => (false, rest)
  | rest => (false, rest)

/-- `strtoull(s, &endptr, base)` for a base of at most ten and a result of `w`
bits: blanks, a sign, digits. Without digits nothing is converted and `endptr`
is `s`; a number that does not fit gives the largest one and `ERANGE`. -/
def strtoull (w base : Nat) (s : List UInt8) : StrtoullResult :=
  let (negative, body) := splitSign (s.dropWhile isspace)
  let digits := body.takeWhile (isDigitOf base)
  let endptr := body.dropWhile (isDigitOf base)
  let value := digitsValue base digits
  if digits = [] then ⟨0, s, false⟩
  else if 2 ^ w ≤ value then ⟨2 ^ w - 1, endptr, true⟩
  else ⟨if negative then usub w 0 value else value, endptr, false⟩

theorem isDigitOf_spec {base : Nat} {c : UInt8} (h : isDigitOf base c = true) :
    0x30 ≤ c.toNat ∧ c.toNat < 0x30 + base := by
  simpa [isDigitOf] using h

theorem isspace_of_digit {base : Nat} {c : UInt8} (h : isDigitOf base c = true) :
    isspace c = false := by
  have hc := isDigitOf_spec h
  simp only [isspace, Bool.or_eq_false_iff, Bool.and_eq_false_iff, beq_eq_false_iff_ne,
    decide_eq_false_iff_not]
  refine ⟨?_, .inr ?_⟩
  · rintro rfl
    simp at hc
  · intro hle
    have := UInt8.le_iff_toNat_le.mp hle
    simp at this
    omega

theorem splitSign_of_digit {base : Nat} {c : UInt8} (h : isDigitOf base c = true)
    (rest : List UInt8) : splitSign (c :: rest) = (false, c :: rest) := by
  have hc := isDigitOf_spec h
  unfold splitSign
  split
  · simp_all
  · simp_all
  · rfl

theorem takeWhile_digits {base : Nat} {digits rest : List UInt8}
    (hdigits : ∀ c ∈ digits, isDigitOf base c = true)
    (hrest : ∀ c ∈ rest.head?, isDigitOf base c = false) :
    (digits ++ rest).takeWhile (isDigitOf base) = digits ∧
      (digits ++ rest).dropWhile (isDigitOf base) = rest := by
  rw [List.takeWhile_append_of_pos hdigits, List.dropWhile_append_of_pos hdigits]
  cases rest with
  | nil => simp
  | cons c rest =>
      have hc := hrest c rfl
      simp [hc]

/-- A string that starts with a digit is converted from there. -/
theorem strtoull_of_digit (w : Nat) {base : Nat} {c : UInt8} (h : isDigitOf base c = true)
    (rest : List UInt8) :
    strtoull w base (c :: rest) =
      if 2 ^ w ≤ digitsValue base ((c :: rest).takeWhile (isDigitOf base)) then
        ⟨2 ^ w - 1, (c :: rest).dropWhile (isDigitOf base), true⟩
      else ⟨digitsValue base ((c :: rest).takeWhile (isDigitOf base)),
        (c :: rest).dropWhile (isDigitOf base), false⟩ := by
  have hspace : ¬ isspace c = true := by rw [isspace_of_digit h]; exact Bool.false_ne_true
  have hdigits : (c :: rest).takeWhile (isDigitOf base) ≠ [] := by
    rw [List.takeWhile_cons_of_pos h]
    exact List.cons_ne_nil _ _
  simp only [strtoull, List.dropWhile_cons_of_neg hspace, splitSign_of_digit h, if_neg hdigits,
    Bool.false_eq_true, if_false]

theorem strtoull_value_lt (w base : Nat) (s : List UInt8) :
    (strtoull w base s).value < 2 ^ w := by
  have hpos : 0 < 2 ^ w := Nat.two_pow_pos w
  unfold strtoull
  dsimp only
  split
  · exact hpos
  · split
    · exact Nat.sub_lt hpos Nat.one_pos
    · split
      · exact Nat.mod_lt _ hpos
      · dsimp only
        omega

/-- In the C locale. -/
def tolower (c : UInt8) : UInt8 := if 0x41 ≤ c ∧ c ≤ 0x5a then c + 0x20 else c

structure StrtolResult where
  value : Int
  endptr : List UInt8
  erange : Bool
  deriving DecidableEq

/-- `strtol(s, &endptr, base)` for a base of at most ten and a `long` of `w` bits. -/
def strtol (w base : Nat) (s : List UInt8) : StrtolResult :=
  let (negative, body) := splitSign (s.dropWhile isspace)
  let digits := body.takeWhile (isDigitOf base)
  let endptr := body.dropWhile (isDigitOf base)
  let value : Int :=
    if negative then -(digitsValue base digits : Int) else digitsValue base digits
  if digits = [] then ⟨0, s, false⟩
  else if value < -2 ^ (w - 1) then ⟨-2 ^ (w - 1), endptr, true⟩
  else if 2 ^ (w - 1) ≤ value then ⟨2 ^ (w - 1) - 1, endptr, true⟩
  else ⟨value, endptr, false⟩

end T2sz
