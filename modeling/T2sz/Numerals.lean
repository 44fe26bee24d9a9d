import Mathlib.Data.Nat.Bitwise
import T2sz.Library.Numeral
import T2sz.Pax

/-!
What the number readers make of a number that a writer put there.

The fields of a header hold a number in octal or in base 256, a record of an
extended header its length and the value of `size` in decimal. Each reader is
the accumulator of `Numeral` with a guard that such a number never meets.
-/

namespace T2sz

open Numeral

theorem digitsValue_eq (base : Nat) (digits : List UInt8) :
    digitsValue base digits = accumulate base 0 (digits.map digitValue) := by
  simp [digitsValue, accumulate, List.foldl_map]

/-- The field holds `n` in octal: blanks, digits, and a byte that is no digit or
the end of the field. -/
inductive OctalField (field : List UInt8) (n : Nat) : Prop
  | intro (blanks digits rest : List UInt8) (parts : field = blanks ++ digits ++ rest)
      (blank : ∀ c ∈ blanks, isspace c = true) (nonempty : digits ≠ [])
      (octal : ∀ c ∈ digits, isDigitOf 8 c = true)
      (ended : ∀ c ∈ rest.head?, isDigitOf 8 c = false) (value : digitsValue 8 digits = n)

/-- The field holds `n` in base 256: a flag byte, three zeros, eight bytes. -/
inductive Base256Field (field : List UInt8) (n : Nat) : Prop
  | intro (bytes : List UInt8) (parts : field = 0x80 :: 0 :: 0 :: 0 :: bytes)
      (value : accumulate 256 0 (bytes.map UInt8.toNat) = n)

inductive SizeField (field : List UInt8) (n : Nat) : Prop
  | octal (h : OctalField field n)
  | base256 (h : Base256Field field n)

/-- A field that holds a number in octal is read as that number. -/
theorem strtoull_octal {w : Nat} {field : List UInt8} {n : Nat} (h : OctalField field n)
    (hn : n < 2 ^ w) : (strtoull w 8 (field ++ [0])).value = n := by
  obtain ⟨blanks, digits, rest, rfl, hblank, hne, hoctal, hended, hvalue⟩ := h
  obtain ⟨d, digits, rfl⟩ := List.exists_cons_of_ne_nil hne
  have hd := hoctal d List.mem_cons_self
  have htail : ∀ c ∈ (rest ++ [0]).head?, isDigitOf 8 c = false := by
    cases rest with
    | nil =>
        intro c hc
        simp only [List.nil_append, List.head?_cons, Option.mem_some_iff] at hc
        subst hc
        rfl
    | cons a rest => exact hended
  have hskip : (blanks ++ (d :: digits) ++ rest ++ [0]).dropWhile isspace =
      (d :: digits) ++ (rest ++ [0]) := by
    rw [List.append_assoc, List.append_assoc, List.dropWhile_append_of_pos hblank,
      List.cons_append, List.dropWhile_cons_of_neg (by simp [isspace_of_digit hd])]
  have htake := (takeWhile_digits hoctal htail).1
  simp only [strtoull, hskip]
  rw [List.cons_append, splitSign_of_digit hd]
  simp only [← List.cons_append, htake, hvalue]
  rw [if_neg (by simp), if_neg (by omega)]
  rfl

/-- The last `width` octal digits of `n`. -/
def octalDigits : Nat → Nat → List UInt8
  | 0, _ => []
  | width + 1, n => octalDigits width (n / 8) ++ [UInt8.ofNat (0x30 + n % 8)]

theorem octalDigit_toNat (n : Nat) : (UInt8.ofNat (0x30 + n % 8)).toNat = 0x30 + n % 8 := by
  rw [UInt8.toNat_ofNat']
  omega

@[simp] theorem length_octalDigits (width n : Nat) : (octalDigits width n).length = width := by
  induction width generalizing n with
  | zero => rfl
  | succ width ih => rw [octalDigits, List.length_append, ih, List.length_singleton]

theorem isDigitOf_octalDigits (width n : Nat) :
    ∀ c ∈ octalDigits width n, isDigitOf 8 c = true := by
  induction width generalizing n with
  | zero => exact List.forall_mem_nil _
  | succ width ih =>
      intro c hc
      rw [octalDigits, List.mem_append, List.mem_singleton] at hc
      cases hc with
      | inl hmem => exact ih _ c hmem
      | inr heq =>
          rw [heq, isDigitOf, octalDigit_toNat, Bool.and_eq_true, decide_eq_true_eq,
            decide_eq_true_eq]
          omega

theorem digitsValue_octalDigits {width n : Nat} (h : n < 8 ^ width) :
    digitsValue 8 (octalDigits width n) = n := by
  induction width generalizing n with
  | zero =>
      rw [Nat.pow_zero] at h
      rw [Nat.lt_one_iff.mp h]
      rfl
  | succ width ih =>
      have hquot : n / 8 < 8 ^ width := by
        rw [Nat.pow_succ] at h
        omega
      have hrest := ih hquot
      rw [digitsValue_eq] at hrest
      rw [digitsValue_eq, octalDigits, List.map_append, accumulate_append, hrest,
        List.map_singleton, accumulate_cons, accumulate_nil, digitValue, octalDigit_toNat]
      omega

/-- A number of at most `width` digits in a field, `blanks` before it. -/
theorem octalField_octalDigits {width n : Nat} (hwidth : 0 < width) (hn : n < 8 ^ width)
    {blanks rest : List UInt8} (hblank : ∀ c ∈ blanks, isspace c = true)
    (hended : ∀ c ∈ rest.head?, isDigitOf 8 c = false) :
    OctalField (blanks ++ octalDigits width n ++ rest) n := by
  have hne : octalDigits width n ≠ [] := by
    apply List.ne_nil_of_length_pos
    rw [length_octalDigits]
    exact hwidth
  exact .intro blanks _ rest rfl hblank hne (isDigitOf_octalDigits width n) hended
    (digitsValue_octalDigits hn)

theorem base256Value_eq (bytes : List UInt8) :
    base256Value bytes = accumulate 256 0 (bytes.map UInt8.toNat) % 2 ^ 64 := by
  rw [← accumulate_mod, List.foldl_map]
  rfl

theorem flag_eq_zero {c : UInt8} (h : c.toNat < 0x80) : c &&& 0x80 = 0 := by
  apply UInt8.toNat_inj.mp
  have hbit : c.toNat.testBit 7 = false := Nat.testBit_lt_two_pow h
  have hand := Nat.and_two_pow c.toNat 7
  rw [hbit] at hand
  simpa using hand

theorem isspace_spec {c : UInt8} (h : isspace c = true) : c.toNat ≤ 0x20 := by
  simp only [isspace, Bool.or_eq_true, Bool.and_eq_true, beq_iff_eq, decide_eq_true_eq] at h
  cases h with
  | inl heq =>
      subst heq
      decide
  | inr hcontrol =>
      have hle := UInt8.le_iff_toNat_le.mp hcontrol.2
      simp at hle
      omega

/-- The size field of a header is read as the number it holds. -/
theorem parseTarSize_sizeField {header : TarHeader} {n : Nat} (h : SizeField header.size n)
    (hn : n < 2 ^ 64) : parseTarSize header = n := by
  cases h with
  | octal h =>
      have hvalue := strtoull_octal h hn
      obtain ⟨blanks, digits, rest, hparts, hblank, hne, hoctal, -, -⟩ := h
      have hfirst : header.size.getD 0 0 &&& 0x80 = 0 := by
        obtain ⟨d, digits, rfl⟩ := List.exists_cons_of_ne_nil hne
        apply flag_eq_zero
        rw [hparts]
        cases blanks with
        | nil =>
            have hd := isDigitOf_spec (hoctal d List.mem_cons_self)
            simp only [List.nil_append, List.cons_append, List.getD_cons_zero]
            omega
        | cons b blanks =>
            have hb := isspace_spec (hblank b List.mem_cons_self)
            simp only [List.cons_append, List.getD_cons_zero]
            omega
      simp only [parseTarSize, hfirst, ne_eq, not_true_eq_false, if_false, hvalue]
  | base256 h =>
      obtain ⟨bytes, hparts, hvalue⟩ := h
      simp only [parseTarSize, hparts, List.getD_cons_zero, List.getD_cons_succ]
      rw [if_pos (by decide), if_neg (by decide)]
      rw [List.drop_succ_cons, List.drop_succ_cons, List.drop_succ_cons, List.drop_succ_cons,
        List.drop_zero, base256Value_eq, hvalue, Nat.mod_eq_of_lt hn]

/-- The value loop reads the digits as far as its guard lets it, and the guard
stops it at every number that does not fit. -/
theorem recordValue_eq (value : List UInt8) {size : Nat} (h : size ≤ UINT64_MAX - 6) :
    recordValue value size =
      if accumulate 10 size ((value.takeWhile (isDigitOf 10)).map digitValue) ≤ UINT64_MAX - 6 then
        accumulate 10 size ((value.takeWhile (isDigitOf 10)).map digitValue)
      else UINT64_MAX := by
  induction value generalizing size with
  | nil => rw [List.takeWhile_nil, List.map_nil, accumulate_nil, if_pos h, recordValue]
  | cons c value ih =>
      cases hc : isDigitOf 10 c with
      | false =>
          rw [List.takeWhile_cons_of_neg (by simp [hc]), List.map_nil, accumulate_nil, if_pos h]
          simp only [recordValue, hc, Bool.false_eq_true, if_false]
      | true =>
          have hdigit := isDigitOf_spec hc
          have hnext := @le_accumulate 10 (by decide) (size * 10 + digitValue c)
            ((value.takeWhile (isDigitOf 10)).map digitValue)
          rw [List.takeWhile_cons_of_pos hc, List.map_cons, accumulate_cons]
          simp only [recordValue, hc, if_true]
          by_cases hguard : (UINT64_MAX - 9) / 10 < size
          · have hlarge : UINT64_MAX - 6 < size * 10 + digitValue c := by
              simp only [UINT64_MAX] at hguard ⊢
              omega
            rw [if_pos hguard, if_neg (by omega)]
          · rw [if_neg hguard]
            apply ih
            simp only [UINT64_MAX, digitValue] at hguard ⊢
            omega

end T2sz
