import Mathlib.Data.List.TakeWhile
import T2sz.Libc

/-!
The SIZE of `-s` and `-S`: `parseBlockSize` and `decodeMultiplier`.

`none` is the call of `usage`. An argument is a string of C, so it holds no NUL,
and its first byte is a NUL when it is empty.
-/

namespace T2sz

structure CString where
  bytes : List UInt8
  no_nul : 0 ∉ bytes
  deriving DecidableEq

/-- `k`, `K`, `KiB`; `M`, `MiB`; `G`, `GiB`; `kB`, `KB`; `MB`; `GB`. -/
def decodeMultiplier (suffix : List UInt8) : Nat :=
  if suffix = [0x6b] ∨ suffix = [0x4b] ∨ suffix = [0x4b, 0x69, 0x42] then 1024
  else if suffix = [0x4d] ∨ suffix = [0x4d, 0x69, 0x42] then 1024 * 1024
  else if suffix = [0x47] ∨ suffix = [0x47, 0x69, 0x42] then 1024 * 1024 * 1024
  else if suffix = [0x6b, 0x42] ∨ suffix = [0x4b, 0x42] then 1000
  else if suffix = [0x4d, 0x42] then 1000 * 1000
  else if suffix = [0x47, 0x42] then 1000 * 1000 * 1000
  else 1

def SIZE_MAX (w : Nat) : Nat := 2 ^ w - 1

def parseBlockSize (w : Nat) (arg : CString) : Option Nat :=
  let val := strtoull 64 10 arg.bytes
  let multiplier := decodeMultiplier val.endptr
  if isDigitOf 10 (arg.bytes.getD 0 0) = false ∨ val.erange = true ∨ val.value < 1 ∨
      (val.endptr.getD 0 0 ≠ 0 ∧ multiplier = 1) ∨ SIZE_MAX w / multiplier < val.value then
    none
  else some (val.value % 2 ^ w * multiplier % 2 ^ w)

/-- The suffixes and what they stand for. -/
def sizeSuffixes : List (List UInt8 × Nat) :=
  [([], 1), ([0x6b], 1024), ([0x4b], 1024), ([0x4b, 0x69, 0x42], 1024),
    ([0x4d], 1024 ^ 2), ([0x4d, 0x69, 0x42], 1024 ^ 2),
    ([0x47], 1024 ^ 3), ([0x47, 0x69, 0x42], 1024 ^ 3),
    ([0x6b, 0x42], 1000), ([0x4b, 0x42], 1000), ([0x4d, 0x42], 1000 ^ 2), ([0x47, 0x42], 1000 ^ 3)]

/-- A decimal number with a suffix, which together denote a size of `w` bits. -/
inductive SizeArgument (w : Nat) (arg : List UInt8) (size : Nat) : Prop
  | intro (digits suffix : List UInt8) (multiplier : Nat) (parts : arg = digits ++ suffix)
      (nonempty : digits ≠ []) (decimal : ∀ c ∈ digits, isDigitOf 10 c = true)
      (known : (suffix, multiplier) ∈ sizeSuffixes) (positive : 1 ≤ digitsValue 10 digits)
      (fits : digitsValue 10 digits * multiplier ≤ SIZE_MAX w)
      (value : size = digitsValue 10 digits * multiplier)

theorem decodeMultiplier_of_mem {suffix : List UInt8} {multiplier : Nat}
    (h : (suffix, multiplier) ∈ sizeSuffixes) : decodeMultiplier suffix = multiplier := by
  have hall : ∀ p ∈ sizeSuffixes, decodeMultiplier p.1 = p.2 := by decide
  exact hall _ h

/-- 1 is the value of the empty suffix, and of none that is in the table. -/
theorem mem_sizeSuffixes_iff (suffix : List UInt8) :
    (suffix, decodeMultiplier suffix) ∈ sizeSuffixes ↔
      suffix = [] ∨ decodeMultiplier suffix ≠ 1 := by
  constructor
  · intro h
    have hall : ∀ p ∈ sizeSuffixes, p.1 = [] ∨ p.2 ≠ 1 := by decide
    exact hall _ h
  · intro h
    cases h with
    | inl hnil =>
        subst hnil
        decide
    | inr hne =>
        unfold decodeMultiplier at hne ⊢
        split
        case isTrue hk => rcases hk with rfl | rfl | rfl <;> decide
        split
        case isTrue hm => rcases hm with rfl | rfl <;> decide
        split
        case isTrue hg => rcases hg with rfl | rfl <;> decide
        split
        case isTrue hk => rcases hk with rfl | rfl <;> decide
        split
        case isTrue hm =>
          subst hm
          decide
        split
        case isTrue hg =>
          subst hg
          decide
        case isFalse => simp_all

theorem decodeMultiplier_pos (suffix : List UInt8) : 0 < decodeMultiplier suffix := by
  unfold decodeMultiplier
  repeat' split
  all_goals decide

/-- A suffix does not start with a digit. -/
theorem head_of_mem_sizeSuffixes {suffix : List UInt8} {multiplier : Nat}
    (h : (suffix, multiplier) ∈ sizeSuffixes) : ∀ c ∈ suffix.head?, isDigitOf 10 c = false := by
  have hall : ∀ p ∈ sizeSuffixes, p.1.head?.all (fun c => !isDigitOf 10 c) = true := by decide
  intro c hc
  have hsuffix := hall _ h
  rw [Option.mem_def] at hc
  simpa [hc] using hsuffix

theorem CString.head_ne_zero {arg : CString} {digits suffix : List UInt8}
    (h : arg.bytes = digits ++ suffix) : suffix.getD 0 0 ≠ 0 ↔ suffix ≠ [] := by
  cases suffix with
  | nil => simp
  | cons c suffix =>
      have hc : c ≠ 0 := by
        rintro rfl
        exact arg.no_nul (by simp [h])
      simpa using hc

theorem SIZE_MAX_lt {w : Nat} (hw : w = 32 ∨ w = 64) : SIZE_MAX w < 2 ^ 64 := by
  cases hw with
  | inl h =>
      rw [h]
      decide
  | inr h =>
      rw [h]
      decide

/-- What `parseBlockSize` returns for is a number with a known suffix. -/
theorem sizeArgument_of_parseBlockSize {w : Nat} {arg : CString} {size : Nat}
    (h : parseBlockSize w arg = some size) : SizeArgument w arg.bytes size := by
  have hword : SIZE_MAX w < 2 ^ w := Nat.sub_lt (Nat.two_pow_pos w) Nat.one_pos
  obtain ⟨c, rest, hc, hbytes⟩ : ∃ c rest, isDigitOf 10 c = true ∧ arg.bytes = c :: rest := by
    cases hbytes : arg.bytes with
    | nil => simp [parseBlockSize, hbytes, isDigitOf] at h
    | cons c rest =>
        cases hc : isDigitOf 10 c with
        | false => simp [parseBlockSize, hbytes, hc] at h
        | true => exact ⟨c, rest, hc, rfl⟩
  have hparts : arg.bytes = (c :: rest).takeWhile (isDigitOf 10) ++
      (c :: rest).dropWhile (isDigitOf 10) := by
    rw [hbytes, List.takeWhile_append_dropWhile]
  have hdigits : ∀ d ∈ (c :: rest).takeWhile (isDigitOf 10), isDigitOf 10 d = true :=
    fun d hd => List.mem_takeWhile_imp hd
  have hne : (c :: rest).takeWhile (isDigitOf 10) ≠ [] := by
    rw [List.takeWhile_cons_of_pos hc]
    exact List.cons_ne_nil _ _
  have hhead := CString.head_ne_zero hparts
  simp only [parseBlockSize, hbytes, strtoull_of_digit 64 hc] at h
  by_cases hlarge : 2 ^ 64 ≤ digitsValue 10 ((c :: rest).takeWhile (isDigitOf 10))
  · rw [if_pos hlarge, if_pos (.inr (.inl rfl))] at h
    cases h
  · rw [if_neg hlarge] at h
    split at h
    case isTrue => cases h
    case isFalse hok =>
      simp only [List.getD_cons_zero, hc, Bool.true_eq_false, Bool.false_eq_true, false_or,
        not_or, not_and, Nat.not_lt] at hok
      obtain ⟨hpositive, hknown, hfits⟩ := hok
      rw [Nat.le_div_iff_mul_le (decodeMultiplier_pos _)] at hfits
      refine .intro _ _ _ hparts hne hdigits ?_ hpositive hfits ?_
      · rw [mem_sizeSuffixes_iff]
        by_cases hnil : (c :: rest).dropWhile (isDigitOf 10) = []
        · exact .inl hnil
        · exact .inr (hknown (hhead.mpr hnil))
      · have hval : digitsValue 10 ((c :: rest).takeWhile (isDigitOf 10)) ≤ SIZE_MAX w :=
          Nat.le_trans (Nat.le_mul_of_pos_right _ (decodeMultiplier_pos _)) hfits
        have hlt : digitsValue 10 ((c :: rest).takeWhile (isDigitOf 10)) < 2 ^ w :=
          Nat.lt_of_le_of_lt hval hword
        rw [Nat.mod_eq_of_lt hlt, Nat.mod_eq_of_lt (Nat.lt_of_le_of_lt hfits hword)] at h
        exact (Option.some.inj h).symm

/-- No check of `parseBlockSize` fails on a number with a known suffix, and its
product does not wrap. -/
theorem parseBlockSize_of_sizeArgument {w : Nat} (hw : w = 32 ∨ w = 64) {arg : CString}
    {size : Nat} (h : SizeArgument w arg.bytes size) : parseBlockSize w arg = some size := by
  have hmax := SIZE_MAX_lt hw
  have hword : SIZE_MAX w < 2 ^ w := Nat.sub_lt (Nat.two_pow_pos w) Nat.one_pos
  obtain ⟨digits, suffix, multiplier, hparts, hne, hdigits, hknown, hpositive, hfits, rfl⟩ := h
  obtain ⟨c, rest, rfl⟩ := List.exists_cons_of_ne_nil hne
  have hc := hdigits c List.mem_cons_self
  have hhead := CString.head_ne_zero hparts
  obtain ⟨htake, hdrop⟩ := takeWhile_digits hdigits (head_of_mem_sizeSuffixes hknown)
  have hmultiplier := decodeMultiplier_of_mem hknown
  have hpos := decodeMultiplier_pos suffix
  rw [hmultiplier] at hpos
  have hval : digitsValue 10 (c :: rest) ≤ SIZE_MAX w :=
    Nat.le_trans (Nat.le_mul_of_pos_right _ hpos) hfits
  have hmem := (mem_sizeSuffixes_iff suffix).mp (by rw [hmultiplier]; exact hknown)
  rw [hmultiplier] at hmem
  have hdiv := (Nat.le_div_iff_mul_le hpos).mpr hfits
  rw [List.cons_append] at hparts htake hdrop
  simp only [parseBlockSize, hparts, strtoull_of_digit 64 hc, htake, hdrop]
  rw [if_neg (show ¬ 2 ^ 64 ≤ digitsValue 10 (c :: rest) by omega)]
  simp only [hmultiplier, List.getD_cons_zero, hc]
  rw [if_neg, Nat.mod_eq_of_lt (Nat.lt_of_le_of_lt hval hword),
    Nat.mod_eq_of_lt (Nat.lt_of_le_of_lt hfits hword)]
  simp only [Bool.true_eq_false, Bool.false_eq_true, false_or, not_or, not_and, Nat.not_lt]
  refine ⟨hpositive, ?_, hdiv⟩
  intro hsuffix
  exact hmem.resolve_left (hhead.mp hsuffix)

/-- `parseBlockSize` returns exactly for the arguments that denote a size, and
returns that size. -/
theorem parseBlockSize_eq_some_iff {w : Nat} (hw : w = 32 ∨ w = 64) (arg : CString) (size : Nat) :
    parseBlockSize w arg = some size ↔ SizeArgument w arg.bytes size := by
  constructor
  · intro h
    exact sizeArgument_of_parseBlockSize h
  · intro h
    exact parseBlockSize_of_sizeArgument hw h

/-- `1k` -/
theorem parseBlockSize_one_kilo : SizeArgument 64 [0x31, 0x6b] 1024 :=
  (parseBlockSize_eq_some_iff (.inr rfl) ⟨[0x31, 0x6b], by decide⟩ 1024).mp (by decide)

end T2sz
