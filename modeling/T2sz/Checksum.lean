import Mathlib.Data.List.TakeWhile
import T2sz.Numerals

/-!
The checksum of a header: `checksum` leaves out its own field, changes with any
byte outside it, and is at least that of eight spaces, so no null block has one.
-/

namespace T2sz

open Numeral

theorem sumBytes_cons (c : UInt8) (bytes : List UInt8) :
    sumBytes (c :: bytes) = c.toNat + sumBytes bytes := by
  have hfold : ∀ (bytes : List UInt8) (sum : Nat),
      bytes.foldl (fun sum c => sum + c.toNat) sum = sum + sumBytes bytes := by
    intro bytes
    induction bytes with
    | nil => intro sum; rfl
    | cons d bytes ih =>
        intro sum
        have hcons : sumBytes (d :: bytes) = 0 + d.toNat + sumBytes bytes := ih _
        rw [List.foldl_cons, ih, hcons]
        omega
  rw [sumBytes, List.foldl_cons, hfold, Nat.zero_add]

theorem sumBytes_le (bytes : List UInt8) : sumBytes bytes ≤ 255 * bytes.length := by
  induction bytes with
  | nil => exact Nat.le_refl 0
  | cons c bytes ih =>
      have hc := c.toNat_lt
      rw [sumBytes_cons, List.length_cons]
      omega

/-- The sum after one byte was replaced. -/
theorem sumBytes_set {bytes : List UInt8} {i : Nat} (h : i < bytes.length) (c : UInt8) :
    sumBytes (bytes.set i c) + (bytes.getD i 0).toNat = sumBytes bytes + c.toNat := by
  induction bytes generalizing i with
  | nil => exact absurd h (Nat.not_lt_zero i)
  | cons d bytes ih =>
      cases i with
      | zero =>
          rw [List.set_cons_zero, sumBytes_cons, sumBytes_cons, List.getD_cons_zero]
          omega
      | succ i =>
          have hrest := ih (Nat.lt_of_succ_lt_succ h)
          rw [List.set_cons_succ, sumBytes_cons, sumBytes_cons, List.getD_cons_succ]
          omega

/-- The sum of a header has at most six octal digits. -/
theorem checksum_lt (header : TarHeader) : checksum header < 8 ^ 6 := by
  have hbefore := sumBytes_le (header.bytes.take 148)
  have hbehind := sumBytes_le (header.bytes.drop 156)
  rw [List.length_take] at hbefore
  rw [List.length_drop, header.size_eq] at hbehind
  simp only [checksum]
  omega

namespace TarHeader

/-- The header with another chksum field. -/
def storeChksum (header : TarHeader) (field : List UInt8) (h : field.length = 8) : TarHeader where
  bytes := header.bytes.take 148 ++ (field ++ header.bytes.drop 156)
  size_eq := by
    simp only [List.length_append, List.length_take, List.length_drop, header.size_eq, h]
    decide

/-- The header with another byte at an offset. -/
def setByte (header : TarHeader) (offset : Nat) (c : UInt8) : TarHeader where
  bytes := header.bytes.set offset c
  size_eq := by rw [List.length_set, header.size_eq]

theorem storeChksum_take (header : TarHeader) {field : List UInt8} (h : field.length = 8) :
    (header.storeChksum field h).bytes.take 148 = header.bytes.take 148 := by
  have hlen : (header.bytes.take 148).length = 148 := by
    rw [List.length_take, header.size_eq]
    rfl
  rw [storeChksum, List.take_left' hlen]

theorem storeChksum_drop (header : TarHeader) {field : List UInt8} (h : field.length = 8) :
    (header.storeChksum field h).bytes.drop 148 = field ++ header.bytes.drop 156 := by
  have hlen : (header.bytes.take 148).length = 148 := by
    rw [List.length_take, header.size_eq]
    rfl
  rw [storeChksum, List.drop_left' hlen]

@[simp] theorem chksum_storeChksum (header : TarHeader) {field : List UInt8}
    (h : field.length = 8) : (header.storeChksum field h).chksum = field := by
  rw [chksum, TarHeader.field, header.storeChksum_drop h, List.take_left' h]

end TarHeader

@[simp] theorem checksum_storeChksum (header : TarHeader) {field : List UInt8}
    (h : field.length = 8) : checksum (header.storeChksum field h) = checksum header := by
  have hbehind : (header.storeChksum field h).bytes.drop 156 = header.bytes.drop 156 := by
    rw [show 156 = 148 + 8 by rfl, ← List.drop_drop, header.storeChksum_drop h,
      List.drop_left' h]
  rw [checksum, checksum, header.storeChksum_take h, hbehind]

/-- A header whose field holds its checksum is accepted. -/
theorem isTarHeader_of_valid {header : TarHeader} (h : OctalField header.chksum (checksum header)) :
    isTarHeader header = true := by
  have hsum := checksum_lt header
  have hvalue := @strtoull_octal 64 _ _ h (by omega)
  have hword : checksum header % 2 ^ 32 = checksum header := Nat.mod_eq_of_lt (by omega)
  simp only [isTarHeader, hvalue, hword, beq_self_eq_true]

/-- A null block has no digit in its chksum field, and so holds the sum 0. -/
theorem not_zero_of_isTarHeader {header : TarHeader} (h : isTarHeader header = true) :
    isZeroTarBlock header.bytes = false := by
  rw [Bool.eq_false_iff]
  intro hzero
  rw [isZeroTarBlock, List.all_eq_true] at hzero
  have hfield : ∀ c ∈ header.chksum ++ [0], c = 0 := by
    intro c hc
    rw [List.mem_append, List.mem_singleton] at hc
    cases hc with
    | inl hmem => exact beq_iff_eq.mp (hzero c (List.mem_of_mem_drop (List.mem_of_mem_take hmem)))
    | inr heq => exact heq
  obtain ⟨c, rest, hbytes⟩ : ∃ c rest, header.chksum ++ [0] = c :: rest :=
    List.exists_cons_of_ne_nil (by simp)
  have hc : c = 0 := hfield c (by rw [hbytes]; exact List.mem_cons_self)
  subst hc
  have hvalue : (strtoull 64 8 (header.chksum ++ [0])).value = 0 := by
    rw [hbytes]
    rfl
  rw [isTarHeader, hvalue, beq_iff_eq, checksum] at h
  omega

/-- The forms in which writers store the sum `n`. -/
inductive StandardChksum (n : Nat) : List UInt8 → Prop
  | digitsNulSpace : StandardChksum n (octalDigits 6 n ++ [0, 0x20])
  | digitsSpaceNul : StandardChksum n (octalDigits 6 n ++ [0x20, 0])
  | digitsNul : StandardChksum n (octalDigits 7 n ++ [0])
  | rightAligned (width : Nat) (terminator : List UInt8) (positive : 0 < width)
      (fits : n < 8 ^ width) (nonempty : terminator ≠ [])
      (terminated : ∀ c ∈ terminator, c = 0 ∨ c = 0x20)
      (short : width + terminator.length ≤ 8) :
      StandardChksum n
        (List.replicate (8 - (width + terminator.length)) 0x20 ++ octalDigits width n ++ terminator)

theorem StandardChksum.length_eq {n : Nat} {field : List UInt8} (h : StandardChksum n field) :
    field.length = 8 := by
  cases h with
  | digitsNulSpace => simp
  | digitsSpaceNul => simp
  | digitsNul => simp
  | rightAligned width terminator positive fits nonempty terminated short =>
      simp only [List.length_append, List.length_replicate, length_octalDigits]
      omega

theorem StandardChksum.octalField {n : Nat} {field : List UInt8} (h : StandardChksum n field)
    (hn : n < 8 ^ 6) : OctalField field n := by
  have hblank : ∀ k, ∀ c ∈ List.replicate k (0x20 : UInt8), isspace c = true := by
    intro k c hc
    rw [List.eq_of_mem_replicate hc]
    rfl
  cases h with
  | digitsNulSpace =>
      exact @octalField_octalDigits 6 n (by decide) hn _ _ (hblank 0) (by simp [isDigitOf])
  | digitsSpaceNul =>
      exact @octalField_octalDigits 6 n (by decide) hn _ _ (hblank 0) (by simp [isDigitOf])
  | digitsNul =>
      exact @octalField_octalDigits 7 n (by decide) (by omega) _ _ (hblank 0) (by simp [isDigitOf])
  | rightAligned width terminator positive fits nonempty terminated short =>
      apply octalField_octalDigits positive fits (hblank _)
      intro c hc
      cases terminated c (List.mem_of_mem_head? hc) with
      | inl hnul =>
          rw [hnul]
          rfl
      | inr hspace =>
          rw [hspace]
          rfl

/-- The sums before and after a byte outside the field was replaced. -/
theorem checksum_setByte (header : TarHeader) {offset : Nat} (hoffset : offset < 512)
    (houtside : offset < 148 ∨ 156 ≤ offset) (c : UInt8) :
    checksum (header.setByte offset c) + (header.byte offset).toNat =
      checksum header + c.toNat := by
  have hlen := header.size_eq
  simp only [checksum, TarHeader.setByte, TarHeader.byte, List.take_set, List.drop_set]
  cases houtside with
  | inl hbefore =>
      have hset := @sumBytes_set (header.bytes.take 148) offset (by rw [List.length_take]; omega) c
      rw [List.getD_eq_getElem?_getD, List.getElem?_take_of_lt hbefore,
        ← List.getD_eq_getElem?_getD] at hset
      rw [if_pos (by omega)]
      omega
  | inr hbehind =>
      have hset := @sumBytes_set (header.bytes.drop 156) (offset - 156)
        (by rw [List.length_drop]; omega) c
      rw [List.getD_eq_getElem?_getD, List.getElem?_drop, Nat.add_sub_cancel' hbehind,
        ← List.getD_eq_getElem?_getD] at hset
      rw [if_neg (by omega), List.set_eq_of_length_le (by rw [List.length_take]; omega)]
      omega

/-- The field is not read differently. -/
theorem chksum_setByte (header : TarHeader) {offset : Nat}
    (houtside : offset < 148 ∨ 156 ≤ offset) (c : UInt8) :
    (header.setByte offset c).chksum = header.chksum := by
  simp only [TarHeader.chksum, TarHeader.field, TarHeader.setByte, List.drop_set]
  cases houtside with
  | inl hbefore => rw [if_pos (by omega)]
  | inr hbehind =>
      rw [if_neg (by omega), List.take_set, List.set_eq_of_length_le]
      rw [List.length_take]
      omega

theorem splitSign_length (s : List UInt8) : (splitSign s).2.length ≤ s.length := by
  unfold splitSign
  split
  · exact Nat.le_succ _
  · exact Nat.le_succ _
  · exact Nat.le_refl _

/-- Nine characters hold no number that `unsigned long` could not. -/
theorem strtoul_of_width {w : Nat} (hw : w = 32 ∨ w = 64) {s : List UInt8} (hs : s.length ≤ 9) :
    (strtoull w 8 s).value % 2 ^ 32 = (strtoull 64 8 s).value % 2 ^ 32 := by
  have hlen := Nat.le_trans (splitSign_length (s.dropWhile isspace))
    (List.length_dropWhile_le isspace s)
  simp only [strtoull]
  generalize splitSign (s.dropWhile isspace) = sign at hlen
  have hvalue : digitsValue 8 (sign.2.takeWhile (isDigitOf 8)) < 8 ^ 9 := by
    rw [digitsValue_eq]
    refine Nat.lt_of_lt_of_le (accumulate_lt (by decide) ?_) (Nat.pow_le_pow_right (by decide) ?_)
    · intro d hd
      rw [List.mem_map] at hd
      obtain ⟨c, hc, rfl⟩ := hd
      have := isDigitOf_spec (List.mem_takeWhile_imp hc)
      simp only [digitValue]
      omega
    · rw [List.length_map]
      exact Nat.le_trans (List.takeWhile_sublist _).length_le (Nat.le_trans hlen hs)
  generalize digitsValue 8 (sign.2.takeWhile (isDigitOf 8)) = value at hvalue
  by_cases hnil : sign.2.takeWhile (isDigitOf 8) = []
  · rw [if_pos hnil, if_pos hnil]
  · rw [if_neg hnil, if_neg hnil]
    cases hw with
    | inl h =>
        rw [h, if_neg (show ¬ 2 ^ 32 ≤ value by omega), if_neg (show ¬ 2 ^ 64 ≤ value by omega)]
        dsimp only [usub]
        split <;> omega
    | inr h => rw [h]

/-- Every stored checksum is accepted and every changed byte is noticed, with an
`unsigned long` of either width; a null block has no checksum. -/
theorem isTarHeader_checksum {w : Nat} (hw : w = 32 ∨ w = 64) (header : TarHeader) :
    (isTarHeader header =
      (checksum header == (strtoull w 8 (header.chksum ++ [0])).value % 2 ^ 32)) ∧
    (checksum header < 8 ^ 6 ∧ ∀ field (h : StandardChksum (checksum header) field),
      isTarHeader (header.storeChksum field h.length_eq) = true) ∧
    (isTarHeader header = true → ∀ offset c, offset < 512 → (offset < 148 ∨ 156 ≤ offset) →
      c ≠ header.byte offset → isTarHeader (header.setByte offset c) = false) ∧
    ¬ (isZeroTarBlock header.bytes = true ∧ isTarHeader header = true) := by
  refine ⟨?_, ⟨checksum_lt header, ?_⟩, ?_, ?_⟩
  · have hlen : (header.chksum ++ [0]).length ≤ 9 := by
      rw [List.length_append, TarHeader.chksum, header.length_field (by decide)]
      decide
    rw [isTarHeader, strtoul_of_width hw hlen]
  · intro field h
    apply isTarHeader_of_valid
    rw [checksum_storeChksum, TarHeader.chksum_storeChksum]
    exact h.octalField (checksum_lt header)
  · intro hvalid offset c hoffset houtside hne
    have hsum := checksum_setByte header hoffset houtside c
    rw [isTarHeader, beq_iff_eq] at hvalid
    rw [isTarHeader, chksum_setByte header houtside, ← hvalid, beq_eq_false_iff_ne]
    intro hsame
    apply hne
    apply UInt8.toNat_inj.mp
    omega
  · rintro ⟨hzero, hvalid⟩
    rw [not_zero_of_isTarHeader hvalid] at hzero
    cases hzero

def nullHeader : TarHeader := ⟨List.replicate 512 0, List.length_replicate⟩

theorem isTarHeader_checksum_null :
    isTarHeader (nullHeader.storeChksum (octalDigits 6 (checksum nullHeader) ++ [0, 0x20])
      StandardChksum.digitsNulSpace.length_eq) = true :=
  (isTarHeader_checksum (.inr rfl) nullHeader).2.1.2 _ .digitsNulSpace

end T2sz
