import T2sz.Archive
import T2sz.Checksum
import T2sz.StdinTar

/-!
The size field of a header: what writers store in it, and what becomes of the
base-256 numbers that no file can have.
-/

namespace T2sz

open Iteration Numeral

/-- A field whose top bit is set holds a number of 95 bits in two's complement. -/
def base256Denotes (field : List UInt8) : Int :=
  (BitVec.ofNat 95 (accumulate 256 0 (field.map UInt8.toNat))).toInt

/-- The field of a header is told by its first four bytes and the number in the
other eight. -/
theorem size_parts (header : TarHeader) :
    ∃ a b c d rest, header.size = a :: b :: c :: d :: rest ∧ rest.length = 8 := by
  have hlen : header.size.length = 12 := header.length_field (by decide)
  match header.size, hlen with
  | a :: b :: c :: d :: rest, h => exact ⟨a, b, c, d, rest, rfl, by simpa using h⟩

theorem accumulate_bytes_lt (bytes : List UInt8) :
    accumulate 256 0 (bytes.map UInt8.toNat) < 256 ^ bytes.length := by
  rw [← List.length_map UInt8.toNat]
  apply accumulate_lt (by decide)
  intro d hd
  rw [List.mem_map] at hd
  obtain ⟨c, -, rfl⟩ := hd
  exact c.toNat_lt

/-- What follows the flag is the low part of the number unless a byte in front of
it is set. -/
theorem toInt_base256 {high low : Nat} (hflag : 2 ^ 31 ≤ high) (hhigh : high < 2 ^ 32)
    (hlow : low < 2 ^ 64) :
    let denoted := (BitVec.ofNat 95 (high * 2 ^ 64 + low)).toInt
    (high = 2 ^ 31 → denoted = low) ∧ (high ≠ 2 ^ 31 → denoted < 0 ∨ 2 ^ 64 ≤ denoted) := by
  have hmod : (high * 2 ^ 64 + low) % 2 ^ 95 = (high - 2 ^ 31) * 2 ^ 64 + low := by omega
  simp only [BitVec.toInt_eq_toNat_cond, BitVec.toNat_ofNat, hmod]
  constructor
  · intro hplain
    rw [hplain, if_pos (by omega), Nat.sub_self, Nat.zero_mul, Nat.zero_add]
  · intro hwide
    split
    case isTrue hpositive =>
      right
      omega
    case isFalse hnegative =>
      left
      omega

/-- A base-256 field is read as its number, or refused. -/
theorem parseTarSize_base256 {header : TarHeader} (h : header.size.getD 0 0 &&& 0x80 ≠ 0) :
    parseTarSize header =
      if 0 ≤ base256Denotes header.size ∧ base256Denotes header.size < 2 ^ 64 then
        (base256Denotes header.size).toNat
      else UINT64_MAX := by
  obtain ⟨a, b, c, d, rest, hsize, hlen⟩ := size_parts header
  have hrest := accumulate_bytes_lt rest
  rw [hlen] at hrest
  have hflag : 0x80 ≤ a.toNat := by
    rw [hsize, List.getD_cons_zero] at h
    exact Nat.not_lt.mp fun hlt => h (flag_eq_zero hlt)
  have ha := a.toNat_lt
  have hb := b.toNat_lt
  have hc := c.toNat_lt
  have hd := d.toNat_lt
  obtain ⟨hplain, hwide⟩ := toInt_base256
    (show 2 ^ 31 ≤ ((a.toNat * 256 + b.toNat) * 256 + c.toNat) * 256 + d.toNat by omega)
    (by omega) (show accumulate 256 0 (rest.map UInt8.toNat) < 2 ^ 64 from hrest)
  have hdenotes : base256Denotes header.size = (BitVec.ofNat 95
      ((((a.toNat * 256 + b.toNat) * 256 + c.toNat) * 256 + d.toNat) * 2 ^ 64 +
        accumulate 256 0 (rest.map UInt8.toNat))).toInt := by
    rw [base256Denotes, hsize]
    simp only [List.map_cons, accumulate_cons, Nat.zero_mul, Nat.zero_add]
    rw [accumulate_eq_add, List.length_map, hlen, show 256 ^ 8 = 2 ^ 64 by decide]
  simp only [parseTarSize, if_pos h, hdenotes]
  simp only [hsize, List.getD_cons_zero, List.getD_cons_succ, List.drop_succ_cons, List.drop_zero,
    base256Value_eq]
  by_cases hbytes : a ≠ 0x80 ∨ b ≠ 0 ∨ c ≠ 0 ∨ d ≠ 0
  · have hne : ((a.toNat * 256 + b.toNat) * 256 + c.toNat) * 256 + d.toNat ≠ 2 ^ 31 := by
      intro heq
      have hzeros : a = 0x80 ∧ b = 0 ∧ c = 0 ∧ d = 0 := by
        simp only [← UInt8.toNat_inj]
        exact ⟨show a.toNat = 128 by omega, show b.toNat = 0 by omega,
          show c.toNat = 0 by omega, show d.toNat = 0 by omega⟩
      simp [hzeros] at hbytes
    have hdenoted := hwide hne
    rw [if_pos hbytes, if_neg (by omega)]
  · rw [if_neg hbytes]
    simp only [ne_eq, not_or, Decidable.not_not] at hbytes
    obtain ⟨rfl, rfl, rfl, rfl⟩ := hbytes
    rw [hplain rfl, if_pos (by omega), Int.toNat_natCast]
    exact Nat.mod_eq_of_lt hrest

theorem OctalField.lt {field : List UInt8} {n : Nat} (h : OctalField field n) :
    n < 8 ^ field.length := by
  obtain ⟨blanks, digits, rest, rfl, -, -, hoctal, -, rfl⟩ := h
  rw [digitsValue_eq]
  refine Nat.lt_of_lt_of_le (accumulate_lt (by decide) ?_) (Nat.pow_le_pow_right (by decide) ?_)
  · intro d hd
    rw [List.mem_map] at hd
    obtain ⟨c, hc, rfl⟩ := hd
    have := isDigitOf_spec (hoctal c hc)
    simp only [digitValue]
    omega
  · simp only [List.length_map, List.length_append]
    omega

/-- The parser takes the size of an entry from its header. -/
structure SizeFromHeader (header : TarHeader) (paxNextSize : Nat) : Prop where
  valid : isTarHeader header = true
  unreplaced : isExtensionHeader header = true ∨ paxNextSize = UINT64_MAX

theorem SizeFromHeader.tarEntrySize_eq {header : TarHeader} {paxNextSize : Nat}
    (h : SizeFromHeader header paxNextSize) :
    tarEntrySize header paxNextSize = (parseTarSize header, paxNextSize) := by
  have hcond : (isExtensionHeader header || paxNextSize == UINT64_MAX) = true := by
    rw [Bool.or_eq_true, beq_iff_eq]
    exact h.unreplaced
  rw [tarEntrySize, if_pos hcond]

section Refused

variable {ctx : Context} {after : Nat → List UInt8}

/-- No file is as large as `UINT64_MAX` says. -/
theorem tarStep_too_large {input : List UInt8} (hn : input.length < 2 ^ 62)
    (hmap : input.length < 2 ^ ctx.sizeBits) {s : FileState} (hresidual : s.residual = 0)
    (hblock : s.tarHeaderIdx + 512 ≤ input.length)
    (hsize : SizeFromHeader (headerAt input s.tarHeaderIdx) s.paxNextSize)
    (hmax : parseTarSize (headerAt input s.tarHeaderIdx) = UINT64_MAX) :
    tarStep ctx after input s = .exit .entryTooLarge s := by
  have hnull := not_zero_of_isTarHeader hsize.valid
  rw [headerAt_bytes hblock] at hnull
  have hidx : uadd ctx.sizeBits s.tarHeaderIdx 512 = s.tarHeaderIdx + 512 := uadd_eq (by omega)
  have hlarge : input.length < UINT64_MAX := by
    rw [UINT64_MAX]
    omega
  have hentry : fileEntry ctx after input s = .error .entryTooLarge := by
    simp only [fileEntry, hsize.valid, if_true, hsize.tarEntrySize_eq, hmax, if_pos hlarge]
  have helement : fileElement ctx after input s = .error .entryTooLarge := by
    rw [fileElement, if_neg (by simp [hresidual]), hidx, if_neg (by omega), hnull]
    exact hentry
  simp only [tarStep, helement]

theorem stdinStep_too_large {stream : Stream} {s : StdinState}
    (hblock : s.pos + 512 ≤ stream.bytes.length)
    (hsize : SizeFromHeader (headerAt stream.bytes s.pos) s.paxNextSize)
    (hmax : parseTarSize (headerAt stream.bytes s.pos) = UINT64_MAX) :
    stdinStep ctx after stream s = .exit .entryTooLarge s := by
  have hnull := not_zero_of_isTarHeader hsize.valid
  rw [headerAt_bytes hblock] at hnull
  have hlen : (blockAt stream.bytes s.pos).length = 512 := by
    rw [← headerAt_bytes hblock, TarHeader.size_eq]
  have hheader : ∀ t : StdinState, t.pos = s.pos → t.paxNextSize = s.paxNextSize →
      stdinHeader ctx stream after t = .error .entryTooLarge := by
    intro t hpos hpax
    simp only [stdinHeader, hpos, hpax, hsize.valid, hsize.tarEntrySize_eq, hmax]
    rfl
  have hread : stdinHeader ctx stream after (if s.nullRun ≠ 0 then flushHeld ctx s else s) =
      .error .entryTooLarge := by
    split
    case isTrue => exact hheader _ rfl rfl
    case isFalse => exact hheader s rfl rfl
  simp only [stdinStep, hlen, hnull, hread]
  rfl

end Refused

/-- The size field decodes what writers store, and a number that is negative or
wider than 64 bits ends the run of either parser. -/
theorem parseTarSize_decodes (header : TarHeader) :
    (∀ n, OctalField header.size n → parseTarSize header = n) ∧
    (header.size.getD 0 0 &&& 0x80 ≠ 0 → ∀ n : Nat, n < 2 ^ 64 →
      base256Denotes header.size = n → parseTarSize header = n) ∧
    (header.size.getD 0 0 &&& 0x80 ≠ 0 →
      base256Denotes header.size < 0 ∨ 2 ^ 64 ≤ base256Denotes header.size →
      (∀ (ctx : Context) (after : Nat → List UInt8) (input : List UInt8),
        input.length < 2 ^ 62 → input.length < 2 ^ ctx.sizeBits →
        ∀ s, Reached (tarStep ctx.clamp after input) .init s → s.residual = 0 →
        s.tarHeaderIdx + 512 ≤ input.length → headerAt input s.tarHeaderIdx = header →
        SizeFromHeader header s.paxNextSize →
        Runs (tarStep ctx.clamp after input) .init (.exited .entryTooLarge s)) ∧
      (∀ (ctx : Context) (after : Nat → List UInt8) (stream : Stream),
        ∀ s, Reached (stdinStep ctx.clamp after stream) .init s →
        s.pos + 512 ≤ stream.bytes.length → headerAt stream.bytes s.pos = header →
        SizeFromHeader header s.paxNextSize →
        Runs (stdinStep ctx.clamp after stream) .init (.exited .entryTooLarge s))) := by
  refine ⟨?_, ?_, ?_⟩
  · intro n h
    have hn := h.lt
    rw [TarHeader.size, header.length_field (by decide)] at hn
    exact parseTarSize_sizeField (.octal h) (Nat.lt_trans hn (by decide))
  · intro hflag n hn hvalue
    rw [parseTarSize_base256 hflag, hvalue, if_pos (by omega), Int.toNat_natCast]
  · intro hflag hvalue
    have hmax : parseTarSize header = UINT64_MAX := by
      rw [parseTarSize_base256 hflag, if_neg (by omega)]
    constructor
    · intro ctx after input hn hmap s hreached hresidual hblock hheader hsize
      rw [← hheader] at hsize hmax
      exact hreached.runs (.exit
        (@tarStep_too_large ctx.clamp after input hn hmap s hresidual hblock hsize hmax))
    · intro ctx after stream s hreached hblock hheader hsize
      rw [← hheader] at hsize hmax
      exact hreached.runs (.exit (stdinStep_too_large hblock hsize hmax))

/-- A regular file of minus one byte. -/
def negativeSizeHeader : TarHeader :=
  .ofFields (List.replicate 12 0xff) [0x30, 0x30, 0x36, 0x34, 0x34, 0x34, 0, 0x20] 0x30 rfl rfl

theorem negativeSizeHeader_size : SizeFromHeader negativeSizeHeader UINT64_MAX :=
  ⟨by decide +kernel, .inr rfl⟩

theorem parseTarSize_decodes_negative :
    Runs (tarStep newContext.clamp (fun _ => []) negativeSizeHeader.bytes) .init
      (.exited .entryTooLarge .init) :=
  ((parseTarSize_decodes negativeSizeHeader).2.2 (by decide +kernel)
    (.inl (by decide +kernel))).1 newContext _ _ (by rw [negativeSizeHeader.size_eq]; decide)
    (by rw [negativeSizeHeader.size_eq]; decide) _ .refl rfl
    (by rw [negativeSizeHeader.size_eq]; decide) (by decide +kernel) negativeSizeHeader_size

end T2sz
