import T2sz.Checksum

/-!
The mutator of the fuzz harnesses.

It lets libFuzzer change the input and then writes a checksum into every block
that is not null. `customMutator` is what it makes of the bytes that libFuzzer
has left; where the blocks are is not changed by that.
-/

namespace T2sz

/-- `%0<width>o` -/
def printOctal (width n : Nat) : List UInt8 :=
  if n < 8 ^ width then octalDigits width n else (Nat.toDigits 8 n).map Char.toUInt8

/-- `snprintf` into a buffer of `size` bytes. -/
def snprintf (size : Nat) (s : List UInt8) : List UInt8 := s.take (size - 1) ++ [0]

/-- The sum of the loop in `fix_tar_checksum`. -/
def sumBlock (data : List UInt8) : Nat :=
  ((List.range 512).map fun i =>
    if 148 ≤ i ∧ i < 156 then 0x20 else (data.getD i 0).toNat).sum

/-- `buf[6] = '\0'` and `buf[7] = ' '`, behind what is printed. -/
def chksumBuf (ac : Nat) : List UInt8 := (snprintf 8 (printOctal 6 ac)).take 6 ++ [0, 0x20]

def fixTarChecksum (data : List UInt8) : List UInt8 :=
  if data.length < 512 then data
  else data.take 148 ++ (chksumBuf (sumBlock data) ++ data.drop 156)

/-- A round of the loop in `LLVMFuzzerCustomMutator`. -/
def mutateBlock (block : List UInt8) : List UInt8 :=
  if isZeroTarBlock block then block else fixTarChecksum block

def mutateBlocks : Nat → List UInt8 → List UInt8
  | 0, data => data
  | fuel + 1, data =>
      if data.length < 512 then data
      else mutateBlock (data.take 512) ++ mutateBlocks fuel (data.drop 512)

/-- `LLVMFuzzerCustomMutator`, behind `LLVMFuzzerMutate`. -/
def customMutator (data : List UInt8) : List UInt8 := mutateBlocks data.length data

section Blocks

variable {data block : List UInt8}

theorem sumBytes_eq (bytes : List UInt8) : sumBytes bytes = (bytes.map UInt8.toNat).sum := by
  induction bytes with
  | nil => rfl
  | cons c bytes ih => rw [sumBytes_cons, ih, List.map_cons, List.sum_cons]

theorem map_getD_range (bytes : List UInt8) :
    (List.range bytes.length).map (fun i => (bytes.getD i 0).toNat) = bytes.map UInt8.toNat := by
  apply List.ext_getElem
  · rw [List.length_map, List.length_map, List.length_range]
  · intro i hi _
    rw [List.length_map, List.length_range] at hi
    simp [hi]

/-- The mutator adds up what `checksum` adds up. -/
theorem sumBlock_eq (header : TarHeader) : sumBlock header.bytes = checksum header := by
  have hlen := header.size_eq
  have hsplit : List.range 512 =
      List.range 148 ++ ((List.range 8).map (148 + ·) ++ (List.range 356).map (156 + ·)) := by
    decide +kernel
  have hbefore : (List.range 148).map (fun i =>
      if 148 ≤ i ∧ i < 156 then 0x20 else (header.bytes.getD i 0).toNat) =
      (header.bytes.take 148).map UInt8.toNat := by
    rw [← map_getD_range, List.length_take, hlen]
    apply List.map_congr_left
    intro i hi
    have hlt : i < 148 := List.mem_range.mp hi
    rw [if_neg (by omega), List.getD_eq_getElem?_getD, List.getD_eq_getElem?_getD,
      List.getElem?_take_of_lt hlt]
  have hfield : ((List.range 8).map (148 + ·)).map (fun i =>
      if 148 ≤ i ∧ i < 156 then 0x20 else (header.bytes.getD i 0).toNat) =
      List.replicate 8 0x20 := by
    rw [List.map_map, List.eq_replicate_iff]
    refine ⟨rfl, ?_⟩
    intro n hn
    obtain ⟨i, hi, rfl⟩ := List.mem_map.mp hn
    have hlt : 148 + i < 156 := Nat.add_lt_add_left (List.mem_range.mp hi) 148
    exact if_pos ⟨Nat.le_add_right 148 i, hlt⟩
  have hbehind : ((List.range 356).map (156 + ·)).map (fun i =>
      if 148 ≤ i ∧ i < 156 then 0x20 else (header.bytes.getD i 0).toNat) =
      (header.bytes.drop 156).map UInt8.toNat := by
    rw [← map_getD_range, List.length_drop, hlen, List.map_map]
    apply List.map_congr_left
    intro i _
    rw [Function.comp_apply, if_neg (by omega), List.getD_eq_getElem?_getD,
      List.getD_eq_getElem?_getD, List.getElem?_drop]
  rw [sumBlock, hsplit, List.map_append, List.map_append, hbefore, hfield, hbehind, checksum,
    List.sum_append, List.sum_append, sumBytes_eq, sumBytes_eq, List.sum_replicate, Nat.add_assoc]
  rfl

/-- What is written is one of the standard forms. -/
theorem chksumBuf_standard {n : Nat} (h : n < 8 ^ 6) : StandardChksum n (chksumBuf n) := by
  have hdigits : (snprintf 8 (printOctal 6 n)).take 6 = octalDigits 6 n := by
    rw [snprintf, printOctal, if_pos h, List.take_append_of_le_length (by simp), List.take_take]
    exact List.take_of_length_le (by simp)
  rw [chksumBuf, hdigits]
  exact .digitsNulSpace

/-- The header that `fix_tar_checksum` makes of a header. -/
def TarHeader.fixed (header : TarHeader) : TarHeader :=
  header.storeChksum (chksumBuf (checksum header))
    (chksumBuf_standard (checksum_lt header)).length_eq

theorem fixTarChecksum_eq (header : TarHeader) :
    fixTarChecksum header.bytes = header.fixed.bytes := by
  rw [fixTarChecksum, if_neg (by rw [header.size_eq]; decide), sumBlock_eq]
  rfl

theorem isTarHeader_fixed (header : TarHeader) : isTarHeader header.fixed = true := by
  have hsum := checksum_lt header
  apply isTarHeader_of_valid
  rw [TarHeader.fixed, checksum_storeChksum, TarHeader.chksum_storeChksum]
  exact (chksumBuf_standard hsum).octalField hsum

theorem TarHeader.fixed_take (header : TarHeader) :
    header.fixed.bytes.take 148 = header.bytes.take 148 :=
  header.storeChksum_take _

theorem TarHeader.fixed_drop (header : TarHeader) :
    header.fixed.bytes.drop 156 = header.bytes.drop 156 := by
  have hfield := (chksumBuf_standard (checksum_lt header)).length_eq
  rw [show 156 = 148 + 8 by rfl, ← List.drop_drop, TarHeader.fixed,
    header.storeChksum_drop hfield, List.drop_left' hfield]

theorem fixed_fixed (header : TarHeader) : header.fixed.fixed = header.fixed := by
  have hsame : checksum header.fixed = checksum header := checksum_storeChksum header _
  rw [TarHeader.mk.injEq]
  change header.fixed.bytes.take 148 ++ (chksumBuf (checksum header.fixed) ++
    header.fixed.bytes.drop 156) = header.fixed.bytes
  rw [header.fixed_take, header.fixed_drop, hsame]
  rfl

/-- A block that is a header, if it is not null. -/
theorem mutateBlock_eq (header : TarHeader) :
    mutateBlock header.bytes =
      if isZeroTarBlock header.bytes then header.bytes else header.fixed.bytes := by
  rw [mutateBlock, fixTarChecksum_eq]

/-- The fields beside the checksum are not touched. -/
theorem getElem?_fixed (header : TarHeader) {i : Nat} (h : i < 148 ∨ 156 ≤ i) :
    header.fixed.bytes[i]? = header.bytes[i]? := by
  cases h with
  | inl hlt =>
      rw [← List.getElem?_take_of_lt hlt, header.fixed_take, List.getElem?_take_of_lt hlt]
  | inr hle =>
      obtain ⟨j, rfl⟩ := Nat.exists_eq_add_of_le hle
      rw [← List.getElem?_drop, header.fixed_drop, List.getElem?_drop]

theorem isZeroTarBlock_fixed (header : TarHeader) : isZeroTarBlock header.fixed.bytes = false :=
  not_zero_of_isTarHeader (isTarHeader_fixed header)

theorem exists_header (h : block.length = 512) : ∃ header : TarHeader, header.bytes = block :=
  ⟨⟨block, h⟩, rfl⟩

theorem length_mutateBlock (h : block.length = 512) : (mutateBlock block).length = 512 := by
  obtain ⟨header, rfl⟩ := exists_header h
  rw [mutateBlock_eq]
  split
  · exact header.size_eq
  · exact header.fixed.size_eq

theorem isZeroTarBlock_mutateBlock (h : block.length = 512) :
    isZeroTarBlock (mutateBlock block) = isZeroTarBlock block := by
  obtain ⟨header, rfl⟩ := exists_header h
  rw [mutateBlock_eq]
  split
  case isTrue => rfl
  case isFalse hzero => rw [isZeroTarBlock_fixed, Bool.eq_false_iff.mpr hzero]

theorem mutateBlock_mutateBlock (h : block.length = 512) :
    mutateBlock (mutateBlock block) = mutateBlock block := by
  obtain ⟨header, rfl⟩ := exists_header h
  rw [mutateBlock_eq]
  split
  case isTrue hzero => rw [mutateBlock_eq, if_pos hzero]
  case isFalse => rw [mutateBlock_eq, isZeroTarBlock_fixed, if_neg Bool.false_ne_true, fixed_fixed]

theorem getElem?_mutateBlock (h : block.length = 512) {i : Nat} (hi : i < 148 ∨ 156 ≤ i) :
    (mutateBlock block)[i]? = block[i]? := by
  obtain ⟨header, rfl⟩ := exists_header h
  rw [mutateBlock_eq]
  split
  · rfl
  · exact getElem?_fixed header hi

end Blocks

/-- Whole blocks are mutated one by one, and what is behind them is left alone. -/
structure Mutated (data mutated : List UInt8) : Prop where
  length : mutated.length = data.length
  block : ∀ k, 512 * k + 512 ≤ data.length →
    blockAt mutated (512 * k) = mutateBlock (blockAt data (512 * k))
  tail : ∀ i, 512 * (data.length / 512) ≤ i → mutated[i]? = data[i]?

section Data

variable {data mutated : List UInt8}

theorem mutateBlocks_mutated (fuel : Nat) (hfuel : data.length ≤ fuel) :
    Mutated data (mutateBlocks fuel data) := by
  induction fuel generalizing data with
  | zero =>
      obtain rfl := List.eq_nil_of_length_eq_zero (Nat.le_zero.mp hfuel)
      exact ⟨rfl, fun k hk => absurd hk (by simp), fun i _ => rfl⟩
  | succ fuel ih =>
      rw [mutateBlocks]
      split
      case isTrue hshort => exact ⟨rfl, fun k hk => absurd hk (by omega), fun i _ => rfl⟩
      case isFalse hblock =>
        have hfirst : (data.take 512).length = 512 := by
          rw [List.length_take]
          omega
        have hrest : (data.drop 512).length + 512 = data.length := by
          rw [List.length_drop]
          omega
        have hhead := length_mutateBlock hfirst
        obtain ⟨hlength, hblocks, htail⟩ := @ih (data.drop 512) (by omega)
        refine ⟨?_, ?_, ?_⟩
        · rw [List.length_append, hhead, hlength]
          omega
        · intro k hk
          cases k with
          | zero =>
              rw [Nat.mul_zero, blockAt, List.drop_zero, List.take_left' hhead, blockAt,
                List.drop_zero]
          | succ k =>
              have hplace : 512 * (k + 1) = 512 + 512 * k := by omega
              rw [blockAt, hplace, ← List.drop_drop, List.drop_left' hhead]
              exact (hblocks k (by omega)).trans (by rw [blockAt, List.drop_drop]; rfl)
        · intro i hi
          obtain ⟨j, rfl⟩ := Nat.exists_eq_add_of_le (show 512 ≤ i by omega)
          rw [List.getElem?_append_right (by omega), hhead, Nat.add_sub_cancel_left,
            htail j (by omega), List.getElem?_drop]

theorem customMutator_mutated (data : List UInt8) : Mutated data (customMutator data) :=
  mutateBlocks_mutated data.length (Nat.le_refl _)

theorem length_customMutator (data : List UInt8) : (customMutator data).length = data.length :=
  (customMutator_mutated data).length

/-- On a single header the mutator does one round. -/
theorem customMutator_header (header : TarHeader) :
    customMutator header.bytes = mutateBlock header.bytes := by
  have hlen := header.size_eq
  rw [customMutator, hlen, mutateBlocks, if_neg (by rw [hlen]; decide),
    List.take_of_length_le (Nat.le_of_eq hlen), List.drop_of_length_le (Nat.le_of_eq hlen),
    mutateBlocks, if_pos (by decide), List.append_nil]

theorem length_blockAt {k : Nat} (h : 512 * k + 512 ≤ data.length) :
    (blockAt data (512 * k)).length = 512 := by
  rw [blockAt, List.length_take, List.length_drop]
  omega

theorem getElem?_blockAt (data : List UInt8) (k : Nat) {j : Nat} (hj : j < 512) :
    data[512 * k + j]? = (blockAt data (512 * k))[j]? := by
  rw [blockAt, List.getElem?_take_of_lt hj, List.getElem?_drop]

theorem Mutated.zero (h : Mutated data mutated) {k : Nat} (hk : 512 * k + 512 ≤ data.length) :
    isZeroTarBlock (blockAt mutated (512 * k)) = isZeroTarBlock (blockAt data (512 * k)) := by
  rw [h.block k hk]
  exact isZeroTarBlock_mutateBlock (length_blockAt hk)

/-- A block of the mutated input that is not null has its checksum. -/
theorem Mutated.valid (h : Mutated data mutated) {k : Nat} (hk : 512 * k + 512 ≤ data.length)
    (hzero : isZeroTarBlock (blockAt data (512 * k)) = false) :
    isTarHeader (headerAt mutated (512 * k)) = true := by
  have hlength := h.length
  have hsame : headerAt mutated (512 * k) = (headerAt data (512 * k)).fixed := by
    rw [TarHeader.mk.injEq, headerAt_bytes (by omega), h.block k hk, ← headerAt_bytes hk,
      mutateBlock_eq, headerAt_bytes hk, hzero, if_neg Bool.false_ne_true]
  rw [hsame]
  exact isTarHeader_fixed _

theorem Mutated.outside (h : Mutated data mutated) {i : Nat}
    (hi : 512 * (data.length / 512) ≤ i ∨ i % 512 < 148 ∨ 156 ≤ i % 512) :
    mutated[i]? = data[i]? := by
  by_cases htail : 512 * (data.length / 512) ≤ i
  · exact h.tail i htail
  · have hoffset : i % 512 < 148 ∨ 156 ≤ i % 512 := hi.resolve_left htail
    have hj : i % 512 < 512 := Nat.mod_lt i (by decide)
    have hk : 512 * (i / 512) + 512 ≤ data.length := by omega
    rw [← Nat.div_add_mod i 512, getElem?_blockAt mutated _ hj, getElem?_blockAt data _ hj,
      h.block _ hk]
    exact getElem?_mutateBlock (length_blockAt hk) hoffset

theorem Mutated.again (h : Mutated data mutated) {mutated' : List UInt8}
    (h' : Mutated mutated mutated') : mutated' = mutated := by
  have hlength := h.length
  apply List.ext_getElem?
  intro i
  by_cases htail : 512 * (mutated.length / 512) ≤ i
  · exact h'.tail i htail
  · have hj : i % 512 < 512 := Nat.mod_lt i (by decide)
    have hk : 512 * (i / 512) + 512 ≤ data.length := by omega
    rw [← Nat.div_add_mod i 512, getElem?_blockAt mutated' _ hj, getElem?_blockAt mutated _ hj,
      h'.block _ (by omega), h.block _ hk, mutateBlock_mutateBlock (length_blockAt hk)]

/-- The mutator writes checksums, and nothing else: a whole block stays null or is
taken for a header, no other byte is changed, and a second time changes nothing. -/
theorem customMutator_repairs (data : List UInt8) :
    (customMutator data).length = data.length ∧
    (∀ k, 512 * k + 512 ≤ data.length →
      isZeroTarBlock (blockAt (customMutator data) (512 * k)) =
        isZeroTarBlock (blockAt data (512 * k)) ∧
      (isZeroTarBlock (blockAt data (512 * k)) = false →
        isTarHeader (headerAt (customMutator data) (512 * k)) = true)) ∧
    (∀ i, 512 * (data.length / 512) ≤ i ∨ i % 512 < 148 ∨ 156 ≤ i % 512 →
      (customMutator data)[i]? = data[i]?) ∧
    customMutator (customMutator data) = customMutator data := by
  have h := customMutator_mutated data
  exact ⟨h.length, fun k hk => ⟨h.zero hk, h.valid hk⟩, fun i hi => h.outside hi,
    h.again (customMutator_mutated _)⟩

end Data

end T2sz
