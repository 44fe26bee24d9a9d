import T2sz.Libc

/-!
The 512-byte tar header and the predicates that the parsers read off it.

A `TarHeader` carries its size, so a field is always a full field. The fields
are named and placed as in the packed struct of the source.
-/

namespace T2sz

structure TarHeader where
  bytes : List UInt8
  size_eq : bytes.length = 512
  deriving DecidableEq

namespace TarHeader

/-- The byte at an offset of the header, which is always below 512. -/
def byte (header : TarHeader) (offset : Nat) : UInt8 := header.bytes.getD offset 0

def field (header : TarHeader) (offset size : Nat) : List UInt8 :=
  (header.bytes.drop offset).take size

def name (header : TarHeader) : List UInt8 := header.field 0 100
def size (header : TarHeader) : List UInt8 := header.field 124 12
def chksum (header : TarHeader) : List UInt8 := header.field 148 8
def typeflag (header : TarHeader) : UInt8 := header.byte 156

theorem length_field (header : TarHeader) {offset size : Nat} (h : offset + size ≤ 512) :
    (header.field offset size).length = size := by
  simp only [field, List.length_take, List.length_drop, header.size_eq]
  omega

end TarHeader

def sumBytes (bytes : List UInt8) : Nat := bytes.foldl (fun sum c => sum + c.toNat) 0

/-- The sum of the header's bytes, the eight of the chksum field read as
spaces. It is at most 512 * 255, so the `uint32_t` of the source does not wrap. -/
def checksum (header : TarHeader) : Nat :=
  sumBytes (header.bytes.take 148) + 8 * 0x20 + sumBytes (header.bytes.drop 156)

def isTarHeader (header : TarHeader) : Bool :=
  checksum header == (strtoull 64 8 (header.chksum ++ [0])).value % 2 ^ 32

/-- Bytes 4 to 11 of a base-256 field as a big-endian number. -/
def base256Value (bytes : List UInt8) : Nat :=
  bytes.foldl (fun size c => (size * 2 ^ 8 + c.toNat) % 2 ^ 64) 0

def parseTarSize (header : TarHeader) : Nat :=
  let field := header.size
  if field.getD 0 0 &&& 0x80 ≠ 0 then
    if field.getD 0 0 ≠ 0x80 ∨ field.getD 1 0 ≠ 0 ∨ field.getD 2 0 ≠ 0 ∨ field.getD 3 0 ≠ 0 then
      UINT64_MAX
    else
      base256Value (field.drop 4)
  else
    (strtoull 64 8 (field ++ [0])).value

/-- The typeflags `x`, `g`, `L` and `K`. -/
def isExtensionHeader (header : TarHeader) : Bool :=
  header.typeflag == 0x78 || header.typeflag == 0x67 ||
    header.typeflag == 0x4c || header.typeflag == 0x4b

/-- Where the last component of a name starts: the loop that walks back from
`base` to the byte after a slash. -/
def baseNameIndex (name : List UInt8) : Nat → Nat
  | 0 => 0
  | base + 1 => if name.getD base 0 == 0x2f then base + 1 else baseNameIndex name base

def joinsNextEntry (header : TarHeader) : Bool :=
  let len := (header.name.takeWhile (· != 0)).length
  let base := baseNameIndex header.name len
  isExtensionHeader header ||
    (2 < len - base && header.name.getD base 0 == 0x2e && header.name.getD (base + 1) 0 == 0x5f)

def hasSparseExtension (header : TarHeader) : Bool :=
  header.typeflag == 0x53 && header.byte 482 != 0

/-- All 512 bytes of the block are zero. -/
def isZeroTarBlock (block : List UInt8) : Bool :=
  block.all (· == 0)

/-- The 512 bytes at `offset`, fewer at the end. -/
def blockAt (bytes : List UInt8) (offset : Nat) : List UInt8 := (bytes.drop offset).take 512

/-- The block at `offset` read as a header. The parsers only do so when the
block is complete; zeros stand for what would be missing. -/
def headerAt (bytes : List UInt8) (offset : Nat) : TarHeader where
  bytes := (bytes.drop offset ++ List.replicate 512 0).take 512
  size_eq := by rw [List.length_take, List.length_append, List.length_replicate]; omega

theorem headerAt_bytes {bytes : List UInt8} {offset : Nat} (h : offset + 512 ≤ bytes.length) :
    (headerAt bytes offset).bytes = blockAt bytes offset := by
  simp only [headerAt, blockAt]
  rw [List.take_append_of_le_length]
  rw [List.length_drop]
  omega

theorem headerAt_append (header : TarHeader) (rest : List UInt8) :
    headerAt (header.bytes ++ rest) 0 = header := by
  have hlen := header.size_eq
  rw [TarHeader.mk.injEq, headerAt_bytes (by rw [List.length_append]; omega), blockAt,
    List.drop_zero, List.take_append_of_le_length (by omega), List.take_of_length_le (by omega)]

/-- What is in front of the end of a list is also in front of what follows it. -/
theorem chunk_common {common : List UInt8} {idx n : Nat} (rest : List UInt8)
    (h : idx + n ≤ common.length) :
    ((common ++ rest).drop idx).take n = (common.drop idx).take n := by
  rw [List.drop_append_of_le_length (by omega), List.take_append_of_le_length]
  rw [List.length_drop]
  omega

theorem headerAt_common {common : List UInt8} {idx : Nat} (rest : List UInt8)
    (h : idx + 512 ≤ common.length) :
    headerAt (common ++ rest) idx = headerAt common idx := by
  have hlen : idx + 512 ≤ (common ++ rest).length := by
    rw [List.length_append]
    omega
  rw [TarHeader.mk.injEq, headerAt_bytes hlen, headerAt_bytes h, blockAt, blockAt,
    chunk_common rest h]

/-- An extended header has no sparse extension blocks: the typeflags exclude it. -/
theorem hasSparseExtension_of_extension {header : TarHeader}
    (h : isExtensionHeader header = true) : hasSparseExtension header = false := by
  unfold isExtensionHeader at h
  unfold hasSparseExtension
  simp only [Bool.or_eq_true, beq_iff_eq] at h
  rcases h with ((h | h) | h) | h <;> simp [h]

/-- Extended headers join the next entry. -/
theorem joinsNextEntry_of_extension {header : TarHeader}
    (h : isExtensionHeader header = true) : joinsNextEntry header = true := by
  simp [joinsNextEntry, h]

theorem base256Value_lt (bytes : List UInt8) : base256Value bytes < 2 ^ 64 := by
  have hfold : ∀ (bytes : List UInt8) (size : Nat), size < 2 ^ 64 →
      bytes.foldl (fun size c => (size * 2 ^ 8 + c.toNat) % 2 ^ 64) size < 2 ^ 64 := by
    intro bytes
    induction bytes with
    | nil => intro size h; exact h
    | cons c bytes ih => intro size _; exact ih _ (Nat.mod_lt _ (by decide))
  exact hfold bytes 0 (by decide)

theorem parseTarSize_lt (header : TarHeader) : parseTarSize header < 2 ^ 64 := by
  unfold parseTarSize
  dsimp only
  split
  · split
    · decide
    · exact base256Value_lt _
  · exact strtoull_value_lt 64 8 _

end T2sz
