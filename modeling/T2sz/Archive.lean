import T2sz.Checksum
import T2sz.Compressor
import T2sz.Numerals
import T2sz.Scan

/-!
An archive as its writer lays it out.

A `WrittenEntry` carries what makes it one entry: a header whose checksum field
holds the checksum, extension blocks that chain as the header says, and data
padded to whole blocks. An extended header keeps its length in its own field; a
`Member` keeps that of its payload in its own field or in the `size` record of
its pax header. What the data, the padding and the extension blocks contain is
left open.
-/

namespace T2sz

/-- The chain of extension blocks: byte 504 of each but the last is not zero. -/
def Chained : List (List UInt8) → Prop
  | [] => False
  | [last] => last.getD 504 0 = 0
  | block :: next :: rest => block.getD 504 0 ≠ 0 ∧ Chained (next :: rest)

structure WrittenEntry where
  header : TarHeader
  extensions : List (List UInt8)
  data : List UInt8
  padding : List UInt8
  valid : OctalField header.chksum (checksum header)
  blocks : ∀ block ∈ extensions, block.length = 512
  chained : if hasSparseExtension header then Chained extensions else extensions = []
  padded : data.length + padding.length = roundUp data.length

namespace WrittenEntry

def bytes (e : WrittenEntry) : List UInt8 :=
  e.header.bytes ++ (e.extensions.flatten ++ (e.data ++ e.padding))

/-- The entry the parser is to find. -/
def entry (e : WrittenEntry) (paxNextSize : Nat) : Entry :=
  ⟨e.header, e.data.length, paxNextSize, 512 * e.extensions.length⟩

def length (e : WrittenEntry) : Nat := 512 + 512 * e.extensions.length + roundUp e.data.length

theorem length_extensions (e : WrittenEntry) :
    e.extensions.flatten.length = 512 * e.extensions.length := by
  have hsum : ∀ blocks : List (List UInt8), (∀ block ∈ blocks, block.length = 512) →
      blocks.flatten.length = 512 * blocks.length := by
    intro blocks hblocks
    induction blocks with
    | nil => rfl
    | cons block blocks ih =>
        have hrest := ih fun b hb => hblocks b (List.mem_cons_of_mem _ hb)
        rw [List.flatten_cons, List.length_append, hblocks block List.mem_cons_self, hrest,
          List.length_cons]
        omega
  exact hsum e.extensions e.blocks

theorem length_bytes (e : WrittenEntry) : e.bytes.length = e.length := by
  have hpadded := e.padded
  simp only [bytes, List.length_append, e.header.size_eq, e.length_extensions, length]
  omega

@[simp] theorem entry_length (e : WrittenEntry) (pax : Nat) : (e.entry pax).length = e.length := rfl

end WrittenEntry

/-- A header with an empty name that sets only these fields. -/
def TarHeader.ofFields (size chksum : List UInt8) (typeflag : UInt8) (hsize : size.length = 12)
    (hchksum : chksum.length = 8) : TarHeader where
  bytes := List.replicate 124 0 ++ size ++ List.replicate 12 0 ++ chksum ++
    typeflag :: List.replicate 355 0
  size_eq := by
    simp only [List.length_append, List.length_replicate, List.length_cons, hsize, hchksum]

/-- The header of a regular file with `"00000000000"` in its size field. -/
def emptyFileHeader : TarHeader :=
  .ofFields (List.replicate 11 0x30 ++ [0]) [0x30, 0x30, 0x31, 0x35, 0x30, 0x30, 0, 0x20] 0x30
    rfl rfl

theorem emptyFileHeader_valid : OctalField emptyFileHeader.chksum (checksum emptyFileHeader) :=
  .intro [] [0x30, 0x30, 0x31, 0x35, 0x30, 0x30] [0, 0x20] (by decide +kernel) (by simp) (by simp)
    (by simp [isDigitOf]) (by simp [isDigitOf]) (by decide +kernel)

theorem emptyFileHeader_size : OctalField emptyFileHeader.size 0 :=
  .intro [] (List.replicate 11 0x30) [0] (by decide +kernel) (by simp) (by simp)
    (by simp [isDigitOf]) (by simp [isDigitOf]) (by decide +kernel)

theorem noExtensions : ∀ block ∈ ([] : List (List UInt8)), block.length = 512 :=
  List.forall_mem_nil _

/-- An entry of that header without payload. -/
def emptyFile : WrittenEntry where
  header := emptyFileHeader
  extensions := []
  data := []
  padding := []
  valid := emptyFileHeader_valid
  blocks := noExtensions
  chained := by
    rw [if_neg (by decide +kernel)]
  padded := rfl

/-- A global header, a long name or a long link name. -/
structure ExtensionEntry where
  entry : WrittenEntry
  kind : entry.header.typeflag = 0x67 ∨ entry.header.typeflag = 0x4c ∨
    entry.header.typeflag = 0x4b
  size : SizeField entry.header.size entry.data.length

/-- `"<length> <key>=<value>\n"`, the length counting the whole record. -/
structure PaxRecord where
  digits : List UInt8
  key : List UInt8
  value : List UInt8
  decimal : ∀ c ∈ digits, isDigitOf 10 c = true
  plain : 0x3d ∉ key
  counts : digitsValue 10 digits = digits.length + key.length + value.length + 3

namespace PaxRecord

def bytes (r : PaxRecord) : List UInt8 :=
  r.digits ++ 0x20 :: (r.key ++ 0x3d :: (r.value ++ [0x0a]))

/-- `"size"` -/
def sizeName : List UInt8 := [0x73, 0x69, 0x7a, 0x65]

def isSize (r : PaxRecord) : Bool := r.key == sizeName

end PaxRecord

/-- The value is `n` in decimal. -/
def DecimalValue (value : List UInt8) (n : Nat) : Prop :=
  value ≠ [] ∧ (∀ c ∈ value, isDigitOf 10 c = true) ∧ digitsValue 10 value = n

/-- A pax header, with at most one size record. -/
structure PaxEntry where
  entry : WrittenEntry
  records : List PaxRecord
  kind : entry.header.typeflag = 0x78
  size : SizeField entry.header.size entry.data.length
  data : entry.data = records.flatMap PaxRecord.bytes
  single : (records.filter PaxRecord.isSize).length ≤ 1

/-- Where the length `n` of a member's payload is written: in the size record of
its pax header, its own field then being of no account, or in its own field. -/
def PayloadSize (records : List PaxRecord) (header : TarHeader) (n : Nat) : Prop :=
  match records.filter PaxRecord.isSize with
  | [] => SizeField header.size n
  | r :: _ => DecimalValue r.value n

structure Member where
  pax : Option PaxEntry
  others : List ExtensionEntry
  entry : WrittenEntry
  ordinary : isExtensionHeader entry.header = false
  size : PayloadSize ((pax.map PaxEntry.records).getD []) entry.header entry.data.length

namespace Member

def entries (m : Member) : List WrittenEntry :=
  (m.pax.map PaxEntry.entry).toList ++ m.others.map ExtensionEntry.entry ++ [m.entry]

end Member

/-- A list of members, and the null blocks behind them. -/
structure Archive where
  members : List Member
  nonempty : members ≠ []
  nulls : Nat

namespace Archive

def entries (a : Archive) : List WrittenEntry := a.members.flatMap Member.entries

def bytes (a : Archive) : List UInt8 :=
  a.entries.flatMap WrittenEntry.bytes ++ List.replicate (512 * a.nulls) 0

end Archive

/-- The elements of entries written from `start` on. -/
def writtenElements : Nat → List WrittenEntry → List Element
  | _, [] => []
  | start, e :: rest =>
      .entry start e.length (joinsNextEntry e.header) 0 :: writtenElements (start + e.length) rest

/-- The elements of `n` null blocks from `start` on. -/
def nullElements (start : Nat) : Nat → List Element
  | 0 => []
  | n + 1 => .null start :: nullElements (start + 512) n

def Archive.elements (a : Archive) : List Element :=
  writtenElements 0 a.entries ++
    nullElements (a.entries.flatMap WrittenEntry.bytes).length a.nulls

/-- Where the members end that are not held for the next one. -/
def memberEnds : Nat → List Member → List Nat
  | _, [] => []
  | start, m :: rest =>
      let stop := start + (m.entries.map WrittenEntry.length).sum
      if joinsNextEntry m.entry.header then memberEnds stop rest else stop :: memberEnds stop rest

/-- The ends of the members, and that of the null blocks. -/
def Archive.ends (a : Archive) : List Nat :=
  memberEnds 0 a.members ++ if a.nulls = 0 then [] else [a.bytes.length]

section Sample

/-- `-s 600 -S 2000` -/
def sampleContext : Context :=
  { newContext with
    minBlockSize := 600
    maxBlockSize := 2000
    min_lt := by decide
    max_lt := by decide }

/-- The header of a pax header with 12 bytes of data. -/
def sizedPaxHeader : TarHeader :=
  .ofFields (List.replicate 9 0x30 ++ [0x31, 0x34, 0])
    [0x30, 0x30, 0x31, 0x36, 0x31, 0x35, 0x20, 0] 0x78 rfl rfl

theorem sizedPaxHeader_valid : OctalField sizedPaxHeader.chksum (checksum sizedPaxHeader) :=
  .intro [] [0x30, 0x30, 0x31, 0x36, 0x31, 0x35] [0x20, 0] (by decide +kernel) (by simp) (by simp)
    (by simp [isDigitOf]) (by simp [isDigitOf]) (by decide +kernel)

theorem sizedPaxHeader_size : SizeField sizedPaxHeader.size 12 :=
  .octal (.intro [] (List.replicate 9 0x30 ++ [0x31, 0x34]) [0] (by decide +kernel)
    (by simp) (by simp) (by simp [isDigitOf]) (by simp [isDigitOf]) (by decide +kernel))

theorem plain_sizeName : 0x3d ∉ PaxRecord.sizeName := by decide

/-- `"12 size=512\n"` -/
def sizeRecord : PaxRecord where
  digits := [0x31, 0x32]
  key := PaxRecord.sizeName
  value := [0x35, 0x31, 0x32]
  decimal := by simp [isDigitOf]
  plain := plain_sizeName
  counts := rfl

theorem sizeRecord_padded :
    ([sizeRecord].flatMap PaxRecord.bytes).length + (List.replicate 500 (0 : UInt8)).length =
      roundUp ([sizeRecord].flatMap PaxRecord.bytes).length := by
  rw [List.length_replicate]
  decide

def sizedPaxEntry : WrittenEntry where
  header := sizedPaxHeader
  extensions := []
  data := [sizeRecord].flatMap PaxRecord.bytes
  padding := List.replicate 500 0
  valid := sizedPaxHeader_valid
  blocks := noExtensions
  chained := by rw [if_neg (by decide +kernel)]
  padded := sizeRecord_padded

theorem sizedPaxEntry_kind : sizedPaxHeader.typeflag = 0x78 := by decide +kernel

def sizedPax : PaxEntry where
  entry := sizedPaxEntry
  records := [sizeRecord]
  kind := sizedPaxEntry_kind
  size := sizedPaxHeader_size
  data := rfl
  single := Nat.le_refl 1

/-- 512 null bytes behind a header that says nothing of them. -/
def blockFile : WrittenEntry :=
  { emptyFile with
    data := List.replicate 512 0
    padded := by
      rw [emptyFile, List.length_replicate]
      decide }

theorem blockFile_ordinary : isExtensionHeader emptyFileHeader = false := by decide +kernel

/-- Their number is in the pax header. -/
theorem blockFile_size {records : List PaxRecord}
    (h : records.filter PaxRecord.isSize = [sizeRecord]) :
    PayloadSize records emptyFileHeader (List.replicate 512 (0 : UInt8)).length := by
  rw [List.length_replicate, PayloadSize, h]
  exact ⟨by simp [sizeRecord], by decide +kernel, by decide⟩

/-- The header of a long name, which joins the next entry, without data. -/
def longNameHeader : TarHeader :=
  .ofFields (List.replicate 12 0x30) [0x30, 0x30, 0x31, 0x36, 0x31, 0x34, 0, 0x20] 0x4c rfl rfl

theorem longNameHeader_valid : OctalField longNameHeader.chksum (checksum longNameHeader) :=
  .intro [] [0x30, 0x30, 0x31, 0x36, 0x31, 0x34] [0, 0x20] (by decide +kernel) (by simp) (by simp)
    (by simp [isDigitOf]) (by simp [isDigitOf]) (by decide +kernel)

theorem longNameHeader_size : OctalField longNameHeader.size 0 :=
  .intro [] (List.replicate 12 0x30) [] (by decide +kernel) (by simp) (by simp)
    (by simp [isDigitOf]) (by simp) (by decide +kernel)

theorem longNameHeader_kind : longNameHeader.typeflag = 0x4c := by decide +kernel

def longName : ExtensionEntry where
  entry := { emptyFile with
    header := longNameHeader
    valid := longNameHeader_valid
    chained := by rw [if_neg (by decide +kernel), emptyFile] }
  kind := .inr (.inl longNameHeader_kind)
  size := .octal longNameHeader_size

/-- The header of a sparse file of 1000 bytes, with extension blocks. -/
def sparseFileHeader : TarHeader :=
  TarHeader.setByte (.ofFields (List.replicate 7 0x30 ++ [0x31, 0x37, 0x35, 0x30, 0])
    [0x30, 0x30, 0x31, 0x35, 0x36, 0x31, 0, 0x20] 0x53 rfl rfl) 482 1

theorem sparseFileHeader_valid : OctalField sparseFileHeader.chksum (checksum sparseFileHeader) :=
  .intro [] [0x30, 0x30, 0x31, 0x35, 0x36, 0x31] [0, 0x20] (by decide +kernel) (by simp) (by simp)
    (by simp [isDigitOf]) (by simp [isDigitOf]) (by decide +kernel)

theorem sparseFileHeader_size : OctalField sparseFileHeader.size 1000 :=
  .intro [] (List.replicate 7 0x30 ++ [0x31, 0x37, 0x35, 0x30]) [0] (by decide +kernel)
    (by simp) (by simp) (by simp [isDigitOf]) (by simp [isDigitOf]) (by decide +kernel)

/-- Its one extension block is the last one. -/
theorem zeroBlock_last : Chained [List.replicate 512 0] := by
  rw [Chained, List.getD_eq_getElem?_getD, List.getElem?_replicate, if_pos (by decide),
    Option.getD_some]

theorem sparseFileHeader_ordinary : isExtensionHeader sparseFileHeader = false := by
  decide +kernel

def sparseFile : WrittenEntry where
  header := sparseFileHeader
  extensions := [List.replicate 512 0]
  data := List.replicate 1000 0x62
  padding := List.replicate 24 0
  valid := sparseFileHeader_valid
  blocks := by
    intro block hblock
    rw [List.mem_singleton.mp hblock, List.length_replicate]
  chained := by
    rw [if_pos (by decide +kernel)]
    exact zeroBlock_last
  padded := by
    rw [List.length_replicate, List.length_replicate]
    decide

theorem sparseFile_size :
    PayloadSize [] sparseFileHeader (List.replicate 1000 (0x62 : UInt8)).length := by
  rw [List.length_replicate]
  exact .octal sparseFileHeader_size

/-- A file whose length only its pax header has, and a sparse one with a long name. -/
def sampleArchive : Archive where
  members := [
    { pax := some sizedPax
      others := []
      entry := blockFile
      ordinary := blockFile_ordinary
      size := blockFile_size rfl },
    { pax := none
      others := [longName]
      entry := sparseFile
      ordinary := sparseFileHeader_ordinary
      size := sparseFile_size }]
  nonempty := List.cons_ne_nil _ _
  nulls := 2

/-- The first of them alone. -/
def sizedPaxArchive : Archive where
  members := sampleArchive.members.take 1
  nonempty := List.cons_ne_nil _ _
  nulls := 2

theorem sizedPaxArchive_length : sizedPaxArchive.bytes.length = 3072 := by decide +kernel

theorem sampleArchive_length : sampleArchive.bytes.length = 5632 := by decide +kernel

end Sample

end T2sz
