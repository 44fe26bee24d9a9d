import T2sz.Element
import T2sz.Libc

/-!
The seek table: `seekTableAdd`, `writeSeekTable` and the part of
`cleanupCompression` that calls it, with a reader of what they write.

A `Host` is what the C code leaves to the machine: the width of `size_t`, the
byte order and what `realloc` answers. Failed writes are the matter of
`T2sz.Process`.
-/

namespace T2sz

structure SeekTableEntry where
  compressedSize : UInt32
  decompressedSize : UInt32
  deriving DecidableEq, Inhabited

structure Host where
  sizeBits : Nat
  bits : sizeBits = 32 ∨ sizeBits = 64
  littleEndian : Bool
  /-- `NULL`, or what is in the part of the new array that was not in the old one. -/
  realloc : Nat → Option (Nat → SeekTableEntry)

/-- The bytes of a `uint32_t` as they lie in memory. -/
def Host.memory (host : Host) (x : UInt32) : List UInt8 :=
  let bytes := [x.toUInt8, (x >>> 8).toUInt8, (x >>> 16).toUInt8, (x >>> 24).toUInt8]
  if host.littleEndian then bytes else bytes.reverse

/-- The variable of that name in `writeLE32`. -/
def swap (data : UInt32) : UInt32 :=
  ((data &&& 0xFF000000) >>> 24) ||| ((data &&& 0x00FF0000) >>> 8) |||
    ((data &&& 0x0000FF00) <<< 8) ||| ((data &&& 0x000000FF) <<< 24)

def writeLE32 (host : Host) (data : UInt32) : List UInt8 :=
  if host.littleEndian then host.memory data else host.memory (swap data)

/-- The fields of `Context` that describe the frames that were written.
`seekTable` is the array, with the entries that are not in use. -/
structure SeekTable where
  seekTable : List SeekTableEntry
  seekTableLen : Nat
  seekTableCap : Nat
  skipSeekTable : Bool
  frameCount : Nat
  deriving DecidableEq

/-- As `newContext` and `-j` leave them. -/
def SeekTable.init (skipSeekTable : Bool) : SeekTable := ⟨[], 0, 0, skipSeekTable, 0⟩

/-- `while(newCap < needed) newCap *= 2` -/
def growCap (w needed : Nat) : Nat → Nat → Nat
  | 0, newCap => newCap
  | fuel + 1, newCap =>
      if newCap < needed then growCap w needed fuel (newCap * 2 % 2 ^ w) else newCap

def seekTableEnsureCap (host : Host) (needed : Nat) (t : SeekTable) : Except Exit SeekTable :=
  if needed ≤ t.seekTableCap then .ok t
  else
    let newCap := growCap host.sizeBits needed needed
      (if t.seekTableCap ≠ 0 then t.seekTableCap else 1024)
    let entries := newCap * 8 % 2 ^ host.sizeBits / 8
    match host.realloc entries with
    | none => .error .outOfMemory
    | some fresh =>
        .ok { t with
          seekTable := (List.range entries).map fun i => t.seekTable.getD i (fresh i)
          seekTableCap := newCap }

def seekTableAdd (host : Host) (t : SeekTable) (compressedSize decompressedSize : Nat) :
    Except Exit SeekTable :=
  let counted := { t with frameCount := uadd host.sizeBits t.frameCount 1 }
  if t.skipSeekTable then .ok counted
  else if 0x8000000 ≤ uadd host.sizeBits t.seekTableLen 1 then
    .ok { counted with skipSeekTable := true }
  else
    (seekTableEnsureCap host (uadd host.sizeBits t.seekTableLen 1) counted).map fun grown =>
      { grown with
        seekTable := grown.seekTable.set t.seekTableLen
          ⟨UInt32.ofNat compressedSize, UInt32.ofNat decompressedSize⟩
        seekTableLen := uadd host.sizeBits t.seekTableLen 1 }

/-- One call for each pair of a compressed and a decompressed size. -/
def seekTableAddAll (host : Host) (t : SeekTable) : List (Nat × Nat) → Except Exit SeekTable
  | [] => .ok t
  | (compressedSize, decompressedSize) :: rest =>
      match seekTableAdd host t compressedSize decompressedSize with
      | .error e => .error e
      | .ok s => seekTableAddAll host s rest

def ZSTD_MAGIC_SKIPPABLE_START : UInt32 := 0x184D2A50

/-- The buffers that `writeSeekTable` passes to `checkedFwrite`. -/
def writeSeekTable (host : Host) (t : SeekTable) : List (List UInt8) :=
  [writeLE32 host (ZSTD_MAGIC_SKIPPABLE_START ||| 0xE),
    writeLE32 host (UInt32.ofNat t.seekTableLen * 8 + 9)] ++
  (List.range t.seekTableLen).flatMap (fun i =>
    let e := t.seekTable.getD i default
    [writeLE32 host e.compressedSize, writeLE32 host e.decompressedSize]) ++
  [writeLE32 host (UInt32.ofNat t.seekTableLen), [0], writeLE32 host 0x8F92EAB1]

/-- What `cleanupCompression` writes. -/
def tableWrites (host : Host) (t : SeekTable) : List (List UInt8) :=
  if !t.skipSeekTable then writeSeekTable host t else []

/-- The output file after `cleanupCompression`. -/
def cleanupCompression (host : Host) (t : SeekTable) (outFile : List UInt8) : List UInt8 :=
  outFile ++ (tableWrites host t).flatten

def readByte (file : List UInt8) (offset : Nat) : Nat := (file.getD offset 0).toNat

def readLE32 (file : List UInt8) (offset : Nat) : Nat :=
  readByte file offset + 256 * readByte file (offset + 1) + 65536 * readByte file (offset + 2) +
    16777216 * readByte file (offset + 3)

/-- A reader that works back from the end of the file, as the tests do. -/
def seekTableEntries (file : List UInt8) : Option (List (Nat × Nat)) :=
  let fileSize := file.length
  let numFrames := readLE32 file (fileSize - 9)
  let seekTableSize := numFrames * 8 + 17
  let headerOffset := fileSize - seekTableSize
  if 17 ≤ fileSize ∧ readLE32 file (fileSize - 4) = 0x8F92EAB1 ∧
      readByte file (fileSize - 5) = 0 ∧ seekTableSize ≤ fileSize ∧
      readLE32 file headerOffset = 0x184D2A5E ∧
      readLE32 file (headerOffset + 4) = numFrames * 8 + 9 then
    some ((List.range numFrames).map fun i =>
      (readLE32 file (headerOffset + 8 + 8 * i), readLE32 file (headerOffset + 8 + 8 * i + 4)))
  else none

end T2sz
