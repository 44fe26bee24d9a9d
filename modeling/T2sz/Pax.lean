import T2sz.Header

/-!
The `size` record of a pax extended header.

`data` is the data of the extended header, exactly as long as its size field
says, and `beyond` is what memory holds after it: the comparison with `" size="`
takes six bytes wherever it starts, so it can see past the data. A comparison
that finds fewer than six bytes is a mismatch, hence `beyond = []` reads nothing
past the data.
-/

namespace T2sz

/-- The digit loop: the record length and the number of characters it takes. -/
def recordLength (w len : Nat) : List UInt8 → Nat → Nat → Nat × Nat
  | [], recLen, digits => (recLen, digits)
  | c :: rest, recLen, digits =>
      if isDigitOf 10 c && recLen ≤ len then
        recordLength w len rest ((recLen * 10 + digitValue c) % 2 ^ w) (digits + 1)
      else (recLen, digits)

/-- The value loop, with its overflow guard. -/
def recordValue : List UInt8 → Nat → Nat
  | [], size => size
  | c :: rest, size =>
      if isDigitOf 10 c then
        if (UINT64_MAX - 9) / 10 < size then UINT64_MAX
        else recordValue rest (size * 10 + digitValue c)
      else size

/-- The bytes of `" size="`. -/
def sizeKey : List UInt8 := [0x20, 0x73, 0x69, 0x7a, 0x65, 0x3d]

/-- The record loop from `pos` on. Each record moves `pos`, so `data.length`
rounds are enough. -/
def paxRecords (w : Nat) (data beyond : List UInt8) : Nat → Nat → Nat
  | 0, _ => UINT64_MAX
  | fuel + 1, pos =>
      let len := data.length
      if pos < len then
        let (recLen, digits) := recordLength w len (data.drop pos) 0 0
        let i := pos + digits
        if recLen = 0 ∨ len - pos < recLen then UINT64_MAX
        else if 6 < usub w (pos + recLen) i ∧ ((data ++ beyond).drop i).take 6 = sizeKey then
          recordValue ((data.drop (i + 6)).take (pos + recLen - (i + 6))) 0
        else paxRecords w data beyond fuel (pos + recLen)
      else UINT64_MAX

def paxSize (w : Nat) (data beyond : List UInt8) : Nat :=
  paxRecords w data beyond data.length 0

/-- The payload size of an entry and what remains of `paxNextSize`. -/
def tarEntrySize (header : TarHeader) (paxNextSize : Nat) : Nat × Nat :=
  if isExtensionHeader header || paxNextSize == UINT64_MAX then
    (parseTarSize header, paxNextSize)
  else
    (paxNextSize, UINT64_MAX)

/-- A size rounded up to whole blocks, in words of `w` bits. -/
def paddedSize (w entrySize : Nat) : Nat :=
  let size := entrySize % 2 ^ w
  if size % 512 ≠ 0 then uadd w (size - size % 512) 512 else size

theorem recordValue_lt (value : List UInt8) (size : Nat) (h : size < 2 ^ 64) :
    recordValue value size < 2 ^ 64 := by
  induction value generalizing size with
  | nil => exact h
  | cons c rest ih =>
      simp only [recordValue]
      split
      · split
        · exact UINT64_MAX_lt
        · apply ih
          have hc : digitValue c ≤ 9 := by
            simp_all [isDigitOf, digitValue]
            omega
          simp only [UINT64_MAX] at *
          omega
      · exact h

theorem paxRecords_lt (w : Nat) (data beyond : List UInt8) (fuel pos : Nat) :
    paxRecords w data beyond fuel pos < 2 ^ 64 := by
  induction fuel generalizing pos with
  | zero => exact UINT64_MAX_lt
  | succ fuel ih =>
      simp only [paxRecords]
      split
      · split
        · exact UINT64_MAX_lt
        · split
          · exact recordValue_lt _ _ (by decide)
          · exact ih _
      · exact UINT64_MAX_lt

theorem paxSize_lt (w : Nat) (data beyond : List UInt8) : paxSize w data beyond < 2 ^ 64 :=
  paxRecords_lt w data beyond _ _

/-- The sizes that the parsers carry are 64-bit numbers. -/
theorem tarEntrySize_lt (header : TarHeader) {paxNextSize : Nat} (h : paxNextSize < 2 ^ 64) :
    (tarEntrySize header paxNextSize).1 < 2 ^ 64 ∧
      (tarEntrySize header paxNextSize).2 < 2 ^ 64 := by
  simp only [tarEntrySize]
  split
  · exact ⟨parseTarSize_lt header, h⟩
  · exact ⟨h, UINT64_MAX_lt⟩

end T2sz
