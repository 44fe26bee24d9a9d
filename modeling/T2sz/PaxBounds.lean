import T2sz.Library.Memory
import T2sz.PaxWalk

/-!
What `paxSize` reads.

`paxSizeChecked` is `paxSize` with its reads by index: a read past the data, or a
record that is shorter than its digits, leaves it without a result.
-/

namespace T2sz

open Relation

def recordLengthChecked (w : Nat) (data : List UInt8) : Nat → Nat → Nat → Option (Nat × Nat)
  | 0, i, recLen => some (recLen, i)
  | fuel + 1, i, recLen =>
      if i < data.length then do
        let c ← Memory.read data i
        if isDigitOf 10 c && recLen ≤ data.length then
          recordLengthChecked w data fuel (i + 1) ((recLen * 10 + digitValue c) % 2 ^ w)
        else some (recLen, i)
      else some (recLen, i)

def recordValueChecked (data : List UInt8) (stop : Nat) : Nat → Nat → Nat → Option Nat
  | 0, _, size => some size
  | fuel + 1, i, size =>
      if i < stop then do
        let c ← Memory.read data i
        if isDigitOf 10 c then
          if (UINT64_MAX - 9) / 10 < size then some UINT64_MAX
          else recordValueChecked data stop fuel (i + 1) (size * 10 + digitValue c)
        else some size
      else some size

def paxRecordsChecked (w : Nat) (data : List UInt8) : Nat → Nat → Option Nat
  | 0, _ => some UINT64_MAX
  | fuel + 1, pos =>
      let len := data.length
      if pos < len then do
        let (recLen, i) ← recordLengthChecked w data len pos 0
        if recLen = 0 ∨ len - pos < recLen then some UINT64_MAX
        else do
          let room ← Memory.minus (pos + recLen) i
          if 6 < room then do
            let key ← Memory.range data i 6
            if key = sizeKey then recordValueChecked data (pos + recLen) len (i + 6) 0
            else paxRecordsChecked w data fuel (pos + recLen)
          else paxRecordsChecked w data fuel (pos + recLen)
      else some UINT64_MAX

def paxSizeChecked (w : Nat) (data : List UInt8) : Option Nat :=
  paxRecordsChecked w data data.length 0

section Checked

variable {w : Nat} {data beyond : List UInt8} {pos length : Nat}

/-- The digit loop stays in the data. -/
theorem recordLengthChecked_eq (fuel k recLen : Nat) (hfuel : data.length ≤ pos + k + fuel) :
    recordLengthChecked w data fuel (pos + k) recLen =
      some ((recordLength w data.length (data.drop (pos + k)) recLen k).1,
        pos + (recordLength w data.length (data.drop (pos + k)) recLen k).2) := by
  induction fuel generalizing k recLen with
  | zero =>
      rw [List.drop_of_length_le (Nat.add_zero (pos + k) ▸ hfuel)]
      rfl
  | succ fuel ih =>
      by_cases hlt : pos + k < data.length
      · rw [List.drop_eq_getElem_cons hlt]
        simp only [recordLengthChecked, if_pos hlt, Memory.read_of_lt hlt, recordLength,
          Option.bind_eq_bind, Option.bind_some]
        split
        case isTrue => exact ih (k + 1) _ (by omega)
        case isFalse => rfl
      · rw [List.drop_of_length_le (Nat.not_lt.mp hlt)]
        simp only [recordLengthChecked, if_neg hlt, recordLength]

/-- The value loop stays in the record. -/
theorem recordValueChecked_eq {stop : Nat} (hstop : stop ≤ data.length) (fuel i size : Nat)
    (hfuel : stop ≤ i + fuel) :
    recordValueChecked data stop fuel i size =
      some (recordValue ((data.drop i).take (stop - i)) size) := by
  induction fuel generalizing i size with
  | zero =>
      rw [Nat.sub_eq_zero_of_le (Nat.add_zero i ▸ hfuel), List.take_zero]
      rfl
  | succ fuel ih =>
      by_cases hlt : i < stop
      · have hdata : i < data.length := by omega
        have hone : stop - i = stop - (i + 1) + 1 := by omega
        rw [List.drop_eq_getElem_cons hdata, hone, List.take_succ_cons]
        simp only [recordValueChecked, if_pos hlt, Memory.read_of_lt hdata, recordValue,
          Option.bind_eq_bind, Option.bind_some]
        split
        case isTrue =>
          split
          case isTrue => rfl
          case isFalse => exact ih (i + 1) _ (by omega)
        case isFalse => rfl
      · rw [Nat.sub_eq_zero_of_le (Nat.not_lt.mp hlt), List.take_zero]
        simp only [recordValueChecked, if_neg hlt, recordValue]

theorem recordLengthChecked_at :
    recordLengthChecked w data data.length pos 0 =
      some ((recordLength w data.length (data.drop pos) 0 0).1,
        pos + (recordLength w data.length (data.drop pos) 0 0).2) :=
  recordLengthChecked_eq data.length 0 0 (Nat.le_add_left _ _)

/-- Up to the comparison nothing is read that is not there. -/
theorem paxRecordsChecked_no_record (h : ∀ length, ¬ Record w data pos length) (fuel : Nat) :
    paxRecordsChecked w data fuel pos = some UINT64_MAX := by
  cases fuel with
  | zero => rfl
  | succ fuel =>
      cases hlen : recordLength w data.length (data.drop pos) 0 0 with
      | mk length digits =>
          simp only [paxRecordsChecked, recordLengthChecked_at, hlen, Option.bind_eq_bind,
            Option.bind_some]
          by_cases hbad : length = 0 ∨ data.length - pos < length
          · rw [if_pos hbad, ite_self]
          · rw [not_or, Nat.not_lt] at hbad
            exact absurd (record_of_accepted hlen (Nat.pos_of_ne_zero hbad.1) hbad.2).1
              (h length)

/-- A record that is shorter than its digits is where `paxSize` goes wrong. -/
theorem paxRecordsChecked_short (h : Record w data pos length)
    (hshort : length < (digitsAt data pos).length) (fuel : Nat) :
    paxRecordsChecked w data (fuel + 1) pos = none := by
  have haccepted : ¬ (length = 0 ∨ data.length - pos < length) := by
    have := h.positive
    have := h.fits
    omega
  simp only [paxRecordsChecked, recordLengthChecked_at, h.recordLength_eq, if_pos h.pos_lt,
    if_neg haccepted, Option.bind_eq_bind, Option.bind_some]
  rw [Memory.minus_of_lt (Nat.add_lt_add_left hshort pos), Option.bind_none]

/-- At any other record the comparison sees only the record. -/
theorem paxRecordsChecked_record (h : Record w data pos length)
    (hlong : (digitsAt data pos).length ≤ length) (hw : data.length < 2 ^ w) (fuel : Nat) :
    (SizeKeyAt w data [] pos length → paxRecordsChecked w data (fuel + 1) pos =
      some (recordValue (valueText data pos length) 0)) ∧
    (¬ SizeKeyAt w data [] pos length → paxRecordsChecked w data (fuel + 1) pos =
      paxRecordsChecked w data fuel (pos + length)) := by
  have hpos := h.pos_lt
  have hfits := h.fits
  have haccepted : ¬ (length = 0 ∨ data.length - pos < length) := by
    have := h.positive
    omega
  have hle : pos + (digitsAt data pos).length ≤ pos + length := Nat.add_le_add_left hlong pos
  have hroom := @usub_eq w (pos + length) (pos + (digitsAt data pos).length) hle (by omega)
  simp only [paxRecordsChecked, recordLengthChecked_at, h.recordLength_eq, if_pos hpos,
    if_neg haccepted, Memory.minus_of_le hle, Option.bind_eq_bind, Option.bind_some, SizeKeyAt,
    hroom, List.append_nil]
  by_cases hsix : 6 < pos + length - (pos + (digitsAt data pos).length)
  · rw [if_pos hsix, Memory.range_of_le (by omega), Option.bind_some]
    constructor
    · intro hkey
      rw [if_pos hkey.2, recordValueChecked_eq (by omega) _ _ _ (by omega)]
      rfl
    · intro hkey
      rw [if_neg fun heq => hkey ⟨hsix, heq⟩]
  · rw [if_neg hsix]
    exact ⟨fun hkey => absurd hkey.1 hsix, fun _ => rfl⟩

/-- What memory holds behind the data does not matter there. -/
theorem sizeKeyAt_beyond (h : Record w data pos length)
    (hlong : (digitsAt data pos).length ≤ length) (hw : data.length < 2 ^ w) :
    SizeKeyAt w data beyond pos length ↔ SizeKeyAt w data [] pos length := by
  have hpos := h.pos_lt
  have hfits := h.fits
  have hroom := @usub_eq w (pos + length) (pos + (digitsAt data pos).length) (by omega) (by omega)
  rw [SizeKeyAt, SizeKeyAt, List.append_nil, hroom]
  apply and_congr_right
  intro hsix
  rw [List.drop_append_of_le_length (by omega), List.take_append_of_le_length]
  rw [List.length_drop]
  omega

theorem paxRecordsChecked_eq (hw : data.length < 2 ^ w) (fuel pos : Nat)
    (hlong : ∀ p l, ReflTransGen (Hops w data []) pos p → Record w data p l →
      (digitsAt data p).length ≤ l) :
    paxRecordsChecked w data fuel pos = some (paxRecords w data beyond fuel pos) := by
  induction fuel generalizing pos with
  | zero => rfl
  | succ fuel ih =>
      by_cases hsome : ∃ length, Record w data pos length
      · obtain ⟨length, hrecord⟩ := hsome
        have hhere := hlong pos length .refl hrecord
        obtain ⟨htaken, hhop⟩ := @paxRecords_record w data beyond pos length hrecord fuel
        obtain ⟨hchecked, hnext⟩ := paxRecordsChecked_record hrecord hhere hw fuel
        rw [sizeKeyAt_beyond hrecord hhere hw] at htaken hhop
        by_cases hkey : SizeKeyAt w data [] pos length
        · rw [hchecked hkey, htaken hkey]
        · rw [hnext hkey, hhop hkey]
          apply ih
          intro p l hp hl
          exact hlong p l (.head ⟨length, hrecord, hkey, rfl⟩ hp) hl
      · rw [not_exists] at hsome
        rw [paxRecordsChecked_no_record hsome, paxRecords_no_record hsome]

theorem paxRecordsChecked_none (hw : data.length < 2 ^ w) {stop : Nat}
    (hwalk : ReflTransGen (Hops w data []) pos stop) (hrecord : Record w data stop length)
    (hshort : length < (digitsAt data stop).length) (fuel : Nat)
    (hfuel : data.length ≤ pos + fuel) : paxRecordsChecked w data fuel pos = none := by
  induction hwalk using ReflTransGen.head_induction_on generalizing fuel with
  | refl =>
      have hpos := hrecord.pos_lt
      cases fuel with
      | zero => omega
      | succ fuel => exact paxRecordsChecked_short hrecord hshort fuel
  | @head pos next hmove hrest ih =>
      obtain ⟨l, hl, hkey, rfl⟩ := hmove
      have hpos := hl.pos_lt
      have hpositive := hl.positive
      cases fuel with
      | zero => omega
      | succ fuel =>
          by_cases hlong : (digitsAt data pos).length ≤ l
          · rw [(paxRecordsChecked_record hl hlong hw fuel).2 hkey]
            exact ih fuel (by omega)
          · exact paxRecordsChecked_short hl (Nat.not_le.mp hlong) fuel

end Checked

/-- `paxSize` reads its data and nothing else exactly when no record that it comes
to has a length smaller than the number of its digits. -/
theorem paxSizeChecked_isSome_iff {w : Nat} {data : List UInt8} (hw : data.length < 2 ^ w) :
    ((paxSizeChecked w data).isSome = true ↔
      ∀ pos length, Visits w data [] pos → Record w data pos length →
        (digitsAt data pos).length ≤ length) ∧
    ∀ beyond result, paxSizeChecked w data = some result → paxSize w data beyond = result := by
  by_cases hlong : ∀ pos length, Visits w data [] pos → Record w data pos length →
      (digitsAt data pos).length ≤ length
  · refine ⟨⟨fun _ => hlong, fun _ => ?_⟩, ?_⟩
    · rw [paxSizeChecked, @paxRecordsChecked_eq w data [] hw _ 0 hlong]
      rfl
    · intro beyond result hresult
      rw [paxSizeChecked, @paxRecordsChecked_eq w data beyond hw _ 0 hlong] at hresult
      exact Option.some.inj hresult
  · have hnone : paxSizeChecked w data = none := by
      simp only [not_forall, Nat.not_le] at hlong
      obtain ⟨pos, length, hvisits, hrecord, hshort⟩ := hlong
      exact paxRecordsChecked_none hw hvisits hrecord hshort _ (Nat.le_add_left _ _)
    rw [hnone]
    refine ⟨⟨fun h => ?_, fun h => absurd h hlong⟩, ?_⟩
    · cases h
    · intro beyond result h
      cases h

/-- `"11 size=42\n"`, whatever follows it. -/
theorem paxSizeChecked_plain :
    paxSize 64 [0x31, 0x31, 0x20, 0x73, 0x69, 0x7a, 0x65, 0x3d, 0x34, 0x32, 0x0a] [0x39] = 42 :=
  (paxSizeChecked_isSome_iff (by decide)).2 [0x39] 42 (by decide)

/-- `"01"`: a length that is smaller than the number of its digits. -/
theorem paxSizeChecked_zero_one : ¬ (paxSizeChecked 64 [0x30, 0x31]).isSome = true := by decide

end T2sz
