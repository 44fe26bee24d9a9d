import Mathlib.Data.List.TakeWhile
import T2sz.PaxWalk

/-!
What the `size` record of an extended header is, and when `paxSize` returns it.

A record is `"<length> <key>=<value>\n"`, its length counting the whole record.
The first record with the key `size` gives the size if its value is a number;
otherwise, and where a length is wrong before it, there is none.
-/

namespace T2sz

open Numeral Relation

/-- A record in front of `behind`: `digits` and `text` have the length that the
digits make. -/
structure WholeRecord (rest digits text behind : List UInt8) : Prop where
  parts : rest = digits ++ (text ++ behind)
  decimal : ∀ c ∈ digits, isDigitOf 10 c = true
  nonempty : text ≠ []
  ended : ∀ c ∈ text.head?, isDigitOf 10 c = false
  counts : digitsValue 10 digits = digits.length + text.length

/-- The first record whose key is `size` has this value, the newline included. -/
inductive SizeRecord : List UInt8 → List UInt8 → Prop
  | here {rest digits value behind : List UInt8}
      (record : WholeRecord rest digits (sizeKey ++ value) behind) : SizeRecord rest value
  | later {rest digits text behind value : List UInt8}
      (record : WholeRecord rest digits text behind) (other : ¬ sizeKey <+: text)
      (next : SizeRecord behind value) : SizeRecord rest value

/-- The value is a number, up to the newline that ends the record. -/
structure NumberText (value digits : List UInt8) : Prop where
  parts : value = digits ++ [0x0a]
  nonempty : digits ≠ []
  decimal : ∀ c ∈ digits, isDigitOf 10 c = true

/-- The size that the data gives, or nothing. -/
structure SizeOrNothing (data : List UInt8) (result : Nat) : Prop where
  size : ∀ value digits, SizeRecord data value → NumberText value digits →
    digitsValue 10 digits ≤ UINT64_MAX - 1024 → result = digitsValue 10 digits
  nothing : (∀ value digits, SizeRecord data value → NumberText value digits →
    UINT64_MAX < digitsValue 10 digits) → result = UINT64_MAX

section Walk

variable {w : Nat} {data beyond rest digits text behind : List UInt8} {pos length : Nat}

/-- The loop accepts a record that is whole. -/
theorem WholeRecord.record (h : WholeRecord rest digits text behind) (hrest : rest = data.drop pos)
    (hw : data.length < 2 ^ w) :
    digitsAt data pos = digits ∧ Record w data pos (digits.length + text.length) ∧
      behind = data.drop (pos + (digits.length + text.length)) := by
  obtain ⟨hparts, hdecimal, hnonempty, hended, hcounts⟩ := h
  have hhead : ∀ c ∈ (text ++ behind).head?, isDigitOf 10 c = false := by
    cases text with
    | nil => exact absurd rfl hnonempty
    | cons c text => exact hended
  have hdigits : digitsAt data pos = digits := by
    rw [digitsAt, ← hrest, hparts]
    exact (takeWhile_digits hdecimal hhead).1
  have htext := List.length_pos_iff.mpr hnonempty
  have hlen := congrArg List.length (hrest.symm.trans hparts)
  simp only [List.length_drop, List.length_append] at hlen
  refine ⟨hdigits, ⟨?_, ?_, by omega, by omega⟩, ?_⟩
  · rw [hdigits, hcounts]
    exact (Nat.mod_eq_of_lt (by omega)).symm
  · intro j hj
    have hle : digitsValue 10 (digits.take j) ≤ digitsValue 10 digits := by
      conv_rhs => rw [← List.take_append_drop j digits]
      rw [digitsValue_eq, digitsValue_eq, List.map_append, accumulate_append]
      exact le_accumulate (by decide) _ _
    rw [hdigits]
    exact Nat.le_trans (Nat.mod_le _ _) (by omega)
  · rw [← List.drop_drop, ← hrest, hparts, ← List.append_assoc, List.drop_left']
    rw [List.length_append]

theorem WholeRecord.drop_eq (h : WholeRecord rest digits text behind)
    (hrest : rest = data.drop pos) : data.drop (pos + digits.length) = text ++ behind := by
  rw [← List.drop_drop, ← hrest, h.parts, List.drop_left]

/-- It is taken for the `size` record when it is one with a value. -/
theorem WholeRecord.sizeKeyAt_iff (h : WholeRecord rest digits text behind)
    (hrest : rest = data.drop pos) (hw : data.length < 2 ^ w) :
    SizeKeyAt w data beyond pos (digits.length + text.length) ↔
      sizeKey <+: text ∧ 6 < text.length := by
  obtain ⟨hdigits, hrecord, -⟩ := h.record hrest hw
  have hpos := hrecord.pos_lt
  have hfits := hrecord.fits
  have hroom : usub w (pos + (digits.length + text.length)) (pos + digits.length) =
      text.length := by
    rw [usub_eq (by omega) (by omega)]
    omega
  have hbytes : (data ++ beyond).drop (pos + digits.length) = text ++ (behind ++ beyond) := by
    rw [List.drop_append_of_le_length (by omega), h.drop_eq hrest, List.append_assoc]
  rw [SizeKeyAt, hdigits, hroom, hbytes, and_comm]
  apply and_congr_left
  intro hlong
  rw [List.take_append_of_le_length (by omega), List.prefix_iff_eq_take, eq_comm]
  rfl

theorem WholeRecord.valueText_eq (h : WholeRecord rest digits text behind)
    (hrest : rest = data.drop pos) (hw : data.length < 2 ^ w) :
    valueText data pos (digits.length + text.length) = text.drop 6 := by
  obtain ⟨hdigits, -, -⟩ := h.record hrest hw
  have hcut : pos + (digits.length + text.length) - (pos + digits.length + 6) =
      text.length - 6 := by omega
  rw [valueText, hdigits, hcut, ← List.drop_drop, h.drop_eq hrest, List.drop_append,
    ← List.length_drop, List.take_left]

/-- The walk comes to the `size` record and takes its value, unless that is empty. -/
theorem SizeRecord.taken {value : List UInt8} (h : SizeRecord rest value)
    (hrest : rest = data.drop pos) (hw : data.length < 2 ^ w) (hvalue : value ≠ []) :
    ∃ stop length, ReflTransGen (Hops w data beyond) pos stop ∧ Record w data stop length ∧
      SizeKeyAt w data beyond stop length ∧ valueText data stop length = value := by
  induction h generalizing pos with
  | @here rest digits value behind record =>
      obtain ⟨-, hrecord, -⟩ := record.record hrest hw
      have hlong : 6 < (sizeKey ++ value).length := by
        have := List.length_pos_iff.mpr hvalue
        rw [List.length_append, show sizeKey.length = 6 by rfl]
        omega
      refine ⟨pos, _, .refl, hrecord, ?_, ?_⟩
      · exact (record.sizeKeyAt_iff hrest hw).mpr ⟨List.prefix_append _ _, hlong⟩
      · rw [record.valueText_eq hrest hw]
        rfl
  | @later rest digits text behind value record other next ih =>
      obtain ⟨-, hrecord, hbehind⟩ := record.record hrest hw
      obtain ⟨stop, length, hwalk, hfound⟩ := ih hbehind hvalue
      have hkey : ¬ SizeKeyAt w data beyond pos (digits.length + text.length) := by
        rw [record.sizeKeyAt_iff hrest hw]
        exact fun h => other h.1
      exact ⟨stop, length, .head ⟨_, hrecord, hkey, rfl⟩ hwalk, hfound⟩

theorem NumberText.takeWhile_eq {value digits : List UInt8} (h : NumberText value digits) :
    value.takeWhile (isDigitOf 10) = digits := by
  rw [h.parts]
  exact (takeWhile_digits h.decimal (by simp [isDigitOf])).1

theorem NumberText.ne_nil {value digits : List UInt8} (h : NumberText value digits) :
    value ≠ [] := by
  rw [h.parts]
  exact List.append_ne_nil_of_left_ne_nil h.nonempty _

/-- What the value loop makes of the text that it starts on. -/
theorem recordValue_text (value : List UInt8) :
    recordValue value 0 =
      if digitsValue 10 (value.takeWhile (isDigitOf 10)) ≤ UINT64_MAX - 6 then
        digitsValue 10 (value.takeWhile (isDigitOf 10))
      else UINT64_MAX := by
  rw [recordValue_eq _ (Nat.zero_le _), digitsValue_eq]

/-- A record as writers make it: its length is the number that its digits make,
which exceeds their count, and it is not the key `size` alone. -/
structure Orderly (data : List UInt8) (pos length : Nat) : Prop where
  number : digitsValue 10 (digitsAt data pos) = length
  exceeds : (digitsAt data pos).length < length
  valued : length = (digitsAt data pos).length + 6 →
    (data.drop (pos + (digitsAt data pos).length)).take 6 ≠ sizeKey

theorem WholeRecord.orderly_iff (h : WholeRecord rest digits text behind)
    (hrest : rest = data.drop pos) (hw : data.length < 2 ^ w) :
    Orderly data pos (digits.length + text.length) ↔ text ≠ sizeKey := by
  obtain ⟨hdigits, -, -⟩ := h.record hrest hw
  have htext := List.length_pos_iff.mpr h.nonempty
  constructor
  · rintro ⟨-, -, hvalued⟩ rfl
    rw [hdigits, h.drop_eq hrest] at hvalued
    exact hvalued rfl rfl
  · intro hne
    refine ⟨by rw [hdigits, h.counts], by rw [hdigits]; omega, ?_⟩
    intro hlen
    rw [hdigits] at hlen ⊢
    rw [h.drop_eq hrest, List.take_left' (Nat.add_left_cancel hlen)]
    exact hne

/-- An orderly record that the loop accepts is whole. -/
theorem Record.whole (h : Record w data pos length) (ho : Orderly data pos length) :
    ∃ text, WholeRecord (data.drop pos) (digitsAt data pos) text (data.drop (pos + length)) ∧
      length = (digitsAt data pos).length + text.length := by
  have hexceeds := ho.exceeds
  have hfits := h.fits
  have hpositive := h.positive
  have hrest : data.drop (pos + (digitsAt data pos).length) =
      (data.drop pos).dropWhile (isDigitOf 10) := by
    rw [← List.drop_drop]
    exact (congrArg (List.drop _) List.takeWhile_append_dropWhile.symm).trans List.drop_left
  have hlen : ((data.drop (pos + (digitsAt data pos).length)).take
      (length - (digitsAt data pos).length)).length = length - (digitsAt data pos).length := by
    rw [List.length_take, List.length_drop]
    omega
  refine ⟨(data.drop (pos + (digitsAt data pos).length)).take
    (length - (digitsAt data pos).length), ⟨?_, ?_, ?_, ?_, ?_⟩, ?_⟩
  · have hbehind : data.drop (pos + length) = (data.drop (pos + (digitsAt data pos).length)).drop
        (length - (digitsAt data pos).length) := by
      rw [List.drop_drop]
      congr 1
      omega
    rw [hbehind, List.take_append_drop, hrest]
    exact List.takeWhile_append_dropWhile.symm
  · exact fun c hc => List.mem_takeWhile_imp hc
  · apply List.ne_nil_of_length_pos
    omega
  · intro c hc
    rw [List.head?_take, if_neg (by omega), hrest] at hc
    have hhead := List.head?_dropWhile_not (isDigitOf 10) (data.drop pos)
    rw [Option.mem_def.mp hc] at hhead
    exact hhead
  · rw [hlen, ho.number]
    omega
  · rw [hlen]
    omega

/-- Where all records on the way are orderly, the text that is taken is the value of
the `size` record, and only there is a value taken from it. -/
theorem sizeRecord_of_orderly (hw : data.length < 2 ^ w) {stop length : Nat}
    (hwalk : ReflTransGen (Hops w data beyond) pos stop) (hrecord : Record w data stop length)
    (hkey : SizeKeyAt w data beyond stop length)
    (horderly : ∀ p l, ReflTransGen (Hops w data beyond) pos p → Record w data p l →
      Orderly data p l) : SizeRecord (data.drop pos) (valueText data stop length) := by
  induction hwalk using ReflTransGen.head_induction_on with
  | refl =>
      obtain ⟨text, hwhole, hlen⟩ := hrecord.whole (horderly _ _ .refl hrecord)
      subst hlen
      obtain ⟨value, rfl⟩ := ((hwhole.sizeKeyAt_iff rfl hw).mp hkey).1
      rw [hwhole.valueText_eq rfl hw]
      exact .here hwhole
  | head hnext hrest ih =>
      obtain ⟨l, hl, hother, rfl⟩ := hnext
      have ho := horderly _ _ .refl hl
      obtain ⟨text, hwhole, hlen⟩ := hl.whole ho
      subst hlen
      refine .later hwhole ?_ (ih ?_)
      · rintro ⟨value, rfl⟩
        apply hother
        rw [hwhole.sizeKeyAt_iff rfl hw]
        refine ⟨List.prefix_append _ _, ?_⟩
        have hne := (hwhole.orderly_iff rfl hw).mp ho
        have hvalue : 0 < value.length := by
          rw [List.length_pos_iff]
          rintro rfl
          exact hne (List.append_nil _)
        rw [List.length_append, show sizeKey.length = 6 by rfl]
        omega
      · intro p l' hp hl'
        exact horderly p l' (.head ⟨_, hl, hother, rfl⟩ hp) hl'

/-- On the way to a value the records are orderly. -/
theorem SizeRecord.orderly {value : List UInt8} (h : SizeRecord rest value)
    (hrest : rest = data.drop pos) (hw : data.length < 2 ^ w) (hvalue : value ≠ []) {p l : Nat}
    (hwalk : ReflTransGen (Hops w data beyond) pos p) (hrecord : Record w data p l) :
    Orderly data p l := by
  induction h generalizing pos with
  | @here rest digits value behind record =>
      obtain ⟨-, hrecord', -⟩ := record.record hrest hw
      have hlong : 0 < value.length := List.length_pos_iff.mpr hvalue
      have hkey : SizeKeyAt w data beyond pos (digits.length + (sizeKey ++ value).length) := by
        rw [record.sizeKeyAt_iff hrest hw]
        refine ⟨List.prefix_append _ _, ?_⟩
        rw [List.length_append, show sizeKey.length = 6 by rfl]
        omega
      have hstop := hkey.stuck hrecord' hwalk
      subst hstop
      rw [hrecord.unique hrecord', record.orderly_iff hrest hw]
      intro heq
      exact hvalue (List.append_right_eq_self.mp heq)
  | @later rest digits text behind value record other next ih =>
      obtain ⟨-, hrecord', hbehind⟩ := record.record hrest hw
      cases hwalk.cases_head with
      | inl heq =>
          subst heq
          rw [hrecord.unique hrecord', record.orderly_iff hrest hw]
          rintro rfl
          exact other List.prefix_rfl
      | inr hmove =>
          obtain ⟨c, ⟨l', hl', -, rfl⟩, hon⟩ := hmove
          rw [hl'.unique hrecord'] at hon
          exact ih hbehind hvalue hon

/-- The text that is taken at `stop` is a number, of a record that every record
before it leads to, or starts with a number that the value loop refuses. -/
def WellTaken (w : Nat) (data beyond : List UInt8) (stop length : Nat) : Prop :=
  ((∃ digits, NumberText (valueText data stop length) digits) ∧
    ∀ p l, Visits w data beyond p → Record w data p l → Orderly data p l) ∨
  UINT64_MAX - 6 < digitsValue 10 ((valueText data stop length).takeWhile (isDigitOf 10))

/-- The one record that the walk takes for the `size` record decides. -/
theorem sizeOrNothing_of_stop (hw : data.length < 2 ^ w) {stop length : Nat}
    (hwalk : Visits w data beyond stop) (hrecord : Record w data stop length)
    (hkey : SizeKeyAt w data beyond stop length) :
    SizeOrNothing data (recordValue (valueText data stop length) 0) ↔
      WellTaken w data beyond stop length := by
  have hsame : ∀ value digits, SizeRecord data value → NumberText value digits →
      valueText data stop length = value := by
    intro value digits hvalue hnumber
    obtain ⟨stop', length', hwalk', hrecord', hkey', htext⟩ :=
      @SizeRecord.taken w data beyond data 0 value hvalue rfl hw hnumber.ne_nil
    obtain ⟨rfl, rfl⟩ := walk_unique hwalk hrecord hkey hwalk' hrecord' hkey'
    exact htext
  constructor
  · intro h
    by_cases hnumber : ∃ value digits, SizeRecord data value ∧ NumberText value digits
    · obtain ⟨value, digits, hvalue, hdigits⟩ := hnumber
      have htext := hsame value digits hvalue hdigits
      rw [← htext] at hvalue hdigits
      left
      refine ⟨⟨digits, hdigits⟩, ?_⟩
      intro p l hp hl
      exact hvalue.orderly rfl hw hdigits.ne_nil hp hl
    · right
      have hnothing := h.nothing fun value digits hvalue hdigits =>
        absurd ⟨value, digits, hvalue, hdigits⟩ hnumber
      rw [recordValue_text] at hnothing
      by_cases hsmall : digitsValue 10 ((valueText data stop length).takeWhile (isDigitOf 10)) ≤
          UINT64_MAX - 6
      · rw [if_pos hsmall] at hnothing
        rw [hnothing] at hsmall
        exact absurd hsmall (by decide)
      · exact Nat.not_le.mp hsmall
  · intro h
    rw [recordValue_text]
    constructor
    · intro value digits hvalue hdigits hsmall
      rw [hsame value digits hvalue hdigits, hdigits.takeWhile_eq, if_pos]
      exact Nat.le_trans hsmall (by decide)
    · intro hnone
      cases h with
      | inl hnumber =>
          obtain ⟨⟨digits, hdigits⟩, horderly⟩ := hnumber
          have hvalue := sizeRecord_of_orderly hw hwalk hrecord hkey horderly
          have hlarge := hnone _ digits hvalue hdigits
          rw [hdigits.takeWhile_eq, if_neg]
          exact Nat.not_le.mpr (Nat.lt_of_le_of_lt (Nat.sub_le _ _) hlarge)
      | inr hlarge => rw [if_neg (Nat.not_le.mpr hlarge)]

end Walk

/-- `paxSize` returns the size of the first `size` record or nothing exactly when
the record that it takes for one is well taken. -/
theorem paxSize_sizeOrNothing_iff {w : Nat} {data : List UInt8} (hw : data.length < 2 ^ w)
    (beyond : List UInt8) :
    SizeOrNothing data (paxSize w data beyond) ↔
      ∀ stop length, Visits w data beyond stop → Record w data stop length →
        SizeKeyAt w data beyond stop length → WellTaken w data beyond stop length := by
  have hwalk := @paxRecords_walk w data beyond data.length 0 (Nat.le_add_left _ _)
  cases hwalk with
  | inl hfound =>
      obtain ⟨stop, length, hvisits, hrecord, hkey, hresult⟩ := hfound
      rw [paxSize, hresult, sizeOrNothing_of_stop hw hvisits hrecord hkey]
      constructor
      · intro h stop' length' hvisits' hrecord' hkey'
        obtain ⟨rfl, rfl⟩ := walk_unique hvisits hrecord hkey hvisits' hrecord' hkey'
        exact h
      · intro h
        exact h stop length hvisits hrecord hkey
  | inr hnone =>
      obtain ⟨hstops, hresult⟩ := hnone
      rw [paxSize, hresult]
      constructor
      · intro _ stop length hvisits hrecord hkey
        exact absurd hkey (hstops stop length hvisits hrecord)
      · intro _
        refine ⟨?_, fun _ => rfl⟩
        intro value digits hvalue hdigits _
        obtain ⟨stop, length, hvisits, hrecord, hkey, -⟩ :=
          @SizeRecord.taken w data beyond data 0 value hvalue rfl hw hdigits.ne_nil
        exact absurd hkey (hstops stop length hvisits hrecord)

/-- `"11 size=42\n"` -/
def plainSize : List UInt8 :=
  [0x31, 0x31, 0x20, 0x73, 0x69, 0x7a, 0x65, 0x3d, 0x34, 0x32, 0x0a]

theorem plainSize_record : Record 64 plainSize 0 11 :=
  ⟨by decide, by decide, by decide, by decide⟩

theorem plainSize_key : SizeKeyAt 64 plainSize [] 0 11 := ⟨by decide, by decide⟩

theorem plainSize_orderly : Orderly plainSize 0 11 := ⟨by decide, by decide, by decide⟩

theorem plainSize_wellTaken : WellTaken 64 plainSize [] 0 11 := by
  left
  refine ⟨⟨[0x34, 0x32], by decide, by decide, by simp [isDigitOf]⟩, ?_⟩
  intro p l hp hl
  have hstop := plainSize_key.stuck plainSize_record hp
  subst hstop
  rw [hl.unique plainSize_record]
  exact plainSize_orderly

theorem paxSize_sizeOrNothing_plainSize : SizeOrNothing plainSize 42 := by
  have hpax : paxSize 64 plainSize [] = 42 := by decide
  rw [← hpax, paxSize_sizeOrNothing_iff (by decide) []]
  intro stop length hvisits hrecord hkey
  obtain ⟨rfl, rfl⟩ := walk_unique .refl plainSize_record plainSize_key hvisits hrecord hkey
  exact plainSize_wellTaken

/-- `"12 size=5x2\n"` -/
def garbledSize : List UInt8 :=
  [0x31, 0x32, 0x20, 0x73, 0x69, 0x7a, 0x65, 0x3d, 0x35, 0x78, 0x32, 0x0a]

/-- A value that is no number is read as the number it starts with. -/
theorem garbledSize_read : ¬ SizeOrNothing garbledSize (paxSize 64 garbledSize []) := by
  have hrecord : Record 64 garbledSize 0 12 := ⟨by decide, by decide, by decide, by decide⟩
  have hkey : SizeKeyAt 64 garbledSize [] 0 12 := ⟨by decide, by decide⟩
  have hpax : paxSize 64 garbledSize [] = recordValue (valueText garbledSize 0 12) 0 := by decide
  rw [hpax, sizeOrNothing_of_stop (by decide) .refl hrecord hkey]
  intro h
  cases h with
  | inl hnumber =>
      obtain ⟨⟨digits, hdigits⟩, -⟩ := hnumber
      have htake := hdigits.takeWhile_eq
      have hparts := hdigits.parts
      rw [← htake] at hparts
      exact absurd hparts (by decide)
  | inr hlarge => exact absurd hlarge (by decide)

end T2sz
