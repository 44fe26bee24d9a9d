import Mathlib.Logic.Relation
import T2sz.Numerals

/-!
The record loop of `paxSize` as a walk over the data, without its accumulators.

A record is what the loop accepts at an offset: all the digits there make a
length between 1 and what remains. The walk goes on behind a record unless it is
taken for the `size` record.
-/

namespace T2sz

open Numeral Relation

/-- The digits at an offset. -/
def digitsAt (data : List UInt8) (pos : Nat) : List UInt8 :=
  (data.drop pos).takeWhile (isDigitOf 10)

/-- A record that the digit loop accepts. Its length is a word, and the loop
stops as soon as that exceeds the data. -/
structure Record (w : Nat) (data : List UInt8) (pos length : Nat) : Prop where
  value : length = digitsValue 10 (digitsAt data pos) % 2 ^ w
  reads : ∀ j < (digitsAt data pos).length,
    digitsValue 10 ((digitsAt data pos).take j) % 2 ^ w ≤ data.length
  positive : 0 < length
  fits : length ≤ data.length - pos

/-- The record at `pos` is taken for the `size` record. -/
def SizeKeyAt (w : Nat) (data beyond : List UInt8) (pos length : Nat) : Prop :=
  6 < usub w (pos + length) (pos + (digitsAt data pos).length) ∧
    ((data ++ beyond).drop (pos + (digitsAt data pos).length)).take 6 = sizeKey

/-- What follows the key in a record. -/
def valueText (data : List UInt8) (pos length : Nat) : List UInt8 :=
  (data.drop (pos + (digitsAt data pos).length + 6)).take
    (pos + length - (pos + (digitsAt data pos).length + 6))

/-- The walk goes from one record to what follows it. -/
def Hops (w : Nat) (data beyond : List UInt8) (pos next : Nat) : Prop :=
  ∃ length, Record w data pos length ∧ ¬ SizeKeyAt w data beyond pos length ∧
    next = pos + length

/-- The offsets at which the walk looks for a record. -/
def Visits (w : Nat) (data beyond : List UInt8) : Nat → Prop :=
  ReflTransGen (Hops w data beyond) 0

section Walk

variable {w : Nat} {data beyond : List UInt8} {pos length : Nat}

theorem Record.pos_lt (h : Record w data pos length) : pos < data.length := by
  have := h.positive
  have := h.fits
  omega

/-- The digit loop reads digits until the number exceeds the data. -/
theorem recordLength_spec (w len : Nat) (rest : List UInt8) (v k : Nat) :
    ∃ n, n ≤ (rest.takeWhile (isDigitOf 10)).length ∧
      recordLength w len rest (v % 2 ^ w) k =
        (accumulate 10 v (((rest.takeWhile (isDigitOf 10)).take n).map digitValue) % 2 ^ w,
          k + n) ∧
      (n = (rest.takeWhile (isDigitOf 10)).length ∨ len <
        accumulate 10 v (((rest.takeWhile (isDigitOf 10)).take n).map digitValue) % 2 ^ w) ∧
      ∀ j < n,
        accumulate 10 v (((rest.takeWhile (isDigitOf 10)).take j).map digitValue) % 2 ^ w ≤
          len := by
  induction rest generalizing v k with
  | nil => exact ⟨0, Nat.le_refl 0, rfl, .inl rfl, fun j hj => absurd hj (Nat.not_lt_zero j)⟩
  | cons c rest ih =>
      cases hc : isDigitOf 10 c with
      | false => exact ⟨0, by simp [recordLength, hc]⟩
      | true =>
          rw [List.takeWhile_cons_of_pos hc]
          by_cases hguard : v % 2 ^ w ≤ len
          · have hword : (v % 2 ^ w * 10 + digitValue c) % 2 ^ w =
                (v * 10 + digitValue c) % 2 ^ w := by
              rw [Nat.add_mod, Nat.mod_mul_mod, ← Nat.add_mod]
            obtain ⟨n, hn, heq, hstop, hreads⟩ := ih (v * 10 + digitValue c) (k + 1)
            refine ⟨n + 1, Nat.succ_le_succ hn, ?_, ?_, ?_⟩
            · simp only [recordLength, hc, hguard, decide_true, Bool.and_self, if_true, hword, heq,
                List.take_succ_cons, List.map_cons, accumulate_cons]
              congr 1
              omega
            · rw [List.length_cons, Nat.succ_inj, List.take_succ_cons, List.map_cons,
                accumulate_cons]
              exact hstop
            · intro j hj
              cases j with
              | zero => exact hguard
              | succ j =>
                  rw [List.take_succ_cons, List.map_cons, accumulate_cons]
                  exact hreads j (Nat.lt_of_succ_lt_succ hj)
          · refine ⟨0, Nat.zero_le _, ?_, ?_, ?_⟩
            · simp [recordLength, hc, hguard]
            · exact .inr (Nat.not_le.mp hguard)
            · exact fun j hj => absurd hj (Nat.not_lt_zero j)

theorem recordLength_at (w : Nat) (data : List UInt8) (pos : Nat) :
    ∃ n, n ≤ (digitsAt data pos).length ∧
      recordLength w data.length (data.drop pos) 0 0 =
        (digitsValue 10 ((digitsAt data pos).take n) % 2 ^ w, n) ∧
      (n = (digitsAt data pos).length ∨
        data.length < digitsValue 10 ((digitsAt data pos).take n) % 2 ^ w) ∧
      ∀ j < n, digitsValue 10 ((digitsAt data pos).take j) % 2 ^ w ≤ data.length := by
  have hspec := recordLength_spec w data.length (data.drop pos) 0 0
  simp only [Nat.zero_mod, Nat.zero_add, ← digitsValue_eq] at hspec
  exact hspec

/-- What the loop accepts is a record, all of whose digits it has read. -/
theorem record_of_accepted {digits : Nat}
    (h : recordLength w data.length (data.drop pos) 0 0 = (length, digits))
    (hpos : 0 < length) (hfits : length ≤ data.length - pos) :
    Record w data pos length ∧ digits = (digitsAt data pos).length := by
  obtain ⟨n, hn, heq, hstop, hreads⟩ := recordLength_at w data pos
  rw [h, Prod.mk.injEq] at heq
  obtain ⟨hvalue, rfl⟩ := heq
  have hall : digits = (digitsAt data pos).length := by
    cases hstop with
    | inl heq => exact heq
    | inr hlarge => omega
  subst hall
  rw [List.take_of_length_le (Nat.le_refl _)] at hvalue
  exact ⟨⟨hvalue, hreads, hpos, hfits⟩, rfl⟩

theorem Record.recordLength_eq (h : Record w data pos length) :
    recordLength w data.length (data.drop pos) 0 0 = (length, (digitsAt data pos).length) := by
  obtain ⟨n, hn, heq, hstop, hreads⟩ := recordLength_at w data pos
  have hall : n = (digitsAt data pos).length := by
    cases hstop with
    | inl heq => exact heq
    | inr hlarge =>
        refine (Nat.eq_or_lt_of_le hn).resolve_right ?_
        intro hlt
        exact absurd hlarge (Nat.not_lt.mpr (h.reads n hlt))
  rw [heq, hall, List.take_of_length_le (Nat.le_refl _), h.value]

theorem Record.unique {length' : Nat} (h : Record w data pos length)
    (h' : Record w data pos length') : length = length' := by
  rw [h.value, h'.value]

/-- A round at a record: the walk stops there or moves behind it. -/
theorem paxRecords_record (h : Record w data pos length) (fuel : Nat) :
    (SizeKeyAt w data beyond pos length → paxRecords w data beyond (fuel + 1) pos =
      recordValue (valueText data pos length) 0) ∧
    (¬ SizeKeyAt w data beyond pos length → paxRecords w data beyond (fuel + 1) pos =
      paxRecords w data beyond fuel (pos + length)) := by
  have haccepted : ¬ (length = 0 ∨ data.length - pos < length) := by
    have := h.positive
    have := h.fits
    omega
  constructor
  · intro hkey
    simp only [paxRecords, h.recordLength_eq, if_pos h.pos_lt, if_neg haccepted]
    exact if_pos hkey
  · intro hkey
    simp only [paxRecords, h.recordLength_eq, if_pos h.pos_lt, if_neg haccepted]
    exact if_neg hkey

/-- Without a record the loop gives up. -/
theorem paxRecords_no_record (h : ∀ length, ¬ Record w data pos length) (fuel : Nat) :
    paxRecords w data beyond fuel pos = UINT64_MAX := by
  cases fuel with
  | zero => rfl
  | succ fuel =>
      cases hlen : recordLength w data.length (data.drop pos) 0 0 with
      | mk length digits =>
          simp only [paxRecords, hlen]
          by_cases hbad : length = 0 ∨ data.length - pos < length
          · rw [if_pos hbad, ite_self]
          · rw [not_or, Nat.not_lt] at hbad
            exact absurd (record_of_accepted hlen (Nat.pos_of_ne_zero hbad.1) hbad.2).1
              (h length)

theorem Hops.unique {next next' : Nat} (h : Hops w data beyond pos next)
    (h' : Hops w data beyond pos next') : next = next' := by
  obtain ⟨length, hrecord, -, rfl⟩ := h
  obtain ⟨length', hrecord', -, rfl⟩ := h'
  rw [hrecord.unique hrecord']

/-- The walk does not go on from a record that it takes for the `size` record. -/
theorem SizeKeyAt.stuck (h : SizeKeyAt w data beyond pos length)
    (hrecord : Record w data pos length) {stop : Nat}
    (hwalk : ReflTransGen (Hops w data beyond) pos stop) : stop = pos := by
  cases hwalk.cases_head with
  | inl heq => exact heq.symm
  | inr hmove =>
      obtain ⟨next, ⟨length', hrecord', hkey, -⟩, -⟩ := hmove
      rw [hrecord.unique hrecord'] at h
      exact absurd h hkey

/-- There is one record at most that the walk takes for the `size` record. -/
theorem walk_unique {a b la lb : Nat} (ha : ReflTransGen (Hops w data beyond) pos a)
    (hra : Record w data a la) (hka : SizeKeyAt w data beyond a la)
    (hb : ReflTransGen (Hops w data beyond) pos b) (hrb : Record w data b lb)
    (hkb : SizeKeyAt w data beyond b lb) : a = b ∧ la = lb := by
  have hsame : a = b := by
    have hright : Relator.RightUnique (Hops w data beyond) := fun _ _ _ h h' => h.unique h'
    cases ReflTransGen.total_of_right_unique hright ha hb with
    | inl hab => exact (hka.stuck hra hab).symm
    | inr hba => exact hkb.stuck hrb hba
  subst hsame
  exact ⟨rfl, hra.unique hrb⟩

/-- What the loop returns from `pos` on, given rounds enough. -/
theorem paxRecords_walk (fuel pos : Nat) (hfuel : data.length ≤ pos + fuel) :
    (∃ stop length, ReflTransGen (Hops w data beyond) pos stop ∧ Record w data stop length ∧
      SizeKeyAt w data beyond stop length ∧
      paxRecords w data beyond fuel pos = recordValue (valueText data stop length) 0) ∨
    (∀ stop length, ReflTransGen (Hops w data beyond) pos stop → Record w data stop length →
      ¬ SizeKeyAt w data beyond stop length) ∧
      paxRecords w data beyond fuel pos = UINT64_MAX := by
  induction fuel generalizing pos with
  | zero =>
      refine .inr ⟨?_, rfl⟩
      intro stop length hwalk hrecord _
      have hlt := hrecord.pos_lt
      cases hwalk.cases_head with
      | inl heq => omega
      | inr hmove =>
          obtain ⟨next, ⟨length', hrecord', -, -⟩, -⟩ := hmove
          have := hrecord'.pos_lt
          omega
  | succ fuel ih =>
      by_cases hsome : ∃ length, Record w data pos length
      · obtain ⟨length, hrecord⟩ := hsome
        obtain ⟨htaken, hhop⟩ := @paxRecords_record w data beyond pos length hrecord fuel
        by_cases hkey : SizeKeyAt w data beyond pos length
        · exact .inl ⟨pos, length, .refl, hrecord, hkey, htaken hkey⟩
        · have hstep : Hops w data beyond pos (pos + length) := ⟨length, hrecord, hkey, rfl⟩
          have hpositive := hrecord.positive
          rw [hhop hkey]
          cases ih (pos + length) (by omega) with
          | inl hfound =>
              obtain ⟨stop, found, hwalk, hrest⟩ := hfound
              exact .inl ⟨stop, found, .head hstep hwalk, hrest⟩
          | inr hnone =>
              refine .inr ⟨?_, hnone.2⟩
              intro stop found hwalk hfound
              cases hwalk.cases_head with
              | inl heq =>
                  subst heq
                  rw [← hrecord.unique hfound]
                  exact hkey
              | inr hmove =>
                  obtain ⟨next, hnext, hrest⟩ := hmove
                  rw [hnext.unique hstep] at hrest
                  exact hnone.1 stop found hrest hfound
      · rw [not_exists] at hsome
        refine .inr ⟨?_, paxRecords_no_record hsome _⟩
        intro stop length hwalk hrecord _
        cases hwalk.cases_head with
        | inl heq =>
            subst heq
            exact hsome length hrecord
        | inr hmove =>
            obtain ⟨next, ⟨length', hrecord', -, -⟩, -⟩ := hmove
            exact hsome length' hrecord'

end Walk

end T2sz
