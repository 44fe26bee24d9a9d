import Mathlib.Logic.Relation
import T2sz.Element
import T2sz.Library.Iteration
import T2sz.Pax

/-!
The tar archive as a sequence of elements, over exact integers.

`recognise` is the entry at an offset: a header, the number of its extension
blocks, its padded payload, all of it inside the input. `scanStep` walks from
one element to the next. Nothing here knows about blocks, frames, buffers or
word sizes; the one thing the two input paths do differently, which size they
carry past an extended header, is a parameter. Both parsers are shown to be this
walk, so that what holds of the walk holds of both.
-/

namespace T2sz

open Iteration

def roundUp (size : Nat) : Nat := (size + 511) / 512 * 512

/-- The bytes of the extension blocks from `pos` on, if they are all there. -/
def extensionBytes (input : List UInt8) : Nat → Nat → Option Nat
  | 0, _ => none
  | fuel + 1, pos =>
      if input.length < pos + 512 then none
      else if input.getD (pos + 504) 0 ≠ 0 then
        (extensionBytes input fuel (pos + 512)).map (512 + ·)
      else some 512

structure Entry where
  header : TarHeader
  size : Nat
  /-- What `tarEntrySize` leaves of the carried size. -/
  paxNextSize : Nat
  extensions : Nat
  deriving DecidableEq

def Entry.length (e : Entry) : Nat := 512 + e.extensions + roundUp e.size

def sparseBytes (input : List UInt8) (idx : Nat) (header : TarHeader) : Option Nat :=
  if hasSparseExtension header then extensionBytes input (input.length + 1) (idx + 512)
  else some 0

/-- The entry at `idx`, if there is a complete one. -/
def recognise (input : List UInt8) (idx paxNextSize : Nat) : Option Entry :=
  let header := headerAt input idx
  if isTarHeader header then
    let (size, pax) := tarEntrySize header paxNextSize
    (sparseBytes input idx header).bind fun extensions =>
      let e := Entry.mk header size pax extensions
      if idx + e.length ≤ input.length then some e else none
  else none

/-- Where the walk is, what it carries and what it saw. `held` is how much the
streaming path keeps back here. -/
structure Cursor where
  idx : Nat
  paxNextSize : Nat
  held : Nat
  log : List Element
  deriving DecidableEq

def Cursor.init : Cursor := ⟨0, UINT64_MAX, 0, []⟩

@[simp] theorem Cursor.init_idx : Cursor.init.idx = 0 := rfl

/-- Whether the streaming path holds an entry back for the next one. -/
def holds (held : Nat) (e : Entry) : Bool :=
  joinsNextEntry e.header && !hasSparseExtension e.header && 512 + roundUp e.size + held ≤ 64 * 1024

/-- The size carried past an entry. -/
abbrev PaxRule := Cursor → Entry → Nat

def Cursor.pastNull (c : Cursor) : Cursor where
  idx := c.idx + 512
  paxNextSize := c.paxNextSize
  held := 0
  log := c.log ++ [.null c.idx]

def Cursor.pastEntry (rule : PaxRule) (c : Cursor) (e : Entry) : Cursor where
  idx := c.idx + e.length
  paxNextSize := rule c e
  held := if holds c.held e then c.held + 512 + roundUp e.size else 0
  log := c.log ++ [.entry c.idx e.length (joinsNextEntry e.header) (rule c e)]

@[simp] theorem Cursor.pastEntry_idx (c : Cursor) (rule : PaxRule) (e : Entry) :
    (c.pastEntry rule e).idx = c.idx + e.length := rfl

@[simp] theorem Cursor.pastEntry_paxNextSize (c : Cursor) (rule : PaxRule) (e : Entry) :
    (c.pastEntry rule e).paxNextSize = rule c e := rfl

@[simp] theorem Cursor.init_log : Cursor.init.log = [] := rfl

@[simp] theorem Cursor.pastEntry_log (c : Cursor) (rule : PaxRule) (e : Entry) :
    (c.pastEntry rule e).log =
      c.log ++ [.entry c.idx e.length (joinsNextEntry e.header) (rule c e)] := rfl

/-- The cursor past the element at the cursor, if there is a complete one. -/
def nextCursor (rule : PaxRule) (input : List UInt8) (c : Cursor) : Option Cursor :=
  if input.length < c.idx + 512 then none
  else if isZeroTarBlock (blockAt input c.idx) then some c.pastNull
  else (recognise input c.idx c.paxNextSize).map (c.pastEntry rule)

/-- An archive ends where an element ends, and has at least one. -/
def scanStep (rule : PaxRule) (input : List UInt8) (c : Cursor) : Step Cursor Unit :=
  if c.idx = input.length ∧ c.log ≠ [] then .done c
  else
    match nextCursor rule input c with
    | none => .exit () c
    | some next => .next next

section Recognise

variable {input : List UInt8} {idx pax : Nat} {e : Entry}

theorem roundUp_mod (size : Nat) : roundUp size % 512 = 0 := by
  simp [roundUp]

theorem le_roundUp (size : Nat) : size ≤ roundUp size := by
  simp only [roundUp]
  omega

theorem roundUp_lt (size : Nat) : roundUp size < size + 512 := by
  simp only [roundUp]
  omega

/-- Blocks, a header and a rounded size fit in a word if that has room for rounding. -/
theorem roundUp_add_lt_iff {w size blocks : Nat} (hw : 9 ≤ w) (hblocks : blocks % 512 = 0) :
    roundUp size + 512 + blocks < 2 ^ w ↔ size + blocks + 1024 ≤ 2 ^ w := by
  have hround := roundUp_mod size
  have hle := le_roundUp size
  have hlt := roundUp_lt size
  obtain ⟨k, hk⟩ : 2 ^ 9 ∣ 2 ^ w := Nat.pow_dvd_pow 2 hw
  omega

/-- The rounding of the source, in a word that has room for it. -/
theorem paddedSize_eq {w size : Nat} (h : size + 512 ≤ 2 ^ w) :
    paddedSize w size = roundUp size := by
  have hmod : size % 2 ^ w = size := Nat.mod_eq_of_lt (by omega)
  simp only [paddedSize, hmod, roundUp]
  split
  · rw [uadd_eq (by omega)]
    omega
  · omega

theorem extensionBytes_le {fuel pos extra : Nat} (h : extensionBytes input fuel pos = some extra) :
    pos + extra ≤ input.length := by
  induction fuel generalizing pos extra with
  | zero => simp [extensionBytes] at h
  | succ fuel ih =>
      simp only [extensionBytes] at h
      split at h
      · cases h
      · split at h
        · rw [Option.map_eq_some_iff] at h
          obtain ⟨rest, hrest, rfl⟩ := h
          have := ih hrest
          omega
        · cases h
          omega

/-- What `recognise` has checked when it finds an entry. -/
theorem recognise_spec (h : recognise input idx pax = some e) :
    e.header = headerAt input idx ∧ isTarHeader e.header = true ∧
      (e.size, e.paxNextSize) = tarEntrySize e.header pax ∧
      sparseBytes input idx e.header = some e.extensions ∧ idx + e.length ≤ input.length := by
  simp only [recognise] at h
  split at h
  case isTrue hvalid =>
    rw [Option.bind_eq_some_iff] at h
    obtain ⟨extra, hextra, h⟩ := h
    split at h
    case isTrue hfits =>
      cases h
      exact ⟨rfl, hvalid, rfl, hextra, hfits⟩
    case isFalse => cases h
  case isFalse => cases h

/-- A valid header is no entry when what it describes is not all there. -/
theorem recognise_eq_none_iff {size pax' : Nat} (hvalid : isTarHeader (headerAt input idx) = true)
    (hsize : tarEntrySize (headerAt input idx) pax = (size, pax')) :
    recognise input idx pax = none ↔
      ∀ extensions, sparseBytes input idx (headerAt input idx) = some extensions →
        input.length < idx + (512 + extensions + roundUp size) := by
  simp only [recognise, hvalid, if_true, hsize, Option.bind_eq_none_iff, Entry.length,
    ite_eq_right_iff, reduceCtorEq, imp_false, Nat.not_le]

theorem recognise_length_pos : 512 ≤ e.length := by
  simp only [Entry.length]
  omega

end Recognise

section Walk

variable {rule : PaxRule} {input : List UInt8} {c d : Cursor}

/-- The element the cursor moves past. -/
theorem nextCursor_cases (h : nextCursor rule input c = some d) :
    c.idx + 512 ≤ input.length ∧
      ((isZeroTarBlock (blockAt input c.idx) = true ∧ d = c.pastNull) ∨
        (isZeroTarBlock (blockAt input c.idx) = false ∧
          ∃ e, recognise input c.idx c.paxNextSize = some e ∧ d = c.pastEntry rule e)) := by
  simp only [nextCursor] at h
  split at h
  case isTrue => cases h
  case isFalse hroom =>
    refine ⟨by omega, ?_⟩
    split at h
    case isTrue hzero =>
      cases h
      exact .inl ⟨hzero, rfl⟩
    case isFalse hzero =>
      rw [Option.map_eq_some_iff] at h
      obtain ⟨e, he, rfl⟩ := h
      exact .inr ⟨by simpa using hzero, e, he, rfl⟩

/-- Each element is logged where it starts and takes at least a block. -/
theorem nextCursor_log (h : nextCursor rule input c = some d) :
    ∃ e : Element, d.log = c.log ++ [e] ∧ e.offset = c.idx ∧ d.idx = e.stop ∧
      512 ≤ e.length ∧ d.idx ≤ input.length := by
  obtain ⟨hroom, ⟨_, rfl⟩ | ⟨_, e, he, rfl⟩⟩ := nextCursor_cases h
  · exact ⟨.null c.idx, rfl, rfl, rfl, Nat.le_refl _, hroom⟩
  · exact ⟨_, rfl, rfl, rfl, recognise_length_pos, (recognise_spec he).2.2.2.2⟩

theorem scanStep_next (h : scanStep rule input c = .next d) :
    nextCursor rule input c = some d := by
  simp only [scanStep] at h
  split at h
  · cases h
  · split at h
    · cases h
    · cases h
      assumption

theorem scanStep_exit {e : Unit} (h : scanStep rule input c = .exit e d) :
    nextCursor rule input c = none ∧ d = c := by
  simp only [scanStep] at h
  split at h
  · cases h
  · split at h
    · cases h
      exact ⟨by assumption, rfl⟩
    · cases h

theorem scanStep_done (h : scanStep rule input c = .done d) :
    c.idx = input.length ∧ c.log ≠ [] ∧ d = c := by
  simp only [scanStep] at h
  split at h
  case isTrue hend =>
    cases h
    exact ⟨hend.1, hend.2, rfl⟩
  case isFalse => split at h <;> cases h

theorem nextCursor_at_end (h : c.idx = input.length) : nextCursor rule input c = none := by
  simp [nextCursor, h]

theorem scanStep_of_next (h : nextCursor rule input c = some d) :
    scanStep rule input c = .next d := by
  have hidx : ¬ (c.idx = input.length ∧ c.log ≠ []) := by
    rintro ⟨hend, _⟩
    rw [nextCursor_at_end hend] at h
    cases h
  simp only [scanStep, if_neg hidx, h]

theorem scanStep_of_stuck (h : nextCursor rule input c = none)
    (hc : c.idx ≠ input.length ∨ c.log = []) : scanStep rule input c = .exit () c := by
  have hidx : ¬ (c.idx = input.length ∧ c.log ≠ []) := by
    rintro ⟨hend, hlog⟩
    exact hc.elim (fun hne => hne hend) hlog
  simp only [scanStep, if_neg hidx, h]

theorem scanStep_of_end (h : c.idx = input.length) (hlog : c.log ≠ []) :
    scanStep rule input c = .done c := by
  simp [scanStep, h, hlog]

theorem nextCursor_idx_le (h : nextCursor rule input c = some d) :
    c.idx + 512 ≤ d.idx ∧ d.idx ≤ input.length := by
  obtain ⟨e, _, hoff, hidx, hlen, hle⟩ := nextCursor_log h
  simp only [Element.stop] at hidx
  omega

/-- Every walk ends. -/
theorem scan_runs (rule : PaxRule) (input : List UInt8) {c : Cursor}
    (hc : c.idx ≤ input.length) : ∃ r, Runs (scanStep rule input) c r := by
  have hbounded : ∃ r, iterate (scanStep rule input) (input.length - c.idx + 1) c = some r := by
    refine exists_iterate_of_measure (fun c : Cursor => c.idx ≤ input.length)
      (fun c : Cursor => input.length - c.idx) ?_ ?_ hc (Nat.lt_succ_self _)
    · intro s t _ h
      exact (nextCursor_idx_le (scanStep_next h)).2
    · intro s t _ h
      have := nextCursor_idx_le (scanStep_next h)
      omega
  obtain ⟨r, hr⟩ := hbounded
  exact ⟨r, runs_of_iterate hr⟩

/-- The walk gets from one cursor to another. -/
def Reaches (rule : PaxRule) (input : List UInt8) : Cursor → Cursor → Prop :=
  Relation.ReflTransGen fun c d => nextCursor rule input c = some d

theorem Reaches.runs (h : Reaches rule input c d) {r : Result Cursor Unit}
    (hr : Runs (scanStep rule input) d r) : Runs (scanStep rule input) c r := by
  induction h using Relation.ReflTransGen.head_induction_on with
  | refl => exact hr
  | head hnext _ ih => exact .next (scanStep_of_next hnext) ih

theorem Reaches.runs_from (h : Reaches rule input c d) {r : Result Cursor Unit}
    (hr : Runs (scanStep rule input) c r) : Runs (scanStep rule input) d r := by
  induction h with
  | refl => exact hr
  | tail _ hnext ih => exact ih.of_next (scanStep_of_next hnext)

/-- What a walk adds to the log ends behind where it started. -/
theorem scan_log {c : Cursor} {r : Result Cursor Unit} (h : Runs (scanStep rule input) c r) :
    ∃ rest, r.state.log = c.log ++ rest ∧ ∀ e ∈ rest, c.idx < e.stop := by
  induction h with
  | done h =>
      obtain ⟨-, -, rfl⟩ := scanStep_done h
      exact ⟨[], by simp, by simp⟩
  | exit h =>
      obtain ⟨-, rfl⟩ := scanStep_exit h
      exact ⟨[], by simp, by simp⟩
  | next h _ ih =>
      obtain ⟨rest, hrest, hstops⟩ := ih
      have hmove := nextCursor_idx_le (scanStep_next h)
      obtain ⟨e, hlog, -, hidx, -, -⟩ := nextCursor_log (scanStep_next h)
      refine ⟨e :: rest, ?_, ?_⟩
      · rw [hrest, hlog, List.append_assoc, List.singleton_append]
      · intro e' he'
        cases he' with
        | head => omega
        | tail _ hmem =>
            have := hstops e' hmem
            omega

/-- No element is shorter than a block. -/
theorem scan_lengths {r : Result Cursor Unit} (h : Runs (scanStep rule input) .init r) :
    ∀ e ∈ r.state.log, 512 ≤ e.length := by
  have hkeeps : ∀ c d : Cursor, (∀ e ∈ c.log, 512 ≤ e.length) →
      scanStep rule input c = .next d → ∀ e ∈ d.log, 512 ≤ e.length := by
    intro c d hc hnext
    obtain ⟨e, hlog, -, -, hlength, -⟩ := nextCursor_log (scanStep_next hnext)
    rw [hlog, List.forall_mem_append, List.forall_mem_singleton]
    exact ⟨hc, hlength⟩
  obtain ⟨c, hc, hend⟩ := h.invariant hkeeps (by simp)
  cases r with
  | returned d =>
      obtain ⟨-, -, rfl⟩ := scanStep_done hend
      exact hc
  | exited e d =>
      obtain ⟨-, rfl⟩ := scanStep_exit hend
      exact hc

end Walk

end T2sz
