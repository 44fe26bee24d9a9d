import T2sz.Pledges

/-!
The sums of the streaming path.

The guard on the size of an entry leaves room for its header and its padding. The
size of an element has what is held for it on top, up to 64 KiB that the guard does
not know of.
-/

namespace T2sz

open Iteration

set_option maxRecDepth 4000

/-- The left side of the test whether an entry fits in `held`. -/
def holdSize (fileSize : Nat) : Nat := (512 + paddedSize 64 fileSize) % 2 ^ 64

/-- The `size` of an element whose last entry has this size. -/
def elementSize (heldLen fileSize : Nat) : Nat :=
  (heldLen + 512 + paddedSize 64 fileSize) % 2 ^ 64

/-- The `fileSize` that the loop reads in this state. -/
def fileSizeAt (stream : Stream) (s : StdinState) : Nat :=
  (tarEntrySize (headerAt stream.bytes s.pos) s.paxNextSize).1

/-- The size of the element is computed: its last entry is not held back, and has no
extension blocks. -/
def ElementSized (stream : Stream) (s : StdinState) : Prop :=
  joinsNextEntry (headerAt stream.bytes s.pos) = false ∧
    hasSparseExtension (headerAt stream.bytes s.pos) = false

/-- A state in which the loop takes a header whose size passes the guard. -/
structure StreamHeaderReached (ctx : Context) (after : Nat → List UInt8) (stream : Stream)
    (s : StdinState) : Prop where
  reached : Reached (stdinStep ctx after stream) .init s
  room : s.pos + 512 ≤ stream.bytes.length
  entry : isZeroTarBlock (blockAt stream.bytes s.pos) = false
  valid : isTarHeader (headerAt stream.bytes s.pos) = true
  size_le : fileSizeAt stream s ≤ UINT64_MAX - 1024

/-- The sums are exact. What is held is what a null run in front of the header leaves. -/
structure ExactStreamSums (ctx : Context) (stream : Stream) (s : StdinState) : Prop where
  padded : paddedSize 64 (fileSizeAt stream s) = roundUp (fileSizeAt stream s)
  hold : holdSize (fileSizeAt stream s) = 512 + roundUp (fileSizeAt stream s)
  element : ElementSized stream s →
    elementSize (headerState ctx s).held.length (fileSizeAt stream s) =
      (headerState ctx s).held.length + 512 + roundUp (fileSizeAt stream s)

/-- The margin of the guard, with what is held counted. -/
def WithinMargin (ctx : Context) (stream : Stream) (s : StdinState) : Prop :=
  ElementSized stream s →
    (headerState ctx s).held.length + fileSizeAt stream s ≤ UINT64_MAX - 1023

section Sums

variable {ctx : Context} {after : Nat → List UInt8} {stream : Stream} {s : StdinState}

theorem elementSize_eq_iff {heldLen fileSize : Nat} (hheld : heldLen % 512 = 0)
    (h : fileSize ≤ UINT64_MAX - 1024) :
    elementSize heldLen fileSize = heldLen + 512 + roundUp fileSize ↔
      heldLen + fileSize ≤ UINT64_MAX - 1023 := by
  have hfits := @roundUp_add_lt_iff 64 fileSize heldLen (by decide) hheld
  have hpadded := (padded_of_guard h).1
  have hmod : (heldLen + 512 + roundUp fileSize) % 2 ^ 64 < 2 ^ 64 := Nat.mod_lt _ (by decide)
  rw [elementSize, hpadded]
  simp only [UINT64_MAX]
  constructor
  · intro hexact
    omega
  · intro hmargin
    exact Nat.mod_eq_of_lt (by omega)

/-- What is held in front of a header is whole blocks. -/
theorem reached_held (h : Reached (stdinStep ctx after stream) .init s) :
    HeldFits (headerState ctx s).held := by
  have hheld := (stdinStep_in_bounds ctx (fun _ => 0) after h).1
  rw [headerState]
  split
  · exact ⟨rfl, Nat.zero_le _⟩
  · exact hheld

/-- With nothing held the guard is enough. -/
theorem withinMargin_nothing_held (hsize : fileSizeAt stream s ≤ UINT64_MAX - 1024)
    (hnone : (headerState ctx s).held = []) : WithinMargin ctx stream s := by
  intro _
  rw [hnone, List.length_nil]
  omega

end Sums

/-- In every state in which `compressStdinTar` takes a header that passes the guard, the
sums are exact when the margin covers what is held, and only then. -/
theorem exactStreamSums_iff {ctx : Context} {after : Nat → List UInt8} {stream : Stream}
    {s : StdinState} (h : StreamHeaderReached ctx after stream s) :
    ExactStreamSums ctx stream s ↔ WithinMargin ctx stream s := by
  have hheld := (reached_held h.reached).blocks
  obtain ⟨hpadded, hsmall⟩ := padded_of_guard h.size_le
  constructor
  · intro hexact hsized
    exact (elementSize_eq_iff hheld h.size_le).mp (hexact.element hsized)
  · intro hmargin
    refine ⟨hpadded, ?_, ?_⟩
    · rw [holdSize, hpadded, Nat.mod_eq_of_lt hsmall]
    · intro hsized
      exact (elementSize_eq_iff hheld h.size_le).mpr (hmargin hsized)

/-- The file with the pax header, when that is held. -/
theorem exactStreamSums_iff_sample :
    ∃ s, StreamHeaderReached sampleContext.clamp (fun _ => []) ⟨sampleArchive.bytes, false⟩ s ∧
      (headerState sampleContext.clamp s).held.length = 1024 ∧
      ElementSized ⟨sampleArchive.bytes, false⟩ s ∧
      ExactStreamSums sampleContext.clamp ⟨sampleArchive.bytes, false⟩ s := by
  obtain ⟨s, hs, ⟨hroom, hentry, hvalid, hsize⟩, hheld, hsized, hmargin⟩ :
      ∃ s, follow (stdinStep sampleContext.clamp (fun _ => []) ⟨sampleArchive.bytes, false⟩) 1
          .init = some s ∧
        (s.pos + 512 ≤ sampleArchive.bytes.length ∧
          isZeroTarBlock (blockAt sampleArchive.bytes s.pos) = false ∧
          isTarHeader (headerAt sampleArchive.bytes s.pos) = true ∧
          fileSizeAt ⟨sampleArchive.bytes, false⟩ s ≤ UINT64_MAX - 1024) ∧
        (headerState sampleContext.clamp s).held.length = 1024 ∧
        (joinsNextEntry (headerAt sampleArchive.bytes s.pos) = false ∧
          hasSparseExtension (headerAt sampleArchive.bytes s.pos) = false) ∧
        (headerState sampleContext.clamp s).held.length +
          fileSizeAt ⟨sampleArchive.bytes, false⟩ s ≤ UINT64_MAX - 1023 := by
    decide +kernel
  have hreached : StreamHeaderReached sampleContext.clamp (fun _ => [])
      ⟨sampleArchive.bytes, false⟩ s := ⟨reached_of_follow hs, hroom, hentry, hvalid, hsize⟩
  exact ⟨s, hreached, hheld, hsized, (exactStreamSums_iff hreached).mpr fun _ => hmargin⟩

/-- A regular file of the largest size that passes the guard. -/
def largestHeader : TarHeader :=
  .ofFields ([0x80, 0, 0, 0] ++ List.replicate 6 0xff ++ [0xfb, 0xff])
    [0x30, 0x30, 0x34, 0x36, 0x34, 0x34, 0, 0x20] 0x30 rfl rfl

/-- A long name in front of that file. -/
def largestStream : Stream := ⟨longNameHeader.bytes ++ largestHeader.bytes, false⟩

/-- The 512 bytes of the long name are held, and the element is pledged as nothing. -/
theorem largestStream_wraps :
    StreamHeaderReached newContext.clamp (fun _ => []) largestStream
      (nullsState 0 [.entry 0 512 true UINT64_MAX]) ∧
    fileSizeAt largestStream (nullsState 0 [.entry 0 512 true UINT64_MAX]) = UINT64_MAX - 1024 ∧
    elementSize longNameHeader.bytes.length (UINT64_MAX - 1024) = 0 ∧
    (startElementFrame newContext.clamp 0 ⟨0, false, []⟩).openFrame = some ⟨some 0, []⟩ ∧
    ¬ ExactStreamSums newContext.clamp largestStream
      (nullsState 0 [.entry 0 512 true UINT64_MAX]) := by
  have hheld : longNameHeader.bytes.length = 512 := longNameHeader.size_eq
  have hpos : (nullsState 0 [.entry 0 512 true UINT64_MAX]).pos = 512 := rfl
  have hheader : headerAt largestStream.bytes 512 = largestHeader := by decide +kernel
  have hsize : fileSizeAt largestStream (nullsState 0 [.entry 0 512 true UINT64_MAX]) =
      UINT64_MAX - 1024 := by
    rw [fileSizeAt, hpos, hheader]
    decide +kernel
  have hzero : elementSize longNameHeader.bytes.length (UINT64_MAX - 1024) = 0 := by
    rw [hheld]
    decide
  refine ⟨?_, hsize, hzero, rfl, ?_⟩
  · have hfirst := longNameHeader_held newContext.clamp (fun _ => []) largestHeader.bytes
    refine ⟨.single hfirst, ?_, ?_, ?_, Nat.le_of_eq hsize⟩
    · rw [hpos, largestStream, List.length_append, hheld, largestHeader.size_eq]
    · rw [hpos]
      decide +kernel
    · rw [hpos, hheader]
      decide +kernel
  · intro hexact
    have hsized : ElementSized largestStream (nullsState 0 [.entry 0 512 true UINT64_MAX]) := by
      rw [ElementSized, hpos, hheader]
      decide +kernel
    have hstate : headerState newContext.clamp (nullsState 0 [.entry 0 512 true UINT64_MAX]) =
        nullsState 0 [.entry 0 512 true UINT64_MAX] := if_neg fun hne => hne rfl
    have helement := hexact.element hsized
    rw [hsize, hstate, nullsState, hzero] at helement
    omega

end T2sz
