import T2sz.Libc

/-!
The frames of the streaming paths.

The framing code never looks at a compressed byte: what it does is fixed by the
calls it makes. The model keeps these calls, in order, and a `Session` reads
them as libzstd does: a reset starts a frame, input goes into the frame that is
open, `ZSTD_e_end` closes it. What a call writes and how many calls libzstd
needs for it is the matter of `T2sz.Zstd`.
-/

namespace T2sz

/-- The settings the framing code reads. `sizeBits` is the width of `size_t`. -/
structure Context where
  sizeBits : Nat
  minBlockSize : Nat
  maxBlockSize : Nat
  rawMode : Bool
  bits : sizeBits = 32 ∨ sizeBits = 64
  min_lt : minBlockSize < 2 ^ sizeBits
  max_lt : maxBlockSize < 2 ^ sizeBits

/-- The settings of a run without `-s`, `-S` and `-r`. -/
def newContext : Context where
  sizeBits := 64
  minBlockSize := 0
  maxBlockSize := 0
  rawMode := false
  bits := .inr rfl
  min_lt := by decide
  max_lt := by decide

def MAX_FRAME_SIZE : Nat := 0x7FFFFFFF

theorem Context.MAX_FRAME_SIZE_lt (ctx : Context) : MAX_FRAME_SIZE < 2 ^ ctx.sizeBits := by
  cases ctx.bits with
  | inl h =>
      rw [h]
      decide
  | inr h =>
      rw [h]
      decide

/-- The clamping at the start of `compressFile`. -/
def Context.clamp (ctx : Context) : Context where
  sizeBits := ctx.sizeBits
  minBlockSize := if MAX_FRAME_SIZE < ctx.minBlockSize then MAX_FRAME_SIZE else ctx.minBlockSize
  maxBlockSize :=
    if ctx.rawMode || ctx.maxBlockSize == 0 || MAX_FRAME_SIZE < ctx.maxBlockSize then
      MAX_FRAME_SIZE
    else ctx.maxBlockSize
  rawMode := ctx.rawMode
  bits := ctx.bits
  min_lt := by
    split
    · exact ctx.MAX_FRAME_SIZE_lt
    · exact ctx.min_lt
  max_lt := by
    split
    · exact ctx.MAX_FRAME_SIZE_lt
    · exact ctx.max_lt

/-- The sizes `parseArgs` lets through. -/
def Context.Accepted (ctx : Context) : Prop :=
  ctx.maxBlockSize ≠ 0 → ctx.minBlockSize ≤ ctx.maxBlockSize

/-- The sizes the loops run with. -/
structure Context.Effective (ctx : Context) : Prop where
  min_le_max : ctx.minBlockSize ≤ ctx.maxBlockSize
  one_le_max : 1 ≤ ctx.maxBlockSize

theorem Context.clamp_max_le (ctx : Context) :
    1 ≤ ctx.clamp.maxBlockSize ∧ ctx.clamp.maxBlockSize ≤ MAX_FRAME_SIZE := by
  simp only [Context.clamp]
  split
  · decide
  · simp_all
    omega

theorem Context.clamp_effective {ctx : Context} (h : ctx.Accepted) : ctx.clamp.Effective := by
  refine ⟨?_, ctx.clamp_max_le.1⟩
  simp only [Context.clamp]
  by_cases hmax : (ctx.rawMode || ctx.maxBlockSize == 0 ||
      decide (MAX_FRAME_SIZE < ctx.maxBlockSize)) = true
  · rw [if_pos hmax]
    split <;> omega
  · rw [if_neg hmax]
    simp only [Bool.or_eq_true, beq_iff_eq, decide_eq_true_eq, not_or] at hmax
    have := h hmax.1.2
    split <;> omega

def ZSTD_CONTENTSIZE_UNKNOWN : Nat := 2 ^ 64 - 1

inductive Call
  /-- `seekTableAdd(ctx, zstdCompressBufferToFrame(ctx, src, n), n)` -/
  | frame (src : List UInt8)
  /-- `zstdResetFrame` and `zstdSetPledged` -/
  | start (pledged : Option Nat)
  /-- `ZSTD_compressStream2(…, ZSTD_e_continue)` until all of `src` is consumed -/
  | push (src : List UInt8)
  /-- `seekTableAdd(ctx, frameOut + zstdEndFrame(ctx), frameIn)` -/
  | finish (frameIn : Nat)
  deriving DecidableEq

/-- The frame variables of `compressStdinTar` and `compressStdinRaw`. -/
structure Frames where
  frameIn : Nat
  frameOpen : Bool
  calls : List Call
  deriving DecidableEq

def startFrame (size : Nat) (f : Frames) : Frames where
  frameIn := 0
  frameOpen := true
  calls := f.calls ++ [.start (if size ≠ ZSTD_CONTENTSIZE_UNKNOWN then some size else none)]

def startElementFrame (ctx : Context) (size : Nat) (f : Frames) : Frames :=
  if ctx.minBlockSize ≠ 0 ∨ f.frameOpen then f
  else
    startFrame (if ctx.maxBlockSize ≠ 0 ∧ ctx.maxBlockSize < size then ctx.maxBlockSize else size) f

def endFrameAndRecord (f : Frames) : Frames :=
  if f.frameOpen then
    { f with frameOpen := false, calls := f.calls ++ [.finish f.frameIn] }
  else f

/-- The inner loop of `pushBytesTar` and the count after it. -/
def compressChunk (src : List UInt8) (f : Frames) : Frames :=
  { f with frameIn := f.frameIn + src.length, calls := f.calls ++ [.push src] }

/-- How much of the `n` bytes left the open frame takes. -/
def canWrite (ctx : Context) (n : Nat) (f : Frames) : Nat :=
  if ctx.maxBlockSize ≠ 0 then
    min n (usub ctx.sizeBits ctx.maxBlockSize (f.frameIn % 2 ^ ctx.sizeBits))
  else n

/-- The loop of `pushBytesTar`; every round takes at least one byte. -/
def pushBytesLoop (ctx : Context) : Nat → List UInt8 → Frames → Frames
  | 0, _, f => f
  | fuel + 1, src, f =>
      if src.isEmpty then f
      else
        let opened := if f.frameOpen then f else startFrame ZSTD_CONTENTSIZE_UNKNOWN f
        let n := canWrite ctx src.length opened
        let fed := compressChunk (src.take n) opened
        let closed :=
          if ctx.maxBlockSize ≠ 0 ∧ ctx.maxBlockSize ≤ fed.frameIn then endFrameAndRecord fed
          else fed
        pushBytesLoop ctx fuel (src.drop n) closed

def pushBytesTar (ctx : Context) (src : List UInt8) (f : Frames) : Frames :=
  pushBytesLoop ctx src.length src f

/-- A frame as libzstd sees it. -/
structure Frame where
  pledged : Option Nat
  content : List UInt8
  deriving DecidableEq

/-- The frames that were closed, and the one that is open. -/
structure Session where
  closed : List Frame
  opened : Option Frame
  deriving DecidableEq

namespace Session

def call (s : Session) : Call → Session
  | .frame src => ⟨s.closed ++ [⟨some src.length, src⟩], none⟩
  | .start pledged => ⟨s.closed, some ⟨pledged, []⟩⟩
  | .push src => ⟨s.closed, s.opened.map fun frame => ⟨frame.pledged, frame.content ++ src⟩⟩
  | .finish _ => ⟨s.closed ++ s.opened.toList, none⟩

/-- The input bytes that are in a frame, in the order of the frames. -/
def content (s : Session) : List UInt8 :=
  (s.closed.map Frame.content).flatten ++ (s.opened.map Frame.content).getD []

/-- Every closed frame with a pledged size has that size; libzstd fails the
run otherwise. -/
def PledgesKept (s : Session) : Prop :=
  ∀ frame ∈ s.closed, ∀ size, frame.pledged = some size → frame.content.length = size

end Session

def session (calls : List Call) : Session := calls.foldl Session.call ⟨[], none⟩

/-- The decompressed sizes given to `seekTableAdd`. -/
def recordedSizes (calls : List Call) : List Nat :=
  calls.filterMap fun
    | .frame src => some src.length
    | .finish frameIn => some frameIn
    | _ => none

/-- All the bytes given to libzstd, inside a frame or not. -/
def fedBytes (calls : List Call) : List UInt8 :=
  calls.flatMap fun
    | .frame src => src
    | .push src => src
    | _ => []

/-- `ctx->frameCount`, a `size_t`. -/
def frameCount (ctx : Context) (calls : List Call) : Nat :=
  (recordedSizes calls).length % 2 ^ ctx.sizeBits

end T2sz
