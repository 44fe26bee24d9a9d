import T2sz.StdinTar

/-!
`compressStdinRaw`.

`fread` may deliver less than it is asked for. How much is left to a function
`short` of the offset: from one byte on, up to what was asked for; nothing only
at the end of the stream.
-/

namespace T2sz

open Iteration

def fread (stream : Stream) (short : Nat → Nat) (pos n : Nat) : List UInt8 :=
  (stream.bytes.drop pos).take (min n (short pos + 1))

theorem fread_split (stream : Stream) (short : Nat → Nat) (pos n : Nat) :
    stream.bytes.drop pos = fread stream short pos n ++
      stream.bytes.drop (pos + (fread stream short pos n).length) := by
  rw [← List.drop_drop]
  exact (List.prefix_iff_eq_append.mp (List.take_prefix _ _)).symm

theorem length_fread_le (stream : Stream) (short : Nat → Nat) (pos n : Nat) :
    (fread stream short pos n).length ≤ n := by
  rw [fread, List.length_take]
  omega

/-- Nothing is delivered only at the end. -/
theorem end_of_fread {stream : Stream} {short : Nat → Nat} {pos n : Nat} (hn : 0 < n)
    (h : (fread stream short pos n).length = 0) : stream.bytes.drop pos = [] := by
  rw [fread, List.length_take] at h
  exact List.eq_nil_of_length_eq_zero (by omega)

structure RawState where
  pos : Nat
  frames : Frames
  deriving DecidableEq

def RawState.init : RawState := ⟨0, ⟨0, false, []⟩⟩

/-- A round without `-s`: `inChunk` bytes go into the one frame. -/
def streamRawStep (ctx : Context) (inChunk : Nat) (short : Nat → Nat) (stream : Stream)
    (s : RawState) : Step RawState Exit :=
  let inBuf := fread stream short s.pos inChunk
  if inBuf.length ≠ 0 then
    .next { pos := s.pos + inBuf.length, frames := pushBytesTar ctx inBuf s.frames }
  else if stream.fails then .exit .readError s
  else .done { s with frames := endFrameAndRecord s.frames }

/-- The loop that fills `frameBuf`. -/
def fillFrame (stream : Stream) (short : Nat → Nat) (frameSize : Nat) :
    Nat → Nat → List UInt8 → Except Exit (List UInt8)
  | 0, _, frameBuf => .ok frameBuf
  | fuel + 1, pos, frameBuf =>
      if frameBuf.length < frameSize then
        let chunk := fread stream short pos (frameSize - frameBuf.length)
        if chunk.length ≠ 0 then
          fillFrame stream short frameSize fuel (pos + chunk.length) (frameBuf ++ chunk)
        else if stream.fails then .error .readError
        else .ok frameBuf
      else .ok frameBuf

/-- A round with `-s`: one frame of that size. -/
def fixedRawStep (ctx : Context) (short : Nat → Nat) (stream : Stream) (s : RawState) :
    Step RawState Exit :=
  let frameSize := ctx.minBlockSize
  match fillFrame stream short frameSize frameSize s.pos [] with
  | .error e => .exit e s
  | .ok frameBuf =>
      if frameBuf.length = 0 then .done s
      else
        let t : RawState :=
          { pos := s.pos + frameBuf.length
            frames := { s.frames with calls := s.frames.calls ++ [.frame frameBuf] } }
        if frameBuf.length < frameSize then .done t else .next t

def stdinRawStep (ctx : Context) (inChunk : Nat) (short : Nat → Nat) (stream : Stream) :
    RawState → Step RawState Exit :=
  if ctx.minBlockSize = 0 then streamRawStep ctx inChunk short stream
  else fixedRawStep ctx short stream

def compressStdinRaw (ctx : Context) (inChunk : Nat) (short : Nat → Nat) (stream : Stream) :
    Option (Result RawState Exit) :=
  iterate (stdinRawStep ctx inChunk short stream) (stream.bytes.length + 1) .init

/-- The stdin branch of `compressFile` in raw mode. -/
def compressRaw (ctx : Context) (inChunk : Nat) (short : Nat → Nat) (stream : Stream) :
    Option (Result RawState Exit) :=
  compressStdinRaw ctx.clamp inChunk short stream

end T2sz
