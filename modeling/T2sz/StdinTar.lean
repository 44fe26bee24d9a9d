import T2sz.FileInput

/-!
`compressStdinTar`.

The stream is the bytes that standard input delivers and how it ends; `pos` is
how many of them were read. `held` is the filled part of the array of that name.
One step is one round of the loop over 512-byte blocks. `after stop` is, as in
`T2sz.FileInput`, what memory holds behind the data of an extended header that
ends at the stream offset `stop`: here the rest of the buffer it was read into.
-/

namespace T2sz

open Iteration

structure Stream where
  bytes : List UInt8
  /-- It ends in a read error, not at end of file. -/
  fails : Bool
  deriving DecidableEq

structure StdinState where
  pos : Nat
  held : List UInt8
  nullRun : Nat
  frames : Frames
  paxNextSize : Nat
  log : List Element
  deriving DecidableEq

def StdinState.init : StdinState where
  pos := 0
  held := []
  nullRun := 0
  frames := ⟨0, false, []⟩
  paxNextSize := UINT64_MAX
  log := []

/-- `sizeof(held)` -/
def HELD_SIZE : Nat := 64 * 1024

/-- `sizeof(chunkBuf)` -/
def IN_CHUNK : Nat := 128 * 1024

theorem Context.HELD_SIZE_lt (ctx : Context) : HELD_SIZE < 2 ^ ctx.sizeBits :=
  Nat.lt_of_le_of_lt (by decide) ctx.MAX_FRAME_SIZE_lt

theorem Context.IN_CHUNK_lt (ctx : Context) : IN_CHUNK < 2 ^ ctx.sizeBits :=
  Nat.lt_of_le_of_lt (by decide) ctx.MAX_FRAME_SIZE_lt

/-- The next chunk of a payload or of a run of null blocks. -/
theorem payloadChunk (ctx : Context) (remaining : Nat) :
    (if IN_CHUNK < remaining then IN_CHUNK else remaining % 2 ^ ctx.sizeBits) =
      min IN_CHUNK remaining := by
  have hword := ctx.IN_CHUNK_lt
  split
  · omega
  · rw [Nat.mod_eq_of_lt (by omega)]
    omega

def readExactStdin (stream : Stream) (pos n : Nat) : Except Exit (List UInt8) :=
  if pos + n ≤ stream.bytes.length then .ok ((stream.bytes.drop pos).take n)
  else .error (if stream.fails then .readError else .unexpectedEof)

/-- The zeros of a run of null blocks. -/
def pushNullRun (ctx : Context) : Nat → Nat → Frames → Frames
  | 0, _, f => f
  | fuel + 1, nullRun, f =>
      if nullRun = 0 then f
      else
        let take := if IN_CHUNK < nullRun then IN_CHUNK else nullRun % 2 ^ ctx.sizeBits
        pushNullRun ctx fuel (nullRun - take) (pushBytesTar ctx (List.replicate take 0) f)

/-- The end of an element: its frame is closed unless it is below `-s`. -/
def closeElement (ctx : Context) (f : Frames) : Frames :=
  if f.frameOpen && ctx.minBlockSize ≤ f.frameIn then endFrameAndRecord f else f

/-- The end of a run of null blocks, or of the input. -/
def flushHeld (ctx : Context) (s : StdinState) : StdinState :=
  let opened := startElementFrame ctx ((s.held.length + s.nullRun) % 2 ^ 64) s.frames
  let pushed := pushNullRun ctx s.nullRun s.nullRun (pushBytesTar ctx s.held opened)
  { s with held := [], nullRun := 0, frames := closeElement ctx pushed }

/-- The sparse extension blocks; each round reads one. -/
def streamExtensions (ctx : Context) (stream : Stream) :
    Nat → StdinState → Except Exit StdinState
  | 0, s => .ok s
  | fuel + 1, s =>
      match readExactStdin stream s.pos 512 with
      | .error e => .error e
      | .ok block =>
          let pushed := { s with
            pos := s.pos + 512
            frames := pushBytesTar ctx block s.frames }
          if block.getD 504 0 ≠ 0 then streamExtensions ctx stream fuel pushed else .ok pushed

/-- The payload and its padding, in chunks. -/
def streamPayload (ctx : Context) (stream : Stream) (after : Nat → List UInt8)
    (header : TarHeader) (fileSize padded : Nat) :
    Nat → Nat → StdinState → Except Exit StdinState
  | 0, _, s => .ok s
  | fuel + 1, remaining, s =>
      if remaining = 0 then .ok s
      else
        let take := if IN_CHUNK < remaining then IN_CHUNK else remaining % 2 ^ ctx.sizeBits
        match readExactStdin stream s.pos take with
        | .error e => .error e
        | .ok chunk =>
            let pax :=
              if header.typeflag == 0x78 && take == padded then
                paxSize ctx.sizeBits (chunk.take (fileSize % 2 ^ ctx.sizeBits))
                  (after (s.pos + fileSize))
              else s.paxNextSize
            streamPayload ctx stream after header fileSize padded fuel (remaining - take)
              { s with
                pos := s.pos + take
                paxNextSize := pax
                frames := pushBytesTar ctx chunk s.frames }

/-- An entry that joins the next one and fits in `held`. `s.pos` is behind its
header, which starts at `start`. -/
def holdEntry (ctx : Context) (stream : Stream) (after : Nat → List UInt8) (start : Nat)
    (fileSize padded : Nat) (s : StdinState) : Except Exit StdinState :=
  let header := headerAt stream.bytes start
  match readExactStdin stream s.pos (padded % 2 ^ ctx.sizeBits) with
  | .error e => .error e
  | .ok payload =>
      let pax :=
        if header.typeflag == 0x78 then
          paxSize ctx.sizeBits (payload.take (fileSize % 2 ^ ctx.sizeBits))
            (after (s.pos + fileSize))
        else s.paxNextSize
      .ok { s with
        pos := s.pos + payload.length
        held := s.held ++ header.bytes ++ payload
        paxNextSize := pax
        log := s.log ++ [.entry start (512 + padded) true pax] }

/-- An entry that is compressed as it is read, after what is held for it. -/
def streamEntry (ctx : Context) (stream : Stream) (after : Nat → List UInt8) (start : Nat)
    (fileSize padded : Nat) (s : StdinState) : Except Exit StdinState :=
  let header := headerAt stream.bytes start
  let join := joinsNextEntry header
  let sparseExt := hasSparseExtension header
  let opened :=
    if !join && !sparseExt then
      startElementFrame ctx ((s.held.length + 512 + padded) % 2 ^ 64) s.frames
    else s.frames
  let pushed := { s with
    held := []
    frames := pushBytesTar ctx header.bytes (pushBytesTar ctx s.held opened) }
  let extended :=
    if sparseExt then streamExtensions ctx stream (stream.bytes.length + 1) pushed else .ok pushed
  match extended with
  | .error e => .error e
  | .ok t =>
      match streamPayload ctx stream after header fileSize padded padded padded t with
      | .error e => .error e
      | .ok u =>
          .ok { u with
            frames := if join then u.frames else closeElement ctx u.frames
            log := u.log ++ [.entry start (u.pos - start) join u.paxNextSize] }

/-- A block that is not null: a header. -/
def stdinHeader (ctx : Context) (stream : Stream) (after : Nat → List UInt8)
    (s : StdinState) : Except Exit StdinState :=
  let header := headerAt stream.bytes s.pos
  if !isTarHeader header then .error .invalidHeader
  else
    let (fileSize, paxNextSize) := tarEntrySize header s.paxNextSize
    if UINT64_MAX - 1024 < fileSize then .error .entryTooLarge
    else
      let padded := paddedSize 64 fileSize
      let t := { s with pos := s.pos + 512, paxNextSize := paxNextSize }
      if joinsNextEntry header && !hasSparseExtension header &&
          (512 + padded) % 2 ^ 64 ≤ usub ctx.sizeBits HELD_SIZE s.held.length then
        holdEntry ctx stream after s.pos fileSize padded t
      else streamEntry ctx stream after s.pos fileSize padded t

/-- The end of the loop and what follows it. -/
def finishStdin (ctx : Context) (s : StdinState) : Step StdinState Exit :=
  let flushed := if s.nullRun ≠ 0 ∨ s.held ≠ [] then flushHeld ctx s else s
  let closed := { flushed with frames := endFrameAndRecord flushed.frames }
  if frameCount ctx closed.frames.calls = 0 then .exit .noEntries closed else .done closed

/-- One round of the loop. -/
def stdinStep (ctx : Context) (after : Nat → List UInt8) (stream : Stream)
    (s : StdinState) : Step StdinState Exit :=
  let hdrBlock := blockAt stream.bytes s.pos
  if hdrBlock.length = 0 then
    if stream.fails then .exit .readError s else finishStdin ctx s
  else if hdrBlock.length ≠ 512 then .exit .truncatedHeader s
  else if isZeroTarBlock hdrBlock then
    .next { s with
      pos := s.pos + 512
      nullRun := (s.nullRun + 512) % 2 ^ 64
      log := s.log ++ [.null s.pos] }
  else
    match stdinHeader ctx stream after (if s.nullRun ≠ 0 then flushHeld ctx s else s) with
    | .error e => .exit e s
    | .ok t => .next t

def compressStdinTar (ctx : Context) (after : Nat → List UInt8) (stream : Stream) :
    Option (Result StdinState Exit) :=
  iterate (stdinStep ctx after stream) (stream.bytes.length + 1) .init

/-- The stdin branch of `compressFile` in tar mode. -/
def compressStdin (ctx : Context) (after : Nat → List UInt8) (stream : Stream) :
    Option (Result StdinState Exit) :=
  compressStdinTar ctx.clamp after stream

end T2sz
