import T2sz.Compressor
import T2sz.Element
import T2sz.Library.Iteration
import T2sz.Pax

/-!
The mapped-file branch of `compressFile`.

`input` is the mapped buffer, `readBuff` and `tarHeaderIdx` are offsets into it.
One step is one round of the inner loop; a round that ends the block passes it
to the compressor and starts the next round of the outer loop. `log` keeps the
elements in the order in which `-v` prints them. `after stop` is the memory that
follows the data of an extended header ending at offset `stop`: in the mapped
buffer the bytes of the archive, but no result here depends on that.
-/

namespace T2sz

open Iteration

structure FileState where
  tarHeaderIdx : Nat
  readBuff : Nat
  joinNext : Bool
  paxNextSize : Nat
  lastChunk : Bool
  residual : Nat
  blockSize : Nat
  calls : List Call
  log : List Element
  deriving DecidableEq

def FileState.init : FileState where
  tarHeaderIdx := 0
  readBuff := 0
  joinNext := false
  paxNextSize := UINT64_MAX
  lastChunk := false
  residual := 0
  blockSize := 0
  calls := []
  log := []

/-- The walk over the sparse extension blocks of the entry at `idx`. -/
def sparseWalk (w : Nat) (input : List UInt8) (idx : Nat) : Nat → Nat → Nat
  | 0, sparseExt => sparseExt
  | fuel + 1, sparseExt =>
      let next := uadd w sparseExt 512
      if (idx + next + 512) % 2 ^ w ≤ input.length ∧
          input.getD ((idx + next + 504) % 2 ^ w) 0 ≠ 0 then
        sparseWalk w input idx fuel next
      else next

/-- The branch for a block that is not null. -/
def fileEntry (ctx : Context) (after : Nat → List UInt8) (input : List UInt8)
    (s : FileState) : Except Exit FileState :=
  let w := ctx.sizeBits
  let header := headerAt input s.tarHeaderIdx
  if isTarHeader header then
    let (entrySize, paxNextSize) := tarEntrySize header s.paxNextSize
    if input.length < entrySize then .error .entryTooLarge
    else
      let size := paddedSize w entrySize
      let sparseExt :=
        if hasSparseExtension header then
          sparseWalk w input s.tarHeaderIdx (input.length + 1) 0
        else 0
      let toNextHeader := (size + 512 + sparseExt) % 2 ^ w
      let remainingInBuf := usub w input.length s.tarHeaderIdx
      if remainingInBuf < toNextHeader then .error .truncatedEntry
      else
        let data := (input.drop (s.tarHeaderIdx + 512)).take (entrySize % 2 ^ w)
        let pax :=
          if header.typeflag == 0x78 then
            paxSize w data (after (s.tarHeaderIdx + 512 + entrySize))
          else paxNextSize
        .ok { s with
          paxNextSize := pax
          tarHeaderIdx := uadd w s.tarHeaderIdx toNextHeader
          blockSize := uadd w s.blockSize toNextHeader
          joinNext := joinsNextEntry header
          log := s.log ++ [.entry s.tarHeaderIdx toNextHeader (joinsNextEntry header) pax] }
  else .error .invalidHeader

/-- The branch for a null block. -/
def fileNull (ctx : Context) (input : List UInt8) (s : FileState) : FileState :=
  let idx := uadd ctx.sizeBits s.tarHeaderIdx 512
  { s with
    tarHeaderIdx := idx
    blockSize := uadd ctx.sizeBits s.blockSize 512
    joinNext := uadd ctx.sizeBits idx 512 ≤ input.length && isZeroTarBlock (blockAt input idx)
    log := s.log ++ [.null s.tarHeaderIdx] }

/-- The tail of an entry that `-S` has split. -/
def takeResidual (ctx : Context) (s : FileState) : FileState :=
  if ctx.maxBlockSize < s.residual then
    { s with blockSize := ctx.maxBlockSize, residual := s.residual - ctx.maxBlockSize }
  else { s with blockSize := s.residual, residual := 0 }

/-- The four branches of the inner loop. -/
def fileElement (ctx : Context) (after : Nat → List UInt8) (input : List UInt8)
    (s : FileState) : Except Exit FileState :=
  if s.residual ≠ 0 then .ok (takeResidual ctx s)
  else if input.length < uadd ctx.sizeBits s.tarHeaderIdx 512 then .error .truncatedArchive
  else if !isZeroTarBlock (blockAt input s.tarHeaderIdx) then fileEntry ctx after input s
  else .ok (fileNull ctx input s)

/-- What the inner loop does after each branch: cut the block at `-S`. -/
def splitBlock (ctx : Context) (input : List UInt8) (s : FileState) : FileState :=
  let split :=
    if ctx.maxBlockSize ≠ 0 ∧ ctx.maxBlockSize < s.blockSize then
      { s with blockSize := ctx.maxBlockSize, residual := s.blockSize - ctx.maxBlockSize }
    else s
  { split with lastChunk := input.length ≤ split.tarHeaderIdx }

/-- The block is compressed and recorded, and `readBuff` moves behind it. -/
def emit (input : List UInt8) (s : FileState) : FileState :=
  { s with
    calls := s.calls ++ [.frame ((input.drop s.readBuff).take s.blockSize)]
    readBuff := s.readBuff + s.blockSize }

/-- The end of an outer round, and the start of the next one. -/
def emitBlock (input : List UInt8) (s : FileState) : Step FileState Exit :=
  if !s.lastChunk || s.residual != 0 then .next { emit input s with blockSize := 0 }
  else .done (emit input s)

/-- A round in raw mode. -/
def rawStep (ctx : Context) (input : List UInt8) (s : FileState) : Step FileState Exit :=
  let remaining := input.length - s.readBuff
  if remaining = 0 then .done s
  else
    let blockSize := if ctx.minBlockSize ≠ 0 then ctx.minBlockSize else ctx.maxBlockSize
    emitBlock input
      (if remaining < blockSize then { s with blockSize := remaining, lastChunk := true }
      else { s with blockSize := blockSize })

/-- A round of the inner loop in tar mode. -/
def tarStep (ctx : Context) (after : Nat → List UInt8) (input : List UInt8)
    (s : FileState) : Step FileState Exit :=
  match fileElement ctx after input s with
  | .error e => .exit e s
  | .ok parsed =>
      let t := splitBlock ctx input parsed
      if !t.lastChunk && t.residual == 0 && (t.blockSize < ctx.minBlockSize || t.joinNext) then
        .next t
      else emitBlock input t

def fileStep (ctx : Context) (after : Nat → List UInt8) (input : List UInt8)
    (s : FileState) : Step FileState Exit :=
  if ctx.rawMode then rawStep ctx input s else tarStep ctx after input s

theorem fileStep_tar (ctx : Context) (htar : ctx.rawMode = false) (after : Nat → List UInt8)
    (input : List UInt8) : fileStep ctx after input = tarStep ctx after input := by
  funext s
  rw [fileStep, htar, if_neg Bool.false_ne_true]

theorem fileStep_raw (ctx : Context) (hraw : ctx.rawMode = true) (after : Nat → List UInt8)
    (input : List UInt8) : fileStep ctx after input = rawStep ctx input := by
  funext s
  rw [fileStep, if_pos hraw]

/-- The check after the loop. -/
def requireEntries (ctx : Context) : Result FileState Exit → Result FileState Exit
  | .returned s =>
      if !ctx.rawMode && frameCount ctx s.calls == 0 then .exited .noEntries s else .returned s
  | r => r

/-- The nested loops and the check after them, for sizes that were clamped. -/
def mappedLoop (ctx : Context) (after : Nat → List UInt8) (input : List UInt8) :
    Option (Result FileState Exit) :=
  (iterate (fileStep ctx after input) (4 * input.length + 4) .init).map (requireEntries ctx)

/-- The mapped-file branch of `compressFile`. -/
def compressMapped (ctx : Context) (after : Nat → List UInt8) (input : List UInt8) :
    Option (Result FileState Exit) :=
  mappedLoop ctx.clamp after input

end T2sz
