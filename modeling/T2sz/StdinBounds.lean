import T2sz.Archive
import T2sz.Library.Memory
import T2sz.RawInput
import T2sz.StdinEntry

/-!
`compressStdinTar` stays in its arrays.

`stdinStepChecked` is `stdinStep` with what it writes into `held`, `chunkBuf` and
`hdrBlock` checked against their sizes, each `fread` of `readExactStdin` included.
The difference `sizeof(held) - heldLen` and the conversions to `size_t` must be
exact, and the data of an extended header must be bytes that were read for it.
-/

namespace T2sz

open Iteration

set_option maxRecDepth 4000

/-- `readExactStdin` into an array of `size` bytes, from `dst` on. -/
def readExactChecked (stream : Stream) (short : Nat → Nat) (size dst pos n : Nat) :
    Nat → List UInt8 → Option (Except Exit (List UInt8))
  | 0, read => some (.ok read)
  | fuel + 1, read =>
      let got := read.length
      if got < n then do
        let room ← Memory.minus n got
        Memory.store size (dst + got) room
        let chunk := fread stream short (pos + got) room
        if chunk.length = 0 then
          some (.error (if stream.fails then .readError else .unexpectedEof))
        else readExactChecked stream short size dst pos n fuel (read ++ chunk)
      else some (.ok read)

/-- `take`, the size of the next chunk. -/
def takeChecked (w remaining : Nat) : Option Nat :=
  if IN_CHUNK < remaining then some IN_CHUNK else Memory.narrow w remaining

def pushNullRunChecked (ctx : Context) : Nat → Nat → Frames → Option Frames
  | 0, _, f => some f
  | fuel + 1, nullRun, f =>
      if nullRun = 0 then some f
      else do
        let take ← takeChecked ctx.sizeBits nullRun
        let src ← Memory.range (List.replicate IN_CHUNK 0) 0 take
        pushNullRunChecked ctx fuel (nullRun - take) (pushBytesTar ctx src f)

def flushHeldChecked (ctx : Context) (s : StdinState) : Option StdinState := do
  let opened := startElementFrame ctx ((s.held.length + s.nullRun) % 2 ^ 64) s.frames
  Memory.store IN_CHUNK 0 IN_CHUNK
  let pushed ← pushNullRunChecked ctx s.nullRun s.nullRun (pushBytesTar ctx s.held opened)
  some { s with held := [], nullRun := 0, frames := closeElement ctx pushed }

def flushDueChecked (ctx : Context) (due : Prop) [Decidable due] (s : StdinState) :
    Option StdinState :=
  if due then flushHeldChecked ctx s else some s

def streamExtensionsChecked (ctx : Context) (short : Nat → Nat) (stream : Stream) :
    Nat → StdinState → Option (Except Exit StdinState)
  | 0, s => some (.ok s)
  | fuel + 1, s => do
      match ← readExactChecked stream short IN_CHUNK 0 s.pos 512 512 [] with
      | .error e => some (.error e)
      | .ok block =>
          let pushed := { s with
            pos := s.pos + 512
            frames := pushBytesTar ctx block s.frames }
          let flag ← Memory.read block 504
          if flag ≠ 0 then streamExtensionsChecked ctx short stream fuel pushed
          else some (.ok pushed)

/-- The size read from the first `fileSize` bytes of a payload that was read. -/
def payloadPaxChecked (w : Nat) (after : Nat → List UInt8) (parses : Bool) (payload : List UInt8)
    (fileSize pos paxNextSize : Nat) : Option Nat :=
  if parses then do
    let len ← Memory.narrow w fileSize
    let data ← Memory.range payload 0 len
    some (paxSize w data (after (pos + fileSize)))
  else some paxNextSize

def streamPayloadChecked (ctx : Context) (short : Nat → Nat) (stream : Stream)
    (after : Nat → List UInt8) (header : TarHeader) (fileSize padded : Nat) :
    Nat → Nat → StdinState → Option (Except Exit StdinState)
  | 0, _, s => some (.ok s)
  | fuel + 1, remaining, s =>
      if remaining = 0 then some (.ok s)
      else do
        let take ← takeChecked ctx.sizeBits remaining
        match ← readExactChecked stream short IN_CHUNK 0 s.pos take take [] with
        | .error e => some (.error e)
        | .ok chunk =>
            let pax ← payloadPaxChecked ctx.sizeBits after
              (header.typeflag == 0x78 && take == padded) chunk fileSize s.pos s.paxNextSize
            streamPayloadChecked ctx short stream after header fileSize padded fuel
              (remaining - take)
              { s with
                pos := s.pos + take
                paxNextSize := pax
                frames := pushBytesTar ctx chunk s.frames }

def holdEntryChecked (ctx : Context) (short : Nat → Nat) (stream : Stream)
    (after : Nat → List UInt8) (start fileSize padded : Nat) (s : StdinState) :
    Option (Except Exit StdinState) := do
  let header := headerAt stream.bytes start
  Memory.store HELD_SIZE s.held.length 512
  let n ← Memory.narrow ctx.sizeBits padded
  match ← readExactChecked stream short HELD_SIZE (s.held.length + 512) s.pos n n [] with
  | .error e => some (.error e)
  | .ok payload =>
      let pax ← payloadPaxChecked ctx.sizeBits after (header.typeflag == 0x78) payload fileSize
        s.pos s.paxNextSize
      some (.ok { s with
        pos := s.pos + payload.length
        held := s.held ++ header.bytes ++ payload
        paxNextSize := pax
        log := s.log ++ [.entry start (512 + padded) true pax] })

/-- The extension blocks of an entry that has some. -/
def extendedChecked (ctx : Context) (short : Nat → Nat) (stream : Stream) (sparseExt : Bool)
    (s : StdinState) : Option (Except Exit StdinState) :=
  if sparseExt then streamExtensionsChecked ctx short stream (stream.bytes.length + 1) s
  else some (.ok s)

def streamEntryChecked (ctx : Context) (short : Nat → Nat) (stream : Stream)
    (after : Nat → List UInt8) (start fileSize padded : Nat) (s : StdinState) :
    Option (Except Exit StdinState) := do
  let header := headerAt stream.bytes start
  let join := joinsNextEntry header
  let sparseExt := hasSparseExtension header
  let opened :=
    if !join && !sparseExt then
      startElementFrame ctx ((s.held.length + 512 + padded) % 2 ^ 64) s.frames
    else s.frames
  let pushed := { s with
    held := []
    frames := pushBytesTar ctx header.bytes (pushBytesTar ctx s.held opened) }
  match ← extendedChecked ctx short stream sparseExt pushed with
  | .error e => some (.error e)
  | .ok t =>
      match ← streamPayloadChecked ctx short stream after header fileSize padded padded padded
          t with
      | .error e => some (.error e)
      | .ok u =>
          some (.ok { u with
            frames := if join then u.frames else closeElement ctx u.frames
            log := u.log ++ [.entry start (u.pos - start) join u.paxNextSize] })

def stdinHeaderChecked (ctx : Context) (short : Nat → Nat) (after : Nat → List UInt8)
    (stream : Stream) (s : StdinState) : Option (Except Exit StdinState) :=
  let header := headerAt stream.bytes s.pos
  if !isTarHeader header then some (.error .invalidHeader)
  else
    let (fileSize, paxNextSize) := tarEntrySize header s.paxNextSize
    if UINT64_MAX - 1024 < fileSize then some (.error .entryTooLarge)
    else do
      let padded := paddedSize 64 fileSize
      let t := { s with pos := s.pos + 512, paxNextSize := paxNextSize }
      let room ← Memory.minus HELD_SIZE s.held.length
      if joinsNextEntry header && !hasSparseExtension header && (512 + padded) % 2 ^ 64 ≤ room then
        holdEntryChecked ctx short stream after s.pos fileSize padded t
      else streamEntryChecked ctx short stream after s.pos fileSize padded t

def finishStdinChecked (ctx : Context) (s : StdinState) : Option (Step StdinState Exit) := do
  let flushed ← flushDueChecked ctx (s.nullRun ≠ 0 ∨ s.held ≠ []) s
  let closed := { flushed with frames := endFrameAndRecord flushed.frames }
  some (if frameCount ctx closed.frames.calls = 0 then .exit .noEntries closed else .done closed)

def stdinStepChecked (ctx : Context) (short : Nat → Nat) (after : Nat → List UInt8)
    (stream : Stream) (s : StdinState) : Option (Step StdinState Exit) := do
  Memory.store 512 0 512
  let hdrBlock := blockAt stream.bytes s.pos
  if hdrBlock.length = 0 then
    if stream.fails then some (.exit .readError s) else finishStdinChecked ctx s
  else if hdrBlock.length ≠ 512 then some (.exit .truncatedHeader s)
  else if isZeroTarBlock hdrBlock then
    some (.next { s with
      pos := s.pos + 512
      nullRun := (s.nullRun + 512) % 2 ^ 64
      log := s.log ++ [.null s.pos] })
  else do
    let flushed ← flushDueChecked ctx (s.nullRun ≠ 0) s
    match ← stdinHeaderChecked ctx short after stream flushed with
    | .error e => some (.exit e s)
    | .ok t => some (.next t)

/-- What is held: whole blocks, in the array. -/
structure HeldFits (held : List UInt8) : Prop where
  blocks : held.length % 512 = 0
  length_le : held.length ≤ HELD_SIZE

/-- The same, with the cursor in the stream. -/
structure Buffered (stream : Stream) (s : StdinState) : Prop where
  held : HeldFits s.held
  pos_le : s.pos ≤ stream.bytes.length

section Reads

variable {stream : Stream} {size dst pos n : Nat}

theorem readExactStdin_eq_ok {bytes : List UInt8} (h : readExactStdin stream pos n = .ok bytes) :
    pos + n ≤ stream.bytes.length ∧ bytes = (stream.bytes.drop pos).take n := by
  by_cases hfits : pos + n ≤ stream.bytes.length
  · rw [readExactStdin_ok hfits, Except.ok.injEq] at h
    exact ⟨hfits, h.symm⟩
  · rw [readExactStdin, if_neg hfits] at h
    cases h

/-- The loop of `readExactStdin` reads what it is asked for and writes no further,
however the stream is delivered. -/
theorem readExactChecked_loop (short : Nat → Nat) (hdst : dst + n ≤ size) (fuel k : Nat)
    (hfuel : n ≤ k + fuel) (hk : k ≤ n) (hpos : pos + k ≤ stream.bytes.length) :
    readExactChecked stream short size dst pos n fuel ((stream.bytes.drop pos).take k) =
      some (readExactStdin stream pos n) := by
  have hlen := length_chunk hpos
  induction fuel generalizing k with
  | zero =>
      have hall : k = n := by omega
      rw [← hall, readExactStdin_ok hpos]
      rfl
  | succ fuel ih =>
      simp only [readExactChecked, hlen]
      by_cases hmore : k < n
      · have hroom : dst + k + (n - k) ≤ size := by omega
        simp only [if_pos hmore, Memory.minus_of_le hk, Memory.store_of_le hroom,
          Option.bind_eq_bind, Option.bind_some]
        have hsplit := congrArg List.length (fread_split stream short (pos + k) (n - k))
        have hshort := length_fread_le stream short (pos + k) (n - k)
        rw [List.length_append, List.length_drop, List.length_drop] at hsplit
        by_cases hnone : (fread stream short (pos + k) (n - k)).length = 0
        · have hend := List.drop_eq_nil_iff.mp (end_of_fread (by omega) hnone)
          have hpast : ¬ pos + n ≤ stream.bytes.length := by omega
          rw [if_pos hnone, readExactStdin, if_neg hpast]
        · have hread : fread stream short (pos + k) (n - k) =
              (stream.bytes.drop (pos + k)).take (fread stream short (pos + k) (n - k)).length := by
            rw [fread, List.length_take, ← List.take_eq_take_min]
          rw [if_neg hnone, hread, chunk_append]
          exact ih _ (by omega) (by omega) (by omega) (length_chunk (by omega))
      · have hall : k = n := by omega
        rw [if_neg hmore, ← hall, readExactStdin_ok hpos]

theorem readExactChecked_eq (short : Nat → Nat) (hdst : dst + n ≤ size)
    (hpos : pos ≤ stream.bytes.length) :
    readExactChecked stream short size dst pos n n [] = some (readExactStdin stream pos n) :=
  readExactChecked_loop short hdst n 0 (by omega) (by omega) hpos

end Reads

section Steps

variable {ctx : Context} {stream : Stream} {s t : StdinState}

/-- The conversion of what remains to `size_t` is exact. -/
theorem takeChecked_eq (ctx : Context) (remaining : Nat) :
    takeChecked ctx.sizeBits remaining = some (min IN_CHUNK remaining) := by
  have hword := ctx.IN_CHUNK_lt
  rw [takeChecked]
  split
  · rw [Nat.min_eq_left (by omega)]
  · rw [Memory.narrow_of_lt (by omega), Nat.min_eq_right (by omega)]

theorem pushNullRunChecked_eq (ctx : Context) (fuel nullRun : Nat) (f : Frames) :
    pushNullRunChecked ctx fuel nullRun f = some (pushNullRun ctx fuel nullRun f) := by
  induction fuel generalizing nullRun f with
  | zero => rfl
  | succ fuel ih =>
      have htake : min IN_CHUNK nullRun ≤ IN_CHUNK := Nat.min_le_left _ _
      have hsrc : Memory.range (List.replicate IN_CHUNK (0 : UInt8)) 0 (min IN_CHUNK nullRun) =
          some (List.replicate (min IN_CHUNK nullRun) 0) := by
        rw [Memory.range_of_le (by rw [List.length_replicate]; omega), List.drop_zero,
          List.take_replicate, Nat.min_eq_left htake]
      simp only [pushNullRunChecked, pushNullRun, takeChecked_eq, payloadChunk, hsrc, ih,
        Option.bind_eq_bind, Option.bind_some]
      split <;> rfl

theorem flushDueChecked_eq (ctx : Context) (due : Prop) [Decidable due] (s : StdinState) :
    flushDueChecked ctx due s = some (if due then flushHeld ctx s else s) := by
  have hset : Memory.store IN_CHUNK 0 IN_CHUNK = some () := Memory.store_of_le (by omega)
  simp only [flushDueChecked, flushHeldChecked, flushHeld, hset, pushNullRunChecked_eq,
    Option.bind_eq_bind, Option.bind_some]
  split <;> rfl

theorem finishStdinChecked_eq (ctx : Context) (s : StdinState) :
    finishStdinChecked ctx s = some (finishStdin ctx s) := by
  simp only [finishStdinChecked, flushDueChecked_eq, Option.bind_eq_bind, Option.bind_some,
    finishStdin]

theorem finishStdin_ne_next (ctx : Context) (s t : StdinState) : finishStdin ctx s ≠ .next t := by
  intro h
  simp only [finishStdin] at h
  split at h <;> split at h <;> cases h

theorem finishStdin_exit {ctx : Context} {s t : StdinState} {e : Exit}
    (h : finishStdin ctx s = .exit e t) : e = .noEntries := by
  simp only [finishStdin] at h
  split at h <;> split at h <;> cases h <;> rfl

theorem flushDue_buffered (ctx : Context) (due : Prop) [Decidable due] (h : Buffered stream s) :
    Buffered stream (if due then flushHeld ctx s else s) := by
  split
  · exact ⟨⟨rfl, Nat.zero_le _⟩, h.pos_le⟩
  · exact h

/-- The extension blocks are read into `chunkBuf`. -/
theorem streamExtensionsChecked_eq (short : Nat → Nat) (fuel : Nat) (h : Buffered stream s) :
    streamExtensionsChecked ctx short stream fuel s =
        some (streamExtensions ctx stream fuel s) ∧
      ∀ t, streamExtensions ctx stream fuel s = .ok t → Buffered stream t := by
  induction fuel generalizing s with
  | zero => exact ⟨rfl, fun t ht => Except.ok.inj ht ▸ h⟩
  | succ fuel ih =>
      have hread := @readExactChecked_eq stream IN_CHUNK 0 s.pos 512 short (by decide) h.pos_le
      simp only [streamExtensionsChecked, streamExtensions, hread, Option.bind_eq_bind,
        Option.bind_some]
      cases hblock : readExactStdin stream s.pos 512 with
      | error e => exact ⟨rfl, fun t ht => by cases ht⟩
      | ok block =>
          obtain ⟨hfits, rfl⟩ := readExactStdin_eq_ok hblock
          have hlen := length_chunk hfits
          have hlt : 504 < ((stream.bytes.drop s.pos).take 512).length := by omega
          have hflag : ((stream.bytes.drop s.pos).take 512).getD 504 0 =
              ((stream.bytes.drop s.pos).take 512)[504] := by
            rw [List.getD_eq_getElem?_getD, List.getElem?_eq_getElem hlt, Option.getD_some]
          simp only [Memory.read_of_lt hlt, hflag, Option.bind_some]
          split
          · exact ih ⟨h.held, hfits⟩
          · exact ⟨rfl, fun t ht => Except.ok.inj ht ▸ ⟨h.held, hfits⟩⟩

/-- `paxSize` gets what was read for its entry. -/
theorem payloadPaxChecked_eq (ctx : Context) (after : Nat → List UInt8) (parses : Bool)
    {payload : List UInt8} {fileSize : Nat} (pos pax : Nat)
    (hsize : parses = true → fileSize ≤ payload.length)
    (hpayload : payload.length < 2 ^ ctx.sizeBits) :
    payloadPaxChecked ctx.sizeBits after parses payload fileSize pos pax =
      some (if parses then
          paxSize ctx.sizeBits (payload.take (fileSize % 2 ^ ctx.sizeBits)) (after (pos + fileSize))
        else pax) := by
  cases parses with
  | false => rfl
  | true =>
      have hle := hsize rfl
      have hlt : fileSize < 2 ^ ctx.sizeBits := by omega
      have hrange : Memory.range payload 0 fileSize = some (payload.take fileSize) :=
        Memory.range_of_le (by omega)
      simp only [payloadPaxChecked, if_true, Memory.narrow_of_lt hlt, hrange, Nat.mod_eq_of_lt hlt,
        Option.bind_eq_bind, Option.bind_some]

/-- The payload is read into `chunkBuf`. -/
theorem streamPayloadChecked_eq (ctx : Context) (short : Nat → Nat) (after : Nat → List UInt8)
    (header : TarHeader) {fileSize padded : Nat} (hsize : fileSize ≤ padded) (fuel remaining : Nat)
    (h : Buffered stream s) :
    streamPayloadChecked ctx short stream after header fileSize padded fuel remaining s =
        some (streamPayload ctx stream after header fileSize padded fuel remaining s) ∧
      ∀ t, streamPayload ctx stream after header fileSize padded fuel remaining s = .ok t →
        Buffered stream t := by
  induction fuel generalizing s remaining with
  | zero => exact ⟨rfl, fun t ht => Except.ok.inj ht ▸ h⟩
  | succ fuel ih =>
      have htake : 0 + min IN_CHUNK remaining ≤ IN_CHUNK := by omega
      have hword := ctx.IN_CHUNK_lt
      simp only [streamPayloadChecked, streamPayload, takeChecked_eq, payloadChunk,
        readExactChecked_eq short htake h.pos_le, Option.bind_eq_bind, Option.bind_some]
      by_cases hzero : remaining = 0
      case pos =>
        rw [if_pos hzero, if_pos hzero]
        exact ⟨rfl, fun t ht => Except.ok.inj ht ▸ h⟩
      rw [if_neg hzero, if_neg hzero]
      cases hchunk : readExactStdin stream s.pos (min IN_CHUNK remaining) with
      | error e => exact ⟨rfl, fun t ht => by cases ht⟩
      | ok chunk =>
          obtain ⟨hfits, hbytes⟩ := readExactStdin_eq_ok hchunk
          have hlen : chunk.length = min IN_CHUNK remaining := by rw [hbytes, length_chunk hfits]
          have hdata : (header.typeflag == 0x78 && min IN_CHUNK remaining == padded) = true →
              fileSize ≤ chunk.length := by
            intro hwhole
            rw [Bool.and_eq_true, beq_iff_eq, beq_iff_eq] at hwhole
            omega
          simp only [payloadPaxChecked_eq ctx after _ s.pos s.paxNextSize hdata (by omega),
            Option.bind_some]
          exact ih _ ⟨h.held, hfits⟩

/-- A held entry fits behind what is held already. -/
theorem holdEntryChecked_eq (short : Nat → Nat) (after : Nat → List UInt8)
    {start fileSize padded : Nat} (hsize : fileSize ≤ padded) (hwhole : padded % 512 = 0)
    (hstart : start + 512 ≤ stream.bytes.length)
    (hroom : 512 + padded ≤ HELD_SIZE - s.held.length) (h : Buffered stream s) :
    holdEntryChecked ctx short stream after start fileSize padded s =
        some (holdEntry ctx stream after start fileSize padded s) ∧
      ∀ t, holdEntry ctx stream after start fileSize padded s = .ok t → Buffered stream t := by
  have hword := ctx.HELD_SIZE_lt
  have hheld := h.held.length_le
  have hblocks := h.held.blocks
  have hlt : padded < 2 ^ ctx.sizeBits := by omega
  have hcopy : s.held.length + 512 ≤ HELD_SIZE := by omega
  have hread : s.held.length + 512 + padded ≤ HELD_SIZE := by omega
  simp only [holdEntryChecked, holdEntry, Memory.store_of_le hcopy, Memory.narrow_of_lt hlt,
    readExactChecked_eq short hread h.pos_le, Nat.mod_eq_of_lt hlt, Option.bind_eq_bind,
    Option.bind_some]
  cases hpayload : readExactStdin stream s.pos padded with
  | error e => exact ⟨rfl, fun t ht => by cases ht⟩
  | ok payload =>
      obtain ⟨hfits, hbytes⟩ := readExactStdin_eq_ok hpayload
      have hlen : payload.length = padded := by rw [hbytes, length_chunk hfits]
      have hheader : (headerAt stream.bytes start).bytes.length = 512 := by
        rw [headerAt_bytes hstart]
        exact length_chunk hstart
      simp only [payloadPaxChecked_eq ctx after _ s.pos s.paxNextSize (fun _ => hlen ▸ hsize)
        (hlen ▸ hlt), Option.bind_some, true_and]
      intro t ht
      refine Except.ok.inj ht ▸ ⟨⟨?_, ?_⟩, ?_⟩
      · simp only [List.length_append, hheader, hlen]
        omega
      · simp only [List.length_append, hheader, hlen]
        omega
      · simp only [hlen]
        exact hfits

theorem streamEntryChecked_eq (short : Nat → Nat) (after : Nat → List UInt8)
    (start : Nat) {fileSize padded : Nat} (hsize : fileSize ≤ padded) (h : Buffered stream s) :
    streamEntryChecked ctx short stream after start fileSize padded s =
        some (streamEntry ctx stream after start fileSize padded s) ∧
      ∀ t, streamEntry ctx stream after start fileSize padded s = .ok t → Buffered stream t := by
  have hempty : Buffered stream { s with
      held := []
      frames := pushBytesTar ctx (headerAt stream.bytes start).bytes (pushBytesTar ctx s.held
        (if !joinsNextEntry (headerAt stream.bytes start) &&
            !hasSparseExtension (headerAt stream.bytes start) then
          startElementFrame ctx ((s.held.length + 512 + padded) % 2 ^ 64) s.frames
        else s.frames)) } := ⟨⟨rfl, Nat.zero_le _⟩, h.pos_le⟩
  simp only [streamEntryChecked, streamEntry]
  generalize ({ s with
      held := []
      frames := pushBytesTar ctx (headerAt stream.bytes start).bytes (pushBytesTar ctx s.held
        (if !joinsNextEntry (headerAt stream.bytes start) &&
            !hasSparseExtension (headerAt stream.bytes start) then
          startElementFrame ctx ((s.held.length + 512 + padded) % 2 ^ 64) s.frames
        else s.frames)) } : StdinState) = pushed at hempty ⊢
  have hextended :
      extendedChecked ctx short stream (hasSparseExtension (headerAt stream.bytes start)) pushed =
        some (if hasSparseExtension (headerAt stream.bytes start) then
          streamExtensions ctx stream (stream.bytes.length + 1) pushed else .ok pushed) ∧
      ∀ t, (if hasSparseExtension (headerAt stream.bytes start) then
          streamExtensions ctx stream (stream.bytes.length + 1) pushed else .ok pushed) = .ok t →
        Buffered stream t := by
    rw [extendedChecked]
    split
    · exact streamExtensionsChecked_eq short _ hempty
    · exact ⟨rfl, fun t ht => Except.ok.inj ht ▸ hempty⟩
  generalize (if hasSparseExtension (headerAt stream.bytes start) then
    streamExtensions ctx stream (stream.bytes.length + 1) pushed else .ok pushed) = extended
    at hextended ⊢
  rw [hextended.1, Option.bind_eq_bind, Option.bind_some]
  cases extended with
  | error e => exact ⟨rfl, fun t ht => by cases ht⟩
  | ok t =>
      obtain ⟨hpayload, hkept⟩ := streamPayloadChecked_eq ctx short after
        (headerAt stream.bytes start) hsize padded padded (hextended.2 t rfl)
      simp only [hpayload, Option.bind_some]
      cases hu : streamPayload ctx stream after (headerAt stream.bytes start) fileSize padded padded
        padded t with
      | error e => exact ⟨rfl, fun t ht => by cases ht⟩
      | ok u =>
          have hbuffered := hkept u hu
          exact ⟨rfl, fun t ht => Except.ok.inj ht ▸ ⟨hbuffered.held, hbuffered.pos_le⟩⟩

theorem stdinHeaderChecked_eq (ctx : Context) (short : Nat → Nat) (after : Nat → List UInt8)
    (hroom : s.pos + 512 ≤ stream.bytes.length) (h : Buffered stream s) :
    stdinHeaderChecked ctx short after stream s = some (stdinHeader ctx stream after s) ∧
      ∀ t, stdinHeader ctx stream after s = .ok t → Buffered stream t := by
  by_cases hvalid : isTarHeader (headerAt stream.bytes s.pos) = true
  case neg =>
    simp only [stdinHeaderChecked, stdinHeader, hvalid, Bool.not_false, if_true, true_and]
    exact fun t ht => by cases ht
  obtain ⟨⟨size, pax⟩, hsize⟩ : ∃ p, tarEntrySize (headerAt stream.bytes s.pos) s.paxNextSize = p :=
    ⟨_, rfl⟩
  by_cases hlarge : UINT64_MAX - 1024 < size
  case pos =>
    simp only [stdinHeaderChecked, stdinHeader, hvalid, hsize, Bool.not_true, Bool.false_eq_true,
      if_false, if_pos hlarge, true_and]
    exact fun t ht => by cases ht
  have hword := ctx.HELD_SIZE_lt
  obtain ⟨hpadded, hfull⟩ := padded_of_guard (Nat.not_lt.mp hlarge)
  have hmod : (512 + roundUp size) % 2 ^ 64 = 512 + roundUp size := Nat.mod_eq_of_lt hfull
  have hleft : usub ctx.sizeBits HELD_SIZE s.held.length = HELD_SIZE - s.held.length :=
    usub_eq h.held.length_le hword
  have hnext : Buffered stream { s with pos := s.pos + 512, paxNextSize := pax } := ⟨h.held, hroom⟩
  simp only [stdinHeaderChecked, stdinHeader, hvalid, hsize, Bool.not_true, Bool.false_eq_true,
    if_false, if_neg hlarge, hpadded, hmod, hleft, Memory.minus_of_le h.held.length_le,
    Option.bind_eq_bind, Option.bind_some]
  split
  case isTrue hhold =>
    rw [Bool.and_eq_true, decide_eq_true_eq] at hhold
    exact holdEntryChecked_eq short after (le_roundUp size) (roundUp_mod size) hroom hhold.2 hnext
  case isFalse => exact streamEntryChecked_eq short after s.pos (le_roundUp size) hnext

/-- One round writes inside the arrays. -/
theorem stdinStepChecked_eq (short : Nat → Nat) (after : Nat → List UInt8)
    (h : Buffered stream s) :
    stdinStepChecked ctx short after stream s = some (stdinStep ctx after stream s) ∧
      ∀ t, stdinStep ctx after stream s = .next t → Buffered stream t := by
  have hread : Memory.store 512 0 512 = some () := Memory.store_of_le (by omega)
  simp only [stdinStepChecked, stdinStep, hread, finishStdinChecked_eq, flushDueChecked_eq,
    Option.bind_eq_bind, Option.bind_some]
  by_cases hend : (blockAt stream.bytes s.pos).length = 0
  case pos =>
    rw [if_pos hend, if_pos hend]
    split
    · exact ⟨rfl, fun t ht => by cases ht⟩
    · exact ⟨rfl, fun t ht => absurd ht (finishStdin_ne_next ctx s t)⟩
  rw [if_neg hend, if_neg hend]
  by_cases hshort : (blockAt stream.bytes s.pos).length ≠ 512
  case pos =>
    rw [if_pos hshort, if_pos hshort]
    exact ⟨rfl, fun t ht => by cases ht⟩
  rw [if_neg hshort, if_neg hshort]
  have hroom : s.pos + 512 ≤ stream.bytes.length := by
    rw [blockAt, List.length_take, List.length_drop] at hshort
    omega
  cases isZeroTarBlock (blockAt stream.bytes s.pos) with
  | true => exact ⟨rfl, fun t ht => Step.next.inj ht ▸ ⟨h.held, hroom⟩⟩
  | false =>
      have hflushed := flushDue_buffered ctx (s.nullRun ≠ 0) h
      have hpos : (if s.nullRun ≠ 0 then flushHeld ctx s else s).pos = s.pos := by split <;> rfl
      obtain ⟨hheader, hkept⟩ := stdinHeaderChecked_eq ctx short after
        (by rw [hpos]; exact hroom) hflushed
      simp only [Bool.false_eq_true, if_false, hheader, Option.bind_some]
      cases ht : stdinHeader ctx stream after (if s.nullRun ≠ 0 then flushHeld ctx s else s) with
      | error e => exact ⟨rfl, fun t ht => by cases ht⟩
      | ok t => exact ⟨rfl, fun u hu => Step.next.inj hu ▸ hkept t ht⟩

theorem buffered_init (stream : Stream) : Buffered stream .init :=
  ⟨⟨rfl, Nat.zero_le _⟩, Nat.zero_le _⟩

end Steps

/-- In every state that `compressStdinTar` reaches, what is held is whole blocks
that fit in `held`, and the next round writes nothing outside the arrays. -/
theorem stdinStep_in_bounds (ctx : Context) (short : Nat → Nat) (after : Nat → List UInt8)
    {stream : Stream} {s : StdinState} (h : Reached (stdinStep ctx after stream) .init s) :
    HeldFits s.held ∧
      stdinStepChecked ctx short after stream s = some (stdinStep ctx after stream s) := by
  have hbuffered := h.invariant
    (fun s t hs hst => (stdinStepChecked_eq short after hs).2 t hst) (buffered_init stream)
  exact ⟨hbuffered.held, (stdinStepChecked_eq short after hbuffered).1⟩

/-- A round that has a pax header held before it, and one that has a long name held and a
frame open. -/
theorem stdinStep_in_bounds_sample :
    ∃ s t, s.held.length = 1024 ∧ t.held.length = 512 ∧ t.frames.frameOpen = true ∧
      HeldFits s.held ∧
      stdinStepChecked sampleContext.clamp (fun _ => 0) (fun _ => [])
        ⟨sampleArchive.bytes, false⟩ s =
          some (stdinStep sampleContext.clamp (fun _ => []) ⟨sampleArchive.bytes, false⟩ s) ∧
      HeldFits t.held ∧
      stdinStepChecked sampleContext.clamp (fun _ => 0) (fun _ => [])
        ⟨sampleArchive.bytes, false⟩ t =
          some (stdinStep sampleContext.clamp (fun _ => []) ⟨sampleArchive.bytes, false⟩ t) := by
  obtain ⟨s, hs, hheld⟩ :
      ∃ s, follow (stdinStep sampleContext.clamp (fun _ => []) ⟨sampleArchive.bytes, false⟩) 1
        .init = some s ∧ s.held.length = 1024 := by
    decide +kernel
  obtain ⟨t, ht, hheld', hopen⟩ :
      ∃ t, follow (stdinStep sampleContext.clamp (fun _ => []) ⟨sampleArchive.bytes, false⟩) 3
        .init = some t ∧ t.held.length = 512 ∧ t.frames.frameOpen = true := by
    decide +kernel
  obtain ⟨hfits, hchecked⟩ := stdinStep_in_bounds sampleContext.clamp (fun _ => 0) (fun _ => [])
    (reached_of_follow hs)
  obtain ⟨hfits', hchecked'⟩ := stdinStep_in_bounds sampleContext.clamp (fun _ => 0) (fun _ => [])
    (reached_of_follow ht)
  exact ⟨s, t, hheld, hheld', hopen, hfits, hchecked, hfits', hchecked'⟩

end T2sz
