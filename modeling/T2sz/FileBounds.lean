import T2sz.FileProgress
import T2sz.Library.Memory

/-!
The loop over a mapped tar file stays in the map.

`tarStepChecked` is `tarStep` with every access to the buffer made through its
bounds: the block at the cursor, the flag of an extension block, the block behind
a null block, the data of a pax header, and the block that is compressed. An access
outside leaves it without a result.
-/

namespace T2sz

open Iteration

set_option maxRecDepth 4000

def sparseWalkChecked (w : Nat) (input : List UInt8) (idx : Nat) : Nat → Nat → Option Nat
  | 0, sparseExt => some sparseExt
  | fuel + 1, sparseExt =>
      let next := uadd w sparseExt 512
      if (idx + next + 512) % 2 ^ w ≤ input.length then do
        let flag ← Memory.read input ((idx + next + 504) % 2 ^ w)
        if flag ≠ 0 then sparseWalkChecked w input idx fuel next else some next
      else some next

def sparseExtChecked (w : Nat) (input : List UInt8) (idx : Nat) (header : TarHeader) : Option Nat :=
  if hasSparseExtension header then sparseWalkChecked w input idx (input.length + 1) 0
  else some 0

def entryPaxChecked (w : Nat) (after : Nat → List UInt8) (input : List UInt8) (idx : Nat)
    (header : TarHeader) (entrySize paxNextSize : Nat) : Option Nat :=
  if header.typeflag == 0x78 then do
    let data ← Memory.range input (idx + 512) (entrySize % 2 ^ w)
    some (paxSize w data (after (idx + 512 + entrySize)))
  else some paxNextSize

def fileEntryChecked (ctx : Context) (after : Nat → List UInt8) (input : List UInt8)
    (s : FileState) (block : List UInt8) : Option (Except Exit FileState) :=
  let w := ctx.sizeBits
  let header := headerAt block 0
  if isTarHeader header then
    let (entrySize, paxNextSize) := tarEntrySize header s.paxNextSize
    if input.length < entrySize then some (.error .entryTooLarge)
    else do
      let size := paddedSize w entrySize
      let sparseExt ← sparseExtChecked w input s.tarHeaderIdx header
      let toNextHeader := (size + 512 + sparseExt) % 2 ^ w
      let remainingInBuf ← Memory.minus input.length s.tarHeaderIdx
      if remainingInBuf < toNextHeader then some (.error .truncatedEntry)
      else do
        let pax ← entryPaxChecked w after input s.tarHeaderIdx header entrySize paxNextSize
        some (.ok { s with
          paxNextSize := pax
          tarHeaderIdx := uadd w s.tarHeaderIdx toNextHeader
          blockSize := uadd w s.blockSize toNextHeader
          joinNext := joinsNextEntry header
          log := s.log ++ [.entry s.tarHeaderIdx toNextHeader (joinsNextEntry header) pax] })
  else some (.error .invalidHeader)

def nullJoinChecked (w : Nat) (input : List UInt8) (idx : Nat) : Option Bool :=
  if uadd w idx 512 ≤ input.length then (Memory.range input idx 512).map isZeroTarBlock
  else some false

def fileNullChecked (ctx : Context) (input : List UInt8) (s : FileState) : Option FileState := do
  let idx := uadd ctx.sizeBits s.tarHeaderIdx 512
  let joinNext ← nullJoinChecked ctx.sizeBits input idx
  some { s with
    tarHeaderIdx := idx
    blockSize := uadd ctx.sizeBits s.blockSize 512
    joinNext := joinNext
    log := s.log ++ [.null s.tarHeaderIdx] }

def fileElementChecked (ctx : Context) (after : Nat → List UInt8) (input : List UInt8)
    (s : FileState) : Option (Except Exit FileState) :=
  if s.residual ≠ 0 then some (.ok (takeResidual ctx s))
  else if input.length < uadd ctx.sizeBits s.tarHeaderIdx 512 then
    some (.error .truncatedArchive)
  else do
    let block ← Memory.range input s.tarHeaderIdx 512
    if !isZeroTarBlock block then fileEntryChecked ctx after input s block
    else (fileNullChecked ctx input s).map .ok

def emitChecked (input : List UInt8) (s : FileState) : Option FileState := do
  let src ← Memory.range input s.readBuff s.blockSize
  some { s with
    calls := s.calls ++ [.frame src]
    readBuff := s.readBuff + s.blockSize }

def emitBlockChecked (input : List UInt8) (s : FileState) : Option (Step FileState Exit) := do
  let emitted ← emitChecked input s
  if !s.lastChunk || s.residual != 0 then some (.next { emitted with blockSize := 0 })
  else some (.done emitted)

def tarStepChecked (ctx : Context) (after : Nat → List UInt8) (input : List UInt8)
    (s : FileState) : Option (Step FileState Exit) := do
  match ← fileElementChecked ctx after input s with
  | .error e => some (.exit e s)
  | .ok parsed =>
      let t := splitBlock ctx input parsed
      if !t.lastChunk && t.residual == 0 && (t.blockSize < ctx.minBlockSize || t.joinNext) then
        some (.next t)
      else emitBlockChecked input t

section Bounds

variable {ctx : Context} {after : Nat → List UInt8} {input : List UInt8} {s t : FileState}
  {idx : Nat}

theorem range_blockAt (h : idx + 512 ≤ input.length) :
    Memory.range input idx 512 = some (blockAt input idx) := Memory.range_of_le h

theorem headerAt_blockAt (h : idx + 512 ≤ input.length) :
    headerAt (blockAt input idx) 0 = headerAt input idx := by
  have hlen : (blockAt input idx).length = 512 := by
    rw [blockAt, List.length_take, List.length_drop]
    omega
  rw [TarHeader.mk.injEq, headerAt_bytes h, headerAt_bytes (by omega)]
  simp only [blockAt, List.drop_zero]
  rw [List.take_take, Nat.min_self]

theorem sparseWalkChecked_eq {w : Nat} (hw : input.length + 4096 ≤ 2 ^ w) (fuel : Nat) {extra : Nat}
    (hextra : idx + extra + 512 ≤ input.length) :
    sparseWalkChecked w input idx fuel extra = some (sparseWalk w input idx fuel extra) := by
  induction fuel generalizing extra with
  | zero => rfl
  | succ fuel ih =>
      have hnext : uadd w extra 512 = extra + 512 := uadd_eq (by omega)
      have hblock : (idx + (extra + 512) + 512) % 2 ^ w = idx + (extra + 512) + 512 :=
        Nat.mod_eq_of_lt (by omega)
      have hflag : (idx + (extra + 512) + 504) % 2 ^ w = idx + (extra + 512) + 504 :=
        Nat.mod_eq_of_lt (by omega)
      simp only [sparseWalkChecked, sparseWalk, hnext, hblock, hflag]
      by_cases hin : idx + (extra + 512) + 512 ≤ input.length
      · have hlt : idx + (extra + 512) + 504 < input.length := by omega
        rw [if_pos hin, Memory.read_of_lt hlt, List.getD_eq_getElem?_getD,
          List.getElem?_eq_getElem hlt, Option.getD_some, Option.bind_eq_bind, Option.bind_some]
        by_cases hgo : input[idx + (extra + 512) + 504] ≠ 0
        · rw [if_pos hgo, if_pos ⟨hin, hgo⟩]
          exact ih (by omega)
        · rw [if_neg hgo, if_neg fun h => hgo h.2]
      · rw [if_neg hin, if_neg fun h => hin h.1]

theorem sparseExtChecked_eq {w : Nat} (hw : input.length + 4096 ≤ 2 ^ w) (header : TarHeader)
    (hidx : idx + 512 ≤ input.length) :
    sparseExtChecked w input idx header =
      some (if hasSparseExtension header then sparseWalk w input idx (input.length + 1) 0
        else 0) := by
  rw [sparseExtChecked]
  split
  · exact sparseWalkChecked_eq hw _ (by omega)
  · rfl

theorem entryPaxChecked_eq {w entrySize : Nat} (header : TarHeader) (paxNextSize : Nat)
    (hw : entrySize < 2 ^ w) (hdata : idx + 512 + entrySize ≤ input.length) :
    entryPaxChecked w after input idx header entrySize paxNextSize =
      some (if header.typeflag == 0x78 then
          paxSize w ((input.drop (idx + 512)).take (entrySize % 2 ^ w))
            (after (idx + 512 + entrySize))
        else paxNextSize) := by
  rw [entryPaxChecked, Nat.mod_eq_of_lt hw, Memory.range_of_le hdata]
  split <;> rfl

/-- The branch for a header reads the header, its extension blocks and its data. -/
theorem fileEntryChecked_eq (hroom : 2 * input.length + 4096 ≤ 2 ^ ctx.sizeBits)
    (hidx : s.tarHeaderIdx + 512 ≤ input.length) :
    fileEntryChecked ctx after input s (blockAt input s.tarHeaderIdx) =
      some (fileEntry ctx after input s) := by
  simp only [fileEntryChecked, fileEntry, headerAt_blockAt hidx]
  by_cases hvalid : isTarHeader (headerAt input s.tarHeaderIdx) = true
  case neg => rw [if_neg hvalid, if_neg hvalid]
  rw [if_pos hvalid, if_pos hvalid]
  obtain ⟨⟨size, pax⟩, hsize⟩ : ∃ p, tarEntrySize (headerAt input s.tarHeaderIdx)
      s.paxNextSize = p := ⟨_, rfl⟩
  simp only [hsize]
  by_cases hlarge : input.length < size
  case pos => rw [if_pos hlarge, if_pos hlarge]
  rw [if_neg hlarge, if_neg hlarge]
  have hpadded : paddedSize ctx.sizeBits size = roundUp size := paddedSize_eq (by omega)
  have hround := le_roundUp size
  have hroundlt := roundUp_lt size
  have hremaining : usub ctx.sizeBits input.length s.tarHeaderIdx = input.length - s.tarHeaderIdx :=
    usub_eq (by omega) (by omega)
  rw [sparseExtChecked_eq (by omega) _ hidx]
  generalize hextra : (if hasSparseExtension (headerAt input s.tarHeaderIdx) then
    sparseWalk ctx.sizeBits input s.tarHeaderIdx (input.length + 1) 0 else 0) = extra
  have hle : s.tarHeaderIdx + extra ≤ input.length := (sparseExt_spec (by omega) hidx hextra).1
  have hsum : (roundUp size + 512 + extra) % 2 ^ ctx.sizeBits = roundUp size + 512 + extra :=
    Nat.mod_eq_of_lt (by omega)
  rw [Memory.minus_of_le (by omega)]
  simp only [hpadded, hremaining, hsum, Option.bind_eq_bind, Option.bind_some]
  by_cases hfits : input.length - s.tarHeaderIdx < roundUp size + 512 + extra
  · rw [if_pos hfits, if_pos hfits]
  · rw [if_neg hfits, if_neg hfits, entryPaxChecked_eq _ _ (by omega) (by omega)]
    rfl

theorem fileNullChecked_eq (ctx : Context) (input : List UInt8) (s : FileState)
    (hadd : uadd ctx.sizeBits (uadd ctx.sizeBits s.tarHeaderIdx 512) 512 =
      uadd ctx.sizeBits s.tarHeaderIdx 512 + 512) :
    fileNullChecked ctx input s = some (fileNull ctx input s) := by
  have hjoin : nullJoinChecked ctx.sizeBits input (uadd ctx.sizeBits s.tarHeaderIdx 512) =
      some (decide (uadd ctx.sizeBits s.tarHeaderIdx 512 + 512 ≤ input.length) &&
        isZeroTarBlock (blockAt input (uadd ctx.sizeBits s.tarHeaderIdx 512))) := by
    rw [nullJoinChecked, hadd]
    by_cases hin : uadd ctx.sizeBits s.tarHeaderIdx 512 + 512 ≤ input.length
    · rw [if_pos hin, range_blockAt hin, Option.map_some, decide_eq_true hin, Bool.true_and]
    · rw [if_neg hin, decide_eq_false hin, Bool.false_and]
  simp only [fileNullChecked, fileNull, hjoin, hadd, Option.bind_eq_bind, Option.bind_some]

/-- A round of the parser reads inside the buffer. -/
theorem fileElementChecked_eq (hroom : 2 * input.length + 4096 ≤ 2 ^ ctx.sizeBits)
    (hidx : s.tarHeaderIdx ≤ input.length) :
    fileElementChecked ctx after input s = some (fileElement ctx after input s) := by
  have hadd : uadd ctx.sizeBits s.tarHeaderIdx 512 = s.tarHeaderIdx + 512 := uadd_eq (by omega)
  simp only [fileElementChecked, fileElement, hadd]
  by_cases hres : s.residual ≠ 0
  · rw [if_pos hres, if_pos hres]
  · rw [if_neg hres, if_neg hres]
    by_cases hshort : input.length < s.tarHeaderIdx + 512
    · rw [if_pos hshort, if_pos hshort]
    · rw [if_neg hshort, if_neg hshort, range_blockAt (by omega), Option.bind_eq_bind,
        Option.bind_some]
      cases hzero : isZeroTarBlock (blockAt input s.tarHeaderIdx) with
      | false => exact fileEntryChecked_eq hroom (by omega)
      | true =>
          have hnull := fileNullChecked_eq ctx input s (by rw [hadd]; exact uadd_eq (by omega))
          simp only [Bool.not_true, Bool.false_eq_true, if_false, hnull, Option.map_some]

/-- The block that is compressed lies in the buffer. -/
theorem emitBlockChecked_eq (h : s.readBuff + s.blockSize ≤ input.length) :
    emitBlockChecked input s = some (emitBlock input s) := by
  simp only [emitBlockChecked, emitChecked, Memory.range_of_le h, emitBlock, emit,
    Option.bind_eq_bind, Option.bind_some]
  split <;> rfl

/-- A round of the tar loop stays in the buffer. -/
theorem tarStepChecked_eq (hroom : 2 * input.length + 4096 ≤ 2 ^ ctx.sizeBits)
    (hmax : 1 ≤ ctx.maxBlockSize) (h : FileInv ctx input s) :
    tarStepChecked ctx after input s = some (tarStep ctx after input s) := by
  simp only [tarStepChecked, fileElementChecked_eq hroom h.idx_le, Option.bind_eq_bind,
    Option.bind_some, tarStep]
  cases ht : fileElement ctx after input s with
  | error e => rfl
  | ok t =>
      have hgrown := fileElement_grown hroom hmax h ht
      have hcursor := hgrown.cursor
      have hidx := hgrown.idx_le
      simp only
      rw [emitBlockChecked_eq (by omega)]
      split <;> rfl

end Bounds

/-- In every state that the loop over a mapped tar file reaches, the next round
reads nothing outside the map, and compresses nothing outside it. -/
theorem tarStep_in_bounds {ctx : Context} (hw : ctx.sizeBits = 64) (htar : ctx.rawMode = false)
    (after : Nat → List UInt8) {input : List UInt8} (hn : input.length < 2 ^ 62) {s : FileState}
    (h : Reached (fileStep ctx.clamp after input) .init s) :
    tarStepChecked ctx.clamp after input s = some (fileStep ctx.clamp after input s) := by
  have hroom : 2 * input.length + 4096 ≤ 2 ^ ctx.clamp.sizeBits := by
    rw [show ctx.clamp.sizeBits = ctx.sizeBits from rfl, hw]
    omega
  have hstep : fileStep ctx.clamp after input = tarStep ctx.clamp after input :=
    fileStep_tar ctx.clamp htar after input
  rw [hstep] at h ⊢
  have hinv := h.invariant
    (fun s t hs hst => tarStep_keeps hroom ctx.clamp_max_le.1 (And.left hs) hs.2 hst)
    ⟨fileInv_init ctx.clamp input, pieces_init input⟩
  exact tarStepChecked_eq hroom ctx.clamp_max_le.1 hinv.1

/-- A round that has the rest of a split file before it, and one that has the header of
a sparse file with extension blocks. -/
theorem tarStep_in_bounds_sample :
    ∃ s t, s.residual = 48 ∧ t.tarHeaderIdx = 2560 ∧ t.blockSize = 560 ∧
      tarStepChecked sampleContext.clamp (fun _ => []) sampleArchive.bytes s =
        some (fileStep sampleContext.clamp (fun _ => []) sampleArchive.bytes s) ∧
      tarStepChecked sampleContext.clamp (fun _ => []) sampleArchive.bytes t =
        some (fileStep sampleContext.clamp (fun _ => []) sampleArchive.bytes t) := by
  obtain ⟨s, hs, hres⟩ :
      ∃ s, follow (fileStep sampleContext.clamp (fun _ => []) sampleArchive.bytes) 2 .init =
        some s ∧ s.residual = 48 := by
    decide +kernel
  obtain ⟨t, ht, hidx, hblock⟩ :
      ∃ t, follow (fileStep sampleContext.clamp (fun _ => []) sampleArchive.bytes) 4 .init =
        some t ∧ t.tarHeaderIdx = 2560 ∧ t.blockSize = 560 := by
    decide +kernel
  exact ⟨s, t, hres, hidx, hblock,
    tarStep_in_bounds rfl rfl _ sampleArchive_lt (reached_of_follow hs),
    tarStep_in_bounds rfl rfl _ sampleArchive_lt (reached_of_follow ht)⟩

end T2sz
