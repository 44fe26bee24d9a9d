import T2sz.CompressorSpec
import T2sz.FileInput
import T2sz.Scan

/-!
The mapped-file loop is the walk over the elements.

An input of less than half the address space leaves no sum of the loop room to
wrap, so a parsed entry is the recognised one. Rounds that only work off the residual of
a split entry leave the parser where it is: the simulation stutters there. The
invariant ties the two cursors by the block and the residual, and the blocks
emitted so far to the blocks that the cutting rule makes of the elements.
-/

namespace T2sz

open Iteration Blocking

set_option maxRecDepth 4000

/-- The size the file path carries past an entry. -/
def filePaxRule (ctx : Context) (after : Nat → List UInt8) (input : List UInt8) : PaxRule :=
  fun c e =>
    if e.header.typeflag == 0x78 then
      paxSize ctx.sizeBits ((input.drop (c.idx + 512)).take e.size) (after (c.idx + 512 + e.size))
    else e.paxNextSize

/-- The bytes of the extension blocks from `pos` on. The block after one that is all
there and flagged counts, whether it is all there or not. -/
def extensionChain (input : List UInt8) : Nat → Nat → Nat
  | 0, _ => 0
  | fuel + 1, pos =>
      if pos + 512 ≤ input.length ∧ input.getD (pos + 504) 0 ≠ 0 then
        512 + extensionChain input fuel (pos + 512)
      else 512

section Entries

variable {input : List UInt8} {idx : Nat}

/-- The walk counts the chain: nothing wraps on the way. -/
theorem sparseWalk_eq {w : Nat} (hw : input.length + 4096 ≤ 2 ^ w) (fuel : Nat) {extra : Nat}
    (hextra : idx + extra + 512 ≤ input.length) :
    sparseWalk w input idx fuel extra =
      extra + extensionChain input fuel (idx + extra + 512) := by
  induction fuel generalizing extra with
  | zero => rfl
  | succ fuel ih =>
      have hnext : uadd w extra 512 = extra + 512 := uadd_eq (by omega)
      have hblock : (idx + (extra + 512) + 512) % 2 ^ w = idx + extra + 512 + 512 := by
        rw [Nat.mod_eq_of_lt (by omega)]
        omega
      have hflag : (idx + (extra + 512) + 504) % 2 ^ w = idx + extra + 512 + 504 := by
        rw [Nat.mod_eq_of_lt (by omega)]
        omega
      simp only [sparseWalk, extensionChain, hnext, hblock, hflag]
      split
      case isTrue hmore =>
        rw [ih (by omega), ← Nat.add_assoc idx, Nat.add_assoc extra]
      case isFalse => rfl

/-- Only the last block of the chain may lie behind the input. -/
theorem extensionChain_le (fuel : Nat) {pos : Nat} (hpos : pos ≤ input.length) :
    pos + extensionChain input fuel pos ≤ input.length + 512 := by
  induction fuel generalizing pos with
  | zero =>
      rw [extensionChain]
      omega
  | succ fuel ih =>
      rw [extensionChain]
      split
      case isTrue hmore =>
        have hrest := ih hmore.1
        omega
      case isFalse => omega

/-- The chain is what the extension blocks take, or leaves the buffer. -/
theorem extensionChain_spec (fuel : Nat) {pos : Nat} (hpos : pos ≤ input.length)
    (hfuel : input.length < pos + 512 * fuel) :
    (∀ n, extensionBytes input fuel pos = some n → n = extensionChain input fuel pos) ∧
    (extensionBytes input fuel pos = none →
      input.length < pos + extensionChain input fuel pos) := by
  induction fuel generalizing pos with
  | zero => omega
  | succ fuel ih =>
      simp only [extensionBytes, extensionChain]
      by_cases hin : pos + 512 ≤ input.length
      · obtain ⟨hsome, hnone⟩ := ih hin (by omega)
        rw [if_neg (Nat.not_lt.mpr hin)]
        by_cases hbyte : input.getD (pos + 504) 0 ≠ 0
        · rw [if_pos hbyte, if_pos ⟨hin, hbyte⟩]
          constructor
          · intro n hn
            rw [Option.map_eq_some_iff] at hn
            obtain ⟨m, hm, rfl⟩ := hn
            rw [hsome m hm]
          · intro hn
            rw [Option.map_eq_none_iff] at hn
            have hbehind := hnone hn
            omega
        · rw [if_neg hbyte, if_neg (fun h => hbyte h.2)]
          constructor
          · intro n hn
            cases hn
            rfl
          · intro hn
            cases hn
      · rw [if_pos (by omega), if_neg (fun h => hin h.1)]
        constructor
        · intro n hn
          cases hn
        · intro _
          omega

/-- The code's count of an entry's extension blocks is the walk's, if they are all
there; if not, they lead behind the last byte. -/
theorem sparseExt_spec {w : Nat} (hw : input.length + 4096 ≤ 2 ^ w)
    (hidx : idx + 512 ≤ input.length) {header : TarHeader} {extra : Nat}
    (hextra : (if hasSparseExtension header then
      sparseWalk w input idx (input.length + 1) 0 else 0) = extra) :
    idx + extra ≤ input.length ∧
      (∀ n, sparseBytes input idx header = some n → n = extra) ∧
      (sparseBytes input idx header = none → input.length < idx + 512 + extra) := by
  by_cases hflag : hasSparseExtension header = true
  · rw [if_pos hflag, sparseWalk_eq hw _ hidx, Nat.zero_add, Nat.add_zero] at hextra
    have hle := extensionChain_le (input.length + 1) hidx
    have hspec := extensionChain_spec (input.length + 1) hidx (by omega)
    rw [hextra] at hle hspec
    rw [sparseBytes, if_pos hflag]
    exact ⟨by omega, hspec⟩
  · rw [if_neg hflag] at hextra
    simp only [sparseBytes, if_neg hflag, Option.some.injEq, reduceCtorEq, false_implies, and_true]
    exact ⟨by omega, fun n hn => hn.symm.trans hextra⟩

end Entries

section Refinement

variable {ctx : Context} {after : Nat → List UInt8} {input : List UInt8} {s t : FileState}

/-- What a round of the parser can do: it takes a part of the residual, a null
block, or an entry that fits in the rest of the buffer. -/
theorem fileElement_cases (h : fileElement ctx after input s = .ok t) :
    (s.residual ≠ 0 ∧ t = takeResidual ctx s) ∨
    (s.residual = 0 ∧ uadd ctx.sizeBits s.tarHeaderIdx 512 ≤ input.length ∧
      (t = fileNull ctx input s ∨ ∃ toNextHeader joinNext paxNextSize,
        toNextHeader ≤ usub ctx.sizeBits input.length s.tarHeaderIdx ∧
        t = { s with
          paxNextSize := paxNextSize
          tarHeaderIdx := uadd ctx.sizeBits s.tarHeaderIdx toNextHeader
          blockSize := uadd ctx.sizeBits s.blockSize toNextHeader
          joinNext := joinNext
          log := s.log ++ [.entry s.tarHeaderIdx toNextHeader joinNext paxNextSize] })) := by
  by_cases hres : s.residual ≠ 0
  · rw [fileElement, if_pos hres, Except.ok.injEq] at h
    exact .inl ⟨hres, h.symm⟩
  · rw [fileElement, if_neg hres] at h
    by_cases hshort : input.length < uadd ctx.sizeBits s.tarHeaderIdx 512
    · rw [if_pos hshort] at h
      cases h
    · rw [if_neg hshort] at h
      refine .inr ⟨not_not.mp hres, Nat.not_lt.mp hshort, ?_⟩
      cases hzero : isZeroTarBlock (blockAt input s.tarHeaderIdx) with
      | true =>
          simp only [hzero, Bool.not_true, Bool.false_eq_true, if_false, Except.ok.injEq] at h
          exact .inl h.symm
      | false =>
          simp only [hzero, Bool.not_false, if_true, fileEntry] at h
          by_cases hvalid : isTarHeader (headerAt input s.tarHeaderIdx) = true
          · rw [if_pos hvalid] at h
            by_cases hlarge : input.length <
                (tarEntrySize (headerAt input s.tarHeaderIdx) s.paxNextSize).1
            · rw [if_pos hlarge] at h
              cases h
            · rw [if_neg hlarge] at h
              generalize (paddedSize ctx.sizeBits _ + 512 + _) % 2 ^ ctx.sizeBits =
                toNextHeader at h
              by_cases hfits : usub ctx.sizeBits input.length s.tarHeaderIdx < toNextHeader
              · rw [if_pos hfits] at h
                cases h
              · rw [if_neg hfits, Except.ok.injEq] at h
                exact .inr ⟨_, _, _, Nat.not_lt.mp hfits, h.symm⟩
          · rw [if_neg hvalid] at h
            cases h

/-- The branch for a header, in exact numbers, if the sum does not wrap. -/
theorem fileEntry_eq (hword : input.length + 4096 ≤ 2 ^ ctx.sizeBits)
    (hidx : s.tarHeaderIdx + 512 ≤ input.length) (hblock : s.blockSize ≤ s.tarHeaderIdx)
    {size pax extra : Nat} (hvalid : isTarHeader (headerAt input s.tarHeaderIdx) = true)
    (hsize : tarEntrySize (headerAt input s.tarHeaderIdx) s.paxNextSize = (size, pax))
    (hle : size ≤ input.length)
    (hextra : (if hasSparseExtension (headerAt input s.tarHeaderIdx) then
      sparseWalk ctx.sizeBits input s.tarHeaderIdx (input.length + 1) 0 else 0) = extra)
    (hsum : roundUp size + 512 + extra < 2 ^ ctx.sizeBits) {e : Entry}
    (he : e = ⟨headerAt input s.tarHeaderIdx, size, pax, extra⟩) :
    fileEntry ctx after input s =
      if s.tarHeaderIdx + e.length ≤ input.length then .ok { s with
        tarHeaderIdx := s.tarHeaderIdx + e.length
        blockSize := s.blockSize + e.length
        joinNext := joinsNextEntry e.header
        paxNextSize := filePaxRule ctx after input ⟨s.tarHeaderIdx, s.paxNextSize, 0, s.log⟩ e
        log := s.log ++ [.entry s.tarHeaderIdx e.length (joinsNextEntry e.header)
          (filePaxRule ctx after input ⟨s.tarHeaderIdx, s.paxNextSize, 0, s.log⟩ e)] }
      else .error .truncatedEntry := by
  have hremaining : usub ctx.sizeBits input.length s.tarHeaderIdx = input.length - s.tarHeaderIdx :=
    usub_eq (by omega) (by omega)
  have hround := roundUp_lt size
  have hpadded : paddedSize ctx.sizeBits size = roundUp size := paddedSize_eq (by omega)
  have hmod : size % 2 ^ ctx.sizeBits = size := Nat.mod_eq_of_lt (by omega)
  have hlen : e.length = roundUp size + 512 + extra := by
    simp only [he, Entry.length]
    omega
  have hnext : (roundUp size + 512 + extra) % 2 ^ ctx.sizeBits = e.length := by
    rw [Nat.mod_eq_of_lt (by omega), hlen]
  simp only [fileEntry, hvalid, if_true, hsize, if_neg (Nat.not_lt.mpr hle), hpadded, hextra,
    hnext, hremaining, hmod]
  by_cases hfits : s.tarHeaderIdx + e.length ≤ input.length
  · rw [if_pos hfits, if_neg (by omega), uadd_eq (by omega), uadd_eq (by omega), he]
    rfl
  · rw [if_neg hfits, if_pos (by omega)]

/-- The branch for a header whose size the input covers finds the recognised entry, or
the entry is truncated. -/
theorem fileEntry_exact (hword : input.length + 4096 ≤ 2 ^ ctx.sizeBits)
    (hidx : s.tarHeaderIdx + 512 ≤ input.length) (hblock : s.blockSize ≤ s.tarHeaderIdx)
    {size pax extra : Nat} (hvalid : isTarHeader (headerAt input s.tarHeaderIdx) = true)
    (hsize : tarEntrySize (headerAt input s.tarHeaderIdx) s.paxNextSize = (size, pax))
    (hle : size ≤ input.length)
    (hextra : (if hasSparseExtension (headerAt input s.tarHeaderIdx) then
      sparseWalk ctx.sizeBits input s.tarHeaderIdx (input.length + 1) 0 else 0) = extra)
    (hsum : roundUp size + 512 + extra < 2 ^ ctx.sizeBits) :
    (recognise input s.tarHeaderIdx s.paxNextSize = none →
      fileEntry ctx after input s = .error .truncatedEntry) ∧
    ∀ e, recognise input s.tarHeaderIdx s.paxNextSize = some e →
      fileEntry ctx after input s = .ok { s with
        tarHeaderIdx := s.tarHeaderIdx + e.length
        blockSize := s.blockSize + e.length
        joinNext := joinsNextEntry e.header
        paxNextSize := filePaxRule ctx after input ⟨s.tarHeaderIdx, s.paxNextSize, 0, s.log⟩ e
        log := s.log ++ [.entry s.tarHeaderIdx e.length (joinsNextEntry e.header)
          (filePaxRule ctx after input ⟨s.tarHeaderIdx, s.paxNextSize, 0, s.log⟩ e)] } := by
  obtain ⟨-, hsome, hnone⟩ := sparseExt_spec hword hidx hextra
  constructor
  case left =>
    intro hrec
    rw [fileEntry_eq hword hidx hblock hvalid hsize hle hextra hsum rfl, if_neg]
    rw [recognise_eq_none_iff hvalid hsize] at hrec
    simp only [Entry.length]
    cases hbytes : sparseBytes input s.tarHeaderIdx (headerAt input s.tarHeaderIdx) with
    | none =>
        have hbehind := hnone hbytes
        omega
    | some n =>
        have hbehind := hrec n hbytes
        rw [hsome n hbytes] at hbehind
        exact Nat.not_le.mpr hbehind
  case right =>
    intro e hrec
    obtain ⟨hheader, -, hread, hbytes, hfits⟩ := recognise_spec hrec
    rw [hheader] at hread hbytes
    obtain ⟨rfl, rfl⟩ := Prod.mk.inj (hread.trans hsize)
    have he : e = ⟨headerAt input s.tarHeaderIdx, e.size, e.paxNextSize, extra⟩ := by
      rw [← hheader, ← hsome _ hbytes]
    rw [fileEntry_eq hword hidx hblock hvalid hsize hle hextra hsum he, if_pos hfits]

/-- The branch for a header finds the recognised entry, or fails. -/
theorem fileEntry_recognise (hroom : 2 * input.length + 4096 ≤ 2 ^ ctx.sizeBits)
    (hidx : s.tarHeaderIdx + 512 ≤ input.length) (hblock : s.blockSize ≤ s.tarHeaderIdx) :
    (recognise input s.tarHeaderIdx s.paxNextSize = none →
      ∃ e, fileEntry ctx after input s = .error e) ∧
    ∀ e, recognise input s.tarHeaderIdx s.paxNextSize = some e →
      fileEntry ctx after input s = .ok { s with
        tarHeaderIdx := s.tarHeaderIdx + e.length
        blockSize := s.blockSize + e.length
        joinNext := joinsNextEntry e.header
        paxNextSize := filePaxRule ctx after input ⟨s.tarHeaderIdx, s.paxNextSize, 0, s.log⟩ e
        log := s.log ++ [.entry s.tarHeaderIdx e.length (joinsNextEntry e.header)
          (filePaxRule ctx after input ⟨s.tarHeaderIdx, s.paxNextSize, 0, s.log⟩ e)] } := by
  have hword : input.length + 4096 ≤ 2 ^ ctx.sizeBits := by omega
  obtain ⟨extra, hextra⟩ : ∃ extra, (if hasSparseExtension (headerAt input s.tarHeaderIdx) then
      sparseWalk ctx.sizeBits input s.tarHeaderIdx (input.length + 1) 0 else 0) = extra := ⟨_, rfl⟩
  have hinside := (sparseExt_spec hword hidx hextra).1
  obtain ⟨⟨size, pax⟩, hsize⟩ : ∃ p, tarEntrySize (headerAt input s.tarHeaderIdx)
      s.paxNextSize = p := ⟨_, rfl⟩
  have hround := roundUp_lt size
  constructor
  case left =>
    intro hrec
    by_cases hvalid : isTarHeader (headerAt input s.tarHeaderIdx) = true
    case neg => exact ⟨.invalidHeader, by simp [fileEntry, hvalid]⟩
    by_cases hlarge : input.length < size
    case pos => exact ⟨.entryTooLarge, by simp [fileEntry, hvalid, hsize, hlarge]⟩
    exact ⟨.truncatedEntry, (fileEntry_exact hword hidx hblock hvalid hsize
      (Nat.not_lt.mp hlarge) hextra (by omega)).1 hrec⟩
  case right =>
    intro e hrec
    obtain ⟨hheader, hvalid, hread, -, hfits⟩ := recognise_spec hrec
    rw [hheader] at hvalid hread
    obtain ⟨rfl, rfl⟩ := Prod.mk.inj (hread.trans hsize)
    have hle := le_roundUp e.size
    simp only [Entry.length] at hfits
    exact (fileEntry_exact hword hidx hblock hvalid hsize (by omega) hextra (by omega)).2 e hrec

end Refinement

/-- There is a null block at `idx`. -/
def nullAt (input : List UInt8) (idx : Nat) : Bool :=
  idx + 512 ≤ input.length && isZeroTarBlock (blockAt input idx)

/-- What holds in every round, with `blockSize + residual` bytes parsed and not
yet given to the compressor. -/
structure FileCore (ctx : Context) (input : List UInt8) (s : FileState) : Prop where
  cursor : s.readBuff + (s.blockSize + s.residual) = s.tarHeaderIdx
  idx_le : s.tarHeaderIdx ≤ input.length
  logged : s.log = [] → s.tarHeaderIdx = 0
  fed : fedBytes s.calls = input.take s.readBuff
  frames : ∀ call ∈ s.calls, ∃ src, call = .frame src
  joins : ∀ next : Option Element, next.any Element.isNull = nullAt input s.tarHeaderIdx →
    lastJoins s.log next = s.joinNext
  blocks : Blocking.run ctx.minBlockSize ctx.maxBlockSize (openSpans s.log s.joinNext) =
    ((Blocks.mk (recordedSizes s.calls) 0).fill ctx.maxBlockSize
      (s.blockSize + s.residual)).settle ctx.minBlockSize s.joinNext

/-- The invariant at the head of the inner loop. -/
structure FileInv (ctx : Context) (input : List UInt8) (s : FileState) : Prop
    extends FileCore ctx input s where
  alone : s.residual ≠ 0 → s.blockSize = 0
  pending : s.residual = 0 →
    s.blockSize = 0 ∨ s.blockSize < ctx.minBlockSize ∨ s.joinNext = true
  unfinished : s.residual = 0 → s.tarHeaderIdx < input.length ∨ s.log = []

/-- The state after an element was added to the block and the block was cut. -/
structure FileGrown (ctx : Context) (input : List UInt8) (s : FileState) : Prop
    extends FileCore ctx input s where
  pos : 0 < s.blockSize
  le_max : s.blockSize ≤ ctx.maxBlockSize
  cut : s.residual ≠ 0 → s.blockSize = ctx.maxBlockSize
  last : s.lastChunk = decide (input.length ≤ s.tarHeaderIdx)

/-- What the file path has done when its loop ends. -/
structure FileDone (ctx : Context) (input : List UInt8) (s : FileState) : Prop where
  idx_eq : s.tarHeaderIdx = input.length
  fed : fedBytes s.calls = input
  frames : ∀ call ∈ s.calls, ∃ src, call = .frame src
  sizes : recordedSizes s.calls =
    Blocking.sizes ctx.minBlockSize ctx.maxBlockSize (spans s.log)
  nonempty : recordedSizes s.calls ≠ []

/-- The end of a round of the inner loop. -/
def closeRound (ctx : Context) (input : List UInt8) (t : FileState) : Step FileState Exit :=
  if !t.lastChunk && t.residual == 0 && (t.blockSize < ctx.minBlockSize || t.joinNext) then
    .next t
  else emitBlock input t

/-- `t` is where `s` is in the input. -/
def SamePlace (s t : FileState) : Prop :=
  t.tarHeaderIdx = s.tarHeaderIdx ∧ t.paxNextSize = s.paxNextSize ∧ t.log = s.log

/-- Bounds the rounds that are left: one for each byte to parse or to emit. -/
def roundsLeft (input : List UInt8) (s : FileState) : Nat :=
  2 * (input.length - s.tarHeaderIdx) + (input.length - s.readBuff) + min s.residual 1

section Rounds

variable {ctx : Context} {input : List UInt8} {s t : FileState}

/-- The buffer handed to the compressor is the next piece of the input. -/
theorem fed_emit (h : fedBytes s.calls = input.take s.readBuff) :
    fedBytes (s.calls ++ [.frame ((input.drop s.readBuff).take s.blockSize)]) =
      input.take (s.readBuff + s.blockSize) := by
  rw [fedBytes_append, h, List.take_add]
  simp [fedBytes]

theorem frames_emit (h : ∀ call ∈ s.calls, ∃ src, call = .frame src) (src : List UInt8) :
    ∀ call ∈ s.calls ++ [.frame src], ∃ src, call = .frame src := by
  intro call hcall
  rw [List.mem_append, List.mem_singleton] at hcall
  exact hcall.elim (h call) (fun hnew => ⟨src, hnew⟩)

/-- The length of the emitted piece is the block size, as the block is in the input. -/
theorem recordedSizes_emit (h : FileCore ctx input s) :
    recordedSizes (s.calls ++ [.frame ((input.drop s.readBuff).take s.blockSize)]) =
      recordedSizes s.calls ++ [s.blockSize] := by
  have hcursor := h.cursor
  have hidx := h.idx_le
  have hlen : ((input.drop s.readBuff).take s.blockSize).length = s.blockSize := by
    rw [List.length_take, List.length_drop]
    omega
  rw [recordedSizes_append]
  simp [recordedSizes, hlen]

theorem FileCore.lastJoins_none (h : FileCore ctx input s)
    (hend : s.tarHeaderIdx = input.length) : lastJoins s.log none = s.joinNext :=
  h.joins none (by simp [nullAt, hend])

/-- A block is emitted when the input ends, when it was cut, or when the end of
a group closes it. -/
theorem emitBlock_spec (hmax : 1 ≤ ctx.maxBlockSize) (h : FileGrown ctx input t)
    (hstop : ¬ (!t.lastChunk && t.residual == 0 &&
      (t.blockSize < ctx.minBlockSize || t.joinNext)) = true) :
    (∃ u, emitBlock input t = .next u ∧ FileInv ctx input u ∧ SamePlace t u) ∨
      (∃ u, emitBlock input t = .done u ∧ FileDone ctx input u ∧ SamePlace t u ∧ u.log ≠ []) := by
  have hcursor := h.cursor
  have hpos := h.pos
  have hfed := fed_emit h.fed
  have hframes := frames_emit h.frames ((input.drop t.readBuff).take t.blockSize)
  have hsizes := recordedSizes_emit h.toFileCore
  by_cases hmore : (!t.lastChunk || t.residual != 0) = true
  · refine .inl ⟨{ emit input t with blockSize := 0 }, if_pos hmore, ?_, rfl, rfl, rfl⟩
    have hemit : t.blockSize = ctx.maxBlockSize ∨ (0 < t.blockSize ∧
        t.blockSize < ctx.maxBlockSize ∧ t.residual = 0 ∧ t.joinNext = false ∧
        ctx.minBlockSize ≤ t.blockSize) := by
      by_cases hres : t.residual = 0
      · have hlast : t.lastChunk = false := by simpa [hres] using hmore
        simp only [hlast, hres, Bool.not_false, beq_self_eq_true, Bool.true_and, Bool.or_eq_true,
          decide_eq_true_eq, not_or, Nat.not_lt, Bool.not_eq_true] at hstop
        have := h.le_max
        cases Nat.lt_or_eq_of_le this with
        | inl hlt => exact .inr ⟨hpos, hlt, hres, hstop.2, hstop.1⟩
        | inr heq => exact .inl heq
      · exact .inl (h.cut hres)
    refine ⟨⟨?_, h.idx_le, h.logged, hfed, hframes, h.joins, ?_⟩, ?_, ?_, ?_⟩
    · simp only [emit]
      omega
    · simp only [emit]
      rw [h.blocks, Blocks.settle_fill_emit hmax _ hemit, hsizes, Nat.zero_add]
    · intro _
      rfl
    · intro _
      exact .inl rfl
    · intro hres
      have hlast : t.lastChunk = false := by simpa [show t.residual = 0 from hres] using hmore
      rw [h.last, decide_eq_false_iff_not] at hlast
      exact .inl (Nat.lt_of_not_le hlast)
  · refine .inr ⟨emit input t, if_neg hmore, ?_, ⟨rfl, rfl, rfl⟩, ?_⟩
    · have hdone : t.lastChunk = true ∧ t.residual = 0 := by simpa using hmore
      have hlast := hdone.1
      rw [h.last, decide_eq_true_eq] at hlast
      have hidx : t.tarHeaderIdx = input.length := Nat.le_antisymm h.idx_le hlast
      have hread : t.readBuff + t.blockSize = input.length := by omega
      refine ⟨hidx, ?_, hframes, ?_, ?_⟩
      · simp only [emit]
        rw [hfed, hread, List.take_length]
      · simp only [emit]
        rw [hsizes, spans, h.toFileCore.lastJoins_none hidx, Blocking.sizes, h.blocks,
          Blocks.finish_settle, hdone.2, Nat.add_zero, Blocks.finish_fill hpos h.le_max]
      · simp only [emit]
        rw [hsizes]
        simp
    · intro hlog
      have := h.logged hlog
      omega

theorem splitBlock_grown (hmax : 1 ≤ ctx.maxBlockSize) (h : FileCore ctx input s)
    (hpos : 0 < s.blockSize) (hcut : s.residual = 0 ∨ s.blockSize = ctx.maxBlockSize) :
    FileGrown ctx input (splitBlock ctx input s) := by
  have hcursor := h.cursor
  have hblocks := h.blocks
  by_cases hsplit : ctx.maxBlockSize ≠ 0 ∧ ctx.maxBlockSize < s.blockSize
  · have hres : s.residual = 0 := by omega
    have heq : splitBlock ctx input s = { s with
        blockSize := ctx.maxBlockSize
        residual := s.blockSize - ctx.maxBlockSize
        lastChunk := decide (input.length ≤ s.tarHeaderIdx) } := by
      simp only [splitBlock, if_pos hsplit]
    have hsum : ctx.maxBlockSize + (s.blockSize - ctx.maxBlockSize) =
        s.blockSize + s.residual := by omega
    rw [heq]
    refine ⟨⟨?_, h.idx_le, h.logged, h.fed, h.frames, h.joins, ?_⟩, hmax, Nat.le_refl _, ?_, rfl⟩
    · simp only [hsum]
      exact hcursor
    · simp only [hsum]
      exact hblocks
    · intro _
      rfl
  · have heq : splitBlock ctx input s = { s with
        lastChunk := decide (input.length ≤ s.tarHeaderIdx) } := by
      simp only [splitBlock, if_neg hsplit]
    rw [heq]
    refine ⟨⟨hcursor, h.idx_le, h.logged, h.fed, h.frames, h.joins, hblocks⟩, hpos, ?_, ?_, rfl⟩
    · simp only
      omega
    · intro hres
      exact hcut.resolve_left hres

/-- A round that works off the residual. -/
theorem takeResidual_core (h : FileInv ctx input s) (hres : s.residual ≠ 0)
    (hmax : 1 ≤ ctx.maxBlockSize) :
    FileCore ctx input (takeResidual ctx s) ∧ 0 < (takeResidual ctx s).blockSize ∧
      ((takeResidual ctx s).residual = 0 ∨ (takeResidual ctx s).blockSize = ctx.maxBlockSize) ∧
      SamePlace s (takeResidual ctx s) := by
  have hblock := h.alone hres
  have hcursor := h.cursor
  have hblocks := h.blocks
  by_cases hlarge : ctx.maxBlockSize < s.residual
  · have hsum : ctx.maxBlockSize + (s.residual - ctx.maxBlockSize) = s.blockSize + s.residual := by
      omega
    simp only [takeResidual, if_pos hlarge]
    refine ⟨⟨?_, h.idx_le, h.logged, h.fed, h.frames, h.joins, ?_⟩, hmax, .inr trivial,
      rfl, rfl, rfl⟩
    · simp only [hsum]
      exact hcursor
    · simp only [hsum]
      exact hblocks
  · have hsum : s.residual + 0 = s.blockSize + s.residual := by omega
    simp only [takeResidual, if_neg hlarge]
    refine ⟨⟨?_, h.idx_le, h.logged, h.fed, h.frames, h.joins, ?_⟩, Nat.pos_of_ne_zero hres,
      .inl trivial, rfl, rfl, rfl⟩
    · simp only [hsum]
      exact hcursor
    · simp only [hsum]
      exact hblocks

/-- A round that parses the element `e`. -/
theorem parsed_core (hmax : 1 ≤ ctx.maxBlockSize) (h : FileInv ctx input s) (hres : s.residual = 0)
    {e : Element} {join : Bool} (pax : Nat)
    (hfits : s.tarHeaderIdx + e.length ≤ input.length)
    (hnull : e.isNull = nullAt input s.tarHeaderIdx)
    (hjoin : ∀ next : Option Element,
      next.any Element.isNull = nullAt input (s.tarHeaderIdx + e.length) → e.joins next = join) :
    FileCore ctx input { s with
      tarHeaderIdx := s.tarHeaderIdx + e.length
      blockSize := s.blockSize + e.length
      joinNext := join
      paxNextSize := pax
      log := s.log ++ [e] } := by
  have hcursor := h.cursor
  have hlast : lastJoins s.log (some e) = s.joinNext := h.joins (some e) (by simpa using hnull)
  refine ⟨?_, hfits, ?_, h.fed, h.frames, ?_, ?_⟩
  · simp only
    omega
  · simp
  · intro next hnext
    simp only [lastJoins_append]
    exact hjoin next hnext
  · simp only [hres, Nat.add_zero]
    have hblocks := h.blocks
    rw [hres, Nat.add_zero, Blocks.settle_fill_of_pending _ (h.pending hres)] at hblocks
    rw [openSpans_append, hlast, Blocking.run_append, hblocks, Blocks.add,
      Blocks.fill_fill hmax]

/-- The end of a round: the loop goes on, or the block is emitted. -/
theorem closeRound_spec (hmax : 1 ≤ ctx.maxBlockSize) (h : FileGrown ctx input t) :
    (∃ u, closeRound ctx input t = .next u ∧ FileInv ctx input u ∧ SamePlace t u) ∨
      (∃ u, closeRound ctx input t = .done u ∧ FileDone ctx input u ∧ SamePlace t u ∧
        u.log ≠ []) := by
  by_cases hgo : (!t.lastChunk && t.residual == 0 &&
      (t.blockSize < ctx.minBlockSize || t.joinNext)) = true
  · refine .inl ⟨t, if_pos hgo, ⟨h.toFileCore, ?_, ?_, ?_⟩, rfl, rfl, rfl⟩
    · intro hres
      simp [hres] at hgo
    · intro _
      simp only [Bool.and_eq_true, Bool.or_eq_true, decide_eq_true_eq] at hgo
      exact .inr hgo.2
    · intro _
      simp only [Bool.and_eq_true, Bool.not_eq_true'] at hgo
      have hlast := h.last
      rw [hgo.1.1] at hlast
      exact .inl (Nat.lt_of_not_le (decide_eq_false_iff_not.mp hlast.symm))
  · have hround : closeRound ctx input t = emitBlock input t := if_neg hgo
    rw [hround]
    exact emitBlock_spec hmax h hgo

theorem closeRound_left (h : FileGrown ctx input t) {u : FileState}
    (hu : closeRound ctx input t = .next u) :
    roundsLeft input u ≤ roundsLeft input t ∧
      (t.residual ≠ 0 → roundsLeft input u < roundsLeft input t) := by
  have hcursor := h.cursor
  have hidx := h.idx_le
  have hpos := h.pos
  simp only [closeRound, emitBlock] at hu
  split at hu
  case isTrue hgo =>
    cases hu
    refine ⟨Nat.le_refl _, fun hres => ?_⟩
    simp [hres] at hgo
  case isFalse =>
    split at hu
    · cases hu
      simp only [roundsLeft, emit]
      omega
    · cases hu

/-- The cursor of the walk is where the parser is. -/
structure At (s : FileState) (c : Cursor) : Prop where
  idx : c.idx = s.tarHeaderIdx
  pax : c.paxNextSize = s.paxNextSize
  log : c.log = s.log

theorem At.of_same {c : Cursor} (h : At s c) (hst : SamePlace s t) : At t c :=
  ⟨h.idx.trans hst.1.symm, h.pax.trans hst.2.1.symm, h.log.trans hst.2.2.symm⟩

end Rounds

section Simulation

variable {ctx : Context} {after : Nat → List UInt8} {input : List UInt8} {s : FileState}
  {c d : Cursor}

theorem splitBlock_same (ctx : Context) (input : List UInt8) (s : FileState) :
    SamePlace s (splitBlock ctx input s) := by
  simp only [splitBlock]
  split <;> exact ⟨rfl, rfl, rfl⟩

/-- Without an element at the cursor the parser fails. -/
theorem fileElement_stuck (hroom : 2 * input.length + 4096 ≤ 2 ^ ctx.sizeBits)
    (h : FileInv ctx input s) (hres : s.residual = 0) (hc : At s c)
    (hnone : nextCursor (filePaxRule ctx after input) input c = none) :
    ∃ e, fileElement ctx after input s = .error e := by
  have hidx := h.idx_le
  have hcursor := h.cursor
  have hadd : uadd ctx.sizeBits s.tarHeaderIdx 512 = s.tarHeaderIdx + 512 := by
    exact uadd_eq (by omega)
  simp only [fileElement, hres, ne_eq, not_true_eq_false, if_false, hadd]
  simp only [nextCursor, hc.idx, hc.pax] at hnone
  by_cases hshort : input.length < s.tarHeaderIdx + 512
  · exact ⟨_, if_pos hshort⟩
  · rw [if_neg hshort] at hnone ⊢
    by_cases hzero : isZeroTarBlock (blockAt input s.tarHeaderIdx) = true
    · simp [hzero] at hnone
    · simp only [Bool.not_eq_true] at hzero
      simp only [hzero, Bool.false_eq_true, if_false, Option.map_eq_none_iff] at hnone
      simp only [hzero, Bool.not_false, if_true]
      exact (fileEntry_recognise hroom (by omega) (by omega)).1 hnone

/-- A null block goes into the block. -/
theorem fileNull_next (hword : input.length + 4096 ≤ 2 ^ ctx.sizeBits)
    (hmax : 1 ≤ ctx.maxBlockSize) (h : FileInv ctx input s) (hres : s.residual = 0) (hc : At s c)
    (hblock : s.tarHeaderIdx + 512 ≤ input.length)
    (hzero : isZeroTarBlock (blockAt input s.tarHeaderIdx) = true) :
    FileCore ctx input (fileNull ctx input s) ∧ 0 < (fileNull ctx input s).blockSize ∧
      (fileNull ctx input s).residual = 0 ∧ (fileNull ctx input s).readBuff = s.readBuff ∧
      At (fileNull ctx input s) c.pastNull := by
  have hidx := h.idx_le
  have hcursor := h.cursor
  have hadd : uadd ctx.sizeBits s.tarHeaderIdx 512 = s.tarHeaderIdx + 512 := uadd_eq (by omega)
  have hsize : uadd ctx.sizeBits s.blockSize 512 = s.blockSize + 512 := uadd_eq (by omega)
  have hnext : uadd ctx.sizeBits (s.tarHeaderIdx + 512) 512 = s.tarHeaderIdx + 512 + 512 :=
    uadd_eq (by omega)
  have hnull : fileNull ctx input s = { s with
      tarHeaderIdx := s.tarHeaderIdx + 512
      blockSize := s.blockSize + 512
      joinNext := nullAt input (s.tarHeaderIdx + 512)
      log := s.log ++ [.null s.tarHeaderIdx] } := by
    simp only [fileNull, hadd, hsize, hnext, nullAt]
  rw [hnull]
  refine ⟨?_, by simp, hres, rfl, ?_⟩
  · refine @parsed_core ctx input s hmax h hres (.null s.tarHeaderIdx) _ s.paxNextSize hblock ?_ ?_
    · simp [Element.isNull, nullAt, hblock, hzero]
    · intro next hnext
      exact hnext
  · exact ⟨by simp [Cursor.pastNull, hc.idx], hc.pax, by simp [Cursor.pastNull, hc.idx, hc.log]⟩

/-- The parser takes the element at the cursor into the block. -/
theorem fileElement_next (hroom : 2 * input.length + 4096 ≤ 2 ^ ctx.sizeBits)
    (hmax : 1 ≤ ctx.maxBlockSize) (h : FileInv ctx input s) (hres : s.residual = 0) (hc : At s c)
    (hd : nextCursor (filePaxRule ctx after input) input c = some d) :
    ∃ t, fileElement ctx after input s = .ok t ∧ FileCore ctx input t ∧ 0 < t.blockSize ∧
      t.residual = 0 ∧ t.readBuff = s.readBuff ∧ At t d := by
  have hidx := h.idx_le
  have hcursor := h.cursor
  obtain ⟨hblock, hcases⟩ := nextCursor_cases hd
  rw [hc.idx] at hblock hcases
  have hadd : uadd ctx.sizeBits s.tarHeaderIdx 512 = s.tarHeaderIdx + 512 := uadd_eq (by omega)
  have hreach : ¬ input.length < s.tarHeaderIdx + 512 := by omega
  simp only [fileElement, hres, ne_eq, not_true_eq_false, if_false, hadd, if_neg hreach]
  cases hcases with
  | inl hnull =>
      obtain ⟨hzero, rfl⟩ := hnull
      exact ⟨fileNull ctx input s, by simp [hzero], fileNull_next (by omega) hmax h hres hc hblock
        hzero⟩
  | inr hentry =>
      obtain ⟨hzero, e, hrec, rfl⟩ := hentry
      rw [hc.pax] at hrec
      have hentry := (@fileEntry_recognise ctx after input s hroom (by omega) (by omega)).2 e hrec
      have hrule : filePaxRule ctx after input ⟨s.tarHeaderIdx, s.paxNextSize, 0, s.log⟩ e =
          filePaxRule ctx after input c e := by
        simp only [filePaxRule, hc.idx]
      rw [hrule] at hentry
      simp only [hzero, Bool.not_false, if_true]
      refine ⟨_, hentry, ?_, ?_, hres, rfl, ?_⟩
      · refine @parsed_core ctx input s hmax h hres (.entry s.tarHeaderIdx e.length
          (joinsNextEntry e.header) (filePaxRule ctx after input c e)) _ _
          (recognise_spec hrec).2.2.2.2 ?_ ?_
        · simp [Element.isNull, nullAt, hblock, hzero]
        · intro next _
          rfl
      · have := @recognise_length_pos e
        simp only
        omega
      · exact ⟨by simp [Cursor.pastEntry, hc.idx], rfl,
          by simp [Cursor.pastEntry, hc.idx, hc.log]⟩

/-- Where the parser stops, the walk stops. -/
def Agrees (ctx : Context) (input : List UInt8) (r : Result FileState Exit)
    (r' : Result Cursor Unit) : Prop :=
  r.isReturned = r'.isReturned ∧ r.state.log = r'.state.log ∧
    (r.isReturned = true → FileDone ctx input r.state)

theorem tarStep_ok {t : FileState} (h : fileElement ctx after input s = .ok t) :
    tarStep ctx after input s = closeRound ctx input (splitBlock ctx input t) := by
  simp only [tarStep, h, closeRound]

/-- The end of a round whose parser is at `d`. -/
theorem closeRound_matches (hmax : 1 ≤ ctx.maxBlockSize) {t : FileState} (h : FileGrown ctx input t)
    (hd : At t d) (rule : PaxRule) :
    (∃ u, closeRound ctx input t = .next u ∧ FileInv ctx input u ∧ At u d) ∨
      (∃ u, closeRound ctx input t = .done u ∧ Agrees ctx input (.returned u) (.returned d) ∧
        scanStep rule input d = .done d) := by
  obtain ⟨u, hu, hinv, hsame⟩ | ⟨u, hu, hdone, hsame, hlog⟩ := closeRound_spec hmax h
  · exact .inl ⟨u, hu, hinv, hd.of_same hsame⟩
  · have hat := hd.of_same hsame
    refine .inr ⟨u, hu, ⟨rfl, hat.log.symm, fun _ => hdone⟩, scanStep_of_end ?_ ?_⟩
    · rw [hat.idx, hdone.idx_eq]
    · rwa [hat.log]

/-- One round: it works off the residual, or the walk moves along. -/
theorem tarStep_matches (hroom : 2 * input.length + 4096 ≤ 2 ^ ctx.sizeBits)
    (hmax : 1 ≤ ctx.maxBlockSize) (h : FileInv ctx input s) (hc : At s c) :
    Matches (scanStep (filePaxRule ctx after input) input)
      (fun s c => FileInv ctx input s ∧ At s c) (Agrees ctx input) c
      (tarStep ctx after input s) := by
  by_cases hres : s.residual = 0
  case neg =>
    obtain ⟨hcore, hpos, hcut, hsame⟩ := takeResidual_core h hres hmax
    have hgrown := splitBlock_grown hmax hcore hpos hcut
    have hat := (hc.of_same hsame).of_same (splitBlock_same ctx input (takeResidual ctx s))
    rw [tarStep_ok (show fileElement ctx after input s = .ok (takeResidual ctx s) by
      simp [fileElement, hres])]
    obtain ⟨u, hu, hinv, hu'⟩ | ⟨u, hu, hagree, hend⟩ :=
      closeRound_matches hmax hgrown hat (filePaxRule ctx after input)
    · rw [hu]
      exact .inl ⟨hinv, hu'⟩
    · rw [hu]
      exact ⟨.returned c, .done hend, hagree⟩
  case pos =>
    cases hd : nextCursor (filePaxRule ctx after input) input c with
    | none =>
        obtain ⟨e, hstuck⟩ := fileElement_stuck hroom h hres hc hd
        have hgoing : c.idx ≠ input.length ∨ c.log = [] := by
          rw [hc.idx, hc.log]
          exact (h.unfinished hres).imp_left (fun hlt => Nat.ne_of_lt hlt)
        simp only [tarStep, hstuck]
        refine ⟨.exited () c, .exit (scanStep_of_stuck hd hgoing), rfl, hc.log.symm, ?_⟩
        intro hreturned
        cases hreturned
    | some d =>
        obtain ⟨t, ht, hcore, hpos, hres', _, hat⟩ := fileElement_next hroom hmax h hres hc hd
        have hgrown := splitBlock_grown hmax hcore hpos (.inl hres')
        rw [tarStep_ok ht]
        obtain ⟨u, hu, hinv, hu'⟩ | ⟨u, hu, hagree, hend⟩ :=
          closeRound_matches hmax hgrown (hat.of_same (splitBlock_same ctx input t))
            (filePaxRule ctx after input)
        · rw [hu]
          exact .inr ⟨d, scanStep_of_next hd, hinv, hu'⟩
        · rw [hu]
          exact ⟨.returned d, .next (scanStep_of_next hd) (.done hend), hagree⟩

/-- Every round brings the end nearer. -/
theorem tarStep_left (hroom : 2 * input.length + 4096 ≤ 2 ^ ctx.sizeBits)
    (hmax : 1 ≤ ctx.maxBlockSize) (h : FileInv ctx input s) {u : FileState}
    (hu : tarStep ctx after input s = .next u) :
    roundsLeft input u < roundsLeft input s := by
  by_cases hres : s.residual = 0
  case neg =>
    obtain ⟨hcore, hpos, hcut, hsame⟩ := takeResidual_core h hres hmax
    have hgrown := splitBlock_grown hmax hcore hpos hcut
    rw [tarStep_ok (show fileElement ctx after input s = .ok (takeResidual ctx s) by
      simp [fileElement, hres])] at hu
    obtain ⟨hle, hlt⟩ := closeRound_left hgrown hu
    have hidx := (splitBlock_same ctx input (takeResidual ctx s)).1.trans hsame.1
    have hread : (splitBlock ctx input (takeResidual ctx s)).readBuff = s.readBuff := by
      simp only [splitBlock, takeResidual]
      split <;> split <;> rfl
    have hone : min s.residual 1 = 1 := Nat.min_eq_right (Nat.pos_of_ne_zero hres)
    -- The block takes the whole residual, or leaves some of it.
    by_cases hrest : (splitBlock ctx input (takeResidual ctx s)).residual = 0
    · apply Nat.lt_of_le_of_lt hle
      simp only [roundsLeft, hidx, hread, hrest, hone]
      exact Nat.lt_succ_self _
    · apply Nat.lt_of_lt_of_le (hlt hrest)
      simp only [roundsLeft, hidx, hread, hone]
      exact Nat.add_le_add_left (Nat.min_le_right _ _) _
  case pos =>
    cases hd : nextCursor (filePaxRule ctx after input) input
        ⟨s.tarHeaderIdx, s.paxNextSize, 0, s.log⟩ with
    | none =>
        obtain ⟨e, hstuck⟩ := fileElement_stuck hroom h hres ⟨rfl, rfl, rfl⟩ hd
        simp only [tarStep, hstuck] at hu
        cases hu
    | some d =>
        obtain ⟨t, ht, hcore, hpos, hres', hread, hat⟩ :=
          fileElement_next hroom hmax h hres ⟨rfl, rfl, rfl⟩ hd
        have hgrown := splitBlock_grown hmax hcore hpos (.inl hres')
        have hmove := nextCursor_idx_le hd
        have hidx := (splitBlock_same ctx input t).1.trans hat.idx.symm
        have hread' : (splitBlock ctx input t).readBuff = s.readBuff := by
          simp only [splitBlock]
          split <;> exact hread
        rw [tarStep_ok ht] at hu
        simp only at hmove
        calc
          roundsLeft input u ≤ roundsLeft input (splitBlock ctx input t) :=
            (closeRound_left hgrown hu).1
          _ < roundsLeft input s := by
            have hone := Nat.min_le_right (splitBlock ctx input t).residual 1
            simp only [roundsLeft, hidx, hread']
            omega

theorem fileInv_init (ctx : Context) (input : List UInt8) : FileInv ctx input .init where
  cursor := rfl
  idx_le := Nat.zero_le _
  logged := fun _ => rfl
  fed := by simp [FileState.init, fedBytes]
  frames := by simp [FileState.init]
  joins := fun _ _ => rfl
  blocks := by
    simp [FileState.init, openSpans, Blocking.run, recordedSizes, Blocks.fill, Blocks.close]
  alone := fun _ => rfl
  pending := fun _ => .inl rfl
  unfinished := fun _ => .inr rfl

end Simulation

section Result

variable {ctx : Context} {input : List UInt8}

/-- In frames of known size every byte is counted. -/
theorem sum_recordedSizes {calls : List Call} (h : ∀ call ∈ calls, ∃ src, call = .frame src) :
    (recordedSizes calls).sum = (fedBytes calls).length := by
  induction calls with
  | nil => rfl
  | cons call calls ih =>
      obtain ⟨src, rfl⟩ := h call List.mem_cons_self
      have hrest := ih fun c hc => h c (List.mem_cons_of_mem _ hc)
      simp only [recordedSizes, fedBytes] at hrest
      simp [recordedSizes, fedBytes, hrest]

/-- The counter of frames has not wrapped to zero. -/
theorem FileDone.frameCount_ne (hroom : 2 * input.length + 4096 ≤ 2 ^ ctx.sizeBits)
    (hmax : 1 ≤ ctx.maxBlockSize) {s : FileState} (h : FileDone ctx input s) :
    frameCount ctx s.calls ≠ 0 := by
  have hsum := sum_recordedSizes h.frames
  have hlen : (recordedSizes s.calls).length ≤ (recordedSizes s.calls).sum := by
    apply List.length_le_sum_of_one_le
    intro size hsize
    rw [h.sizes] at hsize
    exact (sizes_within hmax _ hsize).1
  rw [h.fed] at hsum
  have hne : 0 < (recordedSizes s.calls).length := List.length_pos_iff.mpr h.nonempty
  rw [frameCount, Nat.mod_eq_of_lt (by omega)]
  omega

/-- The mapped-file branch ends, and ends as the walk over the elements does. -/
theorem mappedLoop_scans (hroom : 2 * input.length + 4096 ≤ 2 ^ ctx.sizeBits)
    (htar : ctx.rawMode = false) (hmax : 1 ≤ ctx.maxBlockSize) (after : Nat → List UInt8) :
    ∃ r r', mappedLoop ctx after input = some r ∧
      Runs (scanStep (filePaxRule ctx after input) input) .init r' ∧ Agrees ctx input r r' := by
  have hstep : ∀ s, fileStep ctx after input s = tarStep ctx after input s :=
    congrFun (fileStep_tar ctx htar after input)
  have hround : ∀ s, FileInv ctx input s → Matches (scanStep (filePaxRule ctx after input) input)
      (fun s c => FileInv ctx input s ∧ At s c) (Agrees ctx input)
      ⟨s.tarHeaderIdx, s.paxNextSize, 0, s.log⟩ (fileStep ctx after input s) := by
    intro s h
    rw [hstep]
    exact tarStep_matches hroom hmax h ⟨rfl, rfl, rfl⟩
  have hends : ∃ r, iterate (fileStep ctx after input) (4 * input.length + 4) .init = some r := by
    apply exists_iterate_of_measure (FileInv ctx input) (roundsLeft input)
    · intro s t h hst
      have hm := hround s h
      rw [hst] at hm
      cases hm with
      | inl hwaits => exact hwaits.1
      | inr hmoves =>
          obtain ⟨d, _, hinv, _⟩ := hmoves
          exact hinv
    · intro s t h hst
      rw [hstep] at hst
      exact tarStep_left hroom hmax h hst
    · exact fileInv_init ctx input
    · simp only [roundsLeft, FileState.init]
      omega
  obtain ⟨r, hr⟩ := hends
  have hsim : ∀ s c, FileInv ctx input s ∧ At s c →
      Matches (scanStep (filePaxRule ctx after input) input)
        (fun s c => FileInv ctx input s ∧ At s c) (Agrees ctx input) c
        (fileStep ctx after input s) := by
    intro s c hsc
    rw [hstep]
    exact tarStep_matches hroom hmax hsc.1 hsc.2
  have hinit : FileInv ctx input .init ∧ At .init .init :=
    ⟨fileInv_init ctx input, rfl, rfl, rfl⟩
  obtain ⟨r', hr', hagree⟩ := (runs_of_iterate hr).simulates hsim hinit
  refine ⟨r, r', ?_, hr', hagree⟩
  rw [mappedLoop, hr, Option.map_some]
  cases r with
  | exited e s => rfl
  | returned s =>
      have hcount := (hagree.2.2 rfl).frameCount_ne hroom hmax
      simp only [Result.state_returned] at hcount
      simp [requireEntries, hcount]

end Result

end T2sz
