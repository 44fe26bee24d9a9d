import T2sz.FileSums

/-!
The blocks of the mapped-file branch, whatever its sums come to.

Where the sum for an entry wraps to 0, the entry is taken and moves nothing. Alone
in its block it makes the block empty, and the block is compressed all the same.
As long as no block is empty the branch cuts as the rule does, also where a sum
has wrapped to something else.
-/

namespace T2sz

open Iteration Blocking

set_option maxRecDepth 4000

/-- A header whose entry comes out as 0 bytes, at the start of a block that ends
with it. -/
structure Vanishes (ctx : Context) (input : List UInt8) (s : FileState) : Prop where
  residual : s.residual = 0
  room : s.tarHeaderIdx + 512 ≤ input.length
  valid : isTarHeader (headerAt input s.tarHeaderIdx) = true
  size_le : entrySizeAt input s ≤ input.length
  sum : roundUp (entrySizeAt input s) + 512 + chainBytes input s.tarHeaderIdx = 2 ^ ctx.sizeBits
  first : s.blockSize = 0
  single : ctx.minBlockSize = 0
  last : joinsNextEntry (headerAt input s.tarHeaderIdx) = false

/-- A number that wraps to 0 without getting as far as twice the word. -/
theorem eq_of_mod_eq_zero {n m : Nat} (h : n % m = 0) (hpos : 0 < n) (hlt : n < 2 * m) :
    n = m := by
  have hle : m ≤ n := by
    by_contra hless
    rw [Nat.mod_eq_of_lt (Nat.not_le.mp hless)] at h
    omega
  rw [Nat.mod_eq_sub_mod hle, Nat.mod_eq_of_lt (by omega)] at h
  omega

/-- The size that is carried past the header at the cursor. -/
def paxPast (w : Nat) (after : Nat → List UInt8) (input : List UInt8) (s : FileState) : Nat :=
  let header := headerAt input s.tarHeaderIdx
  let (entrySize, paxNextSize) := tarEntrySize header s.paxNextSize
  if header.typeflag == 0x78 then
    paxSize w ((input.drop (s.tarHeaderIdx + 512)).take (entrySize % 2 ^ w))
      (after (s.tarHeaderIdx + 512 + entrySize))
  else paxNextSize

/-- The state when the loop has taken the header at its cursor. -/
def pastHeader (w : Nat) (after : Nat → List UInt8) (input : List UInt8) (s : FileState) :
    FileState :=
  let n := toNextHeader w input s.tarHeaderIdx (entrySizeAt input s)
  let joins := joinsNextEntry (headerAt input s.tarHeaderIdx)
  let pax := paxPast w after input s
  { s with
    paxNextSize := pax
    tarHeaderIdx := s.tarHeaderIdx + n
    blockSize := s.blockSize + n
    joinNext := joins
    log := s.log ++ [.entry s.tarHeaderIdx n joins pax] }

section Rounds

variable {ctx : Context} {after : Nat → List UInt8} {input : List UInt8} {s t : FileState}

/-- The sum for an entry no larger than the input, before it wraps. -/
theorem toNextHeader_eq (hword : input.length + 4096 ≤ 2 ^ ctx.sizeBits)
    (hroom : s.tarHeaderIdx + 512 ≤ input.length) (hle : entrySizeAt input s ≤ input.length) :
    toNextHeader ctx.sizeBits input s.tarHeaderIdx (entrySizeAt input s) =
      (roundUp (entrySizeAt input s) + 512 + chainBytes input s.tarHeaderIdx) %
        2 ^ ctx.sizeBits := by
  rw [toNextHeader, paddedSize_eq (by omega), chainBytes_eq hword hroom]

/-- The branch for a header no larger than the input. -/
theorem fileEntry_taken (hword : input.length + 4096 ≤ 2 ^ ctx.sizeBits)
    (hidx : s.tarHeaderIdx ≤ input.length) (hblock : s.blockSize ≤ s.tarHeaderIdx)
    (hvalid : isTarHeader (headerAt input s.tarHeaderIdx) = true)
    (hle : entrySizeAt input s ≤ input.length) :
    fileEntry ctx after input s =
      if s.tarHeaderIdx + toNextHeader ctx.sizeBits input s.tarHeaderIdx (entrySizeAt input s) ≤
          input.length then
        .ok (pastHeader ctx.sizeBits after input s)
      else .error .truncatedEntry := by
  have hremaining : usub ctx.sizeBits input.length s.tarHeaderIdx =
      input.length - s.tarHeaderIdx := usub_eq hidx (by omega)
  have hsize : (tarEntrySize (headerAt input s.tarHeaderIdx) s.paxNextSize).1 =
      entrySizeAt input s := rfl
  have hsum : (paddedSize ctx.sizeBits (entrySizeAt input s) + 512 +
      if hasSparseExtension (headerAt input s.tarHeaderIdx) then
        sparseWalk ctx.sizeBits input s.tarHeaderIdx (input.length + 1) 0
      else 0) % 2 ^ ctx.sizeBits =
        toNextHeader ctx.sizeBits input s.tarHeaderIdx (entrySizeAt input s) := rfl
  simp only [fileEntry, hvalid, if_true, hsize, if_neg (Nat.not_lt.mpr hle), hremaining, hsum]
  by_cases hfits : s.tarHeaderIdx +
      toNextHeader ctx.sizeBits input s.tarHeaderIdx (entrySizeAt input s) ≤ input.length
  · rw [if_neg (by omega), uadd_eq (by omega), uadd_eq (by omega), if_pos hfits]
    rfl
  · rw [if_pos (by omega), if_neg hfits]

/-- A header whose entry is all there, as far as the sum says. -/
theorem fileElement_header (hword : input.length + 4096 ≤ 2 ^ ctx.sizeBits)
    (hblock : s.blockSize ≤ s.tarHeaderIdx) (hres : s.residual = 0)
    (hroom : s.tarHeaderIdx + 512 ≤ input.length)
    (hvalid : isTarHeader (headerAt input s.tarHeaderIdx) = true)
    (hle : entrySizeAt input s ≤ input.length)
    (hfits : s.tarHeaderIdx + toNextHeader ctx.sizeBits input s.tarHeaderIdx
      (entrySizeAt input s) ≤ input.length) :
    fileElement ctx after input s = .ok (pastHeader ctx.sizeBits after input s) := by
  have hadd : uadd ctx.sizeBits s.tarHeaderIdx 512 = s.tarHeaderIdx + 512 := uadd_eq (by omega)
  have hzero : isZeroTarBlock (blockAt input s.tarHeaderIdx) = false := by
    rw [← headerAt_bytes hroom]
    exact not_zero_of_isTarHeader hvalid
  rw [fileElement, if_neg (not_not.mpr hres), hadd, if_neg (Nat.not_lt.mpr hroom), hzero,
    Bool.not_false, if_pos rfl, fileEntry_taken hword (by omega) hblock hvalid hle, if_pos hfits]

/-- What a round of the parser takes when no residual is left. -/
theorem fileElement_taken (hword : input.length + 4096 ≤ 2 ^ ctx.sizeBits)
    (hidx : s.tarHeaderIdx ≤ input.length) (hblock : s.blockSize ≤ s.tarHeaderIdx)
    (hres : s.residual = 0) (h : fileElement ctx after input s = .ok t) :
    s.tarHeaderIdx + 512 ≤ input.length ∧
      ((isZeroTarBlock (blockAt input s.tarHeaderIdx) = true ∧ t = fileNull ctx input s) ∨
      (isZeroTarBlock (blockAt input s.tarHeaderIdx) = false ∧
        isTarHeader (headerAt input s.tarHeaderIdx) = true ∧
        entrySizeAt input s ≤ input.length ∧
        s.tarHeaderIdx + toNextHeader ctx.sizeBits input s.tarHeaderIdx (entrySizeAt input s) ≤
          input.length ∧
        t = pastHeader ctx.sizeBits after input s)) := by
  have hadd : uadd ctx.sizeBits s.tarHeaderIdx 512 = s.tarHeaderIdx + 512 := uadd_eq (by omega)
  rw [fileElement, if_neg (not_not.mpr hres), hadd] at h
  by_cases hshort : input.length < s.tarHeaderIdx + 512
  · rw [if_pos hshort] at h
    cases h
  rw [if_neg hshort] at h
  refine ⟨Nat.not_lt.mp hshort, ?_⟩
  cases hzero : isZeroTarBlock (blockAt input s.tarHeaderIdx) with
  | true =>
      rw [hzero] at h
      cases h
      exact .inl ⟨rfl, rfl⟩
  | false =>
      rw [hzero, Bool.not_false, if_pos rfl] at h
      by_cases hvalid : isTarHeader (headerAt input s.tarHeaderIdx) = true
      case neg =>
        simp only [fileEntry, if_neg hvalid] at h
        cases h
      by_cases hlarge : input.length < entrySizeAt input s
      case pos =>
        have hsize : (tarEntrySize (headerAt input s.tarHeaderIdx) s.paxNextSize).1 =
            entrySizeAt input s := rfl
        simp only [fileEntry, if_pos hvalid, hsize, if_pos hlarge] at h
        cases h
      rw [fileEntry_taken hword hidx hblock hvalid (Nat.not_lt.mp hlarge)] at h
      split at h
      case isTrue hfits =>
        cases h
        exact .inr ⟨rfl, hvalid, Nat.not_lt.mp hlarge, hfits, rfl⟩
      case isFalse => cases h

/-- An element goes into the block, which stays empty only where the element is. -/
theorem fileElement_core (hword : input.length + 4096 ≤ 2 ^ ctx.sizeBits)
    (hmax : 1 ≤ ctx.maxBlockSize) (h : FileInv ctx input s) (hres : s.residual = 0)
    (ht : fileElement ctx after input s = .ok t) :
    FileCore ctx input t ∧ t.residual = 0 ∧
      (0 < t.blockSize ∨ (t.blockSize = 0 ∧ t.tarHeaderIdx < input.length ∧
        (ctx.minBlockSize = 0 → t.joinNext = false → Vanishes ctx input s))) := by
  have hidx := h.idx_le
  have hcursor := h.cursor
  obtain ⟨hroom, ⟨hzero, rfl⟩ | ⟨hzero, hvalid, hle, hfits, rfl⟩⟩ :=
    fileElement_taken hword hidx (by omega) hres ht
  · obtain ⟨hcore, hpos, hnone, -⟩ := @fileNull_next ctx input s
      ⟨s.tarHeaderIdx, s.paxNextSize, 0, s.log⟩ hword hmax h hres ⟨rfl, rfl, rfl⟩ hroom hzero
    exact ⟨hcore, hnone, .inl hpos⟩
  · refine ⟨?_, hres, ?_⟩
    · refine @parsed_core ctx input s hmax h hres (.entry s.tarHeaderIdx _ _ _) _ _ hfits ?_ ?_
      · simp [Element.isNull, nullAt, hroom, hzero]
      · intro next _
        rfl
    · rw [pastHeader]
      cases Nat.eq_zero_or_pos (toNextHeader ctx.sizeBits input s.tarHeaderIdx
        (entrySizeAt input s)) with
      | inr hpos => exact .inl (Nat.add_pos_right _ hpos)
      | inl hnone =>
          simp only [hnone, Nat.add_zero]
          cases Nat.eq_zero_or_pos s.blockSize with
          | inr hpos => exact .inl hpos
          | inl hfirst =>
              refine .inr ⟨hfirst, by omega, fun hsingle hlast => ?_⟩
              refine ⟨hres, hroom, hvalid, hle, ?_, hfirst, hsingle, hlast⟩
              have hchain := (sparseExt_spec hword hroom (chainBytes_eq hword hroom)).1
              have hround := roundUp_lt (entrySizeAt input s)
              rw [toNextHeader_eq hword hroom hle] at hnone
              exact eq_of_mod_eq_zero hnone (by omega) (by omega)

/-- What a round has to leave behind, if it does not give up. -/
def Keeps (ctx : Context) (input : List UInt8) : Step FileState Exit → Prop
  | .next s => FileInv ctx input s
  | .done s => FileDone ctx input s
  | .exit _ _ => True

theorem closeRound_keeps (hmax : 1 ≤ ctx.maxBlockSize) (h : FileGrown ctx input t) :
    Keeps ctx input (closeRound ctx input t) := by
  obtain ⟨u, hu, hinv, -⟩ | ⟨u, hu, hdone, -⟩ := closeRound_spec hmax h
  · rw [hu]
    exact hinv
  · rw [hu]
    exact hdone

/-- A block that is not too large is not cut. -/
theorem splitBlock_within (h : t.blockSize ≤ ctx.maxBlockSize) :
    splitBlock ctx input t = { t with lastChunk := decide (input.length ≤ t.tarHeaderIdx) } := by
  simp only [splitBlock, Nat.not_lt.mpr h, and_false, if_false]

/-- A block to which nothing has come yet is not closed. -/
theorem closeRound_empty (h : FileCore ctx input t) (hres : t.residual = 0)
    (hempty : t.blockSize = 0) (hmore : t.tarHeaderIdx < input.length)
    (hgo : 0 < ctx.minBlockSize ∨ t.joinNext = true) :
    Keeps ctx input (closeRound ctx input (splitBlock ctx input t)) := by
  have hsplit : splitBlock ctx input t = { t with lastChunk := false } := by
    rw [splitBlock_within (by rw [hempty]; exact Nat.zero_le _),
      decide_eq_false (Nat.not_le.mpr hmore)]
  have hround : closeRound ctx input (splitBlock ctx input t) =
      .next { t with lastChunk := false } := by
    rw [hsplit, closeRound, if_pos]
    simpa [hres, hempty] using hgo
  rw [hround]
  exact ⟨⟨h.cursor, h.idx_le, h.logged, h.fed, h.frames, h.joins, h.blocks⟩,
    fun hne => absurd hres hne, fun _ => .inl hempty, fun _ => .inl hmore⟩

/-- A round that does not leave its block empty keeps the invariant, and the last one
finishes the blocks. -/
theorem tarStep_whole (hword : input.length + 4096 ≤ 2 ^ ctx.sizeBits)
    (hmax : 1 ≤ ctx.maxBlockSize) (h : FileInv ctx input s) (hwhole : ¬ Vanishes ctx input s) :
    Keeps ctx input (tarStep ctx after input s) := by
  cases ht : fileElement ctx after input s with
  | error e =>
      simp only [tarStep, ht]
      trivial
  | ok t =>
      rw [tarStep_ok ht]
      by_cases hres : s.residual = 0
      case neg =>
        rw [fileElement, if_pos hres, Except.ok.injEq] at ht
        subst ht
        obtain ⟨hcore, hpos, hcut, -⟩ := takeResidual_core h hres hmax
        exact closeRound_keeps hmax (splitBlock_grown hmax hcore hpos hcut)
      case pos =>
        obtain ⟨hcore, hnone, hpos | ⟨hempty, hmore, hvanishes⟩⟩ :=
          fileElement_core hword hmax h hres ht
        · exact closeRound_keeps hmax (splitBlock_grown hmax hcore hpos (.inl hnone))
        · apply closeRound_empty hcore hnone hempty hmore
          by_contra hstop
          rw [not_or, Nat.not_lt, Nat.le_zero, Bool.not_eq_true] at hstop
          exact hwhole (hvanishes hstop.1 hstop.2)

/-- The state after an entry of 0 bytes has been compressed. -/
def pastNothing (w : Nat) (after : Nat → List UInt8) (input : List UInt8) (s : FileState) :
    FileState :=
  { s with
    paxNextSize := paxPast w after input s
    joinNext := false
    lastChunk := false
    calls := s.calls ++ [.frame []]
    log := s.log ++ [.entry s.tarHeaderIdx 0 false (paxPast w after input s)] }

/-- The round that leaves its block empty compresses it. -/
theorem Vanishes.emits (hword : input.length + 4096 ≤ 2 ^ ctx.sizeBits) (after : Nat → List UInt8)
    (h : Vanishes ctx input s) :
    tarStep ctx after input s = .next (pastNothing ctx.sizeBits after input s) := by
  have hroom := h.room
  have hnone : toNextHeader ctx.sizeBits input s.tarHeaderIdx (entrySizeAt input s) = 0 := by
    rw [toNextHeader_eq hword hroom h.size_le, h.sum, Nat.mod_self]
  have hpast : pastHeader ctx.sizeBits after input s =
      { s with
        paxNextSize := paxPast ctx.sizeBits after input s
        joinNext := false
        log := s.log ++
          [.entry s.tarHeaderIdx 0 false (paxPast ctx.sizeBits after input s)] } := by
    simp only [pastHeader, hnone, Nat.add_zero, h.last]
  have hmore : decide (input.length ≤ s.tarHeaderIdx) = false :=
    decide_eq_false (Nat.not_le.mpr (by omega))
  have hblock : s.blockSize ≤ s.tarHeaderIdx := by
    rw [h.first]
    exact Nat.zero_le _
  rw [tarStep_ok (fileElement_header hword hblock h.residual hroom h.valid h.size_le
    (by rw [hnone]; omega)), hpast]
  simp [pastNothing, splitBlock, closeRound, emitBlock, emit, h.first, h.residual, h.single, hmore]

/-- Frames and elements are only ever added. -/
theorem tarStep_adds (ctx : Context) (after : Nat → List UInt8) (input : List UInt8)
    (s : FileState) :
    s.calls <+: (tarStep ctx after input s).state.calls ∧
      s.log <+: (tarStep ctx after input s).state.log := by
  cases ht : fileElement ctx after input s with
  | error e =>
      simp only [tarStep, ht]
      exact ⟨List.prefix_refl _, List.prefix_refl _⟩
  | ok t =>
      have hcalls : (splitBlock ctx input t).calls = s.calls := by
        rw [← fileElement_calls ht]
        simp only [splitBlock]
        split <;> rfl
      have hlog : s.log <+: (splitBlock ctx input t).log := by
        rw [(splitBlock_same ctx input t).2.2]
        obtain ⟨-, rfl⟩ | ⟨-, -, rfl | ⟨_, _, _, -, rfl⟩⟩ := fileElement_cases ht
        · simp only [takeResidual]
          split <;> exact List.prefix_refl _
        · exact List.prefix_append _ _
        · exact List.prefix_append _ _
      rw [tarStep_ok ht, ← hcalls]
      simp only [closeRound, emitBlock]
      split
      · exact ⟨List.prefix_refl _, hlog⟩
      · split
        · exact ⟨List.prefix_append _ _, hlog⟩
        · exact ⟨List.prefix_append _ _, hlog⟩

end Rounds

/-- No block of the run over a mapped archive is empty when it is compressed. -/
def NoEmptyBlock (ctx : Context) (after : Nat → List UInt8) (input : List UInt8) : Prop :=
  ∀ s, Reached (fileStep ctx.clamp after input) .init s → ¬ Vanishes ctx.clamp input s

/-- There is none where every entry leaves room. -/
theorem noEmptyBlock_of_room {ctx : Context} {after : Nat → List UInt8} {input : List UInt8}
    (hroom : ∀ s, HeaderReached ctx after input s → LeavesRoom ctx input s) :
    NoEmptyBlock ctx after input := by
  intro s hreached h
  have hzero : isZeroTarBlock (blockAt input s.tarHeaderIdx) = false := by
    rw [← headerAt_bytes h.room]
    exact not_zero_of_isTarHeader h.valid
  have hleaves := hroom s ⟨hreached, h.residual, h.room, hzero, h.valid, h.size_le⟩
  have hround := roundUp_lt (entrySizeAt input s)
  have hsum : roundUp (entrySizeAt input s) + 512 + chainBytes input s.tarHeaderIdx =
      2 ^ ctx.sizeBits := h.sum
  rw [LeavesRoom] at hleaves
  omega

/-- Nor in a file of less than half the address space. -/
theorem noEmptyBlock_of_half {ctx : Context} (after : Nat → List UInt8) {input : List UInt8}
    (hhalf : 2 * input.length + 4096 ≤ 2 ^ ctx.sizeBits) : NoEmptyBlock ctx after input :=
  noEmptyBlock_of_room fun _ h => leavesRoom_half hhalf h.room h.size_le

section Runs

variable {ctx : Context} {after : Nat → List UInt8} {input : List UInt8} {s : FileState}

/-- The run behind a branch that returns. -/
theorem runs_of_mappedLoop (htar : ctx.rawMode = false)
    (h : mappedLoop ctx after input = some (.returned s)) :
    Runs (tarStep ctx after input) .init (.returned s) := by
  rw [mappedLoop, fileStep_tar ctx htar, Option.map_eq_some_iff] at h
  obtain ⟨r, hr, hreturned⟩ := h
  cases r with
  | exited e t => cases hreturned
  | returned t =>
      simp only [requireEntries] at hreturned
      split at hreturned
      · cases hreturned
      · cases hreturned
        exact runs_of_iterate hr

/-- Without empty blocks the branch records what the rule cuts. -/
theorem mappedLoop_whole (hword : input.length + 4096 ≤ 2 ^ ctx.sizeBits)
    (htar : ctx.rawMode = false) (hmax : 1 ≤ ctx.maxBlockSize)
    (hwhole : ∀ s, Reached (fileStep ctx after input) .init s → ¬ Vanishes ctx input s)
    (h : mappedLoop ctx after input = some (.returned s)) : FileDone ctx input s := by
  rw [fileStep_tar ctx htar] at hwhole
  have hkeeps : ∀ s t, FileInv ctx input s ∧ Reached (tarStep ctx after input) .init s →
      tarStep ctx after input s = .next t →
      FileInv ctx input t ∧ Reached (tarStep ctx after input) .init t := by
    rintro s t ⟨hs, hreached⟩ hst
    have hround := @tarStep_whole ctx after input s hword hmax hs (hwhole s hreached)
    rw [hst] at hround
    exact ⟨hround, hreached.tail hst⟩
  obtain ⟨t, ⟨ht, hreached⟩, hend⟩ :=
    (runs_of_mappedLoop htar h).invariant hkeeps ⟨fileInv_init ctx input, .refl⟩
  have hround := @tarStep_whole ctx after input t hword hmax ht (hwhole t hreached)
  rw [show tarStep ctx after input t = .done s from hend] at hround
  exact hround

/-- An empty block is among the frames, and its entry among the elements. -/
theorem mappedLoop_empty (hword : input.length + 4096 ≤ 2 ^ ctx.sizeBits)
    (htar : ctx.rawMode = false) (h : mappedLoop ctx after input = some (.returned s))
    {t : FileState} (hreached : Reached (fileStep ctx after input) .init t)
    (hvanishes : Vanishes ctx input t) :
    .frame [] ∈ s.calls ∧ ∃ e ∈ s.log, e.length = 0 := by
  rw [fileStep_tar ctx htar] at hreached
  have hnext := hreached.tail (hvanishes.emits hword after)
  have hrest := Reached.runs_from hnext (runs_of_mappedLoop htar h)
  generalize hu : pastNothing ctx.sizeBits after input t = u at hrest
  have hadds : u.calls <+: s.calls ∧ u.log <+: s.log := by
    apply hrest.relates (I := fun _ => True)
      (R := fun s t => s.calls <+: t.calls ∧ s.log <+: t.log)
    · rintro a b c ⟨hcalls, hlog⟩ ⟨hcalls', hlog'⟩
      exact ⟨hcalls.trans hcalls', hlog.trans hlog'⟩
    · exact fun _ _ _ _ => trivial
    · exact fun s _ => tarStep_adds ctx after input s
    · trivial
  refine ⟨hadds.1.subset ?_, .entry t.tarHeaderIdx 0 false (paxPast ctx.sizeBits after input t),
    hadds.2.subset ?_, rfl⟩
  · rw [← hu]
    exact List.mem_append_right _ (List.mem_singleton_self _)
  · rw [← hu]
    exact List.mem_append_right _ (List.mem_singleton_self _)

end Runs

section Wrapping

variable {n : Nat}

/-- The state when the null block behind it was compressed with it. -/
def pastNull (input : List UInt8) : FileState :=
  { FileState.init with
    tarHeaderIdx := 1536
    readBuff := 1536
    paxNextSize := 2 ^ 31
    calls := [.frame (input.take 1536)]
    log := [.entry 0 1024 true (2 ^ 31), .null 1024] }

end Wrapping

end T2sz
