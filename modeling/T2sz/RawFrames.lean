import T2sz.Framing
import T2sz.Library.Slicing

/-!
The frames of raw mode are the slices of the input, on every path.

The loop over a mapped file and the loop that fills a buffer make one slice in a
round. The loop that streams cuts where a frame is full: there the sizes of the
frames are those of the slices, and what they hold is the input.
-/

namespace T2sz

open Iteration Blocking Slicing Frames

/-- The size of a block in raw mode: that of `-s`, or the largest there is. -/
def rawBlockSize (minBlockSize : Nat) : Nat :=
  if minBlockSize = 0 then MAX_FRAME_SIZE else min minBlockSize MAX_FRAME_SIZE

/-- All frames are closed, and hold the slices of the input. -/
structure SliceFrames (k : Nat) (input : List UInt8) (calls : List Call) : Prop where
  closed : (session calls).opened = none
  contents : (session calls).closed.map Frame.content = slices k input

/-- Between two rounds that make a frame each: whole slices up to `pos`. -/
structure Sliced (k : Nat) (input : List UInt8) (pos : Nat) (calls : List Call) : Prop where
  whole : pos = k * calls.length
  calls_eq : calls = (first k input calls.length).map Call.frame

section Slices

variable {k pos n : Nat} {input : List UInt8} {calls : List Call}

theorem sliceFrames_of_frames (buffers : List (List UInt8)) (h : buffers = slices k input) :
    SliceFrames k input (buffers.map Call.frame) := by
  constructor
  · rw [session_frames]
  · rw [session_frames, List.map_map, ← h]
    exact List.map_id' buffers

theorem sliced_init (k : Nat) (input : List UInt8) : Sliced k input 0 [] := ⟨rfl, rfl⟩

theorem Sliced.next (h : Sliced k input pos calls) :
    Sliced k input (pos + k) (calls ++ [.frame ((input.drop pos).take k)]) := by
  have hslice : (input.drop pos).take k = sliceAt k input calls.length := by
    rw [sliceAt, ← h.whole]
  constructor
  · rw [List.length_append, List.length_singleton, Nat.mul_succ, ← h.whole]
  · rw [List.length_append, List.length_singleton, first_succ, List.map_append, ← h.calls_eq,
      hslice]
    rfl

/-- The rounds end at the end of the input, between two slices. -/
theorem Sliced.finish (hk : 0 < k) (h : Sliced k input pos calls) (hend : pos = input.length) :
    SliceFrames k input calls := by
  have hwhole := h.whole
  rw [h.calls_eq]
  apply sliceFrames_of_frames
  exact first_eq_slices hk (by omega) (by omega)

/-- Or they end with a shorter slice. -/
theorem Sliced.finish_short (h : Sliced k input pos calls) (hn : 0 < n) (hlt : n < k)
    (hend : pos + n = input.length) :
    SliceFrames k input (calls ++ [.frame ((input.drop pos).take n)]) := by
  have hshort : (input.drop pos).take n = (input.drop pos).take k := by
    rw [List.take_eq_take_iff, List.length_drop]
    omega
  have hnext := h.next
  have hwhole := hnext.whole
  rw [hshort, hnext.calls_eq]
  apply sliceFrames_of_frames
  exact first_eq_slices (by omega) (by omega) (by omega)

end Slices

section Paths

variable {ctx : Context}

/-- `-S` does not count in raw mode. -/
theorem clamp_rawBlockSize (hraw : ctx.rawMode = true) :
    (if ctx.clamp.minBlockSize ≠ 0 then ctx.clamp.minBlockSize else ctx.clamp.maxBlockSize) =
      rawBlockSize ctx.minBlockSize := by
  simp only [Context.clamp, hraw, Bool.true_or, if_true, rawBlockSize]
  have hmax : 0 < MAX_FRAME_SIZE := by decide
  by_cases hover : MAX_FRAME_SIZE < ctx.minBlockSize
  · rw [if_pos hover, if_pos (by omega), if_neg (by omega), Nat.min_eq_right (by omega)]
  · rw [if_neg hover, Nat.min_eq_left (by omega), ite_not]

theorem rawBlockSize_pos (minBlockSize : Nat) : 0 < rawBlockSize minBlockSize := by
  have hmax : 0 < MAX_FRAME_SIZE := by decide
  rw [rawBlockSize]
  split <;> omega

/-- The raw loop over a mapped file. -/
theorem compressMapped_slices (hraw : ctx.rawMode = true) (after : Nat → List UInt8)
    (input : List UInt8) :
    ∃ s, compressMapped ctx after input = some (.returned s) ∧
      SliceFrames (rawBlockSize ctx.minBlockSize) input s.calls := by
  have hk := clamp_rawBlockSize hraw
  have hpos := rawBlockSize_pos ctx.minBlockSize
  generalize rawBlockSize ctx.minBlockSize = k at hk hpos
  have hstep : fileStep ctx.clamp after input = rawStep ctx.clamp input :=
    fileStep_raw ctx.clamp hraw after input
  have keeps : ∀ s t, RawRound input s ∧ Sliced k input s.readBuff s.calls →
      rawStep ctx.clamp input s = .next t →
      RawRound input t ∧ Sliced k input t.readBuff t.calls := by
    intro s t hs hst
    refine ⟨((rawStep_pieces ctx.clamp_max_le.1 hs.1).2 t hst).1, ?_⟩
    obtain ⟨-, hdone⟩ | ⟨n, u, -, -, hread, hcalls, ⟨rfl, -, -, hnext⟩ | ⟨-, -, hdone⟩⟩ :=
      rawStep_cases hk hpos hs.1.read hs.1.more hs.1.alone
    · rw [hdone] at hst
      cases hst
    · rw [hnext] at hst
      cases hst
      rw [hread, hcalls]
      exact hs.2.next
    · rw [hdone] at hst
      cases hst
  obtain ⟨r, hr, -⟩ := @rawLoop_ends ctx.clamp input ctx.clamp_max_le.1
  obtain ⟨s, hs, hend⟩ := (runs_of_iterate hr).invariant keeps
    ⟨rawRound_init input, sliced_init k input⟩
  have hdone : ∃ t, r = .returned t ∧ SliceFrames k input t.calls := by
    obtain ⟨hstop, hlast⟩ | ⟨n, u, hn, -, -, hcalls, ⟨-, -, -, hnext⟩ | ⟨hlt, hstop, hlast⟩⟩ :=
      rawStep_cases hk hpos hs.1.read hs.1.more hs.1.alone
    · cases r <;> rw [EndsAt, hlast] at hend <;> cases hend
      exact ⟨s, rfl, hs.2.finish hpos hstop⟩
    · cases r <;> rw [EndsAt, hnext] at hend <;> cases hend
    · cases r <;> rw [EndsAt, hlast] at hend <;> cases hend
      refine ⟨u, rfl, ?_⟩
      rw [hcalls]
      exact hs.2.finish_short hn hlt hstop
  obtain ⟨t, rfl, hslices⟩ := hdone
  refine ⟨t, ?_, hslices⟩
  rw [compressMapped, mappedLoop, hstep, hr, Option.map_some, requireEntries,
    show ctx.clamp.rawMode = true from hraw]
  rfl

variable {short : Nat → Nat} {input : List UInt8} {s t : RawState}

/-- The loop that reads a frame at a time. -/
theorem fixedRaw_slices {k : Nat} (hk : ctx.minBlockSize = k) (hpos : 0 < k)
    {r : Result RawState Exit} (hr : Runs (fixedRawStep ctx short ⟨input, false⟩) .init r) :
    ∃ s, r = .returned s ∧ SliceFrames k input s.frames.calls := by
  have hmin : ctx.minBlockSize ≠ 0 := by omega
  have keeps : ∀ s t, s.pos ≤ input.length ∧ Sliced k input s.pos s.frames.calls →
      fixedRawStep ctx short ⟨input, false⟩ s = .next t →
      t.pos ≤ input.length ∧ Sliced k input t.pos t.frames.calls := by
    intro s t hs hst
    obtain ⟨hfails, -⟩ | ⟨-, hdone⟩ | ⟨n, u, -, hfits, rfl, ⟨hn, hnext⟩ | ⟨-, -, hdone⟩⟩ :=
      @fixedRawStep_cases ctx short ⟨input, false⟩ s hmin hs.1
    · cases hfails
    · rw [hdone] at hst
      cases hst
    · rw [hnext] at hst
      cases hst
      rw [hn, hk] at hfits ⊢
      exact ⟨hfits, hs.2.next⟩
    · rw [hdone] at hst
      cases hst
  obtain ⟨s, hs, hend⟩ := hr.invariant keeps ⟨Nat.zero_le _, sliced_init k input⟩
  obtain ⟨hfails, -⟩ | ⟨hstop, hlast⟩ | ⟨n, u, hn, -, rfl, ⟨-, hnext⟩ | ⟨hlt, hstop, hlast⟩⟩ :=
    @fixedRawStep_cases ctx short ⟨input, false⟩ s hmin hs.1
  · cases hfails
  · cases r <;> rw [EndsAt, hlast] at hend <;> cases hend
    exact ⟨s, rfl, hs.2.finish hpos hstop⟩
  · cases r <;> rw [EndsAt, hnext] at hend <;> cases hend
  · cases r <;> rw [EndsAt, hlast] at hend <;> cases hend
    exact ⟨_, rfl, hs.2.finish_short hn (by omega) hstop⟩

/-- Between two rounds of the loop that streams. -/
structure StreamRound (ctx : Context) (input : List UInt8) (s : RawState) : Prop where
  read : s.pos ≤ input.length
  steady : Steady ctx s.frames
  fed : fedBytes s.frames.calls = input.take s.pos
  blocks : s.frames.blocks = (Blocks.mk [] 0).fill ctx.maxBlockSize s.pos

theorem streamRound_init (ctx : Context) (input : List UInt8) : StreamRound ctx input .init := by
  refine ⟨Nat.zero_le _, steady_of_closed wf_init rfl, rfl, ?_⟩
  simp [RawState.init, Frames.blocks, Blocks.fill, recordedSizes]

theorem streamRawStep_round (hmax : 1 ≤ ctx.maxBlockSize) {inChunk : Nat}
    (h : StreamRound ctx input s)
    (hst : streamRawStep ctx inChunk short ⟨input, false⟩ s = .next t) :
    StreamRound ctx input t := by
  simp only [streamRawStep] at hst
  split at hst
  case isFalse => cases hst
  case isTrue hsome =>
    cases hst
    obtain ⟨htake, hread⟩ := @take_add_fread short ⟨input, false⟩ s h.read inChunk
    generalize fread ⟨input, false⟩ short s.pos inChunk = inBuf at *
    have hpushed := pushBytesTar_spec hmax inBuf h.steady.wf h.steady.bounded
      (h.steady.unpledged.pledged ctx inBuf.length) (Nat.le_refl _)
    refine ⟨hread, hpushed.steady h.steady, ?_, ?_⟩
    · simp only [hpushed.fed, h.fed, htake]
    · simp only [hpushed.blocks, h.blocks, Blocks.fill_fill hmax]

/-- At the end of the input the frames are its slices. -/
theorem StreamRound.finish (hmax : 1 ≤ ctx.maxBlockSize) (h : StreamRound ctx input s)
    (hend : s.pos = input.length) :
    SliceFrames ctx.maxBlockSize input (endFrameAndRecord s.frames).calls := by
  obtain ⟨hwf, hsizes⟩ := endFrameAndRecord_finish h.steady
  have hopened : (session (endFrameAndRecord s.frames).calls).opened = none :=
    hwf.open_none (endFrameAndRecord_frameOpen _)
  refine ⟨hopened, eq_slices hmax ?_ ?_⟩
  · have hfed := hwf.fed
    rw [endFrameAndRecord_fedBytes, h.fed, hend, List.take_length, Session.content, hopened] at hfed
    simpa using hfed
  · have hrecorded := hwf.recorded
    rw [hsizes, h.blocks, hend] at hrecorded
    rw [List.map_map]
    refine hrecorded.symm.trans ?_
    simp only [Blocks.finish, Blocks.fill, Nat.zero_add, List.nil_append]
    split
    · rfl
    · rw [List.append_nil]

theorem streamRaw_slices (hmax : 1 ≤ ctx.maxBlockSize) {inChunk : Nat} (hchunk : 0 < inChunk)
    {r : Result RawState Exit}
    (hr : Runs (streamRawStep ctx inChunk short ⟨input, false⟩) .init r) :
    ∃ s, r = .returned s ∧ SliceFrames ctx.maxBlockSize input s.frames.calls := by
  obtain ⟨s, hs, hend⟩ := hr.invariant (fun _ _ h hst => streamRawStep_round hmax h hst)
    (streamRound_init ctx input)
  have hread := hs.read
  by_cases hsome : (fread ⟨input, false⟩ short s.pos inChunk).length ≠ 0
  · obtain ⟨t, hnext⟩ : ∃ t, streamRawStep ctx inChunk short ⟨input, false⟩ s = .next t := by
      simp only [streamRawStep]
      exact ⟨_, if_pos hsome⟩
    cases r <;> rw [EndsAt, hnext] at hend <;> cases hend
  · have hstop := end_of_fread hchunk (not_not.mp hsome)
    rw [List.drop_eq_nil_iff] at hstop
    have hdone : streamRawStep ctx inChunk short ⟨input, false⟩ s =
        .done { s with frames := endFrameAndRecord s.frames } := by
      simp only [streamRawStep, if_neg hsome]
      rfl
    cases r <;> rw [EndsAt, hdone] at hend <;> cases hend
    exact ⟨_, rfl, hs.finish hmax (Nat.le_antisymm hread hstop)⟩

end Paths

/-- Raw mode cuts a mapped file and a stream into the same blocks, however the
stream is delivered: all of `k` bytes but the last, and none empty. -/
theorem compressRaw_slices {ctx : Context} (hraw : ctx.rawMode = true) (input : List UInt8)
    (after : Nat → List UInt8) {inChunk : Nat} (hchunk : 0 < inChunk) (short : Nat → Nat) :
    let k := rawBlockSize ctx.minBlockSize
    (∃ s, compressMapped ctx after input = some (.returned s) ∧ SliceFrames k input s.calls) ∧
    (∃ s, compressRaw ctx inChunk short ⟨input, false⟩ = some (.returned s) ∧
      SliceFrames k input s.frames.calls) ∧
    (slices k input).length = (input.length + k - 1) / k ∧
    ∀ i (h : i < (slices k input).length),
      (slices k input)[i] = (input.drop (k * i)).take k ∧
      (i + 1 < (slices k input).length → (slices k input)[i].length = k) ∧
      1 ≤ (slices k input)[i].length ∧ (slices k input)[i].length ≤ k := by
  intro k
  have hk : (if ctx.clamp.minBlockSize ≠ 0 then ctx.clamp.minBlockSize
      else ctx.clamp.maxBlockSize) = k := clamp_rawBlockSize hraw
  have hpos : 0 < k := rawBlockSize_pos ctx.minBlockSize
  refine ⟨compressMapped_slices hraw after input, ?_, length_first _ _ _, ?_⟩
  · obtain ⟨r, hr, -⟩ := compressRaw_framing ctx hchunk short ⟨input, false⟩
    have hruns := runs_of_iterate hr
    have hslices : ∃ s, r = .returned s ∧ SliceFrames k input s.frames.calls := by
      by_cases hmin : ctx.clamp.minBlockSize = 0
      · rw [if_neg (not_not.mpr hmin)] at hk
        rw [stdinRawStep, if_pos hmin] at hruns
        rw [← hk]
        exact streamRaw_slices ctx.clamp_max_le.1 hchunk hruns
      · rw [if_pos hmin] at hk
        rw [stdinRawStep, if_neg hmin] at hruns
        exact fixedRaw_slices hk hpos hruns
    obtain ⟨s, rfl, hslices⟩ := hslices
    exact ⟨s, hr, hslices⟩
  · intro i h
    refine ⟨?_, length_getElem_slices hpos h⟩
    simp only [slices, first, List.getElem_map, List.getElem_range, sliceAt]

/-- The settings of `-r -s 2`. -/
def rawPairs : Context :=
  { newContext with rawMode := true, minBlockSize := 2, min_lt := by decide }

/-- Three bytes, delivered one by one. -/
theorem compressRaw_slices_pairs :
    ∃ s, compressRaw rawPairs 1 (fun _ => 0) ⟨[0x61, 0x62, 0x63], false⟩ = some (.returned s) ∧
      SliceFrames 2 [0x61, 0x62, 0x63] s.frames.calls :=
  (compressRaw_slices rfl [0x61, 0x62, 0x63] (fun _ => []) Nat.one_pos (fun _ => 0)).2.1

end T2sz
