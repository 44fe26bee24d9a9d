import T2sz.FileProgress
import T2sz.RawInput
import T2sz.StdinRefinement

/-!
What the framing code hands to the compressor, in every mode: the input, frame by
frame. On a mapped file this holds for every width of `size_t` that can address
the file, whatever the parser makes of the entries.
-/

namespace T2sz

open Iteration Blocking Frames

/-- What the framing code owes to the compressor: frame by frame, all of the
input and nothing else, and no frame over the largest one. -/
structure Framing (input : List UInt8) (calls : List Call) : Prop where
  bracketed : Bracketed calls none
  fed : fedBytes calls = input
  bounds : ∀ size ∈ recordedSizes calls, size ≤ MAX_FRAME_SIZE

theorem bracketed_frames {calls : List Call} (h : ∀ call ∈ calls, ∃ src, call = .frame src) :
    Bracketed calls none := by
  induction calls using List.reverseRecOn with
  | nil => exact .nil
  | append_singleton calls call ih =>
      obtain ⟨src, rfl⟩ := h call (List.mem_append_right _ List.mem_cons_self)
      exact .frame src (ih fun c hc => h c (List.mem_append_left _ hc))

section Reading

variable {stream : Stream} {short : Nat → Nat} {pos : Nat}

/-- A frame is filled as far as the stream goes. -/
theorem fillFrame_ok {frameSize : Nat} (fuel : Nat) {frameBuf filled : List UInt8}
    (hfuel : frameSize ≤ frameBuf.length + fuel) (hle : frameBuf.length ≤ frameSize)
    (h : fillFrame stream short frameSize fuel pos frameBuf = .ok filled) :
    filled = frameBuf ++ (stream.bytes.drop pos).take (frameSize - frameBuf.length) := by
  induction fuel generalizing pos frameBuf with
  | zero =>
      have hfilled : frameBuf = filled := Except.ok.inj h
      rw [← hfilled, show frameSize - frameBuf.length = 0 by omega, List.take_zero,
        List.append_nil]
  | succ fuel ih =>
      simp only [fillFrame] at h
      split at h
      case isTrue hlt =>
        have hsplit := fread_split stream short pos (frameSize - frameBuf.length)
        have hlen := length_fread_le stream short pos (frameSize - frameBuf.length)
        split at h
        case isTrue hsome =>
          have hrest := ih (by rw [List.length_append]; omega) (by rw [List.length_append]; omega) h
          generalize fread stream short pos (frameSize - frameBuf.length) = chunk at *
          rw [hrest, hsplit, List.append_assoc, List.length_append, List.take_append,
            List.take_of_length_le hlen, Nat.sub_sub]
        case isFalse hnone =>
          have hend := end_of_fread (by omega) (not_not.mp hnone)
          split at h
          · cases h
          · cases h
            rw [hend, List.take_nil, List.append_nil]
      case isFalse hfull =>
        have hfilled : frameBuf = filled := Except.ok.inj h
        rw [← hfilled, show frameSize - frameBuf.length = 0 by omega, List.take_zero,
          List.append_nil]

/-- Only a stream that ends in a read error leaves a frame unfilled. -/
theorem fillFrame_error {frameSize : Nat} (fuel : Nat) {frameBuf : List UInt8} {e : Exit}
    (h : fillFrame stream short frameSize fuel pos frameBuf = .error e) : stream.fails = true := by
  induction fuel generalizing pos frameBuf with
  | zero => cases h
  | succ fuel ih =>
      simp only [fillFrame] at h
      split at h
      case isTrue =>
        split at h
        case isTrue => exact ih h
        case isFalse =>
          split at h
          case isTrue hfails => exact hfails
          case isFalse => cases h
      case isFalse => cases h

end Reading

section Streaming

variable {ctx : Context} {inChunk : Nat} {short : Nat → Nat} {stream : Stream} {s t : RawState}

/-- Between two rounds: what was read is in the frames. -/
structure RawCore (ctx : Context) (stream : Stream) (s : RawState) : Prop where
  wf : s.frames.Wf
  bounded : s.frames.Bounded ctx
  unpledged : s.frames.Unpledged
  read : s.pos ≤ stream.bytes.length
  fed : fedBytes s.frames.calls = stream.bytes.take s.pos
  within : ∀ size ∈ recordedSizes s.frames.calls, 0 < size ∧ size ≤ ctx.maxBlockSize

theorem rawCore_init (ctx : Context) (stream : Stream) : RawCore ctx stream .init := by
  refine ⟨wf_init, ?_, ?_, Nat.zero_le _, rfl, ?_⟩
  · intro h
    cases h
  · intro frame h
    cases h
  · intro size h
    cases h

theorem take_add_fread (h : s.pos ≤ stream.bytes.length) (n : Nat) :
    stream.bytes.take (s.pos + (fread stream short s.pos n).length) =
        stream.bytes.take s.pos ++ fread stream short s.pos n ∧
      s.pos + (fread stream short s.pos n).length ≤ stream.bytes.length := by
  have hsplit := fread_split stream short s.pos n
  have hlen := congrArg List.length hsplit
  rw [List.length_append, List.length_drop, List.length_drop] at hlen
  refine ⟨?_, by omega⟩
  rw [List.take_add, hsplit, List.take_left]

theorem streamRawStep_next (hmax : 1 ≤ ctx.maxBlockSize) (hs : RawCore ctx stream s)
    (h : streamRawStep ctx inChunk short stream s = .next t) :
    RawCore ctx stream t ∧ s.pos < t.pos := by
  simp only [streamRawStep] at h
  split at h
  case isTrue hsome =>
    cases h
    obtain ⟨htake, hread⟩ := @take_add_fread short stream s hs.read inChunk
    generalize fread stream short s.pos inChunk = inBuf at *
    have hpushed := pushBytesTar_spec hmax inBuf hs.wf hs.bounded
      (hs.unpledged.pledged ctx inBuf.length) (Nat.le_refl _)
    refine ⟨⟨hpushed.wf, hpushed.bounded, hpushed.unpledged hs.unpledged, hread, ?_, ?_⟩, ?_⟩
    · rw [hpushed.fed, hs.fed, htake]
    · have hfull : recordedSizes (pushBytesTar ctx inBuf s.frames).calls =
          (s.frames.blocks.fill ctx.maxBlockSize inBuf.length).full :=
        congrArg Blocks.full hpushed.blocks
      rw [hfull]
      exact full_within_fill hmax inBuf.length hs.within
    · show s.pos < s.pos + inBuf.length
      omega
  case isFalse => split at h <;> cases h

/-- At the end of the stream the open frame is recorded too. -/
theorem streamRawStep_done (hchunk : 0 < inChunk) (hmax : ctx.maxBlockSize ≤ MAX_FRAME_SIZE)
    (hs : RawCore ctx stream s) (h : streamRawStep ctx inChunk short stream s = .done t) :
    Framing stream.bytes t.frames.calls := by
  simp only [streamRawStep] at h
  split at h
  case isTrue => cases h
  case isFalse hnone =>
    split at h
    case isTrue => cases h
    case isFalse =>
      cases h
      have hend := end_of_fread hchunk (not_not.mp hnone)
      have hclosed := endFrameAndRecord_frameOpen s.frames
      have hwf : (endFrameAndRecord s.frames).Wf := by
        refine endFrameAndRecord_wf hs.wf fun frame size hf hpledge => ?_
        rw [hs.unpledged frame hf] at hpledge
        cases hpledge
      have hbracketed := hwf.bracketed
      rw [hclosed, if_neg Bool.false_ne_true] at hbracketed
      refine ⟨hbracketed, ?_, ?_⟩
      · rw [endFrameAndRecord_fedBytes, hs.fed]
        rw [List.drop_eq_nil_iff] at hend
        exact List.take_of_length_le hend
      · intro size hsize
        cases ho : s.frames.frameOpen with
        | false =>
            rw [endFrameAndRecord_closed _ ho] at hsize
            exact Nat.le_trans (hs.within size hsize).2 hmax
        | true =>
            have hroom := hs.bounded ho
            simp only [endFrameAndRecord, ho, if_true, recordedSizes_append,
              List.mem_append] at hsize
            cases hsize with
            | inl hold => exact Nat.le_trans (hs.within size hold).2 hmax
            | inr hnew =>
                have heq : size = s.frames.frameIn := by simpa [recordedSizes] using hnew
                omega

end Streaming

section Fixed

variable {ctx : Context} {short : Nat → Nat} {stream : Stream} {s t : RawState}

/-- Between two rounds: whole frames were made of what was read. -/
structure FixedCore (ctx : Context) (stream : Stream) (s : RawState) : Prop where
  read : s.pos ≤ stream.bytes.length
  frames : ∀ call ∈ s.frames.calls, ∃ src, call = .frame src
  fed : fedBytes s.frames.calls = stream.bytes.take s.pos
  within : ∀ size ∈ recordedSizes s.frames.calls, size ≤ ctx.minBlockSize

theorem fixedCore_init (ctx : Context) (stream : Stream) : FixedCore ctx stream .init := by
  refine ⟨Nat.zero_le _, ?_, rfl, ?_⟩
  · intro call h
    cases h
  · intro size h
    cases h

/-- One more frame, of `n` bytes of the stream. -/
theorem FixedCore.frame (hs : FixedCore ctx stream s) {n : Nat} (hn : n ≤ ctx.minBlockSize)
    (hread : s.pos + n ≤ stream.bytes.length) :
    FixedCore ctx stream
      ⟨s.pos + n, { s.frames with
        calls := s.frames.calls ++ [.frame ((stream.bytes.drop s.pos).take n)] }⟩ := by
  refine ⟨hread, ?_, ?_, ?_⟩
  · intro call hcall
    rw [List.mem_append, List.mem_singleton] at hcall
    cases hcall with
    | inl hold => exact hs.frames call hold
    | inr hnew => exact ⟨_, hnew⟩
  · rw [fedBytes_append, hs.fed, List.take_add]
    simp [fedBytes]
  · intro size hsize
    rw [recordedSizes_append, List.mem_append] at hsize
    cases hsize with
    | inl hold => exact hs.within size hold
    | inr hnew =>
        have heq : size = min n (stream.bytes.length - s.pos) := by
          simpa [recordedSizes] using hnew
        omega

/-- What a round with `-s` does: it fails with the stream, stops behind the last
byte, or compresses `-s` bytes and goes on, or what is left when that is less. -/
theorem fixedRawStep_cases (hmin : ctx.minBlockSize ≠ 0) (hread : s.pos ≤ stream.bytes.length) :
    (stream.fails = true ∧ ∃ e, fixedRawStep ctx short stream s = .exit e s) ∨
    (s.pos = stream.bytes.length ∧ fixedRawStep ctx short stream s = .done s) ∨
    ∃ n t, 0 < n ∧ s.pos + n ≤ stream.bytes.length ∧ t = RawState.mk (s.pos + n)
        { s.frames with calls := s.frames.calls ++ [.frame ((stream.bytes.drop s.pos).take n)] } ∧
      ((n = ctx.minBlockSize ∧ fixedRawStep ctx short stream s = .next t) ∨
        (n < ctx.minBlockSize ∧ s.pos + n = stream.bytes.length ∧
          fixedRawStep ctx short stream s = .done t)) := by
  obtain ⟨filled, hfilled⟩ :
      ∃ filled, fillFrame stream short ctx.minBlockSize ctx.minBlockSize s.pos [] = filled :=
    ⟨_, rfl⟩
  cases filled with
  | error e => exact .inl ⟨fillFrame_error _ hfilled, e, by rw [fixedRawStep, hfilled]⟩
  | ok frameBuf =>
      right
      have hbuf := fillFrame_ok ctx.minBlockSize (by rw [List.length_nil]; omega)
        (Nat.zero_le _) hfilled
      rw [List.nil_append, List.length_nil, Nat.sub_zero] at hbuf
      have hlen := congrArg List.length hbuf
      rw [List.length_take, List.length_drop] at hlen
      by_cases hempty : frameBuf.length = 0
      · refine .inl ⟨by omega, ?_⟩
        simp only [fixedRawStep, hfilled, hempty, if_true]
      · have htake : (stream.bytes.drop s.pos).take frameBuf.length = frameBuf := by
          rw [hlen, hbuf, List.take_eq_take_iff, List.length_drop]
          omega
        refine .inr ⟨frameBuf.length, _, Nat.pos_of_ne_zero hempty, by omega, rfl, ?_⟩
        rw [htake]
        by_cases hlast : frameBuf.length < ctx.minBlockSize
        · refine .inr ⟨hlast, by omega, ?_⟩
          simp only [fixedRawStep, hfilled]
          rw [if_neg hempty, if_pos hlast]
        · refine .inl ⟨by omega, ?_⟩
          simp only [fixedRawStep, hfilled]
          rw [if_neg hempty, if_neg hlast]

theorem fixedRawStep_core (hmin : ctx.minBlockSize ≠ 0) (hs : FixedCore ctx stream s) :
    (∃ e, fixedRawStep ctx short stream s = .exit e s) ∨
    (s.pos = stream.bytes.length ∧ fixedRawStep ctx short stream s = .done s) ∨
    ∃ t, s.pos < t.pos ∧ FixedCore ctx stream t ∧
      (fixedRawStep ctx short stream s = .next t ∨
        (t.pos = stream.bytes.length ∧ fixedRawStep ctx short stream s = .done t)) := by
  obtain ⟨-, hexit⟩ | hstop | ⟨n, t, hn, hfits, rfl, hround⟩ :=
    @fixedRawStep_cases _ short _ _ hmin hs.read
  · exact .inl hexit
  · exact .inr (.inl hstop)
  · have hle : n ≤ ctx.minBlockSize := by
      obtain ⟨rfl, -⟩ | ⟨hlt, -⟩ := hround
      · exact Nat.le_refl _
      · omega
    refine .inr (.inr ⟨_, Nat.lt_add_of_pos_right hn, hs.frame hle hfits, ?_⟩)
    obtain ⟨-, hnext⟩ | ⟨-, hlast, hdone⟩ := hround
    · exact .inl hnext
    · exact .inr ⟨hlast, hdone⟩

theorem FixedCore.framing (hmax : ctx.minBlockSize ≤ MAX_FRAME_SIZE) (hs : FixedCore ctx stream s)
    (hend : s.pos = stream.bytes.length) : Framing stream.bytes s.frames.calls := by
  refine ⟨bracketed_frames hs.frames, ?_, ?_⟩
  · rw [hs.fed, hend, List.take_length]
  · intro size hsize
    exact Nat.le_trans (hs.within size hsize) hmax

end Fixed

theorem Context.clamp_min_le (ctx : Context) : ctx.clamp.minBlockSize ≤ MAX_FRAME_SIZE := by
  simp only [Context.clamp]
  split <;> omega

/-- The raw mode from stdin ends, and returns with the stream in frames. -/
theorem compressRaw_framing (ctx : Context) {inChunk : Nat} (hchunk : 0 < inChunk)
    (short : Nat → Nat) (stream : Stream) :
    ∃ r, compressRaw ctx inChunk short stream = some r ∧
      (r.isReturned = true → Framing stream.bytes r.state.frames.calls) := by
  have hmax := ctx.clamp_max_le
  by_cases hmin : ctx.clamp.minBlockSize = 0
  · have round : ∀ s t, RawCore ctx.clamp stream s →
        streamRawStep ctx.clamp inChunk short stream s = .next t →
        RawCore ctx.clamp stream t ∧ stream.bytes.length - t.pos < stream.bytes.length - s.pos := by
      intro s t hs h
      obtain ⟨ht, hmove⟩ := streamRawStep_next hmax.1 hs h
      have := ht.read
      exact ⟨ht, by omega⟩
    obtain ⟨r, s, hr, hs, hend⟩ := exists_endsAt_of_measure _ _ round
      (rawCore_init ctx.clamp stream) (Nat.lt_succ_of_le (Nat.sub_le _ _))
    rw [compressRaw, compressStdinRaw, stdinRawStep, if_pos hmin]
    refine ⟨r, hr, fun hret => ?_⟩
    cases r with
    | exited e t => cases hret
    | returned t => exact streamRawStep_done hchunk hmax.2 hs hend
  · have round : ∀ s t, FixedCore ctx.clamp stream s →
        fixedRawStep ctx.clamp short stream s = .next t →
        FixedCore ctx.clamp stream t ∧
          stream.bytes.length - t.pos < stream.bytes.length - s.pos := by
      intro s t hs h
      obtain ⟨e, hexit⟩ | ⟨-, hdone⟩ | ⟨u, hmove, hu, hnext | ⟨-, hdone⟩⟩ :=
        @fixedRawStep_core _ short _ _ hmin hs
      · rw [hexit] at h
        cases h
      · rw [hdone] at h
        cases h
      · rw [hnext] at h
        cases h
        have := hu.read
        exact ⟨hu, by omega⟩
      · rw [hdone] at h
        cases h
    obtain ⟨r, s, hr, hs, hend⟩ := exists_endsAt_of_measure _ _ round
      (fixedCore_init ctx.clamp stream) (Nat.lt_succ_of_le (Nat.sub_le _ _))
    rw [compressRaw, compressStdinRaw, stdinRawStep, if_neg hmin]
    refine ⟨r, hr, fun hret => ?_⟩
    cases r with
    | exited e t => cases hret
    | returned t =>
        have hdone : fixedRawStep ctx.clamp short stream s = .done t := hend
        obtain ⟨e, hexit⟩ | ⟨hstop, hlast⟩ | ⟨u, -, hu, hnext | ⟨hstop, hlast⟩⟩ :=
          @fixedRawStep_core _ short _ _ hmin hs
        · rw [hexit] at hdone
          cases hdone
        · rw [hlast] at hdone
          cases hdone
          exact hs.framing ctx.clamp_min_le hstop
        · rw [hnext] at hdone
          cases hdone
        · rw [hlast] at hdone
          cases hdone
          exact hu.framing ctx.clamp_min_le hstop

section Mapped

variable {ctx : Context} {input : List UInt8} {s t : FileState}

/-- The frames made of a mapped file so far hold what is before `readBuff`. -/
structure MappedCore (input : List UInt8) (s : FileState) : Prop where
  read : s.readBuff ≤ input.length
  frames : ∀ call ∈ s.calls, ∃ src, call = .frame src
  fed : fedBytes s.calls = input.take s.readBuff
  within : ∀ size ∈ recordedSizes s.calls, size ≤ MAX_FRAME_SIZE

theorem MappedCore.framing (hs : MappedCore input s) (hend : s.readBuff = input.length) :
    Framing input s.calls :=
  ⟨bracketed_frames hs.frames, by rw [hs.fed, hend, List.take_length], hs.within⟩

theorem MappedCore.of_same (hs : MappedCore input s) (hread : t.readBuff = s.readBuff)
    (hcalls : t.calls = s.calls) : MappedCore input t where
  read := hread ▸ hs.read
  frames := hcalls ▸ hs.frames
  fed := by rw [hcalls, hread, hs.fed]
  within := hcalls ▸ hs.within

theorem mappedCore_init (input : List UInt8) : MappedCore input .init := by
  refine ⟨Nat.zero_le _, ?_, rfl, ?_⟩
  · intro call h
    cases h
  · intro size h
    cases h

/-- One more frame, of the `n` bytes at `readBuff`. -/
theorem MappedCore.frame (hs : MappedCore input s) {n : Nat} (hn : n ≤ MAX_FRAME_SIZE)
    (hread : s.readBuff + n ≤ input.length) (hbuff : t.readBuff = s.readBuff + n)
    (hcalls : t.calls = s.calls ++ [.frame ((input.drop s.readBuff).take n)]) :
    MappedCore input t := by
  refine ⟨by rw [hbuff]; exact hread, ?_, ?_, ?_⟩
  · intro call hcall
    rw [hcalls, List.mem_append, List.mem_singleton] at hcall
    cases hcall with
    | inl hold => exact hs.frames call hold
    | inr hnew => exact ⟨_, hnew⟩
  · rw [hcalls, hbuff, fedBytes_append, hs.fed, List.take_add]
    simp [fedBytes]
  · intro size hsize
    rw [hcalls, recordedSizes_append, List.mem_append] at hsize
    cases hsize with
    | inl hold => exact hs.within size hold
    | inr hnew =>
        have heq : size = min n (input.length - s.readBuff) := by
          simpa [recordedSizes] using hnew
        omega

/-- What a raw round does: it stops behind the last byte, or makes a frame and
stops where that takes what is left and is not full. -/
theorem rawStep_core (hmin : ctx.minBlockSize ≤ MAX_FRAME_SIZE)
    (hmax : 1 ≤ ctx.maxBlockSize ∧ ctx.maxBlockSize ≤ MAX_FRAME_SIZE) (hs : MappedCore input s)
    (hmore : s.lastChunk = false) (hresidual : s.residual = 0) :
    (s.readBuff = input.length ∧ rawStep ctx input s = .done s) ∨
    ∃ t, s.readBuff < t.readBuff ∧ MappedCore input t ∧
      ((t.lastChunk = false ∧ t.residual = 0 ∧ rawStep ctx input s = .next t) ∨
        (t.readBuff = input.length ∧ rawStep ctx input s = .done t)) := by
  have hpos : 0 < if ctx.minBlockSize ≠ 0 then ctx.minBlockSize else ctx.maxBlockSize := by
    split <;> omega
  have hle : (if ctx.minBlockSize ≠ 0 then ctx.minBlockSize else ctx.maxBlockSize) ≤
      MAX_FRAME_SIZE := by
    split <;> omega
  obtain hstop | ⟨n, t, hn, hfits, hbuff, hcalls, hround⟩ :=
    rawStep_cases rfl hpos hs.read hmore hresidual
  · exact .inl hstop
  · have hbound : n ≤ MAX_FRAME_SIZE := by
      obtain ⟨rfl, -⟩ | ⟨hlt, -⟩ := hround
      · exact hle
      · omega
    refine .inr ⟨t, by omega, hs.frame hbound hfits hbuff hcalls, ?_⟩
    obtain ⟨-, hgo⟩ | ⟨-, hlast, hdone⟩ := hround
    · exact .inl hgo
    · exact .inr ⟨hbuff.trans hlast, hdone⟩

/-- The raw mode over a mapped file ends, and returns with the file in frames. -/
theorem compressMapped_raw {ctx : Context} (hraw : ctx.rawMode = true)
    (after : Nat → List UInt8) (input : List UInt8) :
    ∃ s, compressMapped ctx after input = some (.returned s) ∧ Framing input s.calls := by
  have hmax := ctx.clamp_max_le
  have hmin := ctx.clamp_min_le
  have hstep : fileStep ctx.clamp after input = rawStep ctx.clamp input :=
    fileStep_raw ctx.clamp hraw after input
  have round : ∀ s t : FileState, (MappedCore input s ∧ s.lastChunk = false ∧ s.residual = 0) →
      rawStep ctx.clamp input s = .next t →
      (MappedCore input t ∧ t.lastChunk = false ∧ t.residual = 0) ∧
        input.length - t.readBuff < input.length - s.readBuff := by
    intro s t hs h
    obtain ⟨-, hdone⟩ | ⟨u, hmove, hu, ⟨hmore, hresidual, hnext⟩ | ⟨-, hdone⟩⟩ :=
      rawStep_core hmin hmax hs.1 hs.2.1 hs.2.2
    · rw [hdone] at h
      cases h
    · rw [hnext] at h
      cases h
      have := hu.read
      exact ⟨⟨hu, hmore, hresidual⟩, by omega⟩
    · rw [hdone] at h
      cases h
  obtain ⟨r, s, hr, ⟨hs, hmore, hresidual⟩, hend⟩ := exists_endsAt_of_measure _ _ round
    ⟨mappedCore_init input, rfl, rfl⟩ (show input.length - 0 < 4 * input.length + 4 by omega)
  have hdone : ∃ t, r = .returned t ∧ Framing input t.calls := by
    obtain ⟨hstop, hlast⟩ | ⟨u, -, hu, ⟨-, -, hnext⟩ | ⟨hstop, hlast⟩⟩ :=
      rawStep_core hmin hmax hs hmore hresidual
    · cases r <;> rw [EndsAt, hlast] at hend <;> cases hend
      exact ⟨s, rfl, hs.framing hstop⟩
    · cases r <;> rw [EndsAt, hnext] at hend <;> cases hend
    · cases r <;> rw [EndsAt, hlast] at hend <;> cases hend
      exact ⟨u, rfl, hu.framing hstop⟩
  obtain ⟨t, rfl, hframing⟩ := hdone
  refine ⟨t, ?_, hframing⟩
  rw [compressMapped, mappedLoop, hstep, hr, Option.map_some, requireEntries,
    show ctx.clamp.rawMode = true from hraw]
  rfl

/-- In tar mode, at the start of a round: the block and the residual lie between
`readBuff` and the next header. -/
structure TarCore (input : List UInt8) (s : FileState) : Prop extends MappedCore input s where
  idx_eq : s.tarHeaderIdx = s.readBuff + s.blockSize + s.residual
  idx_le : s.tarHeaderIdx ≤ input.length
  fresh : s.residual ≠ 0 → s.blockSize = 0

theorem tarCore_init (input : List UInt8) : TarCore input .init :=
  ⟨mappedCore_init input, rfl, Nat.zero_le _, fun hne => absurd rfl hne⟩

/-- An element moves the next header, within the file, and the block with it. -/
theorem fileElement_moves {after : Nat → List UInt8} (hw : input.length + 512 < 2 ^ ctx.sizeBits)
    (hs : TarCore input s) (hresidual : s.residual = 0)
    (h : fileElement ctx after input s = .ok t) :
    ∃ n, t.tarHeaderIdx = s.tarHeaderIdx + n ∧ s.tarHeaderIdx + n ≤ input.length ∧
      t.blockSize = s.blockSize + n ∧ t.readBuff = s.readBuff ∧ t.calls = s.calls ∧
      t.residual = 0 := by
  have hidx := hs.idx_eq
  have hle := hs.idx_le
  obtain ⟨hres, -⟩ | ⟨-, hroom, hmove⟩ := fileElement_cases h
  · exact absurd hresidual hres
  · rw [uadd_eq (by omega)] at hroom
    obtain rfl | ⟨toNextHeader, _, _, hfits, rfl⟩ := hmove
    · refine ⟨512, ?_, hroom, ?_, rfl, rfl, hresidual⟩
      · exact uadd_eq (by omega)
      · exact uadd_eq (by omega)
    · rw [usub_eq hle (by omega)] at hfits
      refine ⟨toNextHeader, ?_, by omega, ?_, rfl, rfl, hresidual⟩
      · exact uadd_eq (by omega)
      · exact uadd_eq (by omega)

/-- In tar mode, before the block is compressed or goes on. -/
structure Cut (ctx : Context) (input : List UInt8) (s : FileState) : Prop
    extends MappedCore input s where
  idx_eq : s.tarHeaderIdx = s.readBuff + s.blockSize + s.residual
  idx_le : s.tarHeaderIdx ≤ input.length
  fits : s.blockSize ≤ ctx.maxBlockSize
  last : s.lastChunk = true → s.tarHeaderIdx = input.length

theorem splitBlock_cut (hmax : 1 ≤ ctx.maxBlockSize) (hs : MappedCore input s)
    (hidx : s.tarHeaderIdx = s.readBuff + s.blockSize + s.residual)
    (hle : s.tarHeaderIdx ≤ input.length)
    (hfits : s.residual = 0 ∨ s.blockSize ≤ ctx.maxBlockSize) :
    Cut ctx input (splitBlock ctx input s) := by
  by_cases hover : ctx.maxBlockSize ≠ 0 ∧ ctx.maxBlockSize < s.blockSize
  · simp only [splitBlock, if_pos hover]
    refine ⟨hs.of_same rfl rfl, ?_, hle, Nat.le_refl _, ?_⟩
    · show s.tarHeaderIdx = s.readBuff + ctx.maxBlockSize + (s.blockSize - ctx.maxBlockSize)
      omega
    · intro hlast
      exact Nat.le_antisymm hle (of_decide_eq_true hlast)
  · simp only [splitBlock, if_neg hover]
    refine ⟨hs.of_same rfl rfl, hidx, hle, ?_, ?_⟩
    · show s.blockSize ≤ ctx.maxBlockSize
      omega
    · intro hlast
      exact Nat.le_antisymm hle (of_decide_eq_true hlast)

/-- A round takes the next element or a part of the residual into the block, and
cuts it at `-S`. -/
theorem fileElement_cut {after : Nat → List UInt8} (hw : input.length + 512 < 2 ^ ctx.sizeBits)
    (hmax : 1 ≤ ctx.maxBlockSize) (hs : TarCore input s)
    (h : fileElement ctx after input s = .ok t) : Cut ctx input (splitBlock ctx input t) := by
  have hidx := hs.idx_eq
  have hle := hs.idx_le
  by_cases hresidual : s.residual = 0
  · obtain ⟨n, hstop, hfile, hblock, hbuff, hcalls, hnone⟩ := fileElement_moves hw hs hresidual h
    exact splitBlock_cut hmax (hs.toMappedCore.of_same hbuff hcalls) (by omega) (by omega)
      (.inl hnone)
  · have hempty := hs.fresh hresidual
    rw [fileElement, if_pos hresidual, Except.ok.injEq, takeResidual] at h
    subst h
    split
    case isTrue hover =>
      refine splitBlock_cut hmax (hs.toMappedCore.of_same rfl rfl) ?_ hle (.inr (Nat.le_refl _))
      show s.tarHeaderIdx = s.readBuff + ctx.maxBlockSize + (s.residual - ctx.maxBlockSize)
      omega
    case isFalse =>
      refine splitBlock_cut hmax (hs.toMappedCore.of_same rfl rfl) ?_ hle (.inl rfl)
      show s.tarHeaderIdx = s.readBuff + s.residual + 0
      omega

/-- The invariant of the tar rounds. -/
theorem tarStep_next {after : Nat → List UInt8} (hw : input.length + 512 < 2 ^ ctx.sizeBits)
    (hmax : 1 ≤ ctx.maxBlockSize ∧ ctx.maxBlockSize ≤ MAX_FRAME_SIZE) (hs : TarCore input s)
    (h : tarStep ctx after input s = .next t) : TarCore input t := by
  simp only [tarStep] at h
  split at h
  case h_1 => cases h
  case h_2 parsed hparsed =>
    have hcut := fileElement_cut hw hmax.1 hs hparsed
    generalize splitBlock ctx input parsed = u at h hcut
    have hidx := hcut.idx_eq
    have hle := hcut.idx_le
    have hfits := hcut.fits
    split at h
    case isTrue hgo =>
      cases h
      simp only [Bool.and_eq_true, beq_iff_eq] at hgo
      exact ⟨hcut.toMappedCore, hidx, hle, fun hne => absurd hgo.1.2 hne⟩
    case isFalse =>
      simp only [emitBlock] at h
      split at h
      case isTrue =>
        cases h
        refine ⟨hcut.toMappedCore.frame (by omega) (by omega) rfl rfl, ?_, hle, fun _ => rfl⟩
        show u.tarHeaderIdx = u.readBuff + u.blockSize + 0 + u.residual
        omega
      case isFalse => cases h

theorem tarStep_done {after : Nat → List UInt8} (hw : input.length + 512 < 2 ^ ctx.sizeBits)
    (hmax : 1 ≤ ctx.maxBlockSize ∧ ctx.maxBlockSize ≤ MAX_FRAME_SIZE) (hs : TarCore input s)
    (h : tarStep ctx after input s = .done t) : Framing input t.calls := by
  simp only [tarStep] at h
  split at h
  case h_1 => cases h
  case h_2 parsed hparsed =>
    have hcut := fileElement_cut hw hmax.1 hs hparsed
    generalize splitBlock ctx input parsed = u at h hcut
    have hidx := hcut.idx_eq
    have hle := hcut.idx_le
    have hfits := hcut.fits
    split at h
    case isTrue => cases h
    case isFalse =>
      simp only [emitBlock] at h
      split at h
      case isTrue => cases h
      case isFalse hstop =>
        cases h
        simp only [Bool.or_eq_true, Bool.not_eq_true', bne_iff_ne, not_or, Bool.not_eq_false,
          not_not] at hstop
        have hend := hcut.last hstop.1
        have hcore : MappedCore input (emit input u) :=
          hcut.toMappedCore.frame (by omega) (by omega) rfl rfl
        apply hcore.framing
        show u.readBuff + u.blockSize = input.length
        omega

/-- The tar mode over a mapped file returns with the file in frames. -/
theorem compressMapped_tar {ctx : Context} (htar : ctx.rawMode = false)
    (after : Nat → List UInt8) (input : List UInt8) (hw : input.length + 512 < 2 ^ ctx.sizeBits)
    {s : FileState} (h : compressMapped ctx after input = some (.returned s)) :
    Framing input s.calls := by
  have hstep : fileStep ctx.clamp after input = tarStep ctx.clamp after input :=
    fileStep_tar ctx.clamp htar after input
  rw [compressMapped, mappedLoop, hstep, Option.map_eq_some_iff] at h
  obtain ⟨r, hr, hreturned⟩ := h
  have hword : input.length + 512 < 2 ^ ctx.clamp.sizeBits := hw
  have keeps : ∀ s t, TarCore input s → tarStep ctx.clamp after input s = .next t →
      TarCore input t := fun _ _ hs h => tarStep_next hword ctx.clamp_max_le hs h
  obtain ⟨t, ht, hend⟩ := (runs_of_iterate hr).invariant keeps (tarCore_init input)
  cases r with
  | exited e u => cases hreturned
  | returned u =>
      have hdone : tarStep ctx.clamp after input t = .done u := hend
      have hframing := tarStep_done hword ctx.clamp_max_le ht hdone
      simp only [requireEntries] at hreturned
      split at hreturned
      · cases hreturned
      · cases hreturned
        exact hframing

end Mapped

/-- A run of `compressFile` that returns, in one of its four modes, with the
calls it made. -/
inductive Framed (ctx : Context) (input : List UInt8) : List Call → Prop
  | file (after : Nat → List UInt8) (s : FileState) (fits : input.length + 4096 ≤ 2 ^ ctx.sizeBits)
      (returns : compressMapped ctx after input = some (.returned s)) : Framed ctx input s.calls
  | stdinTar (after : Nat → List UInt8) (fails : Bool) (s : StdinState) (tar : ctx.rawMode = false)
      (returns : compressStdin ctx after ⟨input, fails⟩ = some (.returned s)) :
      Framed ctx input s.frames.calls
  | stdinRaw (inChunk : Nat) (short : Nat → Nat) (fails : Bool) (s : RawState)
      (chunk : 0 < inChunk) (raw : ctx.rawMode = true)
      (returns : compressRaw ctx inChunk short ⟨input, fails⟩ = some (.returned s)) :
      Framed ctx input s.frames.calls

/-- A run that returns has put the input into frames. -/
theorem Framed.framing {ctx : Context} {input : List UInt8} {calls : List Call}
    (hn : input.length < 2 ^ 62) (h : Framed ctx input calls) : Framing input calls := by
  cases h with
  | file after s fits returns =>
      cases hmode : ctx.rawMode with
      | true =>
          obtain ⟨t, ht, hframing⟩ := compressMapped_raw hmode after input
          rw [ht, Option.some.injEq, Result.returned.injEq] at returns
          rwa [← returns]
      | false => exact compressMapped_tar hmode after input (by omega) returns
  | stdinTar after fails s tar returns =>
      obtain ⟨r, r', hr, -, hreturns, -⟩ :=
        @compressStdinTar_scans ctx.clamp ⟨input, fails⟩ ctx.clamp_max_le.1 hn after
      rw [compressStdin, hr, Option.some.injEq] at returns
      subst returns
      have hdone := (hreturns rfl).2.2
      have hbracketed := hdone.wf.bracketed
      have hclosed : s.frames.frameOpen = false := hdone.closed
      refine ⟨?_, hdone.fed, ?_⟩
      · simpa [hclosed] using hbracketed
      · intro size hsize
        have hsizes : recordedSizes s.frames.calls = _ := hdone.sizes
        rw [hsizes] at hsize
        exact Nat.le_trans (sizes_within ctx.clamp_max_le.1 _ hsize).2 ctx.clamp_max_le.2
  | stdinRaw inChunk short fails s chunk raw returns =>
      obtain ⟨r, hr, hframing⟩ := compressRaw_framing ctx chunk short ⟨input, fails⟩
      rw [hr, Option.some.injEq] at returns
      subst returns
      exact hframing rfl

end T2sz
