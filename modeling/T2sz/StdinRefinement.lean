import T2sz.StdinRounds

/-!
The loop of `compressStdinTar` is the walk over the elements, a round an element.
-/

namespace T2sz

open Iteration Blocking

set_option maxRecDepth 4000

/-- What the streaming path has done when it returns. -/
structure StdinDone (ctx : Context) (input : List UInt8) (s : StdinState) : Prop where
  wf : s.frames.Wf
  closed : s.frames.frameOpen = false
  fed : fedBytes s.frames.calls = input
  sizes : recordedSizes s.frames.calls =
    Blocking.sizes ctx.minBlockSize ctx.maxBlockSize (spans s.log)

/-- Where the streaming path returns, the walk ends; where it fails, so does the
walk, if the stream does not and the frames can be counted. -/
def StdinAgrees (ctx : Context) (stream : Stream) (r : Result StdinState Exit)
    (r' : Result Cursor Unit) : Prop :=
  (r.isReturned = true → r'.isReturned = true ∧ r.state.log = r'.state.log ∧
    StdinDone ctx stream.bytes r.state) ∧
  (r.isReturned = false → stream.fails = false → stream.bytes.length < 2 ^ ctx.sizeBits →
    r'.isReturned = false ∧ r.state.log = r'.state.log)

section Rounds

variable {ctx : Context} {stream : Stream} {after : Nat → List UInt8} {s : StdinState} {c : Cursor}

/-- A frame that was closed is counted with what it holds. -/
theorem sum_recordedSizes_of_closed {f : Frames} (wf : f.Wf) (hc : f.frameOpen = false) :
    (recordedSizes f.calls).sum = (fedBytes f.calls).length := by
  have hopen : (session f.calls).opened = none := wf.open_none hc
  rw [← wf.fed, wf.recorded, Session.content, hopen]
  simp [Frames.closedFrames, List.length_flatten, Function.comp_def]

/-- The frame that the end of the input leaves open is the last block. -/
theorem endFrameAndRecord_finish {f : Frames} (h : Steady ctx f) :
    (endFrameAndRecord f).Wf ∧ recordedSizes (endFrameAndRecord f).calls = f.blocks.finish := by
  have hwf : (endFrameAndRecord f).Wf := by
    refine endFrameAndRecord_wf h.wf fun frame size hframe hsize => ?_
    rw [h.unpledged frame hframe] at hsize
    cases hsize
  refine ⟨hwf, ?_⟩
  cases ho : f.frameOpen with
  | false => simp [endFrameAndRecord, Frames.blocks, Blocks.finish, ho]
  | true =>
      have hpos := h.filled ho
      simp [endFrameAndRecord, Frames.blocks, Blocks.finish, ho, hpos, recordedSizes]

/-- At the end of the input everything is flushed and every frame is closed. -/
theorem finishStdin_spec (hmax : 1 ≤ ctx.maxBlockSize) (hn : stream.bytes.length < 2 ^ 64)
    (h : StdinInv ctx stream.bytes s) (hend : s.pos = stream.bytes.length) :
    ∃ t, StdinDone ctx stream.bytes t ∧ t.log = s.log ∧
      finishStdin ctx s =
        if frameCount ctx t.frames.calls = 0 then .exit .noEntries t else .done t := by
  obtain ⟨flushed, hflushed⟩ : ∃ flushed, (if s.nullRun ≠ 0 ∨ s.held ≠ [] then flushHeld ctx s
      else s) = flushed := ⟨_, rfl⟩
  have hspec : Steady ctx flushed.frames ∧
      flushed.frames.blocks.finish =
        Blocking.sizes ctx.minBlockSize ctx.maxBlockSize (spans s.log) ∧
      fedBytes flushed.frames.calls = stream.bytes ∧ flushed.log = s.log := by
    have hfinish : (s.frames.blocks.fill ctx.maxBlockSize (s.held.length + s.nullRun)).finish =
        Blocking.sizes ctx.minBlockSize ctx.maxBlockSize (spans s.log) := by
      rw [Blocking.sizes, spans, ← h.blocks, finish_openSpans, ← finish_openSpans]
    rw [← hflushed]
    by_cases hne : s.nullRun ≠ 0 ∨ s.held ≠ []
    · obtain ⟨hsteady, hblocks, hfed⟩ := flushHeld_spec hmax hn h.toStdinCore hne
      rw [if_pos hne]
      refine ⟨hsteady, ?_, ?_, rfl⟩
      · rw [hblocks, ← hfinish]
        exact Blocks.finish_settle false _
      · rw [hfed, hend, List.take_length]
    · rw [if_neg hne]
      rw [not_or, not_not, not_not] at hne
      have hbytes := h.bytes
      rw [hne.1, hne.2, hend, List.take_length] at hbytes
      refine ⟨h.steady, ?_, by simpa using hbytes, rfl⟩
      rw [← hfinish, hne.1, hne.2, List.length_nil, Nat.add_zero,
        Blocks.fill_zero _ (h.steady.bounded.rest_lt hmax)]
  obtain ⟨hsteady, hsizes, hfed, hlog⟩ := hspec
  obtain ⟨hwf, hrecorded⟩ := endFrameAndRecord_finish hsteady
  refine ⟨{ flushed with frames := endFrameAndRecord flushed.frames },
    ⟨hwf, endFrameAndRecord_frameOpen _, ?_, ?_⟩, hlog, ?_⟩
  · rw [endFrameAndRecord_fedBytes, hfed]
  · rw [hrecorded, hsizes, hlog]
  · simp only [finishStdin, hflushed]

/-- Frames are counted exactly when there was an element. -/
theorem StdinDone.frameCount_eq_zero (hmax : 1 ≤ ctx.maxBlockSize) {t : StdinState}
    (h : StdinDone ctx stream.bytes t) (hlog : t.log = [] ↔ stream.bytes.length = 0) :
    (t.log = [] → frameCount ctx t.frames.calls = 0) ∧
      (stream.bytes.length < 2 ^ ctx.sizeBits → frameCount ctx t.frames.calls = 0 →
        t.log = []) := by
  constructor
  · intro hnil
    rw [frameCount, h.sizes, hnil]
    simp [spans, openSpans, Blocking.sizes, Blocking.run, Blocks.finish]
  · intro hn hcount
    have hsum := sum_recordedSizes_of_closed h.wf h.closed
    have hlen : (recordedSizes t.frames.calls).length ≤ (recordedSizes t.frames.calls).sum := by
      apply List.length_le_sum_of_one_le
      intro size hsize
      rw [h.sizes] at hsize
      exact (sizes_within hmax _ hsize).1
    rw [h.fed] at hsum
    rw [frameCount, Nat.mod_eq_of_lt (by omega)] at hcount
    rw [List.length_eq_zero_iff.mp hcount] at hsum
    rw [hlog]
    simpa using hsum.symm

/-- At the end of the input the walk ends too. -/
theorem finishStdin_inStep (hmax : 1 ≤ ctx.maxBlockSize) (hn : stream.bytes.length < 2 ^ 62)
    (h : StdinInv ctx stream.bytes s) (hc : StdinAt s c) (hend : s.pos = stream.bytes.length)
    (rule : PaxRule) :
    InStep (scanStep rule stream.bytes) (fun s c => StdinInv ctx stream.bytes s ∧ StdinAt s c)
      (StdinAgrees ctx stream) c (finishStdin ctx s) := by
  obtain ⟨t, hdone, hlog, hresult⟩ := finishStdin_spec hmax (by omega) h hend
  have hcend : c.idx = stream.bytes.length := hc.idx.trans hend
  have hlogged : t.log = [] ↔ stream.bytes.length = 0 := by
    rw [hlog, h.logged, hend]
  obtain ⟨hzero, hnonzero⟩ := hdone.frameCount_eq_zero hmax hlogged
  rw [hresult]
  split
  case isTrue hcount =>
    by_cases hlogc : c.log = []
    · refine
        ⟨.exited () c, .exit (scanStep_of_stuck (nextCursor_at_end hcend) (.inr hlogc)), ?_, ?_⟩
      · intro hreturned
        cases hreturned
      · intro _ _ _
        exact ⟨rfl, hlog.trans hc.log.symm⟩
    · refine ⟨.returned c, .done (scanStep_of_end hcend hlogc), ?_, ?_⟩
      · intro hreturned
        cases hreturned
      · intro _ _ hword
        rw [hc.log, ← hlog] at hlogc
        exact absurd (hnonzero hword hcount) hlogc
  case isFalse hcount =>
    have hlogc : c.log ≠ [] := by
      rw [hc.log, ← hlog]
      exact fun hnil => hcount (hzero hnil)
    refine ⟨.returned c, .done (scanStep_of_end hcend hlogc), ?_, ?_⟩
    · exact fun _ => ⟨rfl, hlog.trans hc.log.symm, hdone⟩
    · intro hexited
      cases hexited

/-- What is recognised is no larger than the input. -/
theorem recognise_small {input : List UInt8} (hn : input.length < 2 ^ 62) {idx pax : Nat}
    {e : Entry} (he : recognise input idx pax = some e) : e.size ≤ UINT64_MAX - 1024 := by
  have hfits := (recognise_spec he).2.2.2.2
  have hround := le_roundUp e.size
  simp only [Entry.length] at hfits
  simp only [UINT64_MAX]
  omega

theorem headerState_ready (hmax : 1 ≤ ctx.maxBlockSize) (hn : stream.bytes.length < 2 ^ 64)
    (h : StdinInv ctx stream.bytes s) : StdinReady ctx stream.bytes (headerState ctx s) := by
  rw [headerState]
  split
  case isTrue hrun => exact flushHeld_ready hmax hn h hrun
  case isFalse hrun => exact h.ready (not_not.mp hrun)

theorem headerState_at (ctx : Context) (hc : StdinAt s c) : StdinAt (headerState ctx s) c := by
  rw [headerState]
  split
  case isTrue hrun =>
    refine ⟨hc.idx, hc.pax, ?_, hc.log⟩
    rw [hc.held, if_neg hrun]
    rfl
  case isFalse => exact hc

/-- One round is one element. -/
theorem stdinStep_inStep (hmax : 1 ≤ ctx.maxBlockSize) (hn : stream.bytes.length < 2 ^ 62)
    (h : StdinInv ctx stream.bytes s) (hc : StdinAt s c) :
    InStep (scanStep (stdinPaxRule ctx after stream.bytes) stream.bytes)
      (fun s c => StdinInv ctx stream.bytes s ∧ StdinAt s c) (StdinAgrees ctx stream) c
      (stdinStep ctx after stream s) := by
  have hstuck : c.idx ≠ stream.bytes.length →
      nextCursor (stdinPaxRule ctx after stream.bytes) stream.bytes c = none →
      ∀ e : Exit, ∃ r, Runs (scanStep (stdinPaxRule ctx after stream.bytes) stream.bytes) c r ∧
        StdinAgrees ctx stream (.exited e s) r := by
    intro hgoing hnone e
    refine ⟨.exited () c, .exit (scanStep_of_stuck hnone (.inl hgoing)), ?_,
      fun _ _ _ => ⟨rfl, hc.log.symm⟩⟩
    intro hreturned
    cases hreturned
  have hready := headerState_ready hmax (by omega) h
  have hat := headerState_at ctx hc
  have hsame : (headerState ctx s).pos = s.pos := (headerState_same ctx s).1
  have hidx : c.idx = (headerState ctx s).pos := hat.idx
  have hround := stdinStep_round ctx after stream h.pos_le
  revert hround
  generalize stdinStep ctx after stream s = step
  intro hround
  cases hround with
  | failed hend hfails =>
      obtain ⟨r, hr⟩ := scan_runs (stdinPaxRule ctx after stream.bytes) stream.bytes
        (show c.idx ≤ stream.bytes.length by rw [hc.idx]; exact h.pos_le)
      refine ⟨r, hr, ?_, ?_⟩
      · intro hreturned
        cases hreturned
      · intro _ hno
        rw [hfails] at hno
        cases hno
  | ended hend hfinish => exact hfinish ▸ finishStdin_inStep hmax hn h hc hend _
  | truncated hmore hshort =>
      apply hstuck
      · omega
      · rw [nextCursor, if_pos (by omega)]
  | null hroom hzero =>
      have hwaiting := h.waiting_le
      have hrun : (s.nullRun + 512) % 2 ^ 64 = s.nullRun + 512 := Nat.mod_eq_of_lt (by omega)
      have hmove : nextCursor (stdinPaxRule ctx after stream.bytes) stream.bytes c =
          some c.pastNull := by
        rw [nextCursor, hc.idx, if_neg (by omega), hzero, if_pos rfl]
      rw [hrun]
      refine ⟨c.pastNull, scanStep_of_next hmove, pastNull_inv h hroom hmax hzero, ?_⟩
      exact ⟨by simp [Cursor.pastNull, hc.idx], hc.pax, by simp [Cursor.pastNull],
        by simp [Cursor.pastNull, hc.idx, hc.log]⟩
  | rejected hroom hzero herror =>
      apply hstuck
      · omega
      · rw [nextCursor, if_neg (by omega), hidx, hsame, hzero, if_neg Bool.false_ne_true]
        cases hrec : recognise stream.bytes s.pos c.paxNextSize with
        | none => rfl
        | some e =>
            rw [← hsame, hat.pax] at hrec
            obtain ⟨t, ht, -⟩ := @stdinHeader_ok ctx stream after _ c e hmax (by omega) hready
              (hsame ▸ hroom) hrec (recognise_small hn hrec) hat
            rw [ht] at herror
            cases herror
  | entry hroom hzero hok =>
      cases hrec :
          recognise stream.bytes (headerState ctx s).pos (headerState ctx s).paxNextSize with
      | none =>
          obtain ⟨e, herror⟩ := @stdinHeader_stuck ctx stream after _ hmax (by omega) hready
            (hsame ▸ hroom) hrec
          rw [herror] at hok
          cases hok
      | some e =>
          obtain ⟨t, ht, htinv, htat⟩ := @stdinHeader_ok ctx stream after _ c e hmax (by omega)
            hready (hsame ▸ hroom) hrec (recognise_small hn hrec) hat
          rw [ht, Except.ok.injEq] at hok
          subst hok
          refine ⟨_, scanStep_of_next ?_, htinv, htat⟩
          rw [nextCursor, if_neg (by omega), hidx, hsame, hzero, if_neg Bool.false_ne_true, hat.pax,
            ← hsame, hrec]
          rfl

theorem stdinInv_init (ctx : Context) (input : List UInt8) :
    StdinInv ctx input .init where
  steady := steady_of_closed Frames.wf_init rfl
  pos_le := Nat.zero_le _
  logged := by simp [StdinState.init]
  bytes := by simp [StdinState.init, fedBytes]
  held_le := Nat.zero_le _
  tail := rfl
  blocks := by
    simp [StdinState.init, openSpans, Blocking.run, Frames.blocks, Blocks.fill, recordedSizes]

/-- The streaming path ends, and ends as the walk over the elements does. -/
theorem compressStdinTar_scans (hmax : 1 ≤ ctx.maxBlockSize) (hn : stream.bytes.length < 2 ^ 62)
    (after : Nat → List UInt8) :
    ∃ r r', compressStdinTar ctx after stream = some r ∧
      Runs (scanStep (stdinPaxRule ctx after stream.bytes) stream.bytes) .init r' ∧
      StdinAgrees ctx stream r r' := by
  have hround : ∀ s c, StdinInv ctx stream.bytes s ∧ StdinAt s c →
      InStep (scanStep (stdinPaxRule ctx after stream.bytes) stream.bytes)
        (fun s c => StdinInv ctx stream.bytes s ∧ StdinAt s c) (StdinAgrees ctx stream) c
        (stdinStep ctx after stream s) :=
    fun s c hsc => stdinStep_inStep hmax hn hsc.1 hsc.2
  obtain ⟨r, hr⟩ := compressStdinTar_ends ctx after stream
  have hinit : StdinInv ctx stream.bytes .init ∧ StdinAt .init .init :=
    ⟨stdinInv_init ctx stream.bytes, rfl, rfl, rfl, rfl⟩
  obtain ⟨r', hr', hagree⟩ :=
    (runs_of_iterate hr).simulates (fun s c hsc => (hround s c hsc).matches) hinit
  exact ⟨r, r', hr, hr', hagree⟩

end Rounds

end T2sz
