import T2sz.CompressorSpec
import T2sz.Scan
import T2sz.StdinTar

/-!
The frames of `compressStdinTar` between two elements.

There the frames are `Steady`, the bytes fed, the bytes held and the zeros of
the null run are what was read, and pouring what is held and counted into the
open frame gives the blocks that the cutting rule makes of the elements read so
far. A null block and the flush at the end of a null run keep all that.
-/

namespace T2sz

open Iteration Blocking

set_option maxRecDepth 4000

/-- The frames between two elements. -/
structure Steady (ctx : Context) (f : Frames) : Prop where
  wf : f.Wf
  bounded : f.Bounded ctx
  filled : f.Filled
  unpledged : f.Unpledged

section Frames

variable {ctx : Context} {f g o : Frames} {src : List UInt8}

theorem steady_of_closed (wf : f.Wf) (hc : f.frameOpen = false) : Steady ctx f := by
  refine ⟨wf, ?_, ?_, wf.unpledged_of_closed hc⟩
  · intro ho
    rw [hc] at ho
    cases ho
  · intro ho
    rw [hc] at ho
    cases ho

/-- The end of an element whose bytes were all pushed. -/
theorem closeElement_steady (wf : g.Wf) (hb : g.Bounded ctx) (hfilled : g.Filled)
    (hp : g.Pledged ctx 0) (hu : ctx.minBlockSize ≠ 0 → g.Unpledged) :
    Steady ctx (closeElement ctx g) ∧
      (closeElement ctx g).blocks = g.blocks.close ctx.minBlockSize ∧
      fedBytes (closeElement ctx g).calls = fedBytes g.calls := by
  by_cases hclose : (g.frameOpen && decide (ctx.minBlockSize ≤ g.frameIn)) = true
  · have hboth := hclose
    rw [Bool.and_eq_true, decide_eq_true_eq] at hboth
    rw [closeElement, if_pos hclose]
    have hroom := hb hboth.1
    have hend : (endFrameAndRecord g).Wf := by
      refine endFrameAndRecord_wf wf fun frame size hframe hsize => ?_
      rw [hp frame size hframe hsize, Nat.add_zero]
      omega
    exact ⟨steady_of_closed hend (endFrameAndRecord_frameOpen g),
      endFrameAndRecord_blocks g hboth.1 (hfilled hboth.1) hboth.2, endFrameAndRecord_fedBytes g⟩
  · rw [closeElement, if_neg hclose]
    refine ⟨⟨wf, hb, hfilled, ?_⟩, ?_, rfl⟩
    · by_cases hmin : ctx.minBlockSize = 0
      · apply wf.unpledged_of_closed
        simpa [hmin] using hclose
      · exact hu hmin
    · rw [Blocks.close, if_neg]
      cases ho : g.frameOpen with
      | false => simp [Frames.blocks, ho]
      | true =>
          simp only [ho, Bool.true_and, decide_eq_true_eq] at hclose
          simp [Frames.blocks, ho, hclose]

/-- An element is opened, pushed and closed. -/
theorem element_steady {size : Nat} (ho : Opened ctx size f o) (hp : Poured ctx src size o g)
    (hlen : src.length = size) (hpos : src ≠ []) :
    Steady ctx (closeElement ctx g) ∧
      (closeElement ctx g).blocks =
        (f.blocks.fill ctx.maxBlockSize size).close ctx.minBlockSize ∧
      fedBytes (closeElement ctx g).calls = fedBytes f.calls ++ src := by
  have hleft : g.Pledged ctx 0 := by
    have := hp.pledged
    rwa [hlen, Nat.sub_self] at this
  obtain ⟨hsteady, hblocks, hfed⟩ := closeElement_steady hp.wf hp.bounded (hp.filled (.inl hpos))
    hleft
    (fun hmin => hp.unpledged (ho.unpledged hmin))
  exact ⟨hsteady, by rw [hblocks, hp.blocks, ho.blocks, hlen], by rw [hfed, hp.fed, ho.fed]⟩

/-- Bytes pushed within an element that stays open. -/
theorem Poured.steady {k : Nat} (h : Poured ctx src k f g) (hf : Steady ctx f) : Steady ctx g :=
  ⟨h.wf, h.bounded, h.filled (.inr hf.filled), h.unpledged hf.unpledged⟩

theorem pushNullRun_spec (hmax : 1 ≤ ctx.maxBlockSize) {k nullRun : Nat} (fuel : Nat)
    (hfuel : nullRun ≤ fuel) (wf : f.Wf) (hb : f.Bounded ctx) (hp : f.Pledged ctx k)
    (hk : nullRun ≤ k) :
    Poured ctx (List.replicate nullRun 0) k f (pushNullRun ctx fuel nullRun f) := by
  induction fuel generalizing nullRun f k with
  | zero =>
      have hzero : nullRun = 0 := by omega
      subst hzero
      exact .refl hmax wf hb hp
  | succ fuel ih =>
      by_cases hzero : nullRun = 0
      · subst hzero
        rw [pushNullRun, if_pos rfl]
        exact .refl hmax wf hb hp
      · obtain ⟨take, htake⟩ : ∃ take, min IN_CHUNK nullRun = take := ⟨_, rfl⟩
        have hbounds : 0 < take ∧ take ≤ nullRun := by
          simp only [IN_CHUNK] at htake
          omega
        have hround := pushBytesTar_spec hmax (List.replicate take 0) wf hb hp
          (by rw [List.length_replicate]; omega)
        have hleft := hround.pledged
        rw [List.length_replicate] at hleft
        have hrest := @ih _ (k - take) (nullRun - take) (by omega) hround.wf hround.bounded hleft
          (by omega)
        have hall := hround.trans hmax (by rwa [List.length_replicate])
        rw [List.replicate_append_replicate, Nat.add_sub_cancel' hbounds.2] at hall
        simpa only [pushNullRun, if_neg hzero, payloadChunk, htake] using hall

end Frames

/-- What holds between two elements, in a null run or not. -/
structure StdinCore (ctx : Context) (input : List UInt8) (s : StdinState) : Prop where
  steady : Steady ctx s.frames
  pos_le : s.pos ≤ input.length
  logged : s.log = [] ↔ s.pos = 0
  bytes : fedBytes s.frames.calls ++ (s.held ++ List.replicate s.nullRun 0) = input.take s.pos
  held_le : s.held.length ≤ HELD_SIZE

/-- The invariant of the loop. Inside a null run the last element joins whatever
comes next, as the run is not yet cut. -/
structure StdinInv (ctx : Context) (input : List UInt8) (s : StdinState) : Prop
    extends StdinCore ctx input s where
  tail : s.log.getLast?.any Element.isNull = (s.nullRun != 0)
  blocks : Blocking.run ctx.minBlockSize ctx.maxBlockSize
      (openSpans s.log (s.nullRun != 0 || lastJoins s.log none)) =
    s.frames.blocks.fill ctx.maxBlockSize (s.held.length + s.nullRun)

/-- The state in which a header is read. -/
structure StdinReady (ctx : Context) (input : List UInt8) (s : StdinState) : Prop
    extends StdinCore ctx input s where
  flushed : s.nullRun = 0
  blocks : Blocking.run ctx.minBlockSize ctx.maxBlockSize
      (openSpans s.log (lastJoins s.log none)) =
    s.frames.blocks.fill ctx.maxBlockSize s.held.length

section Flushing

variable {ctx : Context} {input : List UInt8} {s : StdinState}

theorem StdinCore.waiting_le (h : StdinCore ctx input s) :
    s.held.length + s.nullRun ≤ s.pos := by
  have hlen := congrArg List.length h.bytes
  simp only [List.length_append, List.length_replicate, List.length_take] at hlen
  omega

/-- What was held and counted goes into the frames as one element. -/
theorem flushHeld_spec (hmax : 1 ≤ ctx.maxBlockSize) (hn : input.length < 2 ^ 64)
    (h : StdinCore ctx input s) (hne : s.nullRun ≠ 0 ∨ s.held ≠ []) :
    Steady ctx (flushHeld ctx s).frames ∧
      (flushHeld ctx s).frames.blocks = (s.frames.blocks.fill ctx.maxBlockSize
        (s.held.length + s.nullRun)).close ctx.minBlockSize ∧
      fedBytes (flushHeld ctx s).frames.calls = input.take s.pos := by
  have hwaiting := h.waiting_le
  have hpos := h.pos_le
  have hsize : (s.held.length + s.nullRun) % 2 ^ 64 = s.held.length + s.nullRun :=
    Nat.mod_eq_of_lt (by omega)
  have hopened := startElementFrame_opened hmax h.steady.wf h.steady.bounded h.steady.unpledged
    (s.held.length + s.nullRun)
  have hheld := pushBytesTar_spec hmax s.held hopened.wf hopened.bounded hopened.pledged
    (Nat.le_add_right _ _)
  have hnulls := pushNullRun_spec hmax s.nullRun (Nat.le_refl _) hheld.wf hheld.bounded
    hheld.pledged (by omega)
  have hsrc : s.held ++ List.replicate s.nullRun 0 ≠ [] := by
    cases hne with
    | inl hrun =>
        intro hnil
        have := congrArg List.length hnil
        simp only [List.length_append, List.length_replicate, List.length_nil] at this
        omega
    | inr hheld => simp [hheld]
  have hclosed := element_steady hopened (hheld.trans hmax hnulls) (by simp) hsrc
  rw [h.bytes] at hclosed
  simpa only [flushHeld, hsize] using hclosed

theorem lastJoins_of_null (hnull : s.log.getLast?.any Element.isNull = true) :
    lastJoins s.log none = false := by
  cases hlast : s.log.getLast? with
  | none => simp [lastJoins, hlast]
  | some e =>
      cases e with
      | null offset => simp [lastJoins, hlast]
      | entry offset length joinsNext pax => simp [hlast, Element.isNull] at hnull

/-- The join of the last span only matters for what comes after it. -/
theorem run_openSpans_settle (low high : Nat) (log : List Element) :
    Blocking.run low high (openSpans log false) =
      (Blocking.run low high (openSpans log true)).close low := by
  induction log using List.reverseRecOn with
  | nil => simp [openSpans, Blocking.run, Blocks.close]
  | append_singleton log e _ =>
      rw [openSpans_append, openSpans_append, Blocking.run_append, Blocking.run_append]
      rfl

theorem finish_openSpans (low high : Nat) (log : List Element) (j : Bool) :
    (Blocking.run low high (openSpans log j)).finish =
      (Blocking.run low high (openSpans log true)).finish := by
  cases j with
  | true => rfl
  | false =>
      rw [run_openSpans_settle]
      exact Blocks.finish_settle false _

/-- Behind the flush the streaming path is ready for a header. -/
theorem flushHeld_ready (hmax : 1 ≤ ctx.maxBlockSize) (hn : input.length < 2 ^ 64)
    (h : StdinInv ctx input s) (hrun : s.nullRun ≠ 0) :
    StdinReady ctx input (flushHeld ctx s) := by
  obtain ⟨hsteady, hblocks, hfed⟩ := flushHeld_spec hmax hn h.toStdinCore (.inl hrun)
  have hopen := h.blocks
  rw [bne_iff_ne.mpr hrun, Bool.true_or] at hopen
  have hjoins : lastJoins s.log none = false := by
    apply lastJoins_of_null
    rw [h.tail]
    exact bne_iff_ne.mpr hrun
  refine ⟨⟨hsteady, h.pos_le, h.logged, ?_, Nat.zero_le _⟩, rfl, ?_⟩
  · simpa [flushHeld] using hfed
  · have hrest : (flushHeld ctx s).frames.blocks.rest < ctx.maxBlockSize :=
      hsteady.bounded.rest_lt hmax
    have hlog : (flushHeld ctx s).log = s.log := rfl
    have hheld : (flushHeld ctx s).held = [] := rfl
    rw [hlog, hheld, List.length_nil, Blocks.fill_zero _ hrest, hjoins, run_openSpans_settle, hopen,
      hblocks]

theorem StdinInv.ready (h : StdinInv ctx input s) (hrun : s.nullRun = 0) :
    StdinReady ctx input s := by
  refine ⟨h.toStdinCore, hrun, ?_⟩
  have hblocks := h.blocks
  simpa [hrun] using hblocks

/-- A null block is one more element of the run. -/
theorem pastNull_inv (h : StdinInv ctx input s) (hroom : s.pos + 512 ≤ input.length)
    (hmax : 1 ≤ ctx.maxBlockSize) (hzero : isZeroTarBlock (blockAt input s.pos) = true) :
    StdinInv ctx input { s with
      pos := s.pos + 512
      nullRun := s.nullRun + 512
      log := s.log ++ [.null s.pos] } := by
  have hblock : blockAt input s.pos = List.replicate 512 0 := by
    refine List.eq_replicate_iff.mpr ⟨?_, ?_⟩
    · simp only [blockAt, List.length_take, List.length_drop]
      omega
    · intro c hc
      simpa [isZeroTarBlock] using List.all_eq_true.mp hzero c hc
  have hjoin : lastJoins s.log (some (.null s.pos)) =
      (s.nullRun != 0 || lastJoins s.log none) := by
    rw [← h.tail]
    cases hlast : s.log.getLast? with
    | none => simp [lastJoins, hlast]
    | some e => cases e <;> simp [lastJoins, hlast, Element.isNull]
  refine ⟨⟨h.steady, hroom, ?_, ?_, h.held_le⟩, ?_, ?_⟩
  · simp
  · have hbytes := h.bytes
    simp only [List.take_add]
    rw [← List.replicate_append_replicate, ← hblock, ← hbytes]
    simp [blockAt]
  · simp [Element.isNull]
  · have hopen := h.blocks
    simp only [openSpans_append, hjoin, Blocking.run_append, hopen, Blocks.add,
      Blocks.fill_fill hmax]
    simp [Nat.add_assoc]

end Flushing

end T2sz
