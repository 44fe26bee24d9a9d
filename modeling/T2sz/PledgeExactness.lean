import T2sz.StdinRefinement

/-!
The sizes that `compressStdinTar` pledges are exact.

A pledge is made before the element is read, from counters of 64 bits. As long as
these do not wrap, the loop keeps `StdinInv`, and the pledge of every frame that
was closed is what the frame holds.
-/

namespace T2sz

open Iteration

set_option maxRecDepth 4000

/-- Every frame that was opened is closed, and holds what was pledged for it. -/
structure PledgesExact (calls : List Call) : Prop where
  bracketed : Bracketed calls none
  closed : (session calls).opened = none
  kept : (session calls).PledgesKept

/-- The loop came to the end of the stream, whether it found entries or not. -/
def ParsedToEnd : Result StdinState Exit → Prop
  | .returned _ => True
  | .exited e _ => e = .noEntries

section Exact

variable {ctx : Context} {stream : Stream} {after : Nat → List UInt8} {s t : StdinState}
  {r : Result StdinState Exit}

theorem StdinDone.pledgesExact {input : List UInt8} (h : StdinDone ctx input s) :
    PledgesExact s.frames.calls := by
  have hbracketed := h.wf.bracketed
  rw [h.closed, if_neg Bool.false_ne_true] at hbracketed
  exact ⟨hbracketed, h.wf.open_none h.closed, h.wf.kept⟩

theorem endsAt_round (hs : Buffered stream s) (h : EndsAt (stdinStep ctx after stream) s r) :
    Round ctx after stream s
      (match r with
        | .returned t => .done t
        | .exited e t => .exit e t) := by
  have hround := stdinStep_round ctx after stream hs.pos_le
  cases r with
  | returned t =>
      have hdone : stdinStep ctx after stream s = .done t := h
      rwa [hdone] at hround
  | exited e t =>
      have hexit : stdinStep ctx after stream s = .exit e t := h
      rwa [hexit] at hround

/-- Where the loop comes to the end of the stream, everything is flushed. -/
theorem endsAt_finish (hs : Buffered stream s) (h : EndsAt (stdinStep ctx after stream) s r)
    (hend : ParsedToEnd r) :
    s.pos = stream.bytes.length ∧ r.state = (finishStdin ctx s).state := by
  have hround := endsAt_round hs h
  cases r with
  | returned t =>
      cases hround with
      | ended hpos hfinish => exact ⟨hpos, by rw [hfinish]; rfl⟩
  | exited e t =>
      obtain rfl : e = .noEntries := hend
      cases hround with
      | ended hpos hfinish => exact ⟨hpos, by rw [hfinish]; rfl⟩
      | rejected hroom hzero herror =>
          obtain ⟨e, hne, he⟩ | ⟨t, _, -, ht, -⟩ :=
            stdinHeader_cases ctx stream after (headerState_held ctx hs.held.length_le)
          · rw [he, Except.error.injEq] at herror
            exact absurd herror hne
          · rw [ht] at herror
            cases herror

/-- An entry that was read is one that the walk recognises. -/
theorem stdinHeader_inv (hmax : 1 ≤ ctx.maxBlockSize) (hn : stream.bytes.length < 2 ^ 64)
    (h : StdinReady ctx stream.bytes s) (hroom : s.pos + 512 ≤ stream.bytes.length)
    (ht : stdinHeader ctx stream after s = .ok t) : StdinInv ctx stream.bytes t := by
  cases hrec : recognise stream.bytes s.pos s.paxNextSize with
  | none =>
      obtain ⟨e, herror⟩ := @stdinHeader_stuck ctx stream after s hmax hn h hroom hrec
      rw [herror] at ht
      cases ht
  | some e =>
      obtain ⟨hheader, hvalid, hsize, -, -⟩ := recognise_spec hrec
      rw [hheader] at hvalid hsize
      by_cases hlarge : UINT64_MAX - 1024 < e.size
      · simp only [stdinHeader, hvalid, ← hsize, Bool.not_true, Bool.false_eq_true, if_false,
          if_pos hlarge] at ht
        cases ht
      · obtain ⟨u, hu, hinv, -⟩ := @stdinHeader_ok ctx stream after s
          ⟨s.pos, s.paxNextSize, if s.nullRun = 0 then s.held.length else 0, s.log⟩ e hmax hn h
          hroom hrec (Nat.le_of_not_lt hlarge) ⟨rfl, rfl, rfl, rfl⟩
        rw [hu, Except.ok.injEq] at ht
        exact ht ▸ hinv

theorem stdinStep_inv (hmax : 1 ≤ ctx.maxBlockSize) (hn : stream.bytes.length < 2 ^ 64)
    (h : StdinInv ctx stream.bytes s) (hst : stdinStep ctx after stream s = .next t) :
    StdinInv ctx stream.bytes t := by
  have hround := stdinStep_round ctx after stream h.pos_le
  rw [hst] at hround
  cases hround with
  | ended hend hfinish => exact absurd hfinish (finishStdin_ne_next ctx s t)
  | null hroom hzero =>
      have hwaiting := h.waiting_le
      have hrun : (s.nullRun + 512) % 2 ^ 64 = s.nullRun + 512 := Nat.mod_eq_of_lt (by omega)
      rw [hrun]
      exact pastNull_inv h hroom hmax hzero
  | entry hroom hzero hok =>
      rw [← (headerState_same ctx s).1] at hroom
      exact stdinHeader_inv hmax hn (headerState_ready hmax hn h) hroom hok

/-- As long as the counters do not wrap, every pledge is what the frame gets. -/
theorem compressStdinTar_exact (hmax : 1 ≤ ctx.maxBlockSize) (hn : stream.bytes.length < 2 ^ 64)
    (hr : compressStdinTar ctx after stream = some r) (hend : ParsedToEnd r) :
    PledgesExact r.state.frames.calls := by
  have keeps : ∀ s t, Buffered stream s ∧ StdinInv ctx stream.bytes s →
      stdinStep ctx after stream s = .next t →
      Buffered stream t ∧ StdinInv ctx stream.bytes t := by
    intro s t hs hst
    exact ⟨(stdinStepChecked_eq (fun _ => 0) after hs.1).2 t hst,
      stdinStep_inv hmax hn hs.2 hst⟩
  obtain ⟨s, ⟨hs, hinv⟩, hends⟩ := (runs_of_iterate hr).invariant keeps
    ⟨buffered_init stream, stdinInv_init ctx stream.bytes⟩
  obtain ⟨hpos, hstate⟩ := endsAt_finish hs hends hend
  obtain ⟨t, hdone, -, hfinish⟩ := finishStdin_spec hmax hn hinv hpos
  have hlast : (finishStdin ctx s).state = t := by
    rw [hfinish]
    split <;> rfl
  rw [hstate, hlast]
  exact hdone.pledgesExact

end Exact

end T2sz
