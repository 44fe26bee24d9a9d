import T2sz.Archive
import T2sz.Checksum
import T2sz.FrameContents
import T2sz.PledgeCoverage

/-!
The sizes pledged from standard input, and the stream for which they are wrong.

The counters are 64 bits wide: a null run of 2^64 - 512 bytes behind a header that
is held is pledged as nothing.
-/

namespace T2sz

open Iteration

set_option maxRecDepth 4000

/-- Every size that is pledged is the real one, for a stream whose length the
counters hold. Without `-s` every size is pledged, if each group fits in a frame and
what is held in `held`. -/
theorem pledges_exact (ctx : Context) (after : Nat → List UInt8) {stream : Stream}
    {r : Result StdinState Exit} (hr : compressStdin ctx after stream = some r)
    (hend : ParsedToEnd r) :
    (stream.bytes.length < 2 ^ 64 → PledgesExact r.state.frames.calls) ∧
      (ctx.minBlockSize = 0 → Pledgeable ctx.clamp stream.bytes r.state.log →
        StartsKnown r.state.frames.calls) := by
  obtain ⟨hmax, hword⟩ := ctx.clamp_max_le
  refine ⟨fun hn => compressStdinTar_exact hmax hn hr hend, fun hmin hp => ?_⟩
  have hclamp : ctx.clamp.minBlockSize = 0 := by
    simp only [Context.clamp, hmin]
    rfl
  exact runs_starts hclamp hmax hword (runs_of_iterate hr) hend (buffered_init stream)
    settled_init hp

/-- The pax header is held and counted with the file behind it. -/
theorem pledges_exact_sizedPax :
    ∃ s, compressStdin newContext (fun _ => []) ⟨sizedPaxArchive.bytes, false⟩ =
        some (.returned s) ∧
      .start (some 2048) ∈ s.frames.calls ∧ PledgesExact s.frames.calls ∧
      StartsKnown s.frames.calls := by
  obtain ⟨r, hr, hreturned, hstart, hlog⟩ :
      ∃ r, compressStdin newContext (fun _ => []) ⟨sizedPaxArchive.bytes, false⟩ = some r ∧
        r.isReturned = true ∧ .start (some 2048) ∈ r.state.frames.calls ∧
        r.state.log = [.entry 0 1024 true 512, .entry 1024 1024 false UINT64_MAX, .null 2048,
          .null 2560] := by
    decide +kernel
  cases r with
  | exited e s => cases hreturned
  | returned s =>
      obtain ⟨hexact, hknown⟩ := pledges_exact newContext (fun _ => []) hr trivial
      have hsmall : ∀ run, run <:+: s.log → totalLength run ≤ 3072 := by
        intro run hrun
        rw [show s.log = _ from hlog] at hrun
        exact totalLength_le hrun
      refine ⟨s, hr, hstart, hexact ?_, hknown rfl ⟨?_, ?_, ?_⟩⟩
      · rw [sizedPaxArchive_length]
        decide
      · exact fun run hrun _ => Nat.le_trans (hsmall run hrun) (by decide)
      · rw [hlog]
        decide +kernel
      · exact fun run hrun _ => Nat.le_trans (hsmall run hrun) (by decide)

/-- A frame that was pledged as nothing has something in it. -/
def Mispledged (f : Frames) : Prop :=
  (∃ frame ∈ f.closedFrames, frame.pledged = some 0 ∧ frame.content ≠ []) ∨
    (f.frameOpen = true ∧
      ∃ frame, f.openFrame = some frame ∧ frame.pledged = some 0 ∧ frame.content ≠ [])

section Wrapping

variable {ctx : Context} {f : Frames}

theorem compressChunk_mispledged (h : Mispledged f) (src : List UInt8) :
    Mispledged (compressChunk src f) := by
  obtain ⟨frame, hmem, hbad⟩ | ⟨hopen, frame, hframe, hzero, hne⟩ := h
  · refine .inl ⟨frame, ?_, hbad⟩
    simpa [compressChunk, Frames.closedFrames, Session.call] using hmem
  · refine .inr ⟨hopen, ⟨frame.pledged, frame.content ++ src⟩, ?_, hzero, by simp [hne]⟩
    rw [compressChunk_open, hframe]
    rfl

theorem endFrameAndRecord_mispledged (h : Mispledged f) : Mispledged (endFrameAndRecord f) := by
  rw [endFrameAndRecord]
  split
  case isFalse => exact h
  case isTrue =>
    refine .inl ?_
    simp only [Frames.closedFrames, session_append, Session.call, List.mem_append,
      Option.mem_toList]
    obtain ⟨frame, hmem, hbad⟩ | ⟨-, frame, hframe, hbad⟩ := h
    · exact ⟨frame, .inl hmem, hbad⟩
    · exact ⟨frame, .inr hframe, hbad⟩

theorem startFrame_mispledged (h : Mispledged f) (hc : f.frameOpen = false) (size : Nat) :
    Mispledged (startFrame size f) := by
  obtain ⟨frame, hmem, hbad⟩ | ⟨hopen, -⟩ := h
  · refine .inl ⟨frame, ?_, hbad⟩
    simpa [startFrame, Frames.closedFrames, Session.call] using hmem
  · rw [hc] at hopen
    cases hopen

theorem openForPush_mispledged (h : Mispledged f) : Mispledged (openForPush f) := by
  rw [openForPush]
  split
  case isTrue => exact h
  case isFalse hc => exact startFrame_mispledged h (Bool.eq_false_iff.mpr hc) _

theorem pushChunk_mispledged {chunk : List UInt8}
    (hfed : Mispledged (compressChunk chunk (openForPush f))) :
    Mispledged (pushChunk ctx chunk f) := by
  rw [pushChunk]
  split
  case isTrue => exact endFrameAndRecord_mispledged hfed
  case isFalse => exact hfed

theorem pushBytesLoop_mispledged (fuel : Nat) (src : List UInt8) (h : Mispledged f) :
    Mispledged (pushBytesLoop ctx fuel src f) := by
  induction fuel generalizing src f with
  | zero => exact h
  | succ fuel ih =>
      cases src with
      | nil => exact h
      | cons c rest =>
          rw [pushBytesLoop_succ fuel (List.cons_ne_nil c rest)]
          exact ih _ (pushChunk_mispledged (compressChunk_mispledged (openForPush_mispledged h) _))

theorem mispledged_push (ctx : Context) : KeptByPush ctx fun _ => Mispledged :=
  fun _ _ src h _ => pushBytesLoop_mispledged src.length src h

/-- What is held goes into the frame that was pledged as nothing. -/
theorem pushBytesTar_mispledged (hmax : 1 ≤ ctx.maxBlockSize) {src : List UInt8} (hsrc : src ≠ [])
    (f : Frames) : Mispledged (pushBytesTar ctx src (startFrame 0 f)) := by
  obtain ⟨fuel, hfuel⟩ := Nat.exists_eq_succ_of_ne_zero
    (Nat.ne_of_gt (List.length_pos_iff.mpr hsrc))
  have hopen : openForPush (startFrame 0 f) = startFrame 0 f := openForPush_eq rfl
  obtain ⟨n, hn⟩ : ∃ n, canWrite ctx src.length (startFrame 0 f) = n := ⟨_, rfl⟩
  have hpos : n ≠ 0 := by
    rw [← hn, canWrite_eq hmax (show (startFrame 0 f).frameIn < ctx.maxBlockSize from hmax)]
    simp only [startFrame]
    omega
  rw [pushBytesTar, hfuel, pushBytesLoop_succ fuel hsrc, hopen, hn]
  apply pushBytesLoop_mispledged
  apply pushChunk_mispledged
  refine .inr ⟨rfl, ⟨some 0, [] ++ src.take n⟩, ?_, rfl, by simp [hpos, hsrc]⟩
  rw [hopen, compressChunk_open, startFrame_open]
  rfl

theorem Mispledged.not_exact (h : Mispledged f) (hc : f.frameOpen = false) :
    ¬ PledgesExact f.calls := by
  intro hexact
  obtain ⟨frame, hmem, hzero, hne⟩ | ⟨hopen, -⟩ := h
  · have hkept := hexact.kept frame hmem 0 hzero
    exact hne (List.eq_nil_of_length_eq_zero hkept)
  · rw [hc] at hopen
    cases hopen

end Wrapping

/-- Behind the header of a long name `n` null blocks. -/
def nullsStream (n : Nat) : Stream :=
  ⟨longNameHeader.bytes ++ List.replicate (512 * n) 0, false⟩

/-- The state when that header is held, and `k` of the null blocks were read. -/
def nullsState (k : Nat) (log : List Element) : StdinState where
  pos := 512 * (k + 1)
  held := longNameHeader.bytes
  nullRun := 512 * k
  frames := ⟨0, false, []⟩
  paxNextSize := UINT64_MAX
  log := log

section Nulls

variable {ctx : Context} {after : Nat → List UInt8} {n k : Nat}

theorem nullsStream_length (n : Nat) : (nullsStream n).bytes.length = 512 * (n + 1) := by
  rw [nullsStream, List.length_append, longNameHeader.size_eq, List.length_replicate]
  omega

theorem nullsStream_block (h : k < n) :
    blockAt (nullsStream n).bytes (512 * (k + 1)) = List.replicate 512 0 := by
  have hheader : longNameHeader.bytes.length = 512 := longNameHeader.size_eq
  have hleft : 512 * n - (512 * (k + 1) - 512) = 512 * (n - k) := by omega
  rw [blockAt, nullsStream, List.drop_append, hheader, List.drop_of_length_le (by omega),
    List.nil_append, List.drop_replicate, hleft, List.take_replicate, Nat.min_eq_left (by omega)]

/-- The header is held, whatever comes behind it. -/
theorem longNameHeader_held (ctx : Context) (after : Nat → List UInt8) (rest : List UInt8) :
    stdinStep ctx after ⟨longNameHeader.bytes ++ rest, false⟩ .init =
      .next (nullsState 0 [.entry 0 512 true UINT64_MAX]) := by
  have hfull : longNameHeader.bytes.length = 512 := longNameHeader.size_eq
  have hfirst := headerAt_append longNameHeader rest
  have hlen : 0 + 512 ≤ (longNameHeader.bytes ++ rest).length := by
    rw [List.length_append]
    omega
  have hbytes : blockAt (longNameHeader.bytes ++ rest) 0 = longNameHeader.bytes := by
    rw [← headerAt_bytes hlen, hfirst]
  have hvalid : isTarHeader longNameHeader = true := by decide +kernel
  have hsize : tarEntrySize longNameHeader UINT64_MAX = (0, UINT64_MAX) := by decide +kernel
  have hholds : holds 0 ⟨longNameHeader, 0, UINT64_MAX, 0⟩ = true := by decide +kernel
  have hkind : (longNameHeader.typeflag == 0x78) = false := by decide +kernel
  have hround : roundUp 0 = 0 := rfl
  have hread : readExactStdin ⟨longNameHeader.bytes ++ rest, false⟩ 512 (0 % 2 ^ ctx.sizeBits) =
      .ok [] := by
    rw [Nat.zero_mod, readExactStdin_ok (by simp only; omega), List.take_zero]
  have hheader : stdinHeader ctx ⟨longNameHeader.bytes ++ rest, false⟩ after .init =
      .ok (nullsState 0 [.entry 0 512 true UINT64_MAX]) := by
    rw [← hfirst] at hvalid hsize
    rw [@stdinHeader_eq _ ⟨longNameHeader.bytes ++ rest, false⟩ after .init (Nat.zero_le _) hvalid
      0 UINT64_MAX 0 hsize (Nat.zero_le _)]
    simp only [StdinState.init, hfirst, List.length_nil, hholds, if_true, holdEntry,
      Nat.zero_add, hround, hread, hkind, Bool.false_eq_true, if_false, List.nil_append,
      List.append_nil, nullsState, Nat.mul_one, Nat.mul_zero, Nat.add_zero]
  have hpos : StdinState.init.pos = 0 := rfl
  have hrun : ¬ StdinState.init.nullRun ≠ 0 := fun hne => hne rfl
  simp only [stdinStep, hpos, hbytes, hfull, not_zero_of_isTarHeader hvalid, if_neg hrun, hheader]
  rfl

/-- The null blocks are counted. -/
theorem nullsStream_reached (ctx : Context) (after : Nat → List UInt8)
    (hword : 512 * n < 2 ^ 64) (k : Nat) (hk : k ≤ n) :
    ∃ log, Reached (stdinStep ctx after (nullsStream n)) .init (nullsState k log) := by
  induction k with
  | zero => exact ⟨_, .single (longNameHeader_held ctx after _)⟩
  | succ k ih =>
      obtain ⟨log, hreached⟩ := ih (by omega)
      have hblock := nullsStream_block (show k < n by omega)
      have hzero : isZeroTarBlock (List.replicate 512 0) = true := by decide +kernel
      have hcount : (512 * k + 512) % 2 ^ 64 = 512 * (k + 1) := Nat.mod_eq_of_lt (by omega)
      refine ⟨log ++ [.null (512 * (k + 1))], hreached.tail ?_⟩
      simp only [stdinStep, nullsState, hblock, List.length_replicate, hzero, hcount]
      rfl

/-- If what is held and what is counted make 2^64 bytes, nothing is pledged for it. -/
theorem nullsStream_mispledged (hmin : ctx.minBlockSize = 0) (hmax : 1 ≤ ctx.maxBlockSize)
    (hn : 512 * (n + 1) = 2 ^ 64) (log : List Element) :
    Mispledged (finishStdin ctx (nullsState n log)).state.frames := by
  have hheader : longNameHeader.bytes.length = 512 := longNameHeader.size_eq
  have hwrap : (longNameHeader.bytes.length + 512 * n) % 2 ^ 64 = 0 := by
    rw [hheader, Nat.add_comm, ← Nat.mul_succ, hn, Nat.mod_self]
  have hopened : startElementFrame ctx 0 ⟨0, false, []⟩ = startFrame 0 ⟨0, false, []⟩ := by
    rw [startElementFrame, hmin, if_neg (by decide), if_neg (by omega)]
  have hheld := pushBytesTar_mispledged hmax
    (List.ne_nil_of_length_pos (by omega : 0 < longNameHeader.bytes.length)) ⟨0, false, []⟩
  have hpushed := pushNullRun_keeps (mispledged_push ctx) (512 * n) (Nat.le_refl _) hheld
    (Nat.le_refl _)
  have hflushed : Mispledged (flushHeld ctx (nullsState n log)).frames := by
    simp only [flushHeld, nullsState, hwrap, hopened, closeElement]
    split
    case isTrue => exact endFrameAndRecord_mispledged hpushed
    case isFalse => exact hpushed
  rw [(finishStdin_same ctx _).2, if_pos (.inr (List.ne_nil_of_length_pos
    (by rw [nullsState, hheader]; decide)))]
  exact endFrameAndRecord_mispledged hflushed

end Nulls

/-- At 2^64 bytes the size pledged for the header and the null run is 0. -/
theorem wrapped_pledge_broken :
    ∃ r, compressStdin newContext (fun _ => []) (nullsStream (2 ^ 55 - 1)) = some r ∧
      ParsedToEnd r ∧ ¬ PledgesExact r.state.frames.calls := by
  obtain ⟨n, hn⟩ : ∃ n, n = 2 ^ 55 - 1 := ⟨_, rfl⟩
  rw [← hn]
  have hlen := nullsStream_length n
  have hblock : blockAt (nullsStream n).bytes (512 * (n + 1)) = [] := by
    rw [blockAt, List.drop_of_length_le (Nat.le_of_eq hlen), List.take_nil]
  obtain ⟨log, hreached⟩ := nullsStream_reached newContext.clamp (fun _ => [])
    (show 512 * n < 2 ^ 64 by omega) n (Nat.le_refl n)
  have hbad := @nullsStream_mispledged newContext.clamp n rfl newContext.clamp_max_le.1 (by omega)
    log
  have hlast : stdinStep newContext.clamp (fun _ => []) (nullsStream n) (nullsState n log) =
      finishStdin newContext.clamp (nullsState n log) := by
    simp only [stdinStep, nullsState, hblock]
    rfl
  have hclosed : (finishStdin newContext.clamp (nullsState n log)).state.frames.frameOpen =
      false := by
    rw [(finishStdin_same _ _).2]
    exact endFrameAndRecord_frameOpen _
  obtain ⟨r, hr⟩ := compressStdinTar_ends newContext.clamp (fun _ => []) (nullsStream n)
  refine ⟨r, hr, ?_⟩
  cases hfinish : finishStdin newContext.clamp (nullsState n log) with
  | next t => exact absurd hfinish (finishStdin_ne_next _ _ t)
  | done t =>
      rw [hfinish] at hbad hclosed hlast
      obtain rfl := (runs_of_iterate hr).unique (hreached.runs (.done hlast))
      exact ⟨trivial, hbad.not_exact hclosed⟩
  | exit e t =>
      rw [hfinish] at hbad hclosed hlast
      obtain rfl := (runs_of_iterate hr).unique (hreached.runs (.exit hlast))
      exact ⟨finishStdin_exit hfinish, hbad.not_exact hclosed⟩

end T2sz
