import Mathlib.Data.List.Chain
import Mathlib.Data.List.Infix
import T2sz.PledgeExactness

/-!
The frames that `compressStdinTar` opens without a size.

Without `-s` there are none if what belongs in one frame fits in it, and what is
held fits in `held`, extension blocks aside: then a frame is opened for an element
together with what is held for it, and has room for all of it.
-/

namespace T2sz

open Iteration

set_option maxRecDepth 4000

/-- Every frame was opened with its size known. -/
def StartsKnown (calls : List Call) : Prop :=
  ∀ pledged, Call.start pledged ∈ calls → pledged.isSome = true

def totalLength (run : List Element) : Nat := (run.map Element.length).sum

/-- Consecutive elements of which each joins the next one: a group, or a part of one. -/
def Joined (run : List Element) : Prop := run.IsChain fun a b => a.joins (some b) = true

/-- No group is too large for a frame, no entry has extension blocks, and the
entries in a row that join the next one fit in `held`. -/
structure Pledgeable (ctx : Context) (input : List UInt8) (log : List Element) : Prop where
  groups : ∀ run, run <:+: log → Joined run → totalLength run ≤ ctx.maxBlockSize
  plain : ∀ e ∈ log, e.isNull = false → hasSparseExtension (headerAt input e.offset) = false
  held : ∀ run, run <:+: log → (∀ e ∈ run, e.joins none = true) → totalLength run ≤ HELD_SIZE

section Elements

variable {run nulls : List Element} {e : Element}

@[simp] theorem totalLength_append (run more : List Element) :
    totalLength (run ++ more) = totalLength run + totalLength more := by
  simp [totalLength]

@[simp] theorem totalLength_singleton (e : Element) : totalLength [e] = e.length := by
  simp [totalLength]

theorem totalLength_le {log : List Element} (h : run <:+: log) :
    totalLength run ≤ totalLength log := by
  obtain ⟨before, behind, hlog⟩ := h
  rw [← hlog, totalLength_append, totalLength_append]
  omega

theorem joins_of_joins_none (h : e.joins none = true) (next : Option Element) :
    e.joins next = true := by
  cases e with
  | null offset => cases h
  | entry offset length joinsNext pax => exact h

/-- Entries that join the next one belong to whatever comes behind them. -/
theorem joined_append (hrun : ∀ e ∈ run, e.joins none = true) {rest : List Element}
    (hrest : Joined rest) : Joined (run ++ rest) := by
  induction run with
  | nil => exact hrest
  | cons e run ih =>
      rw [List.forall_mem_cons] at hrun
      have htail := ih hrun.2
      rw [List.cons_append, Joined, List.isChain_cons]
      exact ⟨fun next _ => joins_of_joins_none hrun.1 (some next), htail⟩

theorem joined_nulls (hnulls : ∀ e ∈ nulls, e.isNull = true) : Joined nulls := by
  induction nulls with
  | nil => exact .nil
  | cons e nulls ih =>
      rw [List.forall_mem_cons] at hnulls
      rw [Joined, List.isChain_cons]
      refine ⟨fun next hnext => ?_, ih hnulls.2⟩
      have hnull := hnulls.2 next (List.mem_of_mem_head? hnext)
      cases e with
      | null offset => exact hnull
      | entry offset length joinsNext pax => exact absurd hnulls.1 Bool.false_ne_true

theorem Pledgeable.earlier {ctx : Context} {input : List UInt8} {log later : List Element}
    (h : Pledgeable ctx input later) (hearlier : log <+: later) : Pledgeable ctx input log where
  groups run hrun := h.groups run (hrun.trans hearlier.isInfix)
  plain e he := h.plain e (hearlier.subset he)
  held run hrun := h.held run (hrun.trans hearlier.isInfix)

end Elements

/-- The frame that is open has room for the `k` bytes to come. -/
structure Roomy (ctx : Context) (k : Nat) (f : Frames) : Prop where
  starts : StartsKnown f.calls
  room : k = 0 ∨ (f.frameOpen = true ∧ f.frameIn + k ≤ ctx.maxBlockSize)

/-- Between two elements every frame is closed, and was opened with a size. What is
held and what is counted is the end of the log: entries, then null blocks. -/
structure FramesSettled (s : StdinState) (run nulls : List Element) : Prop where
  closed : s.frames.frameOpen = false
  starts : StartsKnown s.frames.calls
  log : run ++ nulls <:+ s.log
  joins : ∀ e ∈ run, e.joins none = true
  held : totalLength run = s.held.length
  zeros : ∀ e ∈ nulls, e.isNull = true
  counted : totalLength nulls = s.nullRun

section Known

variable {ctx : Context} {stream : Stream} {after : Nat → List UInt8} {s t : StdinState}
  {f : Frames} {run nulls : List Element} {k : Nat} {r : Result StdinState Exit}

theorem startsKnown_append {calls : List Call} (h : StartsKnown calls) {c : Call}
    (hc : ∀ pledged, c = .start pledged → pledged.isSome = true) : StartsKnown (calls ++ [c]) := by
  intro pledged hmem
  rw [List.mem_append, List.mem_singleton] at hmem
  cases hmem with
  | inl hold => exact h pledged hold
  | inr hnew => exact hc pledged hnew.symm

theorem endFrameAndRecord_starts (h : StartsKnown f.calls) :
    StartsKnown (endFrameAndRecord f).calls := by
  rw [endFrameAndRecord]
  split
  · exact startsKnown_append h fun pledged hc => by cases hc
  · exact h

/-- A frame with room takes all of it at once: no other frame is opened. -/
theorem roomy_push (hmax : 1 ≤ ctx.maxBlockSize) : KeptByPush ctx (Roomy ctx) := by
  intro k f src h hk
  cases src with
  | nil => exact h
  | cons c rest =>
      have hlen : (c :: rest).length = rest.length + 1 := rfl
      obtain ⟨hopen, hroom⟩ := h.room.resolve_left (by omega)
      have hall : canWrite ctx (c :: rest).length f = (c :: rest).length := by
        rw [canWrite_eq hmax (by omega)]
        omega
      have hfed : StartsKnown (compressChunk (c :: rest) f).calls :=
        startsKnown_append h.starts fun pledged hc => by cases hc
      have hin : (compressChunk (c :: rest) f).frameIn = f.frameIn + (c :: rest).length := rfl
      rw [pushBytesTar, hlen, pushBytesLoop_succ _ (List.cons_ne_nil c rest), openForPush_eq hopen,
        hall, List.take_length, List.drop_length, pushBytesLoop_nil, pushChunk,
        openForPush_eq hopen]
      split
      case isTrue hfull => exact ⟨endFrameAndRecord_starts hfed, .inl (by omega)⟩
      case isFalse => exact ⟨hfed, .inr ⟨hopen, by omega⟩⟩

/-- Without `-s` the frame of an element is opened with its size, if it has room for it. -/
theorem startElementFrame_roomy (hmin : ctx.minBlockSize = 0)
    (hword : ctx.maxBlockSize ≤ MAX_FRAME_SIZE) (hc : f.frameOpen = false)
    (hstarts : StartsKnown f.calls) (hk : k ≤ ctx.maxBlockSize) :
    Roomy ctx k (startElementFrame ctx (k % 2 ^ 64) f) := by
  have hsmall : MAX_FRAME_SIZE < 2 ^ 64 - 1 := by decide
  have hmod : k % 2 ^ 64 = k := Nat.mod_eq_of_lt (by omega)
  have hnone : ¬ (ctx.minBlockSize ≠ 0 ∨ f.frameOpen = true) := by
    rw [hmin, hc]
    decide
  have hfits : ¬ (ctx.maxBlockSize ≠ 0 ∧ ctx.maxBlockSize < k) := by omega
  have hknown : k ≠ ZSTD_CONTENTSIZE_UNKNOWN := by
    simp only [ZSTD_CONTENTSIZE_UNKNOWN]
    omega
  rw [startElementFrame, if_neg hnone, hmod, if_neg hfits, startFrame, if_pos hknown]
  refine ⟨startsKnown_append hstarts fun pledged heq => ?_, .inr ⟨rfl, ?_⟩⟩
  · cases heq
    rfl
  · simpa using hk

/-- The end of an element closes its frame. -/
theorem closeElement_starts (hmin : ctx.minBlockSize = 0) (h : StartsKnown f.calls) :
    (closeElement ctx f).frameOpen = false ∧ StartsKnown (closeElement ctx f).calls := by
  rw [closeElement, hmin]
  cases ho : f.frameOpen with
  | false => exact ⟨ho, h⟩
  | true => exact ⟨endFrameAndRecord_frameOpen f, endFrameAndRecord_starts h⟩

theorem FramesSettled.flush (hmin : ctx.minBlockSize = 0) (hmax : 1 ≤ ctx.maxBlockSize)
    (hword : ctx.maxBlockSize ≤ MAX_FRAME_SIZE) (h : FramesSettled s run nulls)
    (hp : Pledgeable ctx stream.bytes s.log) : FramesSettled (flushHeld ctx s) [] [] := by
  have hfits := hp.groups _ h.log.isInfix (joined_append h.joins (joined_nulls h.zeros))
  rw [totalLength_append, h.held, h.counted] at hfits
  have hopened := startElementFrame_roomy hmin hword h.closed h.starts hfits
  have hheld := roomy_push hmax _ _ s.held hopened (Nat.le_add_right _ _)
  have hnulls := pushNullRun_keeps (roomy_push hmax) s.nullRun (Nat.le_refl _) hheld (by omega)
  obtain ⟨hclosed, hstarts⟩ := closeElement_starts hmin hnulls.starts
  exact ⟨hclosed, hstarts, List.nil_suffix, List.forall_mem_nil _, rfl, List.forall_mem_nil _, rfl⟩

theorem FramesSettled.pastNull (h : FramesSettled s run nulls)
    (hmax : ctx.maxBlockSize ≤ MAX_FRAME_SIZE)
    (hp : Pledgeable ctx stream.bytes (s.log ++ [.null s.pos])) :
    FramesSettled { s with
      pos := s.pos + 512
      nullRun := (s.nullRun + 512) % 2 ^ 64
      log := s.log ++ [.null s.pos] } run (nulls ++ [.null s.pos]) := by
  have hzeros : ∀ e ∈ nulls ++ [.null s.pos], e.isNull = true := by
    intro e he
    rw [List.mem_append, List.mem_singleton] at he
    cases he with
    | inl hold => exact h.zeros e hold
    | inr hnew => rw [hnew, Element.isNull]
  have hsuffix : run ++ (nulls ++ [.null s.pos]) <:+ s.log ++ [.null s.pos] := by
    rw [← List.append_assoc]
    exact List.suffix_append_self_iff.mpr h.log
  have hfits := hp.groups _ hsuffix.isInfix (joined_append h.joins (joined_nulls hzeros))
  have hcounted : totalLength (nulls ++ [.null s.pos]) = s.nullRun + 512 := by
    rw [totalLength_append, h.counted, totalLength_singleton, Element.length_null]
  rw [totalLength_append, hcounted] at hfits
  have hword : MAX_FRAME_SIZE < 2 ^ 64 := by decide
  have hrun : (s.nullRun + 512) % 2 ^ 64 = s.nullRun + 512 := Nat.mod_eq_of_lt (by omega)
  exact ⟨h.closed, h.starts, hsuffix, h.joins, h.held, hzeros, hcounted.trans hrun.symm⟩

/-- An element behind the run joins it, if it joins the next one. -/
theorem FramesSettled.extends {e : Element} (h : FramesSettled s run [])
    (hlog : t.log = s.log ++ [e]) :
    run ++ [e] <:+ t.log ∧ (e.joins none = true → ∀ x ∈ run ++ [e], x.joins none = true) := by
  constructor
  · have hrun := h.log
    rw [List.append_nil] at hrun
    rw [hlog]
    exact List.suffix_append_self_iff.mpr hrun
  · intro he x hx
    rw [List.mem_append, List.mem_singleton] at hx
    cases hx with
    | inl hold => exact h.joins x hold
    | inr hnew => exact hnew ▸ he

/-- An entry that is held makes the run longer. -/
theorem FramesSettled.pastHeld (h : FramesSettled s run []) {padded : Nat}
    (hback : HeldBack stream padded s t) : ∃ run, FramesSettled t run [] := by
  obtain ⟨pax, hlog⟩ := hback.log
  obtain ⟨hsuffix, hjoins⟩ := h.extends hlog
  refine ⟨run ++ [.entry s.pos (512 + padded) true pax], ?_, ?_, ?_, hjoins rfl, ?_,
    List.forall_mem_nil _, ?_⟩
  · rw [hback.frames]
    exact h.closed
  · rw [hback.frames]
    exact h.starts
  · rw [List.append_nil]
    exact hsuffix
  · rw [totalLength_append, h.held, totalLength_singleton, Element.length_entry, hback.held]
  · rw [hback.nullRun]
    exact h.counted

/-- An entry that is streamed goes into one frame with what is held. -/
theorem FramesSettled.pastStreamed (hmin : ctx.minBlockSize = 0) (hmax : 1 ≤ ctx.maxBlockSize)
    (hword : ctx.maxBlockSize ≤ MAX_FRAME_SIZE) (h : FramesSettled s run []) {padded : Nat}
    (hpassed : PassedOn ctx stream padded s t)
    (hwhy : joinsNextEntry (headerAt stream.bytes s.pos) = false ∨
      hasSparseExtension (headerAt stream.bytes s.pos) = true ∨
      HELD_SIZE < s.held.length + (512 + padded))
    (hp : Pledgeable ctx stream.bytes t.log) : FramesSettled t [] [] := by
  obtain ⟨pax, hlog⟩ := hpassed.log
  obtain ⟨entry, hentry⟩ : ∃ e : Element, e = .entry s.pos (t.pos - s.pos)
      (joinsNextEntry (headerAt stream.bytes s.pos)) pax := ⟨_, rfl⟩
  rw [← hentry] at hlog
  obtain ⟨hsuffix, hjoins⟩ := h.extends hlog
  have hplain : hasSparseExtension (headerAt stream.bytes s.pos) = false := by
    have hmem : entry ∈ t.log := by
      rw [hlog]
      exact List.mem_append_right _ (List.mem_singleton_self entry)
    have hnone := hp.plain entry hmem (by rw [hentry, Element.isNull])
    rwa [hentry] at hnone
  obtain ⟨total, f, htotal, hpos, hframes, hpush⟩ := hpassed.plain hplain
  have hlength : totalLength (run ++ [entry]) = total := by
    rw [totalLength_append, h.held, totalLength_singleton, hentry, Element.length_entry, hpos,
      htotal]
    omega
  -- an entry that joins the next one would have been held
  have hjoin : joinsNextEntry (headerAt stream.bytes s.pos) = false := by
    by_contra hjoin
    rw [Bool.not_eq_false] at hjoin
    have hfits := hp.held _ hsuffix.isInfix (hjoins (by rw [hentry, Element.joins_entry, hjoin]))
    obtain hno | hno | hover := hwhy
    · rw [hjoin] at hno
      cases hno
    · rw [hplain] at hno
      cases hno
    · omega
  have hfits := hp.groups _ hsuffix.isInfix (joined_append h.joins (List.isChain_singleton entry))
  rw [hlength] at hfits
  rw [hjoin, if_neg Bool.false_ne_true] at hpush hframes
  have hroomy := hpush (Roomy ctx) total (roomy_push hmax) (Nat.le_refl _)
    (startElementFrame_roomy hmin hword h.closed h.starts hfits)
  obtain ⟨hclosed, hstarts⟩ := closeElement_starts hmin hroomy.starts
  rw [← hframes] at hclosed hstarts
  refine ⟨hclosed, hstarts, List.nil_suffix, List.forall_mem_nil _, ?_, List.forall_mem_nil _, ?_⟩
  · rw [hpassed.held]
    rfl
  · rw [hpassed.nullRun]
    exact h.counted

/-- An entry is held for the next one, or goes into one frame with what is held. -/
theorem FramesSettled.pastEntry (hmin : ctx.minBlockSize = 0) (hmax : 1 ≤ ctx.maxBlockSize)
    (hword : ctx.maxBlockSize ≤ MAX_FRAME_SIZE) (hheld : s.held.length ≤ HELD_SIZE)
    (h : FramesSettled s run []) (ht : stdinHeader ctx stream after s = .ok t)
    (hp : Pledgeable ctx stream.bytes t.log) : ∃ run, FramesSettled t run [] := by
  obtain ⟨e, -, herror⟩ | ⟨u, size, -, hu, hcase⟩ := stdinHeader_cases ctx stream after hheld
  · rw [herror] at ht
    cases ht
  · rw [hu, Except.ok.injEq] at ht
    subst ht
    obtain hback | ⟨hpassed, hwhy⟩ := hcase
    · exact h.pastHeld hback
    · exact ⟨[], h.pastStreamed hmin hmax hword hpassed hwhy hp⟩

theorem FramesSettled.header (hmin : ctx.minBlockSize = 0) (hmax : 1 ≤ ctx.maxBlockSize)
    (hword : ctx.maxBlockSize ≤ MAX_FRAME_SIZE) (h : FramesSettled s run nulls)
    (hp : Pledgeable ctx stream.bytes s.log) : ∃ run, FramesSettled (headerState ctx s) run [] := by
  rw [headerState]
  split
  case isTrue => exact ⟨[], h.flush hmin hmax hword hp⟩
  case isFalse hrun =>
    have hcounted := h.counted
    rw [not_not.mp hrun] at hcounted
    cases nulls with
    | nil => exact ⟨run, h⟩
    | cons e nulls =>
        have hlength : e.length = 512 := by
          have hnull := h.zeros e List.mem_cons_self
          cases e with
          | null offset => rfl
          | entry offset length joinsNext pax => cases hnull
        simp only [totalLength, List.map_cons, List.sum_cons, hlength] at hcounted
        omega

/-- A round leaves the frames settled, whatever it reads. -/
theorem stdinStep_settled (hmin : ctx.minBlockSize = 0) (hmax : 1 ≤ ctx.maxBlockSize)
    (hword : ctx.maxBlockSize ≤ MAX_FRAME_SIZE) (hs : Buffered stream s)
    (h : FramesSettled s run nulls) (hst : stdinStep ctx after stream s = .next t)
    (hp : Pledgeable ctx stream.bytes t.log) : ∃ run nulls, FramesSettled t run nulls := by
  have hround := stdinStep_round ctx after stream hs.pos_le
  obtain ⟨e, hlog⟩ := (stdinStep_advanced hs hst).log
  rw [hst] at hround
  cases hround with
  | ended hend hfinish => exact absurd hfinish (finishStdin_ne_next ctx s t)
  | null hroom hzero => exact ⟨run, _, h.pastNull hword hp⟩
  | entry hroom hzero hok =>
      obtain ⟨held, hready⟩ := h.header hmin hmax hword (hp.earlier ⟨[e], hlog.symm⟩)
      obtain ⟨run, hsettled⟩ := hready.pastEntry hmin hmax hword
        (headerState_held ctx hs.held.length_le) hok hp
      exact ⟨run, [], hsettled⟩

theorem finishStdin_same (ctx : Context) (s : StdinState) :
    (finishStdin ctx s).state.log = s.log ∧
      (finishStdin ctx s).state.frames = endFrameAndRecord
        (if s.nullRun ≠ 0 ∨ s.held ≠ [] then flushHeld ctx s else s).frames := by
  rw [finishStdin]
  by_cases hdue : s.nullRun ≠ 0 ∨ s.held ≠ []
  · simp only [if_pos hdue]
    split <;> exact ⟨rfl, rfl⟩
  · simp only [if_neg hdue]
    split <;> exact ⟨rfl, rfl⟩

theorem finishStdin_starts (hmin : ctx.minBlockSize = 0) (hmax : 1 ≤ ctx.maxBlockSize)
    (hword : ctx.maxBlockSize ≤ MAX_FRAME_SIZE) (h : FramesSettled s run nulls)
    (hp : Pledgeable ctx stream.bytes s.log) :
    StartsKnown (finishStdin ctx s).state.frames.calls := by
  obtain ⟨-, hstate⟩ := finishStdin_same ctx s
  rw [hstate]
  apply endFrameAndRecord_starts
  split
  · exact (h.flush hmin hmax hword hp).starts
  · exact h.starts

theorem stdinStep_log (ctx : Context) (after : Nat → List UInt8) (hs : Buffered stream s) :
    s.log <+: (stdinStep ctx after stream s).state.log := by
  have hround := stdinStep_round ctx after stream hs.pos_le
  have hadvanced := fun t => @stdinStep_advanced ctx stream after s t hs
  revert hround hadvanced
  generalize stdinStep ctx after stream s = step
  intro hround hadvanced
  cases hround with
  | ended hend hfinish => rw [← hfinish, (finishStdin_same ctx s).1]
  | failed => exact List.prefix_rfl
  | truncated => exact List.prefix_rfl
  | rejected => exact List.prefix_rfl
  | null => exact List.prefix_append _ _
  | entry hroom hzero hok =>
      obtain ⟨e, hlog⟩ := (hadvanced _ rfl).log
      exact ⟨[e], hlog.symm⟩

theorem runs_log (hr : Runs (stdinStep ctx after stream) s r) (hs : Buffered stream s) :
    s.log <+: r.state.log := by
  have keeps : ∀ a b, Buffered stream a → stdinStep ctx after stream a = .next b →
      Buffered stream b :=
    fun a b ha hab => (stdinStepChecked_eq (fun _ => 0) after ha).2 b hab
  have htrans : ∀ a b c : StdinState, a.log <+: b.log → b.log <+: c.log → a.log <+: c.log :=
    fun a b c hab hbc => hab.trans hbc
  exact hr.relates htrans keeps (fun a ha => stdinStep_log ctx after ha) hs

theorem settled_init : FramesSettled .init [] [] :=
  ⟨rfl, fun _ hmem => absurd hmem List.not_mem_nil, List.nil_suffix, List.forall_mem_nil _, rfl,
    List.forall_mem_nil _, rfl⟩

/-- In a run over such a stream no frame is opened without its size. -/
theorem runs_starts (hmin : ctx.minBlockSize = 0) (hmax : 1 ≤ ctx.maxBlockSize)
    (hword : ctx.maxBlockSize ≤ MAX_FRAME_SIZE) (hr : Runs (stdinStep ctx after stream) s r)
    (hend : ParsedToEnd r) (hs : Buffered stream s) (h : FramesSettled s run nulls)
    (hp : Pledgeable ctx stream.bytes r.state.log) : StartsKnown r.state.frames.calls := by
  have hlast : ∀ s r, EndsAt (stdinStep ctx after stream) s r → ParsedToEnd r →
      Buffered stream s → (∃ run nulls, FramesSettled s run nulls) →
      Pledgeable ctx stream.bytes r.state.log → StartsKnown r.state.frames.calls := by
    intro s r hends hend hs ⟨run, nulls, h⟩ hp
    obtain ⟨-, hstate⟩ := endsAt_finish hs hends hend
    rw [hstate, (finishStdin_same ctx s).1] at hp
    rw [hstate]
    exact finishStdin_starts hmin hmax hword h hp
  have hsettled : ∃ run nulls, FramesSettled s run nulls := ⟨run, nulls, h⟩
  clear h
  induction hr with
  | done hd => exact hlast _ _ hd hend hs hsettled hp
  | exit he => exact hlast _ _ he hend hs hsettled hp
  | next hst rest ih =>
      obtain ⟨run, nulls, h⟩ := hsettled
      have hnext := (stdinStepChecked_eq (fun _ => 0) after hs).2 _ hst
      exact ih hend hnext hp
        (stdinStep_settled hmin hmax hword hs h hst (hp.earlier (runs_log rest hnext)))

end Known

end T2sz
