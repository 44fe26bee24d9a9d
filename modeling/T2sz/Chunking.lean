import T2sz.CompressorSpec
import T2sz.RawInput
import T2sz.Library.Cutting
import T2sz.Library.Memory

/-!
The seams between two calls of `pushBytesTar`.

The streaming paths push an element in parts that have nothing to do with `-S`.
What a call does to the session is the cutting of its bytes, one by one, into
pieces of `maxBlockSize`, so the parts do not matter. That needs frame variables
that agree with the session, and an open frame with room: whatever opens, feeds
or closes a frame keeps both.
-/

namespace T2sz

open Iteration Cutting

set_option maxRecDepth 4000

def Frame.piece (frame : Frame) : Piece (Option Nat) UInt8 := ⟨frame.pledged, frame.content⟩

/-- The frames as pieces that are labelled with their pledges. -/
def Session.cuts (s : Session) : Cuts (Option Nat) UInt8 :=
  ⟨s.closed.map Frame.piece, s.opened.map Frame.piece⟩

def Frames.cuts (f : Frames) : Cuts (Option Nat) UInt8 := (session f.calls).cuts

/-- Frames that a streaming path has made, inside a round or between two. -/
inductive Handled (ctx : Context) : Frames → Prop
  | init : Handled ctx ⟨0, false, []⟩
  | element {f : Frames} (size : Nat) (h : Handled ctx f) :
      Handled ctx (startElementFrame ctx size f)
  | push {f : Frames} (src : List UInt8) (h : Handled ctx f) : Handled ctx (pushBytesTar ctx src f)
  | finish {f : Frames} (h : Handled ctx f) : Handled ctx (endFrameAndRecord f)
  | whole {f : Frames} (src : List UInt8) (h : Handled ctx f) (hc : f.frameOpen = false) :
      Handled ctx { f with calls := f.calls ++ [.frame src] }

/-- The loop of `pushBytesTar`; `none` if a conversion or a difference is not exact,
a round feeds nothing, or bytes are left over. -/
def pushBytesChecked (ctx : Context) : Nat → List UInt8 → Frames → Option Frames
  | 0, src, f => if src.isEmpty then some f else none
  | fuel + 1, src, f =>
      if src.isEmpty then some f
      else do
        let opened := if f.frameOpen then f else startFrame ZSTD_CONTENTSIZE_UNKNOWN f
        let n ←
          if ctx.maxBlockSize ≠ 0 then do
            let frameIn ← Memory.narrow ctx.sizeBits opened.frameIn
            let left ← Memory.minus ctx.maxBlockSize frameIn
            some (min src.length left)
          else some src.length
        if n = 0 then none
        else
          let fed := compressChunk (src.take n) opened
          let closed :=
            if ctx.maxBlockSize ≠ 0 ∧ ctx.maxBlockSize ≤ fed.frameIn then endFrameAndRecord fed
            else fed
          pushBytesChecked ctx fuel (src.drop n) closed

/-- The same frames: the records and the session, and what is open. -/
structure SameFrames (f g : Frames) : Prop where
  frameOpen : f.frameOpen = g.frameOpen
  frameIn : f.frameOpen = true → f.frameIn = g.frameIn
  recorded : recordedSizes f.calls = recordedSizes g.calls
  session : session f.calls = session g.calls

/-- A call that turns `f` into `g` feeds all of `src`, and closes full frames only. -/
structure Feeds (ctx : Context) (src : List UInt8) (f g : Frames) : Prop where
  checked : pushBytesChecked ctx src.length src f = some g
  content : (session g.calls).content = (session f.calls).content ++ src
  closed : ∃ full : List Frame, g.closedFrames = f.closedFrames ++ full ∧
    recordedSizes g.calls = recordedSizes f.calls ++ full.map (fun frame => frame.content.length) ∧
    ∀ frame ∈ full, frame.content.length = ctx.maxBlockSize

section Cuts

theorem Frame.piece_injective : Function.Injective Frame.piece := by
  rintro ⟨pledged, content⟩ ⟨pledged', content'⟩ h
  rw [Frame.piece, Frame.piece, Piece.mk.injEq] at h
  exact (Frame.mk.injEq ..).mpr h

theorem Session.cuts_injective : Function.Injective Session.cuts := by
  rintro ⟨closed, opened⟩ ⟨closed', opened'⟩ h
  rw [Session.cuts, Session.cuts, Cuts.mk.injEq] at h
  have hclosed : closed = closed' := List.map_injective_iff.mpr Frame.piece_injective h.1
  have hopened : opened = opened' := Option.map_injective Frame.piece_injective h.2
  rw [hclosed, hopened]

theorem Session.content_cuts (s : Session) : s.cuts.content = s.content := by
  obtain ⟨closed, opened⟩ := s
  rw [Session.content, Cuts.content, Session.cuts, List.flatMap_map, ← List.flatMap_def]
  cases opened with
  | none => rfl
  | some frame => rfl

end Cuts

section Pushing

variable {ctx : Context} {f g : Frames} {src chunk : List UInt8}

theorem openForPush_agrees (h : f.Agrees) : (openForPush f).Agrees := by
  rw [openForPush]
  split
  case isTrue => exact h
  case isFalse => exact startFrame_agrees h _

/-- The frame that a round opens is the piece that the next byte opens. -/
theorem openForPush_cuts (h : f.Agrees) (hne : src ≠ []) (size : Nat) :
    (openForPush f).cuts.feed size none src = f.cuts.feed size none src := by
  rw [openForPush]
  split
  case isTrue => rfl
  case isFalse hc =>
    have hnone : f.cuts.opened = none := by
      have hopen : (session f.calls).opened = none := h.open_none (Bool.eq_false_iff.mpr hc)
      rw [Frames.cuts, Session.cuts, hopen, Option.map_none]
    rw [Cuts.feed_opens hnone hne]
    simp [Frames.cuts, startFrame, Session.cuts, Session.call, Frame.piece]

theorem pushChunk_agrees (h : f.Agrees) (chunk : List UInt8) : (pushChunk ctx chunk f).Agrees := by
  have hfed := compressChunk_agrees (openForPush_agrees h) chunk
  rw [pushChunk]
  split
  case isTrue => exact endFrameAndRecord_agrees hfed
  case isFalse => exact hfed

/-- A round feeds its chunk to the pieces. -/
theorem pushChunk_cuts (hmax : 1 ≤ ctx.maxBlockSize) (h : f.Agrees) (hb : f.Bounded ctx)
    (htakes : Takes ctx f src chunk) :
    (pushChunk ctx chunk f).cuts = f.cuts.feed ctx.maxBlockSize none chunk := by
  have hne : chunk ≠ [] := List.ne_nil_of_length_pos htakes.pos
  have hagrees := openForPush_agrees h
  have ho := openForPush_open f
  have hroom := openForPush_room hmax hb
  have hfits := htakes.room
  rw [← openForPush_cuts h hne, pushChunk]
  generalize openForPush f = o at hagrees ho hroom hfits
  obtain ⟨frame, hframe⟩ := hagrees.open_some ho
  have hin := hagrees.frameIn frame hframe
  have hsession : (session o.calls).opened = some frame := hframe
  have hopened : o.cuts.opened = some frame.piece := by
    rw [Frames.cuts, Session.cuts, hsession, Option.map_some]
  have hlen : frame.piece.content.length = o.frameIn := hin
  have hcount : (compressChunk chunk o).frameIn = o.frameIn + chunk.length := rfl
  have hopen : (compressChunk chunk o).frameOpen = true := ho
  have hfed : session (compressChunk chunk o).calls =
      ⟨(session o.calls).closed, some ⟨frame.pledged, frame.content ++ chunk⟩⟩ := by
    rw [compressChunk, session_append, Session.call, hsession, Option.map_some]
  rw [Cuts.feed_fitting hopened hne (by omega), Cuts.put, List.length_append, hlen]
  by_cases hfull : ctx.maxBlockSize ≤ o.frameIn + chunk.length
  · rw [if_pos ⟨by omega, by omega⟩, if_pos hfull, endFrameAndRecord, if_pos hopen, Frames.cuts,
      session_append, hfed]
    simp [Frames.cuts, Session.cuts, Session.call, Frame.piece]
  · rw [if_neg (by omega), if_neg hfull, Frames.cuts, hfed]
    rfl

/-- What a call leaves, piece by piece. -/
theorem pushBytesTar_cuts (hmax : 1 ≤ ctx.maxBlockSize) (h : f.Agrees) (hb : f.Bounded ctx)
    (src : List UInt8) :
    (pushBytesTar ctx src f).Agrees ∧ (pushBytesTar ctx src f).Bounded ctx ∧
      (pushBytesTar ctx src f).cuts = f.cuts.feed ctx.maxBlockSize none src := by
  refine pushBytesLoop_rounds (motive := fun src f g => f.Agrees →
    g.Agrees ∧ g.Bounded ctx ∧ g.cuts = f.cuts.feed ctx.maxBlockSize none src)
    hmax ?_ ?_ src.length src (Nat.le_refl _) hb h
  · intro f hb h
    exact ⟨h, hb, rfl⟩
  · intro chunk rest f g hb htakes hrest h
    obtain ⟨hagrees, hbounded, hcuts⟩ := hrest (pushChunk_agrees h chunk)
    refine ⟨hagrees, hbounded, ?_⟩
    rw [hcuts, pushChunk_cuts hmax h hb htakes, Cuts.feed_append]

/-- No round of a call underflows or stands still. -/
theorem pushBytesChecked_eq (hmax : 1 ≤ ctx.maxBlockSize) (hb : f.Bounded ctx)
    (src : List UInt8) :
    pushBytesChecked ctx src.length src f = some (pushBytesTar ctx src f) := by
  refine pushBytesLoop_rounds (motive := fun src f g => ∀ fuel, src.length ≤ fuel →
    pushBytesChecked ctx fuel src f = some g)
    hmax ?_ ?_ src.length src (Nat.le_refl _) hb src.length (Nat.le_refl _)
  · intro f _ fuel _
    cases fuel with
    | zero => rfl
    | succ fuel => rfl
  · intro chunk rest f g hb htakes hrest fuel hfuel
    have hpos := htakes.pos
    rw [List.length_append] at hfuel
    cases fuel with
    | zero => omega
    | succ fuel =>
        have hroom := openForPush_room hmax hb
        have hlt := ctx.max_lt
        have hne : ctx.maxBlockSize ≠ 0 := by omega
        have hempty : (chunk ++ rest).isEmpty = false := by
          cases chunk with
          | nil => cases hpos
          | cons c cs => rfl
        have hlength := htakes.length
        rw [canWrite_eq hmax hroom] at hlength
        have hnext := hrest fuel (by omega)
        rw [pushBytesChecked, hempty, if_neg Bool.false_ne_true,
          show (if f.frameOpen then f else startFrame ZSTD_CONTENTSIZE_UNKNOWN f) =
            openForPush f from rfl]
        simp only [if_pos hne, Memory.narrow_of_lt (Nat.lt_trans hroom hlt),
          Memory.minus_of_le (Nat.le_of_lt hroom), Option.bind_eq_bind, Option.bind_some,
          ← hlength, List.take_left, List.drop_left]
        rw [if_neg (by omega)]
        exact hnext

end Pushing

section Seams

variable {ctx : Context} {f g : Frames}

/-- The session tells the variables of frames that agree with it. -/
theorem sameFrames_of_cuts (hf : f.Agrees) (hg : g.Agrees) (h : f.cuts = g.cuts) :
    SameFrames f g := by
  have hsession : session f.calls = session g.calls := Session.cuts_injective h
  have hopened : f.openFrame = g.openFrame := congrArg Session.opened hsession
  have hclosed : f.closedFrames = g.closedFrames := congrArg Session.closed hsession
  refine ⟨?_, ?_, ?_, hsession⟩
  · rw [hf.opened, hg.opened, hopened]
  · intro ho
    obtain ⟨frame, hframe⟩ := hf.open_some ho
    rw [← hf.frameIn frame hframe, ← hg.frameIn frame (hopened ▸ hframe)]
  · rw [hf.recorded, hg.recorded, hclosed]

theorem pushBytesTar_append (hmax : 1 ≤ ctx.maxBlockSize) (h : f.Agrees) (hb : f.Bounded ctx)
    (a b : List UInt8) :
    SameFrames (pushBytesTar ctx b (pushBytesTar ctx a f)) (pushBytesTar ctx (a ++ b) f) := by
  obtain ⟨hfirst, hroom, hfirstCuts⟩ := pushBytesTar_cuts hmax h hb a
  obtain ⟨hsecond, -, hsecondCuts⟩ := pushBytesTar_cuts hmax hfirst hroom b
  obtain ⟨hwhole, -, hwholeCuts⟩ := pushBytesTar_cuts hmax h hb (a ++ b)
  apply sameFrames_of_cuts hsecond hwhole
  rw [hsecondCuts, hfirstCuts, hwholeCuts, Cuts.feed_append]

theorem cuts_roomy (h : f.Agrees) (hb : f.Bounded ctx) : f.cuts.Roomy ctx.maxBlockSize := by
  intro piece hpiece
  obtain ⟨frame, hframe, rfl⟩ := Option.map_eq_some_iff.mp hpiece
  have ho : f.frameOpen = true := by
    rw [h.opened, show f.openFrame = some frame from hframe]
    rfl
  have hin := h.frameIn frame hframe
  have hlt := hb ho
  rw [← hin] at hlt
  exact hlt

theorem pushBytesTar_feeds (hmax : 1 ≤ ctx.maxBlockSize) (h : f.Agrees) (hb : f.Bounded ctx)
    (src : List UInt8) : Feeds ctx src f (pushBytesTar ctx src f) := by
  obtain ⟨hagrees, -, hcuts⟩ := pushBytesTar_cuts hmax h hb src
  refine ⟨pushBytesChecked_eq hmax hb src, ?_, ?_⟩
  · have hcontent := congrArg Cuts.content hcuts
    rw [Cuts.content_feed] at hcontent
    simpa only [Frames.cuts, Session.content_cuts] using hcontent
  · obtain ⟨full, hclosed, hsizes⟩ :=
      @Cuts.closed_feed _ _ _ none _ hmax (cuts_roomy h hb) src
    rw [← hcuts] at hclosed
    obtain ⟨old, new, hsplit, hold, hnew⟩ := List.map_eq_append_iff.mp hclosed
    have hsame : old = f.closedFrames := List.map_injective_iff.mpr Frame.piece_injective hold
    have hframes : (pushBytesTar ctx src f).closedFrames = f.closedFrames ++ new := by
      rw [← hsame]
      exact hsplit
    refine ⟨new, hframes, ?_, ?_⟩
    · rw [hagrees.recorded, h.recorded, hframes, List.map_append]
    · intro frame hframe
      apply hsizes frame.piece
      rw [← hnew]
      exact List.mem_map_of_mem hframe

end Seams

section Paths

variable {ctx : Context} {stream : Stream} {after : Nat → List UInt8} {f : Frames}

theorem Handled.agrees (hmax : 1 ≤ ctx.maxBlockSize) (h : Handled ctx f) :
    f.Agrees ∧ f.Bounded ctx := by
  induction h with
  | init =>
      refine ⟨Frames.wf_init.agrees, ?_⟩
      intro ho
      cases ho
  | element size _ ih =>
      rw [startElementFrame]
      split
      case isTrue => exact ih
      case isFalse => exact ⟨startFrame_agrees ih.1 _, startFrame_bounded hmax _ _⟩
  | push src _ ih =>
      obtain ⟨hagrees, hbounded, -⟩ := pushBytesTar_cuts hmax ih.1 ih.2 src
      exact ⟨hagrees, hbounded⟩
  | finish _ ih =>
      refine ⟨endFrameAndRecord_agrees ih.1, ?_⟩
      intro ho
      rw [endFrameAndRecord_frameOpen] at ho
      cases ho
  | @whole f src _ hc ih =>
      refine ⟨⟨?_, ?_, ?_⟩, ?_⟩
      · simpa [Frames.openFrame, Session.call] using hc
      · intro frame hframe
        simp [Frames.openFrame, Session.call] at hframe
      · simpa [Frames.closedFrames, Session.call, recordedSizes] using ih.1.recorded
      · intro ho
        rw [show f.frameOpen = true from ho] at hc
        cases hc

theorem pushNullRun_handled (fuel : Nat) {nullRun : Nat} (h : Handled ctx f) :
    Handled ctx (pushNullRun ctx fuel nullRun f) := by
  induction fuel generalizing nullRun f with
  | zero => exact h
  | succ fuel ih =>
      rw [pushNullRun]
      split
      case isTrue => exact h
      case isFalse => exact ih (.push _ h)

theorem closeElement_handled (h : Handled ctx f) : Handled ctx (closeElement ctx f) := by
  rw [closeElement]
  split
  case isTrue => exact .finish h
  case isFalse => exact h

theorem flushHeld_handled {s : StdinState} (h : Handled ctx s.frames) :
    Handled ctx (flushHeld ctx s).frames :=
  closeElement_handled (pushNullRun_handled _ (.push _ (.element _ h)))

theorem streamExtensions_handled (fuel : Nat) {s t : StdinState} (h : Handled ctx s.frames)
    (hok : streamExtensions ctx stream fuel s = .ok t) : Handled ctx t.frames := by
  induction fuel generalizing s with
  | zero =>
      cases hok
      exact h
  | succ fuel ih =>
      rw [streamExtensions] at hok
      split at hok
      case h_1 => cases hok
      case h_2 block _ =>
        have hpushed : Handled ctx (pushBytesTar ctx block s.frames) := .push block h
        simp only at hok
        split at hok
        case isTrue => exact ih hpushed hok
        case isFalse =>
          cases hok
          exact hpushed

theorem streamPayload_handled {header : TarHeader} {fileSize padded : Nat} (fuel : Nat)
    {remaining : Nat} {s t : StdinState} (h : Handled ctx s.frames)
    (hok : streamPayload ctx stream after header fileSize padded fuel remaining s = .ok t) :
    Handled ctx t.frames := by
  induction fuel generalizing remaining s with
  | zero =>
      cases hok
      exact h
  | succ fuel ih =>
      simp only [streamPayload] at hok
      generalize (if IN_CHUNK < remaining then IN_CHUNK else remaining % 2 ^ ctx.sizeBits) = take
        at hok
      split at hok
      case isTrue =>
        cases hok
        exact h
      case isFalse =>
        split at hok
        case h_1 => cases hok
        case h_2 chunk _ => exact ih (.push chunk h) hok

theorem streamEntry_handled {start fileSize padded : Nat} {s t : StdinState}
    (h : Handled ctx s.frames)
    (hok : streamEntry ctx stream after start fileSize padded s = .ok t) :
    Handled ctx t.frames := by
  have hopened : Handled ctx (if !joinsNextEntry (headerAt stream.bytes start) &&
      !hasSparseExtension (headerAt stream.bytes start) then
      startElementFrame ctx ((s.held.length + 512 + padded) % 2 ^ 64) s.frames else s.frames) := by
    split
    case isTrue => exact .element _ h
    case isFalse => exact h
  have hpushed := Handled.push (headerAt stream.bytes start).bytes (.push s.held hopened)
  simp only [streamEntry] at hok
  generalize (if !joinsNextEntry (headerAt stream.bytes start) &&
      !hasSparseExtension (headerAt stream.bytes start) then
      startElementFrame ctx ((s.held.length + 512 + padded) % 2 ^ 64) s.frames
    else s.frames) = opened at hok hpushed
  split at hok
  case h_1 => cases hok
  case h_2 u hextended =>
    have hu : Handled ctx u.frames := by
      split at hextended
      case isTrue => exact streamExtensions_handled _ hpushed hextended
      case isFalse =>
        cases hextended
        exact hpushed
    split at hok
    case h_1 => cases hok
    case h_2 v hpayload =>
      have hv := streamPayload_handled _ hu hpayload
      cases hok
      simp only
      split
      case isTrue => exact hv
      case isFalse => exact closeElement_handled hv

theorem stdinHeader_handled {s t : StdinState} (h : Handled ctx s.frames)
    (hok : stdinHeader ctx stream after s = .ok t) : Handled ctx t.frames := by
  rw [stdinHeader] at hok
  split at hok
  case isTrue => cases hok
  case isFalse =>
    simp only at hok
    split at hok
    case isTrue => cases hok
    case isFalse =>
      split at hok
      case isTrue =>
        rw [holdEntry] at hok
        split at hok
        case h_1 => cases hok
        case h_2 =>
          cases hok
          exact h
      case isFalse => exact streamEntry_handled (by exact h) hok

theorem finishStdin_handled {s : StdinState} (h : Handled ctx s.frames) :
    Handled ctx (finishStdin ctx s).state.frames := by
  have hflushed : Handled ctx
      (if s.nullRun ≠ 0 ∨ s.held ≠ [] then flushHeld ctx s else s).frames := by
    split
    case isTrue => exact flushHeld_handled h
    case isFalse => exact h
  simp only [finishStdin]
  generalize (if s.nullRun ≠ 0 ∨ s.held ≠ [] then flushHeld ctx s else s) = flushed at hflushed
  split
  case isTrue => exact .finish hflushed
  case isFalse => exact .finish hflushed

theorem stdinStep_handled (after : Nat → List UInt8) (stream : Stream) {s : StdinState}
    (h : Handled ctx s.frames) : Handled ctx (stdinStep ctx after stream s).state.frames := by
  have hready : Handled ctx (if s.nullRun ≠ 0 then flushHeld ctx s else s).frames := by
    split
    case isTrue => exact flushHeld_handled h
    case isFalse => exact h
  simp only [stdinStep]
  split
  case isTrue =>
    split
    case isTrue => exact h
    case isFalse => exact finishStdin_handled h
  case isFalse =>
    split
    case isTrue => exact h
    case isFalse =>
      split
      case isTrue => exact h
      case isFalse =>
        generalize (if s.nullRun ≠ 0 then flushHeld ctx s else s) = ready at hready
        split
        case h_1 => exact h
        case h_2 t hheader => exact stdinHeader_handled hready hheader

/-- The frames of `compressStdinRaw`; with `-s` none is ever open. -/
theorem stdinRawStep_handled (inChunk : Nat) (short : Nat → Nat) (stream : Stream) {s : RawState}
    (h : Handled ctx s.frames ∧ (ctx.minBlockSize ≠ 0 → s.frames.frameOpen = false)) :
    Handled ctx (stdinRawStep ctx inChunk short stream s).state.frames ∧
      (ctx.minBlockSize ≠ 0 →
        (stdinRawStep ctx inChunk short stream s).state.frames.frameOpen = false) := by
  by_cases hmin : ctx.minBlockSize = 0
  · refine ⟨?_, fun hne => absurd hmin hne⟩
    rw [stdinRawStep, if_pos hmin, streamRawStep]
    split
    case isTrue => exact .push _ h.1
    case isFalse =>
      split
      case isTrue => exact h.1
      case isFalse => exact .finish h.1
  · have hclosed := h.2 hmin
    rw [stdinRawStep, if_neg hmin, fixedRawStep]
    split
    case h_1 => exact h
    case h_2 frameBuf _ =>
      have hwhole := Handled.whole frameBuf h.1 hclosed
      split
      case isTrue => exact h
      case isFalse =>
        split
        case isTrue => exact ⟨hwhole, fun _ => hclosed⟩
        case isFalse => exact ⟨hwhole, fun _ => hclosed⟩

theorem reached_handled {s : StdinState} (h : Reached (stdinStep ctx after stream) .init s) :
    Handled ctx s.frames := by
  refine h.invariant (I := fun s => Handled ctx s.frames) ?_ .init
  intro s t hs hst
  have hround := stdinStep_handled after stream hs
  rwa [hst] at hround

theorem reached_raw_handled {inChunk : Nat} {short : Nat → Nat} {s : RawState}
    (h : Reached (stdinRawStep ctx inChunk short stream) .init s) :
    Handled ctx s.frames ∧ (ctx.minBlockSize ≠ 0 → s.frames.frameOpen = false) := by
  refine h.invariant (I := fun s => Handled ctx s.frames ∧
    (ctx.minBlockSize ≠ 0 → s.frames.frameOpen = false)) ?_ ⟨.init, fun _ => rfl⟩
  intro s t hs hst
  have hround := stdinRawStep_handled inChunk short stream hs
  rwa [hst] at hround

end Paths

/-- What the streaming paths push may come in any parts: the parts of one call and of
two give the same frames. -/
theorem pushBytesTar_seamless {ctx : Context} (hmax : 1 ≤ ctx.maxBlockSize) :
    (∀ after stream s, Reached (stdinStep ctx after stream) .init s →
      Handled ctx s.frames ∧ Handled ctx (stdinStep ctx after stream s).state.frames) ∧
    (∀ inChunk short stream s, Reached (stdinRawStep ctx inChunk short stream) .init s →
      Handled ctx s.frames ∧ Handled ctx (stdinRawStep ctx inChunk short stream s).state.frames) ∧
    ∀ f, Handled ctx f →
      (f.frameOpen = true → f.frameIn < ctx.maxBlockSize) ∧
      (∀ src, Feeds ctx src f (pushBytesTar ctx src f)) ∧
      ∀ a b, SameFrames (pushBytesTar ctx b (pushBytesTar ctx a f))
        (pushBytesTar ctx (a ++ b) f) := by
  refine ⟨?_, ?_, ?_⟩
  · intro after stream s hs
    have hhandled := reached_handled hs
    exact ⟨hhandled, stdinStep_handled after stream hhandled⟩
  · intro inChunk short stream s hs
    have hhandled := reached_raw_handled hs
    exact ⟨hhandled.1, (stdinRawStep_handled inChunk short stream hhandled).1⟩
  · intro f hf
    obtain ⟨hagrees, hbounded⟩ := hf.agrees hmax
    exact ⟨hbounded, pushBytesTar_feeds hmax hagrees hbounded,
      pushBytesTar_append hmax hagrees hbounded⟩

/-- The settings of `-S 10`. -/
def tenByteFrames : Context := { newContext with maxBlockSize := 10, max_lt := by decide }

/-- Seven bytes and eight more, the first frame opened for an element of twenty. -/
theorem pushBytesTar_seamless_ten :
    1 ≤ tenByteFrames.maxBlockSize ∧
    SameFrames
      (pushBytesTar tenByteFrames (List.replicate 8 1)
        (pushBytesTar tenByteFrames (List.replicate 7 0)
          (startElementFrame tenByteFrames 20 ⟨0, false, []⟩)))
      (pushBytesTar tenByteFrames (List.replicate 7 0 ++ List.replicate 8 1)
        (startElementFrame tenByteFrames 20 ⟨0, false, []⟩)) := by
  have hmax : 1 ≤ tenByteFrames.maxBlockSize := by decide
  obtain ⟨-, -, hhandled⟩ := pushBytesTar_seamless hmax
  obtain ⟨-, -, hseam⟩ := hhandled _ (.element 20 .init)
  exact ⟨hmax, hseam _ _⟩

end T2sz
