import T2sz.Framing
import T2sz.StdinRounds

/-!
The streaming loops without the clamp of `compressFile`.

A limit that the input is too short to reach is no limit: with one, with another
and with none the loops do the same. So they may be called with sizes that were
not clamped, as the harness for standard input calls them, as long as the input
is shorter than the largest frame.
-/

namespace T2sz

open Iteration

set_option maxRecDepth 4000

/-- No frame of an input of `n` bytes gets to `-S`. -/
def Context.Unreached (ctx : Context) (n : Nat) : Prop :=
  ctx.maxBlockSize = 0 ∨ n < ctx.maxBlockSize

theorem Context.Unreached.clamp {ctx : Context} {n : Nat} (h : ctx.Unreached n)
    (hn : n < MAX_FRAME_SIZE) : ctx.clamp.Unreached n := by
  right
  simp only [Context.clamp]
  split
  case isTrue => exact hn
  case isFalse hmax =>
    simp only [Bool.or_eq_true, beq_iff_eq, not_or] at hmax
    exact h.resolve_left hmax.1.2

/-- Contexts that differ in their `-S` only, and reach neither. -/
structure Alike (n : Nat) (ctx ctx' : Context) : Prop where
  bits : ctx'.sizeBits = ctx.sizeBits
  low : ctx'.minBlockSize = ctx.minBlockSize
  high : ctx.Unreached n
  high' : ctx'.Unreached n

/-- The open frame has at most `k` bytes. -/
def Frames.Within (k : Nat) (f : Frames) : Prop := f.frameOpen = true → f.frameIn ≤ k

section Frames

variable {ctx ctx' : Context} {n k m size : Nat} {f : Frames} {src : List UInt8}

theorem Frames.Within.mono (h : f.Within k) (hk : k ≤ m) : f.Within m :=
  fun ho => Nat.le_trans (h ho) hk

theorem openForPush_within (h : f.Within k) : (openForPush f).frameIn ≤ k := by
  rw [openForPush]
  split
  case isTrue ho => exact h ho
  case isFalse => exact Nat.zero_le k

/-- A push is one chunk. -/
theorem pushBytesTar_unreached (hctx : ctx.Unreached n) (h : f.Within k)
    (hk : k + src.length ≤ n) :
    pushBytesTar ctx src f = if src = [] then f else compressChunk src (openForPush f) := by
  cases src with
  | nil => exact pushBytesLoop_nil ctx _ f
  | cons c rest =>
      have hin := openForPush_within h
      have hword := ctx.max_lt
      have hwhole : canWrite ctx (c :: rest).length (openForPush f) = (c :: rest).length := by
        rw [canWrite]
        split
        case isTrue hne =>
          have hlt := hctx.resolve_left hne
          rw [Nat.mod_eq_of_lt (by omega), usub_eq (by omega) hword]
          omega
        case isFalse => rfl
      have hopen : ¬ (ctx.maxBlockSize ≠ 0 ∧
          ctx.maxBlockSize ≤ (compressChunk (c :: rest) (openForPush f)).frameIn) := by
        rintro ⟨hne, hfull⟩
        have hlt := hctx.resolve_left hne
        change ctx.maxBlockSize ≤ (openForPush f).frameIn + (c :: rest).length at hfull
        omega
      rw [if_neg (List.cons_ne_nil c rest), pushBytesTar, List.length_cons,
        pushBytesLoop_succ _ (List.cons_ne_nil c rest), hwhole, List.take_length, List.drop_length,
        pushBytesLoop_nil, pushChunk, if_neg hopen]

theorem pushBytesTar_within (hctx : ctx.Unreached n) (h : f.Within k) (hk : k + src.length ≤ n) :
    (pushBytesTar ctx src f).Within (k + src.length) := by
  rw [pushBytesTar_unreached hctx h hk]
  split
  case isTrue => exact h.mono (Nat.le_add_right _ _)
  case isFalse => exact fun _ => Nat.add_le_add_right (openForPush_within h) _

theorem pushBytesTar_alike (hctx : Alike n ctx ctx') (h : f.Within k) (hk : k + src.length ≤ n) :
    pushBytesTar ctx' src f = pushBytesTar ctx src f := by
  rw [pushBytesTar_unreached hctx.high h hk, pushBytesTar_unreached hctx.high' h hk]

theorem startElementFrame_within (h : f.Within k) (size : Nat) :
    (startElementFrame ctx size f).Within k := by
  rw [startElementFrame]
  split
  · exact h
  · exact fun _ => Nat.zero_le k

theorem startElementFrame_alike (hctx : Alike n ctx ctx') (hsize : size ≤ n) :
    startElementFrame ctx' size f = startElementFrame ctx size f := by
  have hpledge : ∀ c : Context, c.Unreached n →
      ¬ (c.maxBlockSize ≠ 0 ∧ c.maxBlockSize < size) := by
    rintro c hc ⟨hne, hlt⟩
    have hreach := hc.resolve_left hne
    omega
  rw [startElementFrame, startElementFrame, hctx.low, if_neg (hpledge ctx hctx.high),
    if_neg (hpledge ctx' hctx.high')]

theorem endFrameAndRecord_within (k : Nat) (f : Frames) : (endFrameAndRecord f).Within k := by
  intro ho
  rw [endFrameAndRecord_frameOpen] at ho
  cases ho

theorem closeElement_within (h : f.Within k) : (closeElement ctx f).Within k := by
  rw [closeElement]
  split
  · exact endFrameAndRecord_within k f
  · exact h

theorem closeElement_alike (hctx : Alike n ctx ctx') (f : Frames) :
    closeElement ctx' f = closeElement ctx f := by
  rw [closeElement, closeElement, hctx.low]

theorem pushNullRun_alike (hctx : Alike n ctx ctx') (fuel : Nat) {nullRun : Nat}
    (h : f.Within k) (hk : k + nullRun ≤ n) (hfuel : nullRun ≤ fuel) :
    pushNullRun ctx' fuel nullRun f = pushNullRun ctx fuel nullRun f ∧
      (pushNullRun ctx fuel nullRun f).Within (k + nullRun) := by
  induction fuel generalizing f k nullRun with
  | zero => exact ⟨rfl, h.mono (Nat.le_add_right _ _)⟩
  | succ fuel ih =>
      simp only [pushNullRun, payloadChunk]
      split
      case isTrue => exact ⟨rfl, h.mono (Nat.le_add_right _ _)⟩
      case isFalse hne =>
        have htake : 0 < min IN_CHUNK nullRun := by
          simp only [IN_CHUNK]
          omega
        have hfits : k + (List.replicate (min IN_CHUNK nullRun) (0 : UInt8)).length ≤ n := by
          rw [List.length_replicate]
          omega
        have hpushed := pushBytesTar_within hctx.high h hfits
        rw [pushBytesTar_alike hctx h hfits]
        rw [List.length_replicate] at hpushed
        have hleft : k + min IN_CHUNK nullRun + (nullRun - min IN_CHUNK nullRun) = k + nullRun := by
          omega
        have hrest := ih hpushed (hleft ▸ hk) (by omega)
        rwa [hleft] at hrest

end Frames

/-- With what a read fails that the stream is too short for. -/
def Stream.ending (stream : Stream) : Exit := if stream.fails then .readError else .unexpectedEof

/-- What is held and counted fits behind the open frame in what was read. -/
def StdinState.Waiting (s : StdinState) : Prop :=
  ∃ k, s.frames.Within k ∧ k + s.held.length + s.nullRun ≤ s.pos

section States

variable {ctx ctx' : Context} {stream : Stream} {after : Nat → List UInt8} {s t : StdinState}
  {e : Exit} {n k : Nat}

theorem readExactStdin_ending {pos : Nat} (h : readExactStdin stream pos n = .error e) :
    e = stream.ending := by
  rw [readExactStdin] at h
  split at h
  case isTrue => cases h
  case isFalse => exact (Except.error.inj h).symm

theorem streamExtensions_ending (fuel : Nat)
    (h : streamExtensions ctx stream fuel s = .error e) : e = stream.ending := by
  induction fuel generalizing s with
  | zero => cases h
  | succ fuel ih =>
      rw [streamExtensions] at h
      split at h
      case h_1 _ hread => exact Except.error.inj h ▸ readExactStdin_ending hread
      case h_2 =>
        simp only at h
        split at h
        · exact ih h
        · cases h

theorem streamPayload_ending {header : TarHeader} {fileSize padded remaining : Nat} (fuel : Nat)
    (h : streamPayload ctx stream after header fileSize padded fuel remaining s = .error e) :
    e = stream.ending := by
  induction fuel generalizing s remaining with
  | zero => cases h
  | succ fuel ih =>
      rw [streamPayload] at h
      split at h
      case isTrue => cases h
      case isFalse =>
        simp only at h
        split at h
        case h_1 _ hread => exact Except.error.inj h ▸ readExactStdin_ending hread
        case h_2 => exact ih h

theorem holdEntry_ending {start fileSize padded : Nat}
    (h : holdEntry ctx stream after start fileSize padded s = .error e) : e = stream.ending := by
  simp only [holdEntry] at h
  split at h
  case h_1 _ hread => exact Except.error.inj h ▸ readExactStdin_ending hread
  case h_2 => cases h

theorem streamEntry_ending {start fileSize padded : Nat}
    (h : streamEntry ctx stream after start fileSize padded s = .error e) : e = stream.ending := by
  simp only [streamEntry] at h
  split at h
  case h_1 _ hextended =>
    split at hextended
    case isTrue => exact Except.error.inj h ▸ streamExtensions_ending _ hextended
    case isFalse => cases hextended
  case h_2 =>
    split at h
    case h_1 _ hpayload => exact Except.error.inj h ▸ streamPayload_ending _ hpayload
    case h_2 => cases h

/-- Bytes that were read are pushed. -/
theorem push_alike (hctx : Alike stream.bytes.length ctx ctx') {pos : Nat} {chunk : List UInt8}
    {f : Frames} (hread : readExactStdin stream pos n = .ok chunk) (h : f.Within pos) :
    pushBytesTar ctx' chunk f = pushBytesTar ctx chunk f ∧
      (pushBytesTar ctx chunk f).Within (pos + n) := by
  obtain ⟨hfits, hbytes⟩ := readExactStdin_eq_ok hread
  have hlen : chunk.length = n := by rw [hbytes, length_chunk hfits]
  have hroom : pos + chunk.length ≤ stream.bytes.length := by omega
  have hwithin := pushBytesTar_within hctx.high h hroom
  rw [hlen] at hwithin
  exact ⟨pushBytesTar_alike hctx h hroom, hwithin⟩

theorem streamExtensions_alike (hctx : Alike stream.bytes.length ctx ctx') (fuel : Nat)
    (h : s.frames.Within s.pos) :
    streamExtensions ctx' stream fuel s = streamExtensions ctx stream fuel s ∧
      ∀ t, streamExtensions ctx stream fuel s = .ok t → t.frames.Within t.pos := by
  induction fuel generalizing s with
  | zero => exact ⟨rfl, fun t ht => Except.ok.inj ht ▸ h⟩
  | succ fuel ih =>
      simp only [streamExtensions]
      cases hread : readExactStdin stream s.pos 512 with
      | error e => exact ⟨rfl, fun t ht => by cases ht⟩
      | ok block =>
          obtain ⟨hsame, hwithin⟩ := push_alike hctx hread h
          simp only [hsame]
          split
          · exact ih hwithin
          · exact ⟨rfl, fun t ht => Except.ok.inj ht ▸ hwithin⟩

theorem streamPayload_alike (hctx : Alike stream.bytes.length ctx ctx') (header : TarHeader)
    (fileSize padded : Nat) (fuel : Nat) {remaining : Nat} (h : s.frames.Within s.pos) :
    streamPayload ctx' stream after header fileSize padded fuel remaining s =
        streamPayload ctx stream after header fileSize padded fuel remaining s ∧
      ∀ t, streamPayload ctx stream after header fileSize padded fuel remaining s = .ok t →
        t.frames.Within t.pos := by
  induction fuel generalizing s remaining with
  | zero => exact ⟨rfl, fun t ht => Except.ok.inj ht ▸ h⟩
  | succ fuel ih =>
      simp only [streamPayload, hctx.bits]
      split
      case isTrue => exact ⟨rfl, fun t ht => Except.ok.inj ht ▸ h⟩
      case isFalse =>
        cases hread : readExactStdin stream s.pos
            (if IN_CHUNK < remaining then IN_CHUNK else remaining % 2 ^ ctx.sizeBits) with
        | error e => exact ⟨rfl, fun t ht => by cases ht⟩
        | ok chunk =>
            obtain ⟨hsame, hwithin⟩ := push_alike hctx hread h
            simp only [hsame]
            exact ih hwithin

theorem holdEntry_alike (hctx : Alike n ctx ctx') (start fileSize padded : Nat) (s : StdinState) :
    holdEntry ctx' stream after start fileSize padded s =
      holdEntry ctx stream after start fileSize padded s := by
  simp only [holdEntry, hctx.bits]

/-- An entry without extension blocks that is not all there. -/
theorem streamEntry_short (ctx : Context) (after : Nat → List UInt8)
    (hplain : hasSparseExtension (headerAt stream.bytes s.pos) = false)
    (hroom : s.pos + 512 ≤ stream.bytes.length) (fileSize pax : Nat) {padded : Nat}
    (hshort : stream.bytes.length < s.pos + 512 + padded) :
    streamEntry ctx stream after s.pos fileSize padded
      { s with pos := s.pos + 512, paxNextSize := pax } = .error stream.ending := by
  obtain ⟨e, he⟩ : ∃ e, streamEntry ctx stream after s.pos fileSize padded
      { s with pos := s.pos + 512, paxNextSize := pax } = .error e := by
    simp only [streamEntry, hplain, Bool.false_eq_true, if_false]
    generalize hpushed : (StdinState.mk (s.pos + 512) [] s.nullRun _ pax s.log) = pushed
    have hpos : pushed.pos = s.pos + 512 := by rw [← hpushed]
    obtain ⟨e, herror⟩ := @streamPayload_error ctx stream after pushed
      (headerAt stream.bytes s.pos) fileSize padded padded padded (Nat.le_refl _)
      (by rw [hpos]; exact hroom) (by rw [hpos]; exact hshort)
    exact ⟨e, by rw [herror]⟩
  rw [he, streamEntry_ending he]

/-- The frame in which an entry starts. -/
theorem opened_alike (hctx : Alike n ctx ctx') {starts : Bool} {size : Nat} {f : Frames}
    (hsize : starts = true → size ≤ n) :
    (if starts then startElementFrame ctx' size f else f) =
      if starts then startElementFrame ctx size f else f := by
  split
  case isTrue hstart => exact startElementFrame_alike hctx (hsize hstart)
  case isFalse => rfl

theorem opened_within {f : Frames} (h : f.Within k) (starts : Bool) (size : Nat) :
    (if starts then startElementFrame ctx size f else f).Within k := by
  split
  · exact startElementFrame_within h size
  · exact h

theorem extended_alike (hctx : Alike stream.bytes.length ctx ctx') (sparseExt : Bool)
    (h : s.frames.Within s.pos) :
    (if sparseExt then streamExtensions ctx' stream (stream.bytes.length + 1) s else .ok s) =
        (if sparseExt then streamExtensions ctx stream (stream.bytes.length + 1) s else .ok s) ∧
      ∀ t, (if sparseExt then streamExtensions ctx stream (stream.bytes.length + 1) s
        else .ok s) = .ok t → t.frames.Within t.pos := by
  split
  case isTrue => exact streamExtensions_alike hctx _ h
  case isFalse => exact ⟨rfl, fun t ht => Except.ok.inj ht ▸ h⟩

theorem streamEntry_alike (hctx : Alike stream.bytes.length ctx ctx')
    (hroom : s.pos + 512 ≤ stream.bytes.length) (hk : s.frames.Within k)
    (hheld : k + s.held.length ≤ s.pos) (fileSize padded pax : Nat) :
    streamEntry ctx' stream after s.pos fileSize padded
        { s with pos := s.pos + 512, paxNextSize := pax } =
      streamEntry ctx stream after s.pos fileSize padded
        { s with pos := s.pos + 512, paxNextSize := pax } ∧
    ∀ t, streamEntry ctx stream after s.pos fileSize padded
        { s with pos := s.pos + 512, paxNextSize := pax } = .ok t → t.frames.Within t.pos := by
  generalize hheader : headerAt stream.bytes s.pos = header
  -- What is pledged of an entry that is not all there may depend on `-S`.
  by_cases hlarge : hasSparseExtension header = false ∧
      stream.bytes.length < (s.held.length + 512 + padded) % 2 ^ 64
  case pos =>
    obtain ⟨hplain, hover⟩ := hlarge
    rw [← hheader] at hplain
    have hmod := Nat.mod_le (s.held.length + 512 + padded) (2 ^ 64)
    have hshort : stream.bytes.length < s.pos + 512 + padded := by omega
    rw [streamEntry_short ctx after hplain hroom fileSize pax hshort,
      streamEntry_short ctx' after hplain hroom fileSize pax hshort]
    exact ⟨rfl, fun t ht => by cases ht⟩
  case neg =>
    have hsize := header.size_eq
    have hfirst := @opened_within ctx k s.frames hk
      (!joinsNextEntry header && !hasSparseExtension header)
      ((s.held.length + 512 + padded) % 2 ^ 64)
    have hopened := @opened_alike ctx ctx' _ hctx
      (!joinsNextEntry header && !hasSparseExtension header)
      ((s.held.length + 512 + padded) % 2 ^ 64) s.frames (by
        intro hstart
        rw [Bool.and_eq_true, Bool.not_eq_true', Bool.not_eq_true'] at hstart
        exact Nat.not_lt.mp fun hlt => hlarge ⟨hstart.2, hlt⟩)
    simp only [streamEntry, hheader, hopened]
    generalize (if !joinsNextEntry header && !hasSparseExtension header then
      startElementFrame ctx ((s.held.length + 512 + padded) % 2 ^ 64) s.frames
      else s.frames) = opened at hfirst
    have hpushed := pushBytesTar_within hctx.high hfirst
      (show k + s.held.length ≤ stream.bytes.length by omega)
    have hbehind := pushBytesTar_within hctx.high hpushed
      (show k + s.held.length + header.bytes.length ≤ stream.bytes.length by omega)
    rw [pushBytesTar_alike hctx hfirst (by omega), pushBytesTar_alike hctx hpushed (by omega)]
    generalize hstate : (StdinState.mk (s.pos + 512) [] s.nullRun
      (pushBytesTar ctx header.bytes (pushBytesTar ctx s.held opened)) pax s.log) = pushed
    have hwithin : pushed.frames.Within pushed.pos := by
      rw [← hstate]
      exact hbehind.mono (by simp only; omega)
    obtain ⟨hextended, hread⟩ := extended_alike hctx (hasSparseExtension header) hwithin
    rw [hextended]
    cases hext : (if hasSparseExtension header then
        streamExtensions ctx stream (stream.bytes.length + 1) pushed else .ok pushed) with
    | error e => exact ⟨rfl, fun t ht => by cases ht⟩
    | ok t =>
        obtain ⟨hsame, hkept⟩ := @streamPayload_alike ctx ctx' stream after t hctx header fileSize
          padded padded padded (hread t hext)
        simp only [hsame]
        cases hu : streamPayload ctx stream after header fileSize padded padded padded t with
        | error e => exact ⟨rfl, fun v hv => by cases hv⟩
        | ok u =>
            simp only [closeElement_alike hctx, true_and]
            intro v hv
            obtain rfl := Except.ok.inj hv
            split
            · exact hkept u hu
            · exact closeElement_within (hkept u hu)

theorem flushHeld_alike (hctx : Alike n ctx ctx') (hk : s.frames.Within k)
    (hwaiting : k + s.held.length + s.nullRun ≤ n) :
    flushHeld ctx' s = flushHeld ctx s ∧
      (flushHeld ctx s).frames.Within (k + s.held.length + s.nullRun) := by
  have hmod := Nat.mod_le (s.held.length + s.nullRun) (2 ^ 64)
  have hstarted := @startElementFrame_alike ctx ctx' n _ s.frames hctx
    (show (s.held.length + s.nullRun) % 2 ^ 64 ≤ n by omega)
  have hopened := @startElementFrame_within ctx k s.frames hk ((s.held.length + s.nullRun) % 2 ^ 64)
  have hroom : k + s.held.length ≤ n := by omega
  have hpushed := pushBytesTar_within hctx.high hopened hroom
  have hheld := pushBytesTar_alike hctx hopened hroom
  obtain ⟨hsame, hwithin⟩ :=
    pushNullRun_alike hctx s.nullRun hpushed hwaiting (Nat.le_refl _)
  constructor
  · simp only [flushHeld, hstarted, hheld, hsame, closeElement_alike hctx]
  · exact closeElement_within hwithin

/-- The state in which the header of a round is read. -/
theorem headerState_alike (hctx : Alike n ctx ctx') (hpos : s.pos ≤ n) (h : s.Waiting) :
    headerState ctx' s = headerState ctx s ∧
      ∃ k, (headerState ctx s).frames.Within k ∧
        k + (headerState ctx s).held.length ≤ (headerState ctx s).pos ∧
        (headerState ctx s).nullRun = 0 := by
  obtain ⟨k, hk, hwaiting⟩ := h
  simp only [headerState]
  split
  case isTrue =>
    obtain ⟨hsame, hwithin⟩ := flushHeld_alike hctx hk (Nat.le_trans hwaiting hpos)
    exact ⟨hsame, _, hwithin, hwaiting, rfl⟩
  case isFalse hrun => exact ⟨rfl, k, hk, by omega, not_not.mp hrun⟩

theorem stdinHeader_alike (hctx : Alike stream.bytes.length ctx ctx')
    (hroom : s.pos + 512 ≤ stream.bytes.length) (hk : s.frames.Within k)
    (hheld : k + s.held.length ≤ s.pos) (hnull : s.nullRun = 0)
    (hfits : s.held.length ≤ HELD_SIZE) :
    stdinHeader ctx' stream after s = stdinHeader ctx stream after s ∧
      ∀ t, stdinHeader ctx stream after s = .ok t → t.Waiting := by
  by_cases hvalid : isTarHeader (headerAt stream.bytes s.pos) = true
  case neg =>
    simp only [stdinHeader, hvalid, Bool.not_false, if_true, true_and]
    exact fun t ht => by cases ht
  obtain ⟨⟨size, pax⟩, hsize⟩ : ∃ p, tarEntrySize (headerAt stream.bytes s.pos) s.paxNextSize = p :=
    ⟨_, rfl⟩
  by_cases hlarge : UINT64_MAX - 1024 < size
  case pos =>
    simp only [stdinHeader, hvalid, hsize, Bool.not_true, Bool.false_eq_true, if_false,
      if_pos hlarge, true_and]
    exact fun t ht => by cases ht
  have hsmall := Nat.le_of_not_lt hlarge
  rw [stdinHeader_eq hfits hvalid 0 hsize hsmall, stdinHeader_eq hfits hvalid 0 hsize hsmall,
    holdEntry_alike hctx]
  obtain ⟨hsame, hwithin⟩ := @streamEntry_alike ctx ctx' stream after s k hctx hroom hk hheld size
    (roundUp size) pax
  rw [hsame]
  refine ⟨rfl, ?_⟩
  intro t ht
  split at ht
  case isTrue hholds =>
    obtain ⟨hjoins, -, hlittle⟩ := holds_spec hholds
    have hword := ctx.HELD_SIZE_lt
    simp only at hlittle
    obtain ⟨e, -, herror⟩ | ⟨u, hback, hu⟩ :=
      @holdEntry_cases ctx stream s after size (roundUp size) pax hjoins (by omega)
    · rw [herror] at ht
      cases ht
    · obtain rfl := Except.ok.inj (hu.symm.trans ht)
      refine ⟨k, by rw [hback.frames]; exact hk, ?_⟩
      rw [hback.held, hback.nullRun, hback.pos]
      omega
  case isFalse =>
    obtain ⟨e, -, herror⟩ | ⟨u, hpassed, hu⟩ :=
      streamEntry_cases ctx stream after size (roundUp size) pax s
    · rw [herror] at ht
      cases ht
    · obtain rfl := Except.ok.inj (hu.symm.trans ht)
      refine ⟨u.pos, hwithin u hu, ?_⟩
      rw [hpassed.held, hpassed.nullRun, hnull]
      exact Nat.le_refl _

theorem finishStdin_alike (hctx : Alike n ctx ctx') (hpos : s.pos ≤ n) (h : s.Waiting) :
    finishStdin ctx' s = finishStdin ctx s := by
  obtain ⟨k, hk, hwaiting⟩ := h
  obtain ⟨hsame, -⟩ := flushHeld_alike hctx hk (Nat.le_trans hwaiting hpos)
  have hcount : ∀ calls, frameCount ctx' calls = frameCount ctx calls := by
    intro calls
    rw [frameCount, frameCount, hctx.bits]
  simp only [finishStdin, hsame, hcount]

/-- A round does the same. -/
theorem stdinStep_alike (hctx : Alike stream.bytes.length ctx ctx') (hs : Buffered stream s)
    (h : s.Waiting) :
    stdinStep ctx' after stream s = stdinStep ctx after stream s ∧
      ∀ t, stdinStep ctx after stream s = .next t → t.Waiting := by
  have hlen : (blockAt stream.bytes s.pos).length = min 512 (stream.bytes.length - s.pos) := by
    rw [blockAt, List.length_take, List.length_drop]
  simp only [stdinStep, finishStdin_alike hctx hs.pos_le h]
  split
  case isTrue =>
    split
    · exact ⟨rfl, fun t ht => by cases ht⟩
    · exact ⟨rfl, fun t ht => absurd ht (finishStdin_ne_next ctx s t)⟩
  split
  case isTrue => exact ⟨rfl, fun t ht => by cases ht⟩
  case isFalse hfull =>
    have hroom : s.pos + 512 ≤ stream.bytes.length := by omega
    split
    case isTrue =>
      refine ⟨rfl, ?_⟩
      intro t ht
      obtain rfl := Step.next.inj ht
      obtain ⟨k, hk, hwaiting⟩ := h
      have hmod := Nat.mod_le (s.nullRun + 512) (2 ^ 64)
      exact ⟨k, hk, by simp only; omega⟩
    case isFalse =>
      obtain ⟨hsame, k, hk, hheld, hnull⟩ := headerState_alike hctx hs.pos_le h
      have hplace := (headerState_same ctx s).1
      obtain ⟨hheader, hwaits⟩ := @stdinHeader_alike ctx ctx' stream after (headerState ctx s) k
        hctx (hplace ▸ hroom) hk hheld hnull (headerState_held ctx hs.held.length_le)
      simp only [headerState] at hsame hheader hwaits
      rw [hsame, hheader]
      refine ⟨rfl, ?_⟩
      intro t ht
      split at ht
      case h_1 => cases ht
      case h_2 u hu =>
        obtain rfl := Step.next.inj ht
        exact hwaits u hu

theorem compressStdinTar_alike (hctx : Alike stream.bytes.length ctx ctx')
    (after : Nat → List UInt8) :
    compressStdinTar ctx' after stream = compressStdinTar ctx after stream := by
  apply iterate_congr (I := fun s => Buffered stream s ∧ s.Waiting)
  · exact fun s hs => (stdinStep_alike hctx hs.1 hs.2).1
  · exact fun s t hs ht => ⟨(stdinStepChecked_eq (fun _ => 0) after hs.1).2 t ht,
      (stdinStep_alike hctx hs.1 hs.2).2 t ht⟩
  · refine ⟨buffered_init stream, 0, ?_, Nat.le_refl _⟩
    intro ho
    cases ho

end States

section Raw

variable {ctx ctx' : Context} {stream : Stream} {inChunk : Nat} {short : Nat → Nat} {s : RawState}

/-- A round without `-s` does the same. -/
theorem streamRawStep_alike (hctx : Alike stream.bytes.length ctx ctx')
    (hs : s.pos ≤ stream.bytes.length ∧ s.frames.Within s.pos) :
    streamRawStep ctx' inChunk short stream s = streamRawStep ctx inChunk short stream s ∧
      ∀ t, streamRawStep ctx inChunk short stream s = .next t →
        t.pos ≤ stream.bytes.length ∧ t.frames.Within t.pos := by
  have hroom : s.pos + (fread stream short s.pos inChunk).length ≤ stream.bytes.length := by
    have hsplit := congrArg List.length (fread_split stream short s.pos inChunk)
    rw [List.length_append, List.length_drop, List.length_drop] at hsplit
    omega
  have hsame := pushBytesTar_alike hctx hs.2 hroom
  have hwithin := pushBytesTar_within hctx.high hs.2 hroom
  refine ⟨by simp only [streamRawStep, hsame], ?_⟩
  intro t ht
  simp only [streamRawStep] at ht
  split at ht
  case isTrue => exact Step.next.inj ht ▸ ⟨hroom, hwithin⟩
  case isFalse => split at ht <;> cases ht

theorem compressStdinRaw_alike (hctx : Alike stream.bytes.length ctx ctx') (inChunk : Nat)
    (short : Nat → Nat) :
    compressStdinRaw ctx' inChunk short stream = compressStdinRaw ctx inChunk short stream := by
  rw [compressStdinRaw, compressStdinRaw]
  by_cases hmin : ctx.minBlockSize = 0
  · have hstep : ∀ c : Context, c.minBlockSize = 0 →
        stdinRawStep c inChunk short stream = streamRawStep c inChunk short stream :=
      fun c hc => if_pos hc
    rw [hstep ctx hmin, hstep ctx' (hctx.low.trans hmin)]
    apply iterate_congr (I := fun s => s.pos ≤ stream.bytes.length ∧ s.frames.Within s.pos)
    · exact fun s hs => (streamRawStep_alike hctx hs).1
    · exact fun s t hs ht => (streamRawStep_alike hctx hs).2 t ht
    · refine ⟨Nat.zero_le _, ?_⟩
      intro ho
      cases ho
  · have hstep : ∀ c : Context, c.minBlockSize ≠ 0 →
        stdinRawStep c inChunk short stream = fixedRawStep c short stream :=
      fun c hc => if_neg hc
    rw [hstep ctx hmin, hstep ctx' (by rw [hctx.low]; exact hmin)]
    congr 1
    funext s
    simp only [fixedRawStep, hctx.low]

end Raw

section Mapped

variable {ctx ctx' : Context} {after : Nat → List UInt8} {input : List UInt8} {s t : FileState}

theorem splitBlock_unreached {n : Nat} (hctx : ctx.Unreached n) (h : t.blockSize ≤ n) :
    splitBlock ctx input t = { t with lastChunk := input.length ≤ t.tarHeaderIdx } := by
  have hwhole : ¬ (ctx.maxBlockSize ≠ 0 ∧ ctx.maxBlockSize < t.blockSize) := by
    rintro ⟨hne, hlt⟩
    have hreach := hctx.resolve_left hne
    omega
  simp only [splitBlock, if_neg hwhole]

theorem fileElement_alike {n : Nat} (hctx : Alike n ctx ctx') (hres : s.residual = 0) :
    fileElement ctx' after input s = fileElement ctx after input s := by
  simp only [fileElement, hres, ne_eq, not_true_eq_false, if_false, fileEntry, fileNull, hctx.bits]

/-- A round over a mapped archive does the same. -/
theorem tarStep_alike (hctx : Alike input.length ctx ctx')
    (hw : input.length + 512 < 2 ^ ctx.sizeBits)
    (hmax : 1 ≤ ctx.maxBlockSize ∧ ctx.maxBlockSize ≤ MAX_FRAME_SIZE)
    (h : TarCore input s) (hres : s.residual = 0) :
    tarStep ctx' after input s = tarStep ctx after input s ∧
      ∀ u, tarStep ctx after input s = .next u → TarCore input u ∧ u.residual = 0 := by
  have hsame := @fileElement_alike ctx ctx' after input s _ hctx hres
  cases hparsed : fileElement ctx after input s with
  | error e =>
      simp only [tarStep, hsame, hparsed, true_and]
      exact fun u hu => by cases hu
  | ok t =>
      obtain ⟨n, -, hstop, hblock, -, -, hrest⟩ := fileElement_moves hw h hres hparsed
      have hidx := h.idx_eq
      have hfits : t.blockSize ≤ input.length := by omega
      have hsplit := @splitBlock_unreached ctx input t _ hctx.high hfits
      have hsplit' := @splitBlock_unreached ctx' input t _ hctx.high' hfits
      refine ⟨?_, ?_⟩
      · simp only [tarStep, hsame, hparsed, hsplit, hsplit', hctx.low]
      · intro u hu
        refine ⟨tarStep_next hw hmax h hu, ?_⟩
        simp only [tarStep, hparsed, hsplit] at hu
        split at hu
        · rw [← Step.next.inj hu]
          exact hrest
        · rw [emitBlock] at hu
          split at hu
          · rw [← Step.next.inj hu]
            exact hrest
          · cases hu

theorem mappedLoop_alike (hctx : Alike input.length ctx ctx') (htar : ctx.rawMode = false)
    (htar' : ctx'.rawMode = false) (hw : input.length + 512 < 2 ^ ctx.sizeBits)
    (hmax : 1 ≤ ctx.maxBlockSize ∧ ctx.maxBlockSize ≤ MAX_FRAME_SIZE)
    (after : Nat → List UInt8) :
    mappedLoop ctx' after input = mappedLoop ctx after input := by
  have hloop : iterate (tarStep ctx' after input) (4 * input.length + 4) .init =
      iterate (tarStep ctx after input) (4 * input.length + 4) .init := by
    apply iterate_congr (I := fun s => TarCore input s ∧ s.residual = 0)
    · exact fun s hs => (tarStep_alike hctx hw hmax hs.1 hs.2).1
    · exact fun s t hs ht => (tarStep_alike hctx hw hmax hs.1 hs.2).2 t ht
    · exact ⟨tarCore_init input, rfl⟩
  have hcheck : requireEntries ctx' = requireEntries ctx := by
    funext r
    cases r with
    | returned s => simp only [requireEntries, htar, htar', frameCount, hctx.bits]
    | exited e s => rfl
  rw [mappedLoop, mappedLoop, fileStep_tar ctx htar, fileStep_tar ctx' htar', hloop, hcheck]

end Mapped

/-- Sizes that `compressFile` clamps only where an input of `n` bytes does not get. -/
structure Context.Clamped (ctx : Context) (n : Nat) : Prop where
  low : ctx.minBlockSize ≤ MAX_FRAME_SIZE
  short : n < MAX_FRAME_SIZE
  raw : ctx.rawMode = true → ctx.maxBlockSize = 0

theorem Context.eq_of_fields {ctx ctx' : Context} (hbits : ctx'.sizeBits = ctx.sizeBits)
    (hlow : ctx'.minBlockSize = ctx.minBlockSize) (hhigh : ctx'.maxBlockSize = ctx.maxBlockSize)
    (hraw : ctx'.rawMode = ctx.rawMode) : ctx' = ctx := by
  obtain ⟨sizeBits, minBlockSize, maxBlockSize, rawMode, bits, min_lt, max_lt⟩ := ctx
  obtain ⟨sizeBits', minBlockSize', maxBlockSize', rawMode', bits', min_lt', max_lt'⟩ := ctx'
  simp only at hbits hlow hhigh hraw
  simp only [hbits, hlow, hhigh, hraw]

theorem Context.Clamped.cases {ctx : Context} {n : Nat} (h : ctx.Clamped n) :
    ctx = ctx.clamp ∨ Alike n ctx.clamp ctx := by
  have hlow : ctx.clamp.minBlockSize = ctx.minBlockSize := if_neg (Nat.not_lt.mpr h.low)
  by_cases hmax : (ctx.rawMode || ctx.maxBlockSize == 0 ||
      decide (MAX_FRAME_SIZE < ctx.maxBlockSize)) = true
  case pos =>
    have hclamp : ctx.clamp.maxBlockSize = MAX_FRAME_SIZE := if_pos hmax
    refine .inr ⟨rfl, hlow.symm, .inr (by rw [hclamp]; exact h.short), ?_⟩
    rw [Bool.or_eq_true, Bool.or_eq_true, beq_iff_eq, decide_eq_true_eq] at hmax
    obtain (hraw | hzero) | hover := hmax
    · exact .inl (h.raw hraw)
    · exact .inl hzero
    · exact .inr (Nat.lt_trans h.short hover)
  case neg =>
    have hclamp : ctx.clamp.maxBlockSize = ctx.maxBlockSize := if_neg hmax
    exact .inl (Context.eq_of_fields rfl hlow.symm hclamp.symm rfl)

/-- The loop over an archive, called with sizes that were not clamped. -/
theorem compressStdinTar_unclamped {ctx : Context} {stream : Stream}
    (h : ctx.Clamped stream.bytes.length) (after : Nat → List UInt8) :
    compressStdinTar ctx after stream = compressStdin ctx after stream := by
  obtain heq | halike := h.cases
  · rw [compressStdin, ← heq]
  · exact compressStdinTar_alike halike after

theorem compressStdinRaw_unclamped {ctx : Context} {stream : Stream}
    (h : ctx.Clamped stream.bytes.length) (inChunk : Nat) (short : Nat → Nat) :
    compressStdinRaw ctx inChunk short stream = compressRaw ctx inChunk short stream := by
  obtain heq | halike := h.cases
  · rw [compressRaw, ← heq]
  · exact compressStdinRaw_alike halike inChunk short

end T2sz
