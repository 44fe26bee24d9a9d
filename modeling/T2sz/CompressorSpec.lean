import T2sz.Compressor
import T2sz.Library.Blocking

/-!
What `pushBytesTar` and the openers and closers of frames do to the session.

The frame variables agree with the session they describe (`Wf`), an open frame
has room (`Bounded`), and a size pledged when an element was opened is the size
the frame will be closed with, given what is still to come (`Pledged`). On sizes
`pushBytesTar` is the pouring of `Blocking.Blocks.fill`.
-/

namespace T2sz

open Blocking

@[simp] theorem session_append (calls : List Call) (c : Call) :
    session (calls ++ [c]) = (session calls).call c := by
  simp [session]

theorem session_frames (buffers : List (List UInt8)) :
    session (buffers.map Call.frame) =
      ⟨buffers.map fun src => ⟨some src.length, src⟩, none⟩ := by
  induction buffers using List.reverseRecOn with
  | nil => rfl
  | append_singleton buffers src ih =>
      rw [List.map_append, List.map_singleton, session_append, ih]
      simp [Session.call]

@[simp] theorem recordedSizes_append (calls more : List Call) :
    recordedSizes (calls ++ more) = recordedSizes calls ++ recordedSizes more := by
  simp [recordedSizes]

@[simp] theorem fedBytes_append (calls more : List Call) :
    fedBytes (calls ++ more) = fedBytes calls ++ fedBytes more := by
  simp [fedBytes]

/-- The calls come frame by frame, and nothing is fed outside of a frame. With a
frame open the number says what it was fed, and a frame is recorded with that. -/
inductive Bracketed : List Call → Option Nat → Prop
  | nil : Bracketed [] none
  | frame {calls : List Call} (src : List UInt8) (h : Bracketed calls none) :
      Bracketed (calls ++ [.frame src]) none
  | start {calls : List Call} (pledged : Option Nat) (h : Bracketed calls none) :
      Bracketed (calls ++ [.start pledged]) (some 0)
  | push {calls : List Call} {n : Nat} (src : List UInt8) (h : Bracketed calls (some n)) :
      Bracketed (calls ++ [.push src]) (some (n + src.length))
  | finish {calls : List Call} {n : Nat} (h : Bracketed calls (some n)) :
      Bracketed (calls ++ [.finish n]) none

namespace Frames

def openFrame (f : Frames) : Option Frame := (session f.calls).opened

def closedFrames (f : Frames) : List Frame := (session f.calls).closed

structure Wf (f : Frames) : Prop where
  opened : f.frameOpen = f.openFrame.isSome
  frameIn : ∀ frame, f.openFrame = some frame → frame.content.length = f.frameIn
  recorded : recordedSizes f.calls = f.closedFrames.map fun frame => frame.content.length
  fed : (session f.calls).content = fedBytes f.calls
  kept : (session f.calls).PledgesKept
  bracketed : Bracketed f.calls (if f.frameOpen then some f.frameIn else none)

/-- The variables and the records are those of the session, whatever was pledged. -/
structure Agrees (f : Frames) : Prop where
  opened : f.frameOpen = f.openFrame.isSome
  frameIn : ∀ frame, f.openFrame = some frame → frame.content.length = f.frameIn
  recorded : recordedSizes f.calls = f.closedFrames.map fun frame => frame.content.length

/-- An open frame is not full. -/
def Bounded (ctx : Context) (f : Frames) : Prop :=
  f.frameOpen = true → f.frameIn < ctx.maxBlockSize

/-- An open frame has input. -/
def Filled (f : Frames) : Prop := f.frameOpen = true → 0 < f.frameIn

/-- A pledge of the open frame is its size once `k` more bytes were pushed. -/
def Pledged (ctx : Context) (k : Nat) (f : Frames) : Prop :=
  ∀ frame size, f.openFrame = some frame → frame.pledged = some size →
    size = min ctx.maxBlockSize (f.frameIn + k)

def Unpledged (f : Frames) : Prop :=
  ∀ frame, f.openFrame = some frame → frame.pledged = none

/-- The recorded sizes and what the open frame holds. -/
def blocks (f : Frames) : Blocks :=
  ⟨recordedSizes f.calls, if f.frameOpen then f.frameIn else 0⟩

theorem Unpledged.pledged {f : Frames} (h : f.Unpledged) (ctx : Context) (k : Nat) :
    f.Pledged ctx k := by
  intro frame size hf hs
  rw [h frame hf] at hs
  cases hs

theorem Wf.agrees {f : Frames} (h : f.Wf) : f.Agrees := ⟨h.opened, h.frameIn, h.recorded⟩

theorem Agrees.open_none {f : Frames} (h : f.Agrees) (hc : f.frameOpen = false) :
    f.openFrame = none := by
  have ho := h.opened
  rw [hc] at ho
  simpa using ho.symm

theorem Agrees.open_some {f : Frames} (h : f.Agrees) (ho : f.frameOpen = true) :
    ∃ frame, f.openFrame = some frame :=
  Option.isSome_iff_exists.mp (h.opened.symm.trans ho)

theorem Wf.open_none {f : Frames} (h : f.Wf) (hc : f.frameOpen = false) :
    f.openFrame = none := h.agrees.open_none hc

theorem Wf.open_some {f : Frames} (h : f.Wf) (ho : f.frameOpen = true) :
    ∃ frame, f.openFrame = some frame := h.agrees.open_some ho

theorem Wf.unpledged_of_closed {f : Frames} (h : f.Wf) (hc : f.frameOpen = false) :
    f.Unpledged := by
  intro frame hf
  rw [h.open_none hc] at hf
  cases hf

theorem wf_init : (Frames.mk 0 false []).Wf := by
  refine ⟨rfl, ?_, rfl, rfl, ?_, .nil⟩
  · intro frame h
    cases h
  · intro frame h
    cases h

end Frames

open Frames

section Primitives

variable {f : Frames}

theorem startFrame_open (size : Nat) (f : Frames) :
    (startFrame size f).openFrame =
      some ⟨if size ≠ ZSTD_CONTENTSIZE_UNKNOWN then some size else none, []⟩ := by
  simp [startFrame, openFrame, Session.call]

theorem startFrame_agrees (h : f.Agrees) (size : Nat) : (startFrame size f).Agrees := by
  refine ⟨?_, ?_, ?_⟩
  · rw [startFrame_open]
    rfl
  · intro frame hf
    rw [startFrame_open, Option.some.injEq] at hf
    subst hf
    rfl
  · simpa [startFrame, closedFrames, Session.call, recordedSizes] using h.recorded

theorem startFrame_wf (h : f.Wf) (hc : f.frameOpen = false) (size : Nat) :
    (startFrame size f).Wf := by
  have hopen : (session f.calls).opened = none := h.open_none hc
  have hfed := h.fed
  have hbracketed := h.bracketed
  rw [hc, if_neg Bool.false_ne_true] at hbracketed
  simp only [Session.content, hopen] at hfed
  obtain ⟨hopened, hin, hrecorded⟩ := startFrame_agrees h.agrees size
  refine ⟨hopened, hin, hrecorded, ?_, ?_, .start _ hbracketed⟩
  · simpa [startFrame, Session.content, Session.call, fedBytes] using hfed
  · simpa [startFrame, Session.PledgesKept, Session.call] using h.kept

theorem startFrame_blocks (h : f.frameOpen = false) (size : Nat) :
    (startFrame size f).blocks = f.blocks := by
  simp [startFrame, blocks, h, recordedSizes]

theorem startFrame_fedBytes (size : Nat) (f : Frames) :
    fedBytes (startFrame size f).calls = fedBytes f.calls := by
  simp [startFrame, fedBytes]

theorem startFrame_bounded {ctx : Context} (hmax : 1 ≤ ctx.maxBlockSize) (size : Nat)
    (f : Frames) : (startFrame size f).Bounded ctx := fun _ => hmax

theorem compressChunk_open (src : List UInt8) (f : Frames) :
    (compressChunk src f).openFrame =
      f.openFrame.map fun frame => ⟨frame.pledged, frame.content ++ src⟩ := by
  simp [compressChunk, openFrame, Session.call]

theorem compressChunk_agrees (h : f.Agrees) (src : List UInt8) :
    (compressChunk src f).Agrees := by
  refine ⟨?_, ?_, ?_⟩
  · rw [compressChunk_open, Option.isSome_map]
    exact h.opened
  · intro g hg
    rw [compressChunk_open, Option.map_eq_some_iff] at hg
    obtain ⟨frame, hframe, rfl⟩ := hg
    simp [compressChunk, h.frameIn frame hframe]
  · simpa [compressChunk, closedFrames, Session.call, recordedSizes] using h.recorded

theorem compressChunk_wf (h : f.Wf) (ho : f.frameOpen = true) (src : List UInt8) :
    (compressChunk src f).Wf := by
  obtain ⟨frame, hframe⟩ := h.open_some ho
  have hopen : (session f.calls).opened = some frame := hframe
  have hfed := h.fed
  have hbracketed := h.bracketed
  rw [ho, if_pos rfl] at hbracketed
  simp only [Session.content, hopen] at hfed
  obtain ⟨hopened, hin, hrecorded⟩ := compressChunk_agrees h.agrees src
  refine ⟨hopened, hin, hrecorded, ?_, ?_, ?_⟩
  · simp only [Option.map_some, Option.getD_some] at hfed
    simp [compressChunk, Session.content, Session.call, hopen, fedBytes, ← List.append_assoc]
    simpa [fedBytes] using hfed
  · simpa [compressChunk, Session.PledgesKept, Session.call] using h.kept
  · rw [show (compressChunk src f).frameOpen = true from ho, if_pos rfl]
    exact .push src hbracketed

theorem endFrameAndRecord_closed (f : Frames) (h : f.frameOpen = false) :
    endFrameAndRecord f = f := by
  simp [endFrameAndRecord, h]

theorem endFrameAndRecord_frameOpen (f : Frames) : (endFrameAndRecord f).frameOpen = false := by
  cases h : f.frameOpen <;> simp [endFrameAndRecord, h]

theorem endFrameAndRecord_fedBytes (f : Frames) :
    fedBytes (endFrameAndRecord f).calls = fedBytes f.calls := by
  cases h : f.frameOpen <;> simp [endFrameAndRecord, h, fedBytes]

theorem endFrameAndRecord_agrees (h : f.Agrees) : (endFrameAndRecord f).Agrees := by
  cases ho : f.frameOpen with
  | false => rwa [endFrameAndRecord_closed f ho]
  | true =>
      obtain ⟨frame, hframe⟩ := h.open_some ho
      have hopen : (session f.calls).opened = some frame := hframe
      have hin := h.frameIn frame hframe
      refine ⟨?_, ?_, ?_⟩
      · simp [endFrameAndRecord, ho, openFrame, Session.call]
      · intro g hg
        simp [endFrameAndRecord, ho, openFrame, Session.call] at hg
      · have := h.recorded
        simp only [closedFrames] at this
        simp [endFrameAndRecord, ho, closedFrames, Session.call, hopen, recordedSizes, hin]
        simpa [recordedSizes] using this

/-- Closing is right when a pledge of the open frame is what the frame holds. -/
theorem endFrameAndRecord_wf (h : f.Wf)
    (hp : ∀ frame size, f.openFrame = some frame → frame.pledged = some size →
      size = f.frameIn) : (endFrameAndRecord f).Wf := by
  cases ho : f.frameOpen with
  | false => rwa [endFrameAndRecord_closed f ho]
  | true =>
      obtain ⟨frame, hframe⟩ := h.open_some ho
      have hopen : (session f.calls).opened = some frame := hframe
      have hin := h.frameIn frame hframe
      have hfed := h.fed
      have hbracketed := h.bracketed
      rw [ho, if_pos rfl] at hbracketed
      simp only [Session.content, hopen] at hfed
      obtain ⟨hopened, hfinal, hrecorded⟩ := endFrameAndRecord_agrees h.agrees
      refine ⟨hopened, hfinal, hrecorded, ?_, ?_, ?_⟩
      · simpa [endFrameAndRecord, ho, Session.content, Session.call, hopen, fedBytes] using hfed
      · intro g hg size hsize
        simp only [endFrameAndRecord, ho, if_true, session_append, Session.call, hopen,
          Option.toList_some, List.mem_append, List.mem_singleton] at hg
        cases hg with
        | inl hold => exact h.kept g hold size hsize
        | inr hnew =>
            subst hnew
            rw [hin, hp g size hframe hsize]
      · rw [endFrameAndRecord_frameOpen, if_neg Bool.false_ne_true, endFrameAndRecord, ho,
          if_pos rfl]
        exact .finish hbracketed

theorem endFrameAndRecord_blocks {low : Nat} (f : Frames) (ho : f.frameOpen = true)
    (hpos : 0 < f.frameIn) (hlow : low ≤ f.frameIn) :
    (endFrameAndRecord f).blocks = f.blocks.close low := by
  simp [endFrameAndRecord, blocks, ho, Blocks.close, hpos, hlow, recordedSizes]

end Primitives

/-- What pushing `src` into `f` gives, `k` bytes of the element being left. -/
structure Pushed (ctx : Context) (src : List UInt8) (k : Nat) (f g : Frames) : Prop where
  wf : g.Wf
  bounded : g.Bounded ctx
  blocks : g.blocks = f.blocks.fill ctx.maxBlockSize src.length
  fed : fedBytes g.calls = fedBytes f.calls ++ src
  pledged : g.Pledged ctx (k - src.length)
  unpledged : f.Unpledged → g.Unpledged

theorem Frames.Bounded.rest_lt {ctx : Context} {f : Frames} (hmax : 1 ≤ ctx.maxBlockSize)
    (h : f.Bounded ctx) : f.blocks.rest < ctx.maxBlockSize := by
  cases ho : f.frameOpen with
  | false => simp [Frames.blocks, ho]; omega
  | true => simpa [Frames.blocks, ho] using h ho

section Pushing

variable {ctx : Context} {k : Nat} {f g h : Frames}

theorem Pushed.refl (hmax : 1 ≤ ctx.maxBlockSize) (wf : f.Wf) (hb : f.Bounded ctx)
    (hp : f.Pledged ctx k) : Pushed ctx [] k f f where
  wf := wf
  bounded := hb
  blocks := (Blocks.fill_zero _ (hb.rest_lt hmax)).symm
  fed := (List.append_nil _).symm
  pledged := hp
  unpledged := id

theorem Pushed.trans (hmax : 1 ≤ ctx.maxBlockSize) {a b : List UInt8}
    (h₁ : Pushed ctx a k f g) (h₂ : Pushed ctx b (k - a.length) g h) :
    Pushed ctx (a ++ b) k f h where
  wf := h₂.wf
  bounded := h₂.bounded
  blocks := by rw [h₂.blocks, h₁.blocks, Blocks.fill_fill hmax, List.length_append]
  fed := by rw [h₂.fed, h₁.fed, List.append_assoc]
  pledged := by rw [List.length_append, ← Nat.sub_sub]; exact h₂.pledged
  unpledged := fun hf => h₂.unpledged (h₁.unpledged hf)

/-- A frame that `pushBytesTar` opens itself pledges nothing. -/
theorem pushed_start (hmax : 1 ≤ ctx.maxBlockSize) (wf : f.Wf) (hc : f.frameOpen = false) :
    Pushed ctx [] k f (startFrame ZSTD_CONTENTSIZE_UNKNOWN f) := by
  have hun : (startFrame ZSTD_CONTENTSIZE_UNKNOWN f).Unpledged := by
    intro frame hf
    rw [startFrame_open, Option.some.injEq] at hf
    subst hf
    rfl
  have hb : f.Bounded ctx := by
    intro ho
    rw [hc] at ho
    cases ho
  refine ⟨startFrame_wf wf hc _, startFrame_bounded hmax _ _, ?_, ?_, hun.pledged _ _, fun _ => hun⟩
  · rw [startFrame_blocks hc, List.length_nil, Blocks.fill_zero _ (hb.rest_lt hmax)]
  · rw [startFrame_fedBytes, List.append_nil]

theorem canWrite_eq (hmax : 1 ≤ ctx.maxBlockSize) (hb : f.frameIn < ctx.maxBlockSize) (n : Nat) :
    canWrite ctx n f = min n (ctx.maxBlockSize - f.frameIn) := by
  have hlt := ctx.max_lt
  have hne : ctx.maxBlockSize ≠ 0 := by omega
  rw [canWrite, if_pos hne, Nat.mod_eq_of_lt (by omega), usub_eq (by omega) hlt]

/-- The frame that a round of `pushBytesTar` feeds. -/
def openForPush (f : Frames) : Frames :=
  if f.frameOpen then f else startFrame ZSTD_CONTENTSIZE_UNKNOWN f

/-- A round of `pushBytesTar` in which the frame takes this chunk. -/
def pushChunk (ctx : Context) (chunk : List UInt8) (f : Frames) : Frames :=
  let fed := compressChunk chunk (openForPush f)
  if ctx.maxBlockSize ≠ 0 ∧ ctx.maxBlockSize ≤ fed.frameIn then endFrameAndRecord fed else fed

theorem pushBytesLoop_nil (ctx : Context) (fuel : Nat) (f : Frames) :
    pushBytesLoop ctx fuel [] f = f := by
  cases fuel with
  | zero => rfl
  | succ fuel => rfl

theorem pushBytesLoop_succ (fuel : Nat) {src : List UInt8} (hne : src ≠ []) (f : Frames) :
    pushBytesLoop ctx (fuel + 1) src f =
      pushBytesLoop ctx fuel (src.drop (canWrite ctx src.length (openForPush f)))
        (pushChunk ctx (src.take (canWrite ctx src.length (openForPush f))) f) := by
  cases src with
  | nil => exact absurd rfl hne
  | cons c rest => rfl

theorem openForPush_eq (h : f.frameOpen = true) : openForPush f = f := if_pos h

theorem openForPush_open (f : Frames) : (openForPush f).frameOpen = true := by
  rw [openForPush]
  split
  case isTrue ho => exact ho
  case isFalse => rfl

theorem openForPush_room (hmax : 1 ≤ ctx.maxBlockSize) (hb : f.Bounded ctx) :
    (openForPush f).frameIn < ctx.maxBlockSize := by
  rw [openForPush]
  split
  case isTrue ho => exact hb ho
  case isFalse => exact hmax

theorem pushChunk_bounded (hmax : 1 ≤ ctx.maxBlockSize) (chunk : List UInt8) (f : Frames) :
    (pushChunk ctx chunk f).Bounded ctx := by
  intro hopen
  rw [pushChunk] at hopen ⊢
  split at hopen
  case isTrue =>
    rw [endFrameAndRecord_frameOpen] at hopen
    cases hopen
  case isFalse hfull =>
    rw [if_neg hfull]
    omega

/-- The chunk that the frame takes of `src`: at least one byte, and what fits. -/
structure Takes (ctx : Context) (f : Frames) (src chunk : List UInt8) : Prop where
  pos : 0 < chunk.length
  length : chunk.length = canWrite ctx src.length (openForPush f)
  room : chunk.length ≤ ctx.maxBlockSize - (openForPush f).frameIn

/-- The rule of the loop: it is done without input, and a round takes a chunk. -/
theorem pushBytesLoop_rounds {motive : List UInt8 → Frames → Frames → Prop}
    (hmax : 1 ≤ ctx.maxBlockSize) (done : ∀ f, f.Bounded ctx → motive [] f f)
    (round : ∀ chunk rest f g, f.Bounded ctx → Takes ctx f (chunk ++ rest) chunk →
      motive rest (pushChunk ctx chunk f) g → motive (chunk ++ rest) f g)
    (fuel : Nat) (src : List UInt8) (hfuel : src.length ≤ fuel) (hb : f.Bounded ctx) :
    motive src f (pushBytesLoop ctx fuel src f) := by
  induction fuel generalizing src f with
  | zero =>
      have hnil : src = [] := List.eq_nil_of_length_eq_zero (by omega)
      subst hnil
      exact done f hb
  | succ fuel ih =>
      cases src with
      | nil => exact done f hb
      | cons c rest =>
          have hroom := openForPush_room hmax hb
          have hwrite := canWrite_eq hmax hroom (c :: rest).length
          obtain ⟨n, hn⟩ : ∃ n, canWrite ctx (c :: rest).length (openForPush f) = n := ⟨_, rfl⟩
          have hlen : (c :: rest).length = rest.length + 1 := rfl
          have htake : ((c :: rest).take n).length = n := by
            rw [List.length_take]
            omega
          have hdrop : ((c :: rest).drop n).length ≤ fuel := by
            rw [List.length_drop]
            omega
          have hrest := ih _ hdrop (pushChunk_bounded hmax ((c :: rest).take n) f)
          have htakes : Takes ctx f ((c :: rest).take n ++ (c :: rest).drop n)
              ((c :: rest).take n) := by
            rw [List.take_append_drop]
            exact ⟨by omega, by omega, by omega⟩
          have hall := round _ _ f _ hb htakes hrest
          rw [List.take_append_drop] at hall
          rw [pushBytesLoop_succ fuel (List.cons_ne_nil c rest), hn]
          exact hall

theorem pushed_openForPush (hmax : 1 ≤ ctx.maxBlockSize) (wf : f.Wf) (hb : f.Bounded ctx)
    (hp : f.Pledged ctx k) : Pushed ctx [] k f (openForPush f) := by
  rw [openForPush]
  split
  case isTrue => exact .refl hmax wf hb hp
  case isFalse hc => exact pushed_start hmax wf (Bool.eq_false_iff.mpr hc)

/-- One round: the open frame takes the chunk and is closed if that fills it. -/
theorem pushed_chunk (hmax : 1 ≤ ctx.maxBlockSize) (wf : f.Wf) (ho : f.frameOpen = true)
    (hp : f.Pledged ctx k) {chunk : List UInt8} (hpos : 0 < chunk.length)
    (hroom : chunk.length ≤ ctx.maxBlockSize - f.frameIn) (hk : chunk.length ≤ k) :
    Pushed ctx chunk k f
      (if ctx.maxBlockSize ≠ 0 ∧ ctx.maxBlockSize ≤ (compressChunk chunk f).frameIn then
        endFrameAndRecord (compressChunk chunk f)
      else compressChunk chunk f) := by
  have hin : (compressChunk chunk f).frameIn = f.frameIn + chunk.length := rfl
  have hopen : (compressChunk chunk f).frameOpen = true := ho
  have hcalls : recordedSizes (compressChunk chunk f).calls = recordedSizes f.calls := by
    simp [compressChunk, recordedSizes]
  have hfed : fedBytes (compressChunk chunk f).calls = fedBytes f.calls ++ chunk := by
    simp [compressChunk, fedBytes]
  have hpledge : ∀ frame size, (compressChunk chunk f).openFrame = some frame →
      frame.pledged = some size → size = min ctx.maxBlockSize (f.frameIn + k) := by
    intro frame size hf hs
    rw [compressChunk_open, Option.map_eq_some_iff] at hf
    obtain ⟨old, hold, rfl⟩ := hf
    exact hp old size hold hs
  have hwf := compressChunk_wf wf ho chunk
  by_cases hfull : ctx.maxBlockSize ≠ 0 ∧ ctx.maxBlockSize ≤ (compressChunk chunk f).frameIn
  · have heq : f.frameIn + chunk.length = ctx.maxBlockSize := by omega
    have hend : (endFrameAndRecord (compressChunk chunk f)).Wf := by
      refine endFrameAndRecord_wf hwf fun frame size hf hs => ?_
      rw [hpledge frame size hf hs]
      omega
    have hclosed := endFrameAndRecord_frameOpen (compressChunk chunk f)
    rw [if_pos hfull]
    refine ⟨hend, ?_, ?_, ?_, ?_, fun _ => hend.unpledged_of_closed hclosed⟩
    · intro hopened
      rw [hclosed] at hopened
      cases hopened
    · simp [Frames.blocks, Blocks.fill, endFrameAndRecord, hopen, ho, hin, heq,
        Nat.div_self hmax, ← hcalls]
      rfl
    · rw [endFrameAndRecord_fedBytes, hfed]
    · exact (hend.unpledged_of_closed hclosed).pledged _ _
  · have hlt : f.frameIn + chunk.length < ctx.maxBlockSize := by omega
    rw [if_neg hfull]
    refine ⟨hwf, fun _ => hlt, ?_, hfed, ?_, ?_⟩
    · simp [Frames.blocks, Blocks.fill, hopen, ho, hin, hcalls, Nat.div_eq_of_lt hlt,
        Nat.mod_eq_of_lt hlt]
    · intro frame size hf hs
      rw [hpledge frame size hf hs, hin]
      congr 1
      omega
    · intro hun frame hf
      rw [compressChunk_open, Option.map_eq_some_iff] at hf
      obtain ⟨old, hold, rfl⟩ := hf
      exact hun old hold

theorem pushBytesLoop_spec (hmax : 1 ≤ ctx.maxBlockSize) (fuel : Nat) (src : List UInt8)
    (hfuel : src.length ≤ fuel) (wf : f.Wf) (hb : f.Bounded ctx) (hp : f.Pledged ctx k)
    (hk : src.length ≤ k) : Pushed ctx src k f (pushBytesLoop ctx fuel src f) := by
  refine pushBytesLoop_rounds (motive := fun src f g => ∀ k, f.Wf → f.Pledged ctx k →
    src.length ≤ k → Pushed ctx src k f g) hmax ?_ ?_ fuel src hfuel hb k wf hp hk
  · intro f hb k wf hp _
    exact .refl hmax wf hb hp
  · intro chunk rest f g hb htakes hrest k wf hp hk
    rw [List.length_append] at hk
    have hopened := pushed_openForPush hmax wf hb hp
    have hround := pushed_chunk hmax hopened.wf (openForPush_open f) hopened.pledged htakes.pos
      htakes.room (by rw [List.length_nil]; omega)
    have hall := hopened.trans hmax (hround.trans hmax
      (hrest _ hround.wf hround.pledged (by rw [List.length_nil]; omega)))
    rwa [List.nil_append] at hall

/-- After bytes were pushed no empty frame is open. -/
theorem pushBytesLoop_filled (hmax : 1 ≤ ctx.maxBlockSize) (fuel : Nat) (src : List UInt8)
    (hfuel : src.length ≤ fuel) (hb : f.Bounded ctx) (h : src ≠ [] ∨ f.Filled) :
    (pushBytesLoop ctx fuel src f).Filled := by
  refine pushBytesLoop_rounds (motive := fun src f g => src ≠ [] ∨ f.Filled → g.Filled)
    hmax ?_ ?_ fuel src hfuel hb h
  · intro f _ h
    exact h.resolve_left (fun hne => hne rfl)
  · intro chunk rest f g _ htakes hrest _
    apply hrest
    refine .inr fun hopen => ?_
    rw [pushChunk] at hopen ⊢
    split at hopen
    case isTrue =>
      rw [endFrameAndRecord_frameOpen] at hopen
      cases hopen
    case isFalse hfull =>
      rw [if_neg hfull]
      exact Nat.lt_of_lt_of_le htakes.pos (Nat.le_add_left _ _)

end Pushing

/-- Pushing leaves no empty frame open. -/
structure Poured (ctx : Context) (src : List UInt8) (k : Nat) (f g : Frames) : Prop
    extends Pushed ctx src k f g where
  filled : src ≠ [] ∨ f.Filled → g.Filled

section Pouring

variable {ctx : Context} {k : Nat} {f g h : Frames}

theorem Poured.refl (hmax : 1 ≤ ctx.maxBlockSize) (wf : f.Wf) (hb : f.Bounded ctx)
    (hp : f.Pledged ctx k) : Poured ctx [] k f f :=
  ⟨.refl hmax wf hb hp, fun hf => hf.resolve_left (fun hne => hne rfl)⟩

theorem Poured.trans (hmax : 1 ≤ ctx.maxBlockSize) {a b : List UInt8}
    (h₁ : Poured ctx a k f g) (h₂ : Poured ctx b (k - a.length) g h) :
    Poured ctx (a ++ b) k f h where
  toPushed := h₁.toPushed.trans hmax h₂.toPushed
  filled := by
    intro hf
    by_cases hb : b = []
    · subst hb
      rw [List.append_nil] at hf
      exact h₂.filled (.inr (h₁.filled hf))
    · exact h₂.filled (.inl hb)

/-- The specification of `pushBytesTar`, whatever frame is open. -/
theorem pushBytesTar_spec (hmax : 1 ≤ ctx.maxBlockSize) (src : List UInt8) (wf : f.Wf)
    (hb : f.Bounded ctx) (hp : f.Pledged ctx k) (hk : src.length ≤ k) :
    Poured ctx src k f (pushBytesTar ctx src f) :=
  ⟨pushBytesLoop_spec hmax src.length src (Nat.le_refl _) wf hb hp hk,
    pushBytesLoop_filled hmax src.length src (Nat.le_refl _) hb⟩

end Pouring

/-- What opening the frame of an element of `size` bytes gives. -/
structure Opened (ctx : Context) (size : Nat) (f o : Frames) : Prop where
  wf : o.Wf
  bounded : o.Bounded ctx
  blocks : o.blocks = f.blocks
  fed : fedBytes o.calls = fedBytes f.calls
  pledged : o.Pledged ctx size
  unpledged : ctx.minBlockSize ≠ 0 → o.Unpledged

section Elements

variable {ctx : Context} {f g : Frames}

theorem Opened.refl (wf : f.Wf) (hb : f.Bounded ctx) (hu : f.Unpledged) (size : Nat) :
    Opened ctx size f f :=
  ⟨wf, hb, rfl, rfl, hu.pledged ctx size, fun _ => hu⟩

/-- The pledge is the size of the element, or what `-S` leaves of it. -/
theorem startElementFrame_opened (hmax : 1 ≤ ctx.maxBlockSize) (wf : f.Wf) (hb : f.Bounded ctx)
    (hu : f.Unpledged) (size : Nat) : Opened ctx size f (startElementFrame ctx size f) := by
  by_cases hnone : ctx.minBlockSize ≠ 0 ∨ f.frameOpen = true
  · rw [startElementFrame, if_pos hnone]
    exact .refl wf hb hu size
  · have hmin : ctx.minBlockSize = 0 := by omega
    have hc : f.frameOpen = false := by
      rw [not_or, Bool.not_eq_true] at hnone
      exact hnone.2
    have hsize : (if ctx.maxBlockSize ≠ 0 ∧ ctx.maxBlockSize < size then ctx.maxBlockSize
        else size) = min ctx.maxBlockSize size := by
      split <;> omega
    rw [startElementFrame, if_neg hnone, hsize]
    refine ⟨startFrame_wf wf hc _, startFrame_bounded hmax _ _, startFrame_blocks hc _,
      startFrame_fedBytes _ _, ?_, fun hne => absurd hmin hne⟩
    intro frame pledge hframe hpledge
    rw [startFrame_open, Option.some.injEq] at hframe
    subst hframe
    have hin : (startFrame (min ctx.maxBlockSize size) f).frameIn = 0 := rfl
    rw [hin, Nat.zero_add]
    simp only at hpledge
    split at hpledge
    · cases hpledge
      rfl
    · cases hpledge

end Elements

end T2sz
