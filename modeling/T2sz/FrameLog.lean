import T2sz.CompressorSpec
import T2sz.SeekTableSpec
import T2sz.Zstd

/-!
What libzstd was called for, frame by frame.

The log of a run is a list of segments, each from a reset to the `ZSTD_e_end`
that returned 0. The output file holds what the segments put out, the input is
what they consumed, and the seek table has an entry for each.
-/

namespace T2sz

namespace Event

def output : Event → List UInt8
  | .stream _ _ answer => answer.output
  | _ => []

/-- The input that was consumed. -/
def fed : Event → List UInt8
  | .stream _ offered answer => offered.take answer.consumed
  | _ => []

/-- `ZSTD_e_end` returned 0. -/
def closes : Event → Bool
  | .stream mode _ answer => mode == .e_end && answer.remaining == 0
  | _ => false

def isStream : Event → Bool
  | .stream _ _ _ => true
  | _ => false

end Event

def written (events : List Event) : List UInt8 := events.flatMap Event.output

def consumed (events : List Event) : List UInt8 := events.flatMap Event.fed

@[simp] theorem written_append (l m : List Event) : written (l ++ m) = written l ++ written m := by
  simp [written]

@[simp] theorem consumed_append (l m : List Event) :
    consumed (l ++ m) = consumed l ++ consumed m := by
  simp [consumed]

@[simp] theorem written_cons (e : Event) (l : List Event) :
    written (e :: l) = e.output ++ written l := rfl

@[simp] theorem consumed_cons (e : Event) (l : List Event) :
    consumed (e :: l) = e.fed ++ consumed l := rfl

/-- Calls inside a frame that goes on. -/
def Running (events : List Event) : Prop := ∀ e ∈ events, e.isStream = true ∧ e.closes = false

/-- The last call, and no call before it, ended the frame. -/
def Ended (events : List Event) : Prop :=
  ∃ before last, events = before ++ [last] ∧ Running before ∧ last.isStream = true ∧
    last.closes = true

theorem Running.append {l m : List Event} (hl : Running l) (hm : Running m) : Running (l ++ m) := by
  intro e he
  rw [List.mem_append] at he
  cases he with
  | inl hfirst => exact hl e hfirst
  | inr hrest => exact hm e hrest

theorem running_singleton {mode : EndDirective} {offered : List UInt8} {answer : Answer}
    (h : ¬ (mode = .e_end ∧ answer.remaining = 0)) : Running [.stream mode offered answer] := by
  intro e he
  rw [List.mem_singleton] at he
  subst he
  refine ⟨rfl, ?_⟩
  simpa [Event.closes] using h

theorem ended_singleton {mode : EndDirective} {offered : List UInt8} {answer : Answer}
    (h : mode = .e_end ∧ answer.remaining = 0) : Ended [.stream mode offered answer] :=
  ⟨[], _, rfl, fun _ he => absurd he List.not_mem_nil, rfl, by simpa [Event.closes] using h⟩

theorem Ended.append {l m : List Event} (hl : Running l) (hm : Ended m) : Ended (l ++ m) := by
  obtain ⟨before, last, rfl, hbefore, hstream, hcloses⟩ := hm
  exact ⟨l ++ before, last, by rw [List.append_assoc], hl.append hbefore, hstream, hcloses⟩

/-- A reset, a pledge and the calls behind them. -/
structure Segment where
  pledged : Option Nat
  body : List Event

namespace Segment

def events (s : Segment) : List Event := .reset :: .pledge s.pledged :: s.body

def written (s : Segment) : List UInt8 := T2sz.written s.body

def fed (s : Segment) : List UInt8 := T2sz.consumed s.body

/-- The sizes that are recorded for it. -/
def entry (s : Segment) : Nat × Nat := (s.written.length % 2 ^ 64, s.fed.length)

end Segment

/-- The frames put out what their calls put out. -/
theorem written_segments (segments : List Segment) :
    written (segments.flatMap Segment.events) = segments.flatMap Segment.written := by
  induction segments with
  | nil => rfl
  | cons s segments ih =>
      rw [List.flatMap_cons, written_append, ih, List.flatMap_cons]
      rfl

namespace Writer

/-- What a loop of `ZSTD_compressStream2` calls does to the run. -/
structure Streams (w w' : Writer) (body : List Event) : Prop where
  events : w'.events = w.events ++ body
  outFile : w'.outFile = w.outFile ++ written body
  table : w'.table = w.table

variable {w w' v : Writer} {mode : EndDirective} {offered src : List UInt8} {answer : Answer}

theorem compressStream2_spec (h : w.compressStream2 mode offered = .ok (answer, w')) :
    Streams w w' [.stream mode offered answer] ∧ w'.frameOut = w.frameOut := by
  simp only [compressStream2, ask] at h
  split at h
  case h_1 => cases h
  case h_2 heq =>
    split at heq
    case h_1 => cases heq
    case h_2 => cases heq
    case h_3 =>
      cases heq
      cases h
      exact ⟨⟨rfl, by simp [log, written, Event.output], rfl⟩, rfl⟩

theorem Streams.refl (w : Writer) : Streams w w [] where
  events := (List.append_nil _).symm
  outFile := (List.append_nil _).symm
  table := rfl

theorem Streams.trans {body more : List Event} (h₁ : Streams w w' body)
    (h₂ : Streams w' v more) : Streams w v (body ++ more) where
  events := by rw [h₂.events, h₁.events, List.append_assoc]
  outFile := by rw [h₂.outFile, h₁.outFile, written_append, List.append_assoc]
  table := h₂.table.trans h₁.table

/-- A counter that is reduced at every addition. -/
theorem uadd_length {size n : Nat} (hsize : size = n % 2 ^ 64) (output : List UInt8) :
    uadd 64 size output.length = (n + output.length) % 2 ^ 64 := by
  rw [uadd, hsize, Nat.mod_add_mod]

/-- One call counts what it puts out, and the calls behind it the rest. -/
theorem count_cons {n result : Nat} {body : List Event}
    (h : result = (n + answer.output.length + (written body).length) % 2 ^ 64) :
    result = (n + (written (.stream mode offered answer :: body)).length) % 2 ^ 64 := by
  rw [h, written_cons, List.length_append, Event.output, Nat.add_assoc]

/-- All of the buffer goes into the frame, and the frame is ended. -/
theorem bufferLoop_spec (fuel : Nat) {pos size n result : Nat} (hsize : size = n % 2 ^ 64)
    (h : w.bufferLoop src fuel pos size = .ok (result, w')) :
    ∃ body, Streams w w' body ∧ Ended body ∧ consumed body = src.drop pos ∧
      result = (n + (written body).length) % 2 ^ 64 := by
  induction fuel generalizing pos size n w with
  | zero => cases h
  | succ fuel ih =>
      simp only [bufferLoop] at h
      obtain ⟨mode, hmode⟩ :
          ∃ mode, (if pos < src.length then EndDirective.e_continue else .e_end) = mode := ⟨_, rfl⟩
      rw [hmode] at h
      split at h
      case h_1 => cases h
      case h_2 answer v hasked =>
        have hfirst := (compressStream2_spec hasked).1
        have hcount := uadd_length hsize answer.output
        split at h
        case isTrue hlast =>
          cases h
          have hnone : src.drop pos = [] := by
            rw [hlast.1] at hmode
            split at hmode
            case isTrue => cases hmode
            case isFalse hpos => exact List.drop_eq_nil_of_le (by omega)
          refine ⟨_, hfirst, ended_singleton hlast, ?_, count_cons hcount⟩
          rw [consumed_cons, Event.fed, hnone, List.take_nil]
          rfl
        case isFalse hmore =>
          obtain ⟨body, hrest, hended, hfed, hresult⟩ := ih hcount h
          refine ⟨_, hfirst.trans hrest, hended.append (running_singleton hmore), ?_,
            count_cons hresult⟩
          rw [List.singleton_append, consumed_cons, hfed, Event.fed, ← List.drop_drop,
            List.take_append_drop]

/-- The frame is ended, and nothing is fed. -/
theorem endLoop_spec (fuel : Nat) {size n result : Nat} (hsize : size = n % 2 ^ 64)
    (h : w.endLoop fuel size = .ok (result, w')) :
    ∃ body, Streams w w' body ∧ Ended body ∧ consumed body = [] ∧
      result = (n + (written body).length) % 2 ^ 64 ∧ w'.frameOut = w.frameOut := by
  induction fuel generalizing size n w with
  | zero => cases h
  | succ fuel ih =>
      simp only [endLoop] at h
      split at h
      case h_1 => cases h
      case h_2 answer v hasked =>
        obtain ⟨hfirst, hkeep⟩ := compressStream2_spec hasked
        have hcount := uadd_length hsize answer.output
        split at h
        case isTrue hlast =>
          cases h
          refine ⟨_, hfirst, ended_singleton ⟨rfl, hlast⟩, ?_, count_cons hcount, hkeep⟩
          rw [consumed_cons, Event.fed, List.take_nil]
          rfl
        case isFalse hmore =>
          obtain ⟨body, hrest, hended, hfed, hresult, hframeOut⟩ := ih hcount h
          refine ⟨_, hfirst.trans hrest,
            hended.append (running_singleton fun hboth => hmore hboth.2), ?_,
            count_cons hresult, hframeOut.trans hkeep⟩
          rw [List.singleton_append, consumed_cons, hfed, Event.fed, List.take_nil]
          rfl

/-- The bytes go into the frame that is open, and it goes on. -/
theorem pushLoop_spec (fuel : Nat) {pos n : Nat} (hsize : w.frameOut = n % 2 ^ 64)
    (h : w.pushLoop src fuel pos = .ok w') :
    ∃ body, Streams w w' body ∧ Running body ∧ consumed body = src.drop pos ∧
      w'.frameOut = (n + (written body).length) % 2 ^ 64 := by
  induction fuel generalizing pos n w with
  | zero => cases h
  | succ fuel ih =>
      simp only [pushLoop] at h
      split at h
      case isTrue =>
        split at h
        case h_1 => cases h
        case h_2 answer v hasked =>
          obtain ⟨hfirst, hkeep⟩ := compressStream2_spec hasked
          have hcount := uadd_length (hkeep.trans hsize) answer.output
          obtain ⟨body, hrest, hrunning, hfed, hresult⟩ := ih hcount h
          have hstreams : Streams v w' body := ⟨hrest.events, hrest.outFile, hrest.table⟩
          have hgo : Running [.stream .e_continue (src.drop pos) answer] := by
            apply running_singleton
            rintro ⟨hmode, -⟩
            cases hmode
          refine ⟨_, hfirst.trans hstreams, hgo.append hrunning, ?_, count_cons hresult⟩
          rw [List.singleton_append, consumed_cons, hfed, Event.fed, ← List.drop_drop,
            List.take_append_drop]
      case isFalse hend =>
        cases h
        refine ⟨[], .refl _, fun e he => absurd he List.not_mem_nil, ?_, hsize⟩
        rw [List.drop_eq_nil_of_le (by omega)]
        rfl

theorem zstdResetFrame_spec (h : w.zstdResetFrame = .ok w') :
    w'.events = w.events ++ [.reset] ∧ w'.outFile = w.outFile ∧ w'.table = w.table := by
  simp only [zstdResetFrame, ask] at h
  split at h
  case h_1 => cases h
  case h_2 heq =>
    split at heq
    case h_1 => cases heq
    case h_2 => cases heq
    case h_3 =>
      cases heq
      cases h
      exact ⟨rfl, rfl, rfl⟩

theorem zstdSetPledged_spec {pledged : Option Nat} (h : w.zstdSetPledged pledged = .ok w') :
    w'.events = w.events ++ [.pledge pledged] ∧ w'.outFile = w.outFile ∧ w'.table = w.table := by
  simp only [zstdSetPledged, ask] at h
  split at h
  case h_1 => cases h
  case h_2 heq =>
    split at heq
    case h_1 => cases heq
    case h_2 => cases heq
    case h_3 =>
      cases heq
      cases h
      exact ⟨rfl, rfl, rfl⟩

theorem record_spec {host : Host} {compressedSize decompressedSize : Nat}
    (h : w.record host compressedSize decompressedSize = .ok w') :
    seekTableAdd host w.table compressedSize decompressedSize = .ok w'.table ∧
      w'.events = w.events ∧ w'.outFile = w.outFile := by
  simp only [record] at h
  split at h
  case h_1 => cases h
  case h_2 hadd =>
    cases h
    exact ⟨hadd, rfl, rfl⟩

end Writer

/-- What the calls so far have done. -/
structure Logged (host : Host) (skip : Bool) (calls : List Call) (w : Writer)
    (segments : List Segment) (opened : Option Segment) : Prop where
  events : w.events = segments.flatMap Segment.events ++ (opened.map Segment.events).getD []
  outFile : w.outFile = segments.flatMap Segment.written ++ (opened.map Segment.written).getD []
  ended : ∀ s ∈ segments, Ended s.body
  running : ∀ s, opened = some s → Running s.body ∧ w.frameOut = s.written.length % 2 ^ 64
  fed : segments.flatMap Segment.fed ++ (opened.map Segment.fed).getD [] = fedBytes calls
  sizes : recordedSizes calls = segments.map fun s => s.fed.length
  table : Records host skip (segments.map Segment.entry) w.table

/-- What the calls of the framing code have done, `n` being what the open frame
was fed. -/
def Follows (host : Host) (skip : Bool) (calls : List Call) (n : Option Nat) (w : Writer) : Prop :=
  ∃ segments opened, Logged host skip calls w segments opened ∧
    opened.map (fun s => s.fed.length) = n

section Following

variable {host : Host} {skip : Bool} {calls : List Call} {w w' : Writer}

theorem follows_init (host : Host) (skip : Bool) (replies : List Reply) :
    Follows host skip [] none (.init skip replies) := by
  refine ⟨[], none, ⟨rfl, rfl, ?_, ?_, rfl, rfl, records_init host skip⟩, rfl⟩
  · intro s h
    cases h
  · intro s h
    cases h

/-- A frame that ends is recorded behind those that have ended. -/
theorem Logged.close {segments : List Segment} {s : Segment} {result : Nat} {w₀ : Writer} {c : Call}
    (ended : ∀ s ∈ segments, Ended s.body) (hended : Ended s.body)
    (table : Records host skip (segments.map Segment.entry) w₀.table)
    (hevents : w.events = segments.flatMap Segment.events ++ s.events)
    (houtFile : w.outFile = segments.flatMap Segment.written ++ s.written)
    (htable : w.table = w₀.table) (hresult : result = s.written.length % 2 ^ 64)
    (hrecord : w.record host result s.fed.length = .ok w')
    (hfed : segments.flatMap Segment.fed ++ s.fed = fedBytes (calls ++ [c]))
    (hsizes : recordedSizes (calls ++ [c]) =
      (segments.map fun s => s.fed.length) ++ [s.fed.length]) :
    Follows host skip (calls ++ [c]) none w' := by
  obtain ⟨hadd, hsame, hfile⟩ := Writer.record_spec hrecord
  refine ⟨segments ++ [s], none, ⟨?_, ?_, ?_, ?_, ?_, ?_, ?_⟩, rfl⟩
  · rw [hsame, hevents]
    simp
  · rw [hfile, houtFile]
    simp
  · intro s' hs'
    rw [List.mem_append, List.mem_singleton] at hs'
    cases hs' with
    | inl hold => exact ended s' hold
    | inr hnew => exact hnew ▸ hended
  · intro s' hs'
    cases hs'
  · rw [← hfed]
    simp
  · rw [hsizes, List.map_append]
    rfl
  · rw [htable, hresult] at hadd
    rw [List.map_append]
    exact seekTableAdd_spec table hadd

theorem follows_frame {src : List UInt8} (h : Follows host skip calls none w)
    (hcall : w.call host (.frame src) = .ok w') :
    Follows host skip (calls ++ [.frame src]) none w' := by
  obtain ⟨segments, opened, hlogged, hopened⟩ := h
  rw [Option.map_eq_none_iff] at hopened
  subst hopened
  have hevents := hlogged.events
  have houtFile := hlogged.outFile
  have hfedBytes := hlogged.fed
  simp only [Option.map_none, Option.getD_none, List.append_nil] at hevents houtFile hfedBytes
  simp only [Writer.call, Writer.zstdCompressBufferToFrame] at hcall
  split at hcall
  case h_1 => cases hcall
  case h_2 heq =>
    split at heq
    case h_1 => cases heq
    case h_2 reset hreset =>
      split at heq
      case h_1 => cases heq
      case h_2 pledged hpledged =>
        obtain ⟨hresetEvents, hresetFile, hresetTable⟩ := Writer.zstdResetFrame_spec hreset
        obtain ⟨hpledgeEvents, hpledgeFile, hpledgeTable⟩ := Writer.zstdSetPledged_spec hpledged
        obtain ⟨body, hstreams, hended, hfed, hresult⟩ :=
          @Writer.bufferLoop_spec _ _ src _ 0 0 0 _ rfl heq
        rw [List.drop_zero] at hfed
        have hsrc : (Segment.mk (some src.length) body).fed = src := hfed
        refine @Logged.close host skip calls _ w' segments ⟨some src.length, body⟩ _ w _
          hlogged.ended hended hlogged.table ?_ ?_ ?_ ?_ (hsrc.symm ▸ hcall) ?_ ?_
        · rw [hstreams.events, hpledgeEvents, hresetEvents, hevents]
          simp [Segment.events]
        · rw [hstreams.outFile, hpledgeFile, hresetFile, houtFile]
          rfl
        · rw [hstreams.table, hpledgeTable, hresetTable]
        · rw [hresult, Nat.zero_add]
          rfl
        · rw [hsrc, hfedBytes, fedBytes_append]
          simp [fedBytes]
        · rw [hsrc, recordedSizes_append, hlogged.sizes]
          rfl

theorem follows_start {pledged : Option Nat} (h : Follows host skip calls none w)
    (hcall : w.call host (.start pledged) = .ok w') :
    Follows host skip (calls ++ [.start pledged]) (some 0) w' := by
  obtain ⟨segments, opened, hlogged, hopened⟩ := h
  rw [Option.map_eq_none_iff] at hopened
  subst hopened
  have hevents := hlogged.events
  have houtFile := hlogged.outFile
  have hfedBytes := hlogged.fed
  simp only [Option.map_none, Option.getD_none, List.append_nil] at hevents houtFile hfedBytes
  simp only [Writer.call] at hcall
  split at hcall
  case h_1 => cases hcall
  case h_2 reset hreset =>
    split at hcall
    case h_1 => cases hcall
    case h_2 started hstarted =>
      cases hcall
      obtain ⟨hresetEvents, hresetFile, hresetTable⟩ := Writer.zstdResetFrame_spec hreset
      obtain ⟨hpledgeEvents, hpledgeFile, hpledgeTable⟩ := Writer.zstdSetPledged_spec hstarted
      refine ⟨segments, some ⟨pledged, []⟩, ⟨?_, ?_, hlogged.ended, ?_, ?_, ?_, ?_⟩, rfl⟩
      · simp [hpledgeEvents, hresetEvents, hevents, Segment.events]
      · simp [hpledgeFile, hresetFile, houtFile, Segment.written, written]
      · intro s hs
        cases hs
        exact ⟨fun e he => absurd he List.not_mem_nil, rfl⟩
      · rw [fedBytes_append, ← hfedBytes]
        simp [Segment.fed, consumed, fedBytes]
      · rw [recordedSizes_append, hlogged.sizes]
        simp [recordedSizes]
      · have htable := hlogged.table
        rw [← hresetTable, ← hpledgeTable] at htable
        exact htable

theorem follows_push {src : List UInt8} {n : Nat} (h : Follows host skip calls (some n) w)
    (hcall : w.call host (.push src) = .ok w') :
    Follows host skip (calls ++ [.push src]) (some (n + src.length)) w' := by
  obtain ⟨segments, opened, hlogged, hopened⟩ := h
  obtain ⟨s, rfl, rfl⟩ := Option.map_eq_some_iff.mp hopened
  obtain ⟨hrunning, hframeOut⟩ := hlogged.running s rfl
  have hevents := hlogged.events
  have houtFile := hlogged.outFile
  have hfedBytes := hlogged.fed
  simp only [Option.map_some, Option.getD_some] at hevents houtFile hfedBytes
  obtain ⟨body, hstreams, hmore, hfed, hcount⟩ := Writer.pushLoop_spec _ hframeOut hcall
  rw [List.drop_zero] at hfed
  refine ⟨segments, some ⟨s.pledged, s.body ++ body⟩, ⟨?_, ?_, hlogged.ended, ?_, ?_, ?_, ?_⟩, ?_⟩
  · simp [hstreams.events, hevents, Segment.events]
  · simp [hstreams.outFile, houtFile, Segment.written]
  · intro s' hs'
    cases hs'
    refine ⟨hrunning.append hmore, ?_⟩
    rw [hcount, Segment.written, Segment.written, written_append, List.length_append]
  · rw [fedBytes_append, ← hfedBytes]
    simp [Segment.fed, hfed, fedBytes]
  · rw [recordedSizes_append, hlogged.sizes]
    simp [recordedSizes]
  · rw [hstreams.table]
    exact hlogged.table
  · simp [Segment.fed, hfed]

theorem follows_finish {n : Nat} (h : Follows host skip calls (some n) w)
    (hcall : w.call host (.finish n) = .ok w') :
    Follows host skip (calls ++ [.finish n]) none w' := by
  obtain ⟨segments, opened, hlogged, hopened⟩ := h
  obtain ⟨s, rfl, rfl⟩ := Option.map_eq_some_iff.mp hopened
  obtain ⟨hrunning, hframeOut⟩ := hlogged.running s rfl
  have hevents := hlogged.events
  have houtFile := hlogged.outFile
  have hfedBytes := hlogged.fed
  simp only [Option.map_some, Option.getD_some] at hevents houtFile hfedBytes
  simp only [Writer.call, Writer.zstdEndFrame] at hcall
  split at hcall
  case h_1 => cases hcall
  case h_2 size v hend =>
    obtain ⟨body, hstreams, hended, hfed, hresult, hkeep⟩ :=
      @Writer.endLoop_spec _ _ _ 0 0 _ rfl hend
    have hsame : (Segment.mk s.pledged (s.body ++ body)).fed = s.fed := by
      simp [Segment.fed, hfed]
    refine @Logged.close host skip calls v w' segments ⟨s.pledged, s.body ++ body⟩ _ w _
      hlogged.ended (hended.append hrunning) hlogged.table ?_ ?_ hstreams.table ?_
      (hsame.symm ▸ hcall) ?_ ?_
    · simp [hstreams.events, hevents, Segment.events]
    · simp [hstreams.outFile, houtFile, Segment.written]
    · rw [uadd, hkeep, hframeOut, hresult, Nat.zero_add, ← Nat.add_mod, Segment.written,
        Segment.written, written_append, List.length_append]
    · rw [hsame, hfedBytes, fedBytes_append]
      simp [fedBytes]
    · rw [hsame, recordedSizes_append, hlogged.sizes]
      rfl

theorem run_append (host : Host) (w : Writer) (calls : List Call) (c : Call) :
    w.run host (calls ++ [c]) =
      match w.run host calls with
      | .error e => .error e
      | .ok v => v.call host c := by
  induction calls generalizing w with
  | nil =>
      simp only [List.nil_append, Writer.run]
      cases w.call host c <;> rfl
  | cons d calls ih =>
      simp only [List.cons_append, Writer.run]
      cases w.call host d with
      | error e => rfl
      | ok v => exact ih v

/-- The run over calls that come frame by frame. -/
theorem run_follows {n : Option Nat} (hcalls : Bracketed calls n) {replies : List Reply}
    (hrun : (Writer.init skip replies).run host calls = .ok w) :
    Follows host skip calls n w := by
  induction hcalls generalizing w with
  | nil =>
      cases hrun
      exact follows_init host skip replies
  | frame src _ ih =>
      rw [run_append] at hrun
      split at hrun
      · cases hrun
      · exact follows_frame (ih ‹_›) hrun
  | start pledged _ ih =>
      rw [run_append] at hrun
      split at hrun
      · cases hrun
      · exact follows_start (ih ‹_›) hrun
  | push src _ ih =>
      rw [run_append] at hrun
      split at hrun
      · cases hrun
      · exact follows_push (ih ‹_›) hrun
  | finish _ ih =>
      rw [run_append] at hrun
      split at hrun
      · cases hrun
      · exact follows_finish (ih ‹_›) hrun

end Following

end T2sz
