import T2sz.FrameSizes
import T2sz.RawFrames
import T2sz.RoundTrip

/-!
From the command line to a reader of the output: what the options say of the
frames is what the table at the end of the output says of them, and the table
leads a reader to each frame and to its part of the input.
-/

namespace T2sz

open Iteration Blocking Slicing

/-- The sizes that `-r`, `-s` and `-S` ask for. In tar mode they go by the elements that
the path recognises on its walk over the archive; the entry sums of a mapped archive
are exact up to half of the address space. -/
def Context.Asked (ctx : Context) (path : TarPath) (input : List UInt8) (sizes : List Nat) :
    Prop :=
  if ctx.rawMode then sizes = (slices (rawBlockSize ctx.minBlockSize) input).map List.length
  else path.Roomy ctx input → ∃ c, Runs (scanStep (path.rule ctx input) input) .init (.returned c) ∧
    FrameRules ctx.clamp.minBlockSize ctx.clamp.maxBlockSize (groupEnds c.log) input.length sizes

/-- The branch that this input takes in tar mode. -/
def Loaded.path (after : Nat → List UInt8) : Loaded → TarPath
  | .mapped _ => .file after
  | .stream _ => .stdin after

/-- The branch that an input takes when its source is a file that is mapped, or not. -/
def World.path (world : World) (i : Invocation world.host.sizeBits) : TarPath :=
  match world.source i with
  | .ok (.mapped _) => .file world.after
  | _ => .stdin world.after

/-- The frames of a file, each with its content, and the table behind them. -/
structure Layout (IsFrame : List UInt8 → List UInt8 → Prop) (skip : Bool) (file : List UInt8)
    (frames : List (List UInt8 × List UInt8)) : Prop where
  complete : ∀ f ∈ frames, IsFrame f.1 f.2
  tail : ∃ table, file = frames.flatMap Prod.fst ++ table ∧
    if skip = false ∧ frames.length < 2 ^ 27 then
      IsSkippable table ∧
        seekTableEntries file = some (frames.map fun f => (f.1.length, f.2.length))
    else table = []

section Sizes

variable {ctx : Context} {input : List UInt8} {calls : List Call}

theorem SliceFrames.sizes {k : Nat} (h : SliceFrames k input calls)
    (hcalls : Bracketed calls none) :
    recordedSizes calls = (slices k input).map List.length := by
  rw [hcalls.recorded.1, frameSizes, ← h.contents, List.map_map]
  rfl

/-- Raw mode on a stream. -/
theorem compressRaw_sliced (hraw : ctx.rawMode = true) {inChunk : Nat} (hchunk : 0 < inChunk)
    {short : Nat → Nat} {s : RawState}
    (h : compressRaw ctx inChunk short ⟨input, false⟩ = some (.returned s)) :
    SliceFrames (rawBlockSize ctx.minBlockSize) input s.frames.calls := by
  have hk := clamp_rawBlockSize hraw
  have hpos := rawBlockSize_pos ctx.minBlockSize
  have hruns := runs_of_iterate h
  rw [stdinRawStep] at hruns
  by_cases hmin : ctx.clamp.minBlockSize = 0
  · rw [if_neg (not_not.mpr hmin)] at hk
    rw [if_pos hmin] at hruns
    obtain ⟨t, ht, hslices⟩ := streamRaw_slices ctx.clamp_max_le.1 hchunk hruns
    cases ht
    rwa [← hk]
  · rw [if_pos hmin] at hk
    rw [if_neg hmin] at hruns
    obtain ⟨t, ht, hslices⟩ := fixedRaw_slices hk hpos hruns
    cases ht
    exact hslices

end Sizes

namespace World

variable {world : World} {argv : List CString} {report : Report} {ctx : Context}
  {plan : Plan world.host.sizeBits} {content : List UInt8} {a : Attempt} {w : Writer}

/-- `-S` is not smaller than `-s`. -/
theorem context_accepted (i : Invocation world.host.sizeBits) :
    (i.context world.host.bits).Accepted := i.ordered

/-- Raw mode makes slices. -/
theorem attempt_sliced {loaded : Loaded} (hraw : ctx.rawMode = true)
    (h : world.attempt ctx loaded = some a) (hreturns : a.returns = true) :
    SliceFrames (rawBlockSize ctx.minBlockSize) loaded.bytes a.calls := by
  cases loaded with
  | mapped input =>
      obtain ⟨r, hr, rfl⟩ := Option.map_eq_some_iff.mp h
      obtain ⟨s, hs, hslices⟩ := compressMapped_slices hraw world.after input
      obtain rfl := Option.some.inj (hr.symm.trans hs)
      exact hslices
  | stream s =>
      obtain ⟨input, fails⟩ := s
      simp only [attempt, hraw, if_true] at h
      obtain ⟨r, hr, rfl⟩ := Option.map_eq_some_iff.mp h
      cases r with
      | exited e s => cases hreturns
      | returned s =>
          obtain rfl : fails = false := compressRaw_sound hr
          exact compressRaw_sliced hraw world.inChunk_pos hr

theorem load_path {i : Invocation world.host.sizeBits} {source : Source}
    (hsource : world.source i = .ok source) (stdin : Stdio.Input UInt8) :
    (world.load world.files stdin source).path world.after = world.path i := by
  rw [path, hsource]
  cases source <;> rfl

/-- A run in tar mode that returns walks over its input by its rule. -/
theorem attempt_walks {loaded : Loaded} (htar : ctx.rawMode = false)
    (hn : loaded.bytes.length < 2 ^ 62)
    (hroom : (loaded.path world.after).Roomy ctx loaded.bytes)
    (h : world.attempt ctx loaded = some a) (hreturns : a.returns = true) :
    ∃ c, Runs (scanStep ((loaded.path world.after).rule ctx loaded.bytes) loaded.bytes) .init
        (.returned c) ∧
      Accepts ctx loaded.bytes (loaded.path world.after) c.log a.calls := by
  cases loaded with
  | mapped input =>
      obtain ⟨r, hr, rfl⟩ := Option.map_eq_some_iff.mp h
      have hhalf : 2 * input.length + 4096 ≤ 2 ^ ctx.sizeBits := hroom
      have hmapped : input.length + 4096 ≤ 2 ^ ctx.sizeBits := by omega
      obtain ⟨q, r', hq, hruns, hreturned, hlog, -⟩ := compressMapped_scans htar hhalf world.after
      rw [hr] at hq
      obtain rfl := Option.some.inj hq
      cases r with
      | exited e s => cases hreturns
      | returned s =>
          cases r' with
          | exited e c => cases hreturned
          | returned c =>
              have hsame : s.log = c.log := hlog
              exact ⟨c, hruns, hsame ▸ .file world.after s htar hmapped hr⟩
  | stream stream =>
      obtain ⟨input, fails⟩ := stream
      simp only [attempt, htar, if_neg Bool.false_ne_true] at h
      obtain ⟨r, hr, rfl⟩ := Option.map_eq_some_iff.mp h
      obtain ⟨q, r', hq, hruns, hreturned, -⟩ :=
        @compressStdinTar_scans ctx.clamp ⟨input, fails⟩ ctx.clamp_max_le.1 hn world.after
      obtain rfl := Option.some.inj (hr.symm.trans hq)
      cases r with
      | exited e s => cases hreturns
      | returned s =>
          obtain rfl : fails = false := compressStdin_sound hr
          obtain ⟨hreturned', hlog, -⟩ := hreturned rfl
          cases r' with
          | exited e c => cases hreturned'
          | returned c =>
              have hsame : s.log = c.log := hlog
              exact ⟨c, hruns, hsame ▸ .stdin world.after s htar hr⟩

/-- Every mode cuts the input as it was asked to. -/
theorem attempt_asked {loaded : Loaded} (haccepted : ctx.Accepted)
    (hn : loaded.bytes.length < 2 ^ 62) (h : world.attempt ctx loaded = some a)
    (hreturns : a.returns = true)
    (hbracketed : Bracketed a.calls none) :
    ctx.Asked (loaded.path world.after) loaded.bytes (recordedSizes a.calls) := by
  rw [Context.Asked]
  split
  case isTrue hraw => exact (attempt_sliced hraw h hreturns).sizes hbracketed
  case isFalse htar =>
    intro hroom
    obtain ⟨c, hruns, haccepts⟩ :=
      attempt_walks (Bool.eq_false_iff.mpr htar) hn hroom h hreturns
    refine ⟨c, hruns, ?_⟩
    rw [hbracketed.recorded.1]
    exact haccepts.rules haccepted hn hroom.whole

/-- The frames of the output are cut as the command line asks, and without `-j` the
table at its end, read from behind, has the sizes of each. -/
theorem main_layout (h : world.main argv = some report) (hsuccess : report.ending = .success)
    (hsmall : ∀ i content,
      parseArgs world.host.sizeBits world.longBits world.permute argv = .ok i →
      world.Holds i content → content.length < 2 ^ 62)
    {IsFrame : List UInt8 → List UInt8 → Prop} {outBuffSize : Nat}
    (hz : Conforms outBuffSize IsFrame report.events) :
    (Dismissed world argv ∧ report = world.unchanged .success) ∨
    ∃ i d content frames,
      parseArgs world.host.sizeBits world.longBits world.permute argv = .ok i ∧
      world.destination i = .ok d ∧
      ((¬ world.Exhausted i ∧ world.Holds i content) ∨ (world.Exhausted i ∧ content = [])) ∧
      content = frames.flatMap Prod.snd ∧
      Layout IsFrame i.settings.skipSeekTable (report.output d) frames ∧
      (i.context world.host.bits).Asked (world.path i) content
        (frames.map fun f => f.2.length) := by
  obtain hdismissed | ⟨plan, content, a, w, hdone⟩ := main_success h hsuccess
  · exact .inl hdismissed
  · have hn := hdone.reads.length_lt fun content => hsmall _ content hdone.planned.parsed
    rw [hdone.events] at hz
    obtain ⟨segments, hcompressed, hsizes⟩ := hdone.framed.compressed hn hdone.written hz
    obtain ⟨source, hsource, hbytes, -, hattempted⟩ := hdone.attempted
    have hasked := attempt_asked (context_accepted plan.invocation) (hbytes ▸ hn) hattempted
      hdone.returns (hdone.framed.framing hn).bracketed
    rw [hbytes, hsizes, load_path hsource] at hasked
    have hcontent : (segments.map fun s => (s.written, s.fed)).flatMap Prod.snd = content := by
      rw [List.flatMap_map, hcompressed.whole]
    have hpairs : (segments.map fun s => (s.written, s.fed)).map
        (fun f => (f.1.length, f.2.length)) = segments.map Segment.sizes := by
      rw [List.map_map]
      rfl
    refine .inr ⟨plan.invocation, plan.destination, content,
      segments.map fun s => (s.written, s.fed), hdone.planned.parsed, hdone.planned.destination,
      hdone.reads, hcontent.symm, ⟨?_, ?_⟩, ?_⟩
    · intro f hf
      obtain ⟨s, hs, rfl⟩ := List.mem_map.mp hf
      exact hcompressed.frames s hs
    · rw [hdone.output, hpairs, List.flatMap_map, List.length_map, ← List.length_map Segment.sizes]
      split
      case isTrue hkept =>
        have htable := hcompressed.table
        rw [hkept.1] at htable
        rw [htable.cleanup_kept hkept.2, hcompressed.outFile]
        refine ⟨_, rfl, tableBytes_skippable _ hkept.2, ?_⟩
        refine seekTableEntries_written _ _ ?_ hkept.2
        intro p hp
        obtain ⟨s, hs, rfl⟩ := List.mem_map.mp hp
        exact hcompressed.small s hs
      case isFalse hlost =>
        rw [hcompressed.table.cleanup_skipped hlost, hcompressed.outFile]
        exact ⟨[], (List.append_nil _).symm, rfl⟩
    · rw [List.map_map]
      exact hasked

theorem main_layout_nullBlock :
    ∃ report, nullWorld.main [tarName] = some report ∧
      ((Dismissed nullWorld [tarName] ∧ report = nullWorld.unchanged .success) ∨
      ∃ i d content frames, parseArgs 64 64 true [tarName] = .ok i ∧
        nullWorld.destination i = .ok d ∧
        ((¬ nullWorld.Exhausted i ∧ nullWorld.Holds i content) ∨
          (nullWorld.Exhausted i ∧ content = [])) ∧
        content = frames.flatMap Prod.snd ∧
        Layout (fun c x => c = nullFrame ∧ x = nullBlock) i.settings.skipSeekTable
          (report.output d) frames ∧
        (i.context (.inr rfl)).Asked (nullWorld.path i) content
          (frames.map fun f => f.2.length)) := by
  obtain ⟨report, hmain, hsuccess, hevents⟩ := nullWorld_main
  exact ⟨report, hmain, main_layout hmain hsuccess (fun i _ _ => nullWorld_small i)
    (hevents ▸ conforms_nullBlock)⟩

end World

end T2sz
