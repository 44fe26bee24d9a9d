import T2sz.FileBlocks
import T2sz.FrameContents
import T2sz.Library.Earliest

/-!
The sizes of the frames.

Both paths record the sizes that the cutting rule gives for the elements they
recognise, so two runs that recognise the same elements record the same sizes,
and what the rule promises holds of either path. The one exception is a block of
a mapped file that an entry leaves empty.
-/

namespace T2sz

open Iteration Blocking

/-- The decompressed sizes of the frames that were closed. -/
def frameSizes (calls : List Call) : List Nat :=
  (session calls).closed.map fun frame => frame.content.length

/-- The branch for a mapped archive or the one for a stream, with what is behind the
data in memory. -/
inductive TarPath
  | file (after : Nat → List UInt8)
  | stdin (after : Nat → List UInt8)

/-- The size that the branch carries past an entry. -/
def TarPath.rule (ctx : Context) (input : List UInt8) : TarPath → PaxRule
  | .file after => filePaxRule ctx after input
  | .stdin after => stdinPaxRule ctx after input

/-- No block is empty. The stream is cut as it is read, and has no such blocks. -/
def TarPath.Whole (ctx : Context) (input : List UInt8) : TarPath → Prop
  | .file after => NoEmptyBlock ctx after input
  | .stdin _ => True

/-- The entry sums of a mapped archive are exact up to half of the address space. -/
def TarPath.Roomy (ctx : Context) (input : List UInt8) : TarPath → Prop
  | .file _ => 2 * input.length + 4096 ≤ 2 ^ ctx.sizeBits
  | .stdin _ => True

theorem TarPath.Roomy.whole {ctx : Context} {input : List UInt8} {path : TarPath}
    (h : path.Roomy ctx input) : path.Whole ctx input := by
  cases path with
  | file after => exact noEmptyBlock_of_half after h
  | stdin after => trivial

/-- A run in tar mode that returns, with the elements it recognised and the
calls it made. What is mapped does not take up the address space. -/
inductive Accepts (ctx : Context) (input : List UInt8) :
    TarPath → List Element → List Call → Prop
  | file (after : Nat → List UInt8) (s : FileState) (tar : ctx.rawMode = false)
      (mapped : input.length + 4096 ≤ 2 ^ ctx.sizeBits)
      (returns : compressMapped ctx after input = some (.returned s)) :
      Accepts ctx input (.file after) s.log s.calls
  | stdin (after : Nat → List UInt8) (s : StdinState) (tar : ctx.rawMode = false)
      (returns : compressStdin ctx after ⟨input, false⟩ = some (.returned s)) :
      Accepts ctx input (.stdin after) s.log s.frames.calls

theorem recordedSizes_frames (buffers : List (List UInt8)) :
    recordedSizes (buffers.map Call.frame) = buffers.map List.length := by
  induction buffers with
  | nil => rfl
  | cons src buffers ih =>
      simp only [recordedSizes] at ih
      simp [recordedSizes, ih]

/-- Every frame is recorded with its size. -/
theorem Bracketed.recorded {n : Option Nat} (h : Bracketed calls n) :
    recordedSizes calls = frameSizes calls ∧
      (session calls).opened.map (fun frame => frame.content.length) = n := by
  induction h with
  | nil => exact ⟨rfl, rfl⟩
  | frame src _ ih =>
      rw [recordedSizes_append, ih.1]
      simp [frameSizes, session, Session.call, recordedSizes]
  | start pledged _ ih =>
      rw [recordedSizes_append, ih.1]
      simp [frameSizes, session, Session.call, recordedSizes]
  | push src _ ih =>
      obtain ⟨hsizes, hopened⟩ := ih
      obtain ⟨frame, hframe, rfl⟩ := Option.map_eq_some_iff.mp hopened
      rw [session] at hframe
      rw [recordedSizes_append, hsizes]
      simp [frameSizes, session, Session.call, recordedSizes, hframe]
  | finish _ ih =>
      obtain ⟨hsizes, hopened⟩ := ih
      obtain ⟨frame, hframe, rfl⟩ := Option.map_eq_some_iff.mp hopened
      rw [session] at hframe
      rw [recordedSizes_append, hsizes]
      simp [frameSizes, session, Session.call, recordedSizes, hframe]

/-- What a run that returns has recorded: the size of every frame, as the cutting
rule gives it for the elements, which together are the input. -/
structure Recorded (ctx : Context) (input : List UInt8) (log : List Element)
    (calls : List Call) : Prop where
  sizes : frameSizes calls =
    Blocking.sizes ctx.clamp.minBlockSize ctx.clamp.maxBlockSize (spans log)
  recorded : recordedSizes calls = frameSizes calls
  kept : (session calls).PledgesKept
  total : Blocking.total (spans log) = input.length

theorem FileDone.recorded {ctx : Context} {input : List UInt8} {s : FileState}
    (h : FileDone ctx.clamp input s) : Recorded ctx input s.log s.calls := by
  obtain ⟨buffers, hbuffers⟩ := exists_buffers h.frames
  have hframes : recordedSizes s.calls = frameSizes s.calls := by
    rw [hbuffers, recordedSizes_frames, frameSizes, session_frames]
    simp
  refine ⟨by rw [← hframes, h.sizes], hframes, ?_, ?_⟩
  · intro frame hframe size hsize
    rw [hbuffers, session_frames] at hframe
    simp only [List.mem_map] at hframe
    obtain ⟨src, -, rfl⟩ := hframe
    cases hsize
    rfl
  · rw [← @Blocking.sum_sizes ctx.clamp.minBlockSize ctx.clamp.maxBlockSize, ← h.sizes,
      sum_recordedSizes h.frames, h.fed]

theorem StdinDone.recorded {ctx : Context} {input : List UInt8} {s : StdinState}
    (h : StdinDone ctx.clamp input s) : Recorded ctx input s.log s.frames.calls := by
  have hframes : recordedSizes s.frames.calls = frameSizes s.frames.calls := h.wf.recorded
  refine ⟨by rw [← hframes, h.sizes], hframes, h.wf.kept, ?_⟩
  rw [← @Blocking.sum_sizes ctx.clamp.minBlockSize ctx.clamp.maxBlockSize, ← h.sizes,
    sum_recordedSizes_of_closed h.wf h.closed, h.fed]

/-- The file path ends as the walk does, and records what it cuts. -/
theorem compressMapped_scans {ctx : Context} (htar : ctx.rawMode = false) {input : List UInt8}
    (hroom : 2 * input.length + 4096 ≤ 2 ^ ctx.sizeBits) (after : Nat → List UInt8) :
    ∃ r r', compressMapped ctx after input = some r ∧
      Runs (scanStep (filePaxRule ctx after input) input) .init r' ∧
      r.isReturned = r'.isReturned ∧ r.state.log = r'.state.log ∧
      (r.isReturned = true → Recorded ctx input r.state.log r.state.calls) := by
  obtain ⟨r, r', hr, hscan, hreturned, hlog, hdone⟩ :=
    @mappedLoop_scans ctx.clamp input hroom htar ctx.clamp_max_le.1 after
  exact ⟨r, r', hr, hscan, hreturned, hlog, fun h => (hdone h).recorded⟩

/-- The stdin path ends as the walk does, and records what it cuts. -/
theorem compressStdin_scans {ctx : Context} (hw : ctx.sizeBits = 64) {input : List UInt8}
    (hn : input.length < 2 ^ 62) (after : Nat → List UInt8) :
    ∃ r r', compressStdin ctx after ⟨input, false⟩ = some r ∧
      Runs (scanStep (stdinPaxRule ctx after input) input) .init r' ∧
      r.isReturned = r'.isReturned ∧ r.state.log = r'.state.log ∧
      (r.isReturned = true → Recorded ctx input r.state.log r.state.frames.calls) := by
  obtain ⟨r, r', hr, hscan, hreturns, hfails⟩ :=
    @compressStdinTar_scans ctx.clamp ⟨input, false⟩ ctx.clamp_max_le.1 hn after
  have hword : input.length < 2 ^ ctx.clamp.sizeBits := by
    have hbits : ctx.clamp.sizeBits = 64 := hw
    rw [hbits]
    omega
  refine ⟨r, r', hr, hscan, ?_⟩
  cases hret : r.isReturned with
  | true =>
      obtain ⟨hr', hlog, hdone⟩ := hreturns hret
      exact ⟨hr'.symm, hlog, fun _ => hdone.recorded⟩
  | false =>
      obtain ⟨hr', hlog⟩ := hfails hret rfl hword
      refine ⟨hr'.symm, hlog, fun hno => ?_⟩
      cases hno

/-- A run cuts as the rule does, unless it comes to an empty block. -/
theorem Accepts.recorded {ctx : Context} {input : List UInt8} {path : TarPath}
    {log : List Element} {calls : List Call} (hn : input.length < 2 ^ 62)
    (hwhole : path.Whole ctx input) (h : Accepts ctx input path log calls) :
    Recorded ctx input log calls := by
  cases h with
  | file after s tar mapped returns =>
      exact (@mappedLoop_whole ctx.clamp after input s mapped tar ctx.clamp_max_le.1 hwhole
        returns).recorded
  | stdin after s tar returns =>
      obtain ⟨r, r', hr, -, hreturns, -⟩ :=
        @compressStdinTar_scans ctx.clamp ⟨input, false⟩ ctx.clamp_max_le.1 hn after
      rw [compressStdin, hr, Option.some.injEq] at returns
      subst returns
      exact (hreturns rfl).2.2.recorded

/-- Where the two paths recognise the same elements, they cut the same frames. -/
theorem framings_agree {ctx : Context} (hmax : 1 ≤ ctx.maxBlockSize) (htar : ctx.rawMode = false)
    {input : List UInt8} (hn : input.length < 2 ^ 62)
    (hword : input.length + 4096 ≤ 2 ^ ctx.sizeBits) {fileAfter stdinAfter : Nat → List UInt8}
    {s : FileState} {t : StdinState}
    (hs : mappedLoop ctx fileAfter input = some (.returned s))
    (ht : compressStdinTar ctx stdinAfter ⟨input, false⟩ = some (.returned t))
    (hsame : s.log.map Element.shape = t.log.map Element.shape) :
    recordedSizes s.calls = recordedSizes t.frames.calls := by
  obtain ⟨q, q', hq, hscan, hstdin, -⟩ :=
    @compressStdinTar_scans ctx ⟨input, false⟩ hmax hn stdinAfter
  rw [hq, Option.some.injEq] at ht
  subst ht
  obtain ⟨-, hlog, hdone⟩ := hstdin rfl
  -- The stream has no element of 0 bytes, so the file has none, and no empty block.
  have hlengths : ∀ e ∈ s.log, 512 ≤ e.length := by
    intro e he
    have hshape := List.mem_map_of_mem (f := Element.shape) he
    rw [hsame] at hshape
    obtain ⟨e', he', heq⟩ := List.mem_map.mp hshape
    have hlength := scan_lengths hscan e' (hlog ▸ he')
    rwa [← Element.shape_length e', heq, Element.shape_length] at hlength
  have hwhole : ∀ u, Reached (fileStep ctx fileAfter input) .init u → ¬ Vanishes ctx input u := by
    intro u hreached hvanishes
    obtain ⟨-, e, he, hzero⟩ := mappedLoop_empty hword htar hs hreached hvanishes
    have := hlengths e he
    omega
  have hfile := mappedLoop_whole hword htar hmax hwhole hs
  have hspans : spans s.log = spans t.log := by
    rw [← spans_shape s.log, hsame, spans_shape]
  have hleft : recordedSizes s.calls = _ := hfile.sizes
  have hright : recordedSizes t.frames.calls = _ := hdone.sizes
  rw [hleft, hright]
  exact congrArg (Blocking.sizes _ _) hspans

theorem framings_agree_sample :
    ∃ s t, compressMapped sampleContext (fun _ => []) sampleArchive.bytes = some (.returned s) ∧
      compressStdin sampleContext (fun _ => []) ⟨sampleArchive.bytes, false⟩ =
        some (.returned t) ∧
      recordedSizes s.calls = recordedSizes t.frames.calls := by
  obtain ⟨s, hs, -, hlog⟩ := compressMapped_sample
  obtain ⟨t, ht, -, hlog'⟩ := compressStdin_sample
  have hword : sampleArchive.bytes.length + 4096 ≤ 2 ^ sampleContext.clamp.sizeBits := by
    rw [sampleArchive_length]
    decide
  exact ⟨s, t, hs, ht, framings_agree sampleContext.clamp_max_le.1 rfl sampleArchive_lt hword hs ht
    (by rw [hlog, hlog'])⟩

/-- The offsets at which an element ends that does not join the next one: a run
of joining elements ends with the element behind it, and a run of null blocks
with its last block. -/
def groupEnds (log : List Element) : List Nat := Blocking.groupEnds 0 (spans log)

/-- What `-s` and `-S` promise of the frames, `ends` being the group ends and `total` the
end of the input: they add up to it, have between 1 and `max` bytes, all but the last
have `min`, and a shorter one than `max` ends at a group end or at the end of the
input. -/
structure FrameRules (min max : Nat) (ends : List Nat) (total : Nat) (sizes : List Nat) : Prop
    extends Cutting min max ends total sizes where
  /-- Without a minimum no frame has bytes of two groups. -/
  single : min = 0 → ∀ i, (hi : i < sizes.length) → ∀ g ∈ ends,
    ¬ (offset sizes i < g ∧ g < offset sizes i + sizes[i])
  /-- With one the frame is closed at the first group end that it allows. -/
  minimal : 0 < min → ∀ i, (hi : i < sizes.length) → ∀ g ∈ ends,
    offset sizes i < g → g < offset sizes i + sizes[i] → g - offset sizes i < min

/-- Every block that the cutting rule makes fits. -/
theorem sizes_rules {low high : Nat} (hh : 0 < high) (hl : low ≤ high)
    (spans : List (Nat × Bool)) :
    FrameRules low high (Blocking.groupEnds 0 spans) (Blocking.total spans)
      (Blocking.sizes low high spans) := by
  have hfits := sizes_fit_total hh hl spans
  refine ⟨⟨sum_sizes _, ?_, ?_, ?_⟩, ?_, ?_⟩
  · intro i hi
    exact ⟨(hfits i hi).pos, (hfits i hi).le_high⟩
  · intro i hi
    exact (sizes_fit hh hl spans i hi).2
  · intro i hi
    have haligned := (hfits i hi).aligned
    rw [List.mem_append, List.mem_singleton] at haligned
    exact haligned.symm
  · intro hmin i hi g hg hbetween
    have := (hfits i hi).minimal g (List.mem_append_left _ hg) hbetween.1 hbetween.2
    omega
  · intro _ i hi g hg hstart hstop
    exact (hfits i hi).minimal g (List.mem_append_left _ hg) hstart hstop

theorem Accepts.tar {ctx : Context} {input : List UInt8} {path : TarPath} {log : List Element}
    {calls : List Call} (h : Accepts ctx input path log calls) : ctx.rawMode = false := by
  cases h with
  | file after s tar mapped returns => exact tar
  | stdin after s tar returns => exact tar

/-- The frames of a run without empty blocks are cut by the rules. -/
theorem Accepts.rules {ctx : Context} (haccepted : ctx.Accepted) {input : List UInt8}
    (hn : input.length < 2 ^ 62) {path : TarPath} {log : List Element} {calls : List Call}
    (hwhole : path.Whole ctx input) (h : Accepts ctx input path log calls) :
    FrameRules ctx.clamp.minBlockSize ctx.clamp.maxBlockSize (groupEnds log) input.length
      (frameSizes calls) := by
  have heffective := Context.clamp_effective haccepted
  have hrecorded := h.recorded hn hwhole
  have hrules := sizes_rules heffective.one_le_max heffective.min_le_max (spans log)
  rwa [← hrecorded.sizes, hrecorded.total] at hrules

/-- The documented meaning of `-s` and `-S`. -/
structure FollowsRules (ctx : Context) (input : List UInt8) (log : List Element)
    (calls : List Call) : Prop where
  max_le : ctx.clamp.maxBlockSize ≤ 2 ^ 31 - 1
  rules : FrameRules ctx.clamp.minBlockSize ctx.clamp.maxBlockSize (groupEnds log) input.length
    (frameSizes calls)
  equal : ctx.minBlockSize = ctx.maxBlockSize → ctx.maxBlockSize ≠ 0 →
    ∀ i, (hi : i + 1 < (frameSizes calls).length) →
      (frameSizes calls)[i] = min ctx.maxBlockSize MAX_FRAME_SIZE

theorem FollowsRules.pos {ctx : Context} {input : List UInt8} {log : List Element}
    {calls : List Call} (h : FollowsRules ctx input log calls) : 0 ∉ frameSizes calls := by
  intro hempty
  obtain ⟨i, hi, hzero⟩ := List.getElem_of_mem hempty
  have hpos := (h.rules.bounds i hi).1
  omega

theorem sampleContext_accepted : sampleContext.Accepted := fun _ => by decide

/-- Either path takes the sample archive. -/
theorem accepts_sample :
    (∃ calls, Accepts sampleContext sampleArchive.bytes (.file fun _ => []) sampleLog calls ∧
      frameSizes calls = sampleSizes) ∧
    ∃ calls, Accepts sampleContext sampleArchive.bytes (.stdin fun _ => []) sampleLog calls ∧
      frameSizes calls = sampleSizes := by
  obtain ⟨s, hs, hsizes, hlog⟩ := compressMapped_sample
  obtain ⟨t, ht, hsizes', hlog'⟩ := compressStdin_sample
  have hroom : (TarPath.file fun _ => []).Roomy sampleContext sampleArchive.bytes :=
    room_of_bits rfl sampleArchive_lt
  have hfile : Accepts sampleContext sampleArchive.bytes (.file fun _ => []) s.log s.calls := by
    refine .file _ s rfl ?_ hs
    rw [sampleArchive_length]
    decide
  have hstdin : Accepts sampleContext sampleArchive.bytes (.stdin fun _ => []) t.log
      t.frames.calls := .stdin _ t rfl ht
  have hwhole : (TarPath.stdin fun _ => []).Whole sampleContext sampleArchive.bytes := trivial
  refine ⟨⟨s.calls, hlog ▸ hfile, ?_⟩, ⟨t.frames.calls, hlog' ▸ hstdin, ?_⟩⟩
  · rw [← (hfile.recorded sampleArchive_lt hroom.whole).recorded, hsizes]
  · rw [← (hstdin.recorded sampleArchive_lt hwhole).recorded, hsizes']

end T2sz
