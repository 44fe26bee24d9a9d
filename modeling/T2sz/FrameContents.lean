import T2sz.Archive
import T2sz.FileRefinement
import T2sz.StdinRefinement

/-!
No byte is lost, added or reordered on the way into the frames.
-/

namespace T2sz

open Iteration

/-- A stream or a file of one null block. -/
def nullBlock : List UInt8 := List.replicate 512 0

theorem nullBlock_lt : nullBlock.length < 2 ^ 62 := by
  rw [nullBlock, List.length_replicate]
  decide

/-- The mapped-file branch on one null block. -/
theorem compressMapped_nullBlock :
    compressMapped newContext (fun _ => []) nullBlock = some (.returned
      { tarHeaderIdx := 512, readBuff := 512, joinNext := false, paxNextSize := UINT64_MAX,
        lastChunk := true, residual := 0, blockSize := 512, calls := [.frame nullBlock],
        log := [.null 0] }) := by
  decide +kernel

theorem sampleArchive_lt : sampleArchive.bytes.length < 2 ^ 62 := by
  rw [sampleArchive_length]
  decide

/-- An input that can be mapped leaves the offsets room in a 64-bit word. -/
theorem room_of_bits {ctx : Context} (hw : ctx.sizeBits = 64) {input : List UInt8}
    (hn : input.length < 2 ^ 62) : 2 * input.length + 4096 ≤ 2 ^ ctx.sizeBits := by
  rw [hw]
  omega

/-- The elements of the sample archive, as both paths recognise them. -/
def sampleLog : List Element :=
  [.entry 0 1024 true 512, .entry 1024 1024 false UINT64_MAX, .entry 2048 512 true UINT64_MAX,
    .entry 2560 2048 false UINT64_MAX, .null 4608, .null 5120]

/-- The sizes of its frames: the first two are cut by `-S`, the third is what they leave
of the sparse file. -/
def sampleSizes : List Nat := [2000, 2000, 608, 1024]

theorem sampleLog_sizes : Blocking.sizes 600 2000 (spans sampleLog) = sampleSizes := by decide

/-- The mapped-file branch on the sample archive. -/
theorem compressMapped_sample :
    ∃ s, compressMapped sampleContext (fun _ => []) sampleArchive.bytes = some (.returned s) ∧
      recordedSizes s.calls = sampleSizes ∧ s.log = sampleLog := by
  obtain ⟨r, hr, hreturned, hlog⟩ :
      ∃ r, compressMapped sampleContext (fun _ => []) sampleArchive.bytes = some r ∧
        r.isReturned = true ∧ r.state.log = sampleLog := by
    decide +kernel
  obtain ⟨q, -, hq, -, -, -, hdone⟩ := @mappedLoop_scans sampleContext.clamp sampleArchive.bytes
    (room_of_bits rfl sampleArchive_lt) rfl sampleContext.clamp_max_le.1 fun _ => []
  obtain rfl := Option.some.inj (hr.symm.trans hq)
  have hsizes := (hdone hreturned).sizes
  rw [hlog] at hsizes
  cases r with
  | exited e s => cases hreturned
  | returned s => exact ⟨s, hr, hsizes.trans sampleLog_sizes, hlog⟩

/-- The stdin branch on the sample archive. -/
theorem compressStdin_sample :
    ∃ s, compressStdin sampleContext (fun _ => []) ⟨sampleArchive.bytes, false⟩ =
        some (.returned s) ∧
      recordedSizes s.frames.calls = sampleSizes ∧ s.log = sampleLog := by
  obtain ⟨r, hr, hreturned, hlog⟩ :
      ∃ r, compressStdin sampleContext (fun _ => []) ⟨sampleArchive.bytes, false⟩ = some r ∧
        r.isReturned = true ∧ r.state.log = sampleLog := by
    decide +kernel
  obtain ⟨q, q', hq, -, hdone, -⟩ := @compressStdinTar_scans sampleContext.clamp
    ⟨sampleArchive.bytes, false⟩ sampleContext.clamp_max_le.1 sampleArchive_lt fun _ => []
  obtain rfl := Option.some.inj (hr.symm.trans hq)
  have hsizes := (hdone hreturned).2.2.sizes
  rw [hlog] at hsizes
  cases r with
  | exited e s => cases hreturned
  | returned s => exact ⟨s, hr, hsizes.trans sampleLog_sizes, hlog⟩

theorem exists_buffers {calls : List Call} (h : ∀ call ∈ calls, ∃ src, call = .frame src) :
    ∃ buffers : List (List UInt8), calls = buffers.map Call.frame := by
  induction calls with
  | nil => exact ⟨[], rfl⟩
  | cons call calls ih =>
      obtain ⟨src, rfl⟩ := h call List.mem_cons_self
      obtain ⟨buffers, rfl⟩ := ih fun c hc => h c (List.mem_cons_of_mem _ hc)
      exact ⟨src :: buffers, rfl⟩

theorem fedBytes_frames (buffers : List (List UInt8)) :
    fedBytes (buffers.map Call.frame) = buffers.flatten := by
  induction buffers with
  | nil => rfl
  | cons src buffers ih =>
      simp only [fedBytes] at ih
      simp [fedBytes, ih]

/-- The buffers compressed from a mapped file are the file. -/
theorem compressMapped_lossless (ctx : Context) (hw : ctx.sizeBits = 64)
    (htar : ctx.rawMode = false) (after : Nat → List UInt8) (input : List UInt8)
    (hn : input.length < 2 ^ 62) :
    ∃ r, compressMapped ctx after input = some r ∧ (r.isReturned = true →
      ∃ buffers : List (List UInt8), r.state.calls = buffers.map Call.frame ∧
        buffers.flatten = input) := by
  obtain ⟨r, r', hr, -, -, -, hdone⟩ :=
    @mappedLoop_scans ctx.clamp input (room_of_bits hw hn) htar ctx.clamp_max_le.1 after
  refine ⟨r, hr, fun hreturned => ?_⟩
  obtain ⟨buffers, hbuffers⟩ := exists_buffers (hdone hreturned).frames
  refine ⟨buffers, hbuffers, ?_⟩
  rw [← fedBytes_frames, ← hbuffers]
  exact (hdone hreturned).fed

theorem compressMapped_lossless_sample :
    ∃ s, compressMapped sampleContext (fun _ => []) sampleArchive.bytes = some (.returned s) ∧
      ∃ buffers : List (List UInt8), s.calls = buffers.map Call.frame ∧
        buffers.flatten = sampleArchive.bytes := by
  obtain ⟨s, hs, -, -⟩ := compressMapped_sample
  obtain ⟨r, hr, hlossless⟩ := compressMapped_lossless sampleContext rfl rfl (fun _ => [])
    sampleArchive.bytes sampleArchive_lt
  obtain rfl := Option.some.inj (hs.symm.trans hr)
  exact ⟨s, hs, hlossless rfl⟩

/-- The frames made of a tar stream are all closed and hold the stream. -/
theorem compressStdin_lossless (ctx : Context) (after : Nat → List UInt8) (stream : Stream)
    (hn : stream.bytes.length < 2 ^ 62) :
    ∃ r, compressStdin ctx after stream = some r ∧ (r.isReturned = true →
      fedBytes r.state.frames.calls = stream.bytes ∧
        (session r.state.frames.calls).opened = none ∧
        ((session r.state.frames.calls).closed.map Frame.content).flatten = stream.bytes) := by
  obtain ⟨r, r', hr, -, hreturns, -⟩ :=
    compressStdinTar_scans ctx.clamp_max_le.1 hn after
  refine ⟨r, hr, fun hreturned => ?_⟩
  have hdone := (hreturns hreturned).2.2
  have hopened : (session r.state.frames.calls).opened = none := hdone.wf.open_none hdone.closed
  have hcontent := hdone.wf.fed
  rw [hdone.fed] at hcontent
  refine ⟨hdone.fed, hopened, ?_⟩
  simpa [Session.content, hopened] using hcontent

theorem compressStdin_lossless_sample :
    ∃ s, compressStdin sampleContext (fun _ => []) ⟨sampleArchive.bytes, false⟩ =
        some (.returned s) ∧
      fedBytes s.frames.calls = sampleArchive.bytes ∧ (session s.frames.calls).opened = none ∧
      ((session s.frames.calls).closed.map Frame.content).flatten = sampleArchive.bytes := by
  obtain ⟨s, hs, -, -⟩ := compressStdin_sample
  obtain ⟨r, hr, hlossless⟩ := compressStdin_lossless sampleContext (fun _ => [])
    ⟨sampleArchive.bytes, false⟩ sampleArchive_lt
  obtain rfl := Option.some.inj (hs.symm.trans hr)
  exact ⟨s, hs, hlossless rfl⟩

end T2sz
