import T2sz.MutatedInput
import T2sz.RoundTrip

/-!
The harnesses that fuzz the two parsers, and their oracle.

A harness hands its data to the loop for mapped files, or to those for streams,
and catches `exit`. When the run does not fail, what it has written is to
decompress to the data. The harness for streams calls the loops itself, and so
without the clamp; the files of the `World` are of no concern here.
-/

namespace T2sz

open Iteration Multiframe

/-- A row of `FUZZ_MODES`. -/
structure FuzzMode where
  minBlockSize : Nat
  maxBlockSize : Nat
  rawMode : Bool
  deriving DecidableEq

def FUZZ_MODES : List FuzzMode :=
  [⟨0, 0, false⟩, ⟨2000, 0, false⟩, ⟨0, 1000, false⟩, ⟨1000, 1000, false⟩, ⟨0, 0, true⟩,
    ⟨700, 0, true⟩]

def fuzzMode (size : Nat) : FuzzMode :=
  FUZZ_MODES.get ⟨size / 512 % FUZZ_MODES.length, Nat.mod_lt _ (by decide)⟩

theorem fuzzMode_small (size : Nat) :
    (fuzzMode size).minBlockSize ≤ 2000 ∧ (fuzzMode size).maxBlockSize ≤ 1000 ∧
      ((fuzzMode size).rawMode = true → (fuzzMode size).maxBlockSize = 0) := by
  have hall : ∀ mode ∈ FUZZ_MODES, mode.minBlockSize ≤ 2000 ∧ mode.maxBlockSize ≤ 1000 ∧
      (mode.rawMode = true → mode.maxBlockSize = 0) := by
    decide
  exact hall _ (List.get_mem _ _)

/-- `fuzzSetMode`, on what `newContext` makes. -/
def fuzzSetMode (host : Host) (size : Nat) : Context where
  sizeBits := host.sizeBits
  minBlockSize := (fuzzMode size).minBlockSize
  maxBlockSize := (fuzzMode size).maxBlockSize
  rawMode := (fuzzMode size).rawMode
  bits := host.bits
  min_lt := by
    have hword : 2 ^ 32 ≤ 2 ^ host.sizeBits :=
      Nat.pow_le_pow_right (by decide) (by have := host.bits; omega)
    have hsmall := (fuzzMode_small size).1
    omega
  max_lt := by
    have hword : 2 ^ 32 ≤ 2 ^ host.sizeBits :=
      Nat.pow_le_pow_right (by decide) (by have := host.bits; omega)
    have hsmall := (fuzzMode_small size).2.1
    omega

inductive Harness
  | tarMmap
  | tarStdin
  deriving DecidableEq

/-- What a harness returns from at once. -/
def Harness.skips : Harness → List UInt8 → Bool
  | .tarMmap, data => data.length < 512
  | .tarStdin, data => data.length = 0

/-- What the loop allocates, with the sizes it is called with. -/
def Harness.buffer (ctx : Context) : Harness → Option Allocation
  | .tarMmap => none
  | .tarStdin => if ctx.rawMode then some (rawBuffer ctx) else none

/-- How a loop ended, and the calls that it made. -/
structure LoopEnd where
  exit : Option Exit
  calls : List Call
  deriving DecidableEq

def LoopEnd.ofResult {σ : Type} (calls : σ → List Call) : Result σ Exit → LoopEnd
  | .returned s => ⟨none, calls s⟩
  | .exited e s => ⟨some e, calls s⟩

/-- What becomes of an input. -/
inductive Verdict
  | skipped
  | refused (r : Refusal)
  /-- A loop gives up. -/
  | exited (e : Exit)
  /-- libzstd gives up, or the output. -/
  | failed
  | passed
  /-- `abort`, by the oracle or for want of a stream to write to. -/
  | aborted
  deriving DecidableEq

structure FuzzRun where
  verdict : Verdict
  events : List Event

/-- What a harness asks of the system by itself. -/
structure Facilities where
  /-- `fmemopen`, in the harness for streams -/
  fmemopen : Bool
  /-- `fopen("/dev/null", "w")` -/
  devNull : Bool
  open_memstream : Bool
  /-- `malloc(inLen + 1)` in `fuzzCheckRoundTrip` -/
  dec : Bool

/-- All that the lack of which makes a harness abort. -/
def Facilities.complete (system : Facilities) : Bool :=
  system.devNull && system.open_memstream && system.dec

/-- `ZSTD_decompress`, by the capacity of its buffer: `none` is an error. -/
abbrev Decompressor := Nat → List UInt8 → Option (List UInt8)

/-- It reads the files of frames and skippable frames that fit in its buffer. -/
def Decompressor.Reads (IsFrame : List UInt8 → List UInt8 → Prop) (decompress : Decompressor) :
    Prop :=
  ∀ c x capacity, Decodes IsFrame IsSkippable c x → x.length ≤ capacity →
    decompress capacity c = some x

/-- `fuzzCheckRoundTrip`. -/
def fuzzCheckRoundTrip (system : Facilities) (decompress : Decompressor)
    (input out : List UInt8) : Verdict :=
  if system.dec = false then .aborted
  else
    match decompress (input.length + 1) out with
    | none => .aborted
    | some dec =>
        if dec.length ≠ input.length ∨ dec.take input.length ≠ input then .aborted else .passed

namespace World

variable (world : World)

/-- The loop that a harness runs. -/
def underTest (ctx : Context) (data : List UInt8) : Harness → Option LoopEnd
  | .tarMmap => (compressMapped ctx world.after data).map (.ofResult FileState.calls)
  | .tarStdin =>
      if ctx.rawMode then
        (compressStdinRaw ctx world.inChunk world.short ⟨data, false⟩).map
          (.ofResult fun s => s.frames.calls)
      else
        (compressStdinTar ctx world.after ⟨data, false⟩).map (.ofResult fun s => s.frames.calls)

/-- `LLVMFuzzerTestOneInput`. -/
def fuzzTestOneInput (system : Facilities) (decompress : Decompressor) (harness : Harness)
    (data : List UInt8) : Option FuzzRun :=
  if harness.skips data then some ⟨.skipped, []⟩
  else if harness = .tarStdin ∧ system.fmemopen = false then some ⟨.skipped, []⟩
  else if system.devNull = false ∨ system.open_memstream = false then some ⟨.aborted, []⟩
  else if world.malloc .context = false then some ⟨.refused (.outOfMemory .context), []⟩
  else if world.malloc .outBuff = false then some ⟨.refused (.outOfMemory .outBuff), []⟩
  else
    match world.prepareCctx { Settings.newContext world.host.sizeBits with level := 1 } with
    | .error r => some ⟨.refused r, []⟩
    | .ok _ =>
        let ctx := fuzzSetMode world.host data.length
        match world.missing (harness.buffer ctx) with
        | some what => some ⟨.refused (.outOfMemory what), []⟩
        | none =>
            match world.underTest ctx data harness with
            | none => none
            | some a =>
                match (Writer.init false world.replies).run world.host a.calls with
                | .error .starved => none
                | .error (.exit _) => some ⟨.failed, []⟩
                | .ok w =>
                    match a.exit with
                    | some e => some ⟨.exited e, w.events⟩
                    | none =>
                        if world.writes then
                          let out := cleanupCompression world.host w.table w.outFile
                          some ⟨fuzzCheckRoundTrip system decompress data out, w.events⟩
                        else some ⟨.failed, w.events⟩

end World

section Oracle

variable {world : World} {system : Facilities} {decompress : Decompressor} {harness : Harness}
  {data : List UInt8} {run : FuzzRun} {ctx : Context} {a : LoopEnd}

/-- How a run comes to its verdict: without the loops, or at the end of one. -/
theorem World.fuzzTestOneInput_cases
    (h : world.fuzzTestOneInput system decompress harness data = some run) :
    (run.verdict = .skipped ∨ run.verdict = .failed ∨ (∃ r, run.verdict = .refused r) ∨
      run.verdict = .aborted ∧ system.complete = false) ∨
    ∃ a w, world.underTest (fuzzSetMode world.host data.length) data harness = some a ∧
      (Writer.init false world.replies).run world.host a.calls = .ok w ∧ run.events = w.events ∧
      ((∃ e, a.exit = some e ∧ run.verdict = .exited e) ∨
        a.exit = none ∧ run.verdict = fuzzCheckRoundTrip system decompress data
          (cleanupCompression world.host w.table w.outFile)) := by
  rw [fuzzTestOneInput] at h
  split at h
  case isTrue => exact .inl (.inl (Option.some.inj h ▸ rfl))
  split at h
  case isTrue => exact .inl (.inl (Option.some.inj h ▸ rfl))
  split at h
  case isTrue hlacks =>
    refine .inl (.inr (.inr (.inr ⟨Option.some.inj h ▸ rfl, ?_⟩)))
    cases hlacks with
    | inl hnull => rw [Facilities.complete, hnull, Bool.false_and, Bool.false_and]
    | inr hstream => rw [Facilities.complete, hstream, Bool.and_false, Bool.false_and]
  split at h
  case isTrue => exact .inl (.inr (.inr (.inl ⟨.outOfMemory .context, Option.some.inj h ▸ rfl⟩)))
  split at h
  case isTrue => exact .inl (.inr (.inr (.inl ⟨.outOfMemory .outBuff, Option.some.inj h ▸ rfl⟩)))
  split at h
  case h_1 r _ => exact .inl (.inr (.inr (.inl ⟨r, Option.some.inj h ▸ rfl⟩)))
  simp only at h
  split at h
  case h_1 what _ => exact .inl (.inr (.inr (.inl ⟨.outOfMemory what, Option.some.inj h ▸ rfl⟩)))
  split at h
  case h_1 => cases h
  case h_2 a ha =>
    split at h
    case h_1 => cases h
    case h_2 => exact .inl (.inr (.inl (Option.some.inj h ▸ rfl)))
    case h_3 w hrun =>
      split at h
      case h_1 e he =>
        obtain rfl := Option.some.inj h
        exact .inr ⟨a, w, ha, hrun, rfl, .inl ⟨e, he, rfl⟩⟩
      case h_2 hnone =>
        split at h
        case isTrue =>
          obtain rfl := Option.some.inj h
          exact .inr ⟨a, w, ha, hrun, rfl, .inr ⟨hnone, rfl⟩⟩
        case isFalse => exact .inl (.inr (.inl (Option.some.inj h ▸ rfl)))

/-- A run that gets to the oracle. -/
theorem World.fuzzTestOneInput_of_returns (hskips : harness.skips data = false)
    (hsystem : system.complete = true) (hmemory : system.fmemopen = true)
    (hmalloc : ∀ what, world.malloc what = true) {parameters : List (CParameter × Int)}
    (hprepared : world.prepareCctx { Settings.newContext world.host.sizeBits with level := 1 } =
      .ok parameters)
    (ha : world.underTest (fuzzSetMode world.host data.length) data harness = some a) {w : Writer}
    (hrun : (Writer.init false world.replies).run world.host a.calls = .ok w)
    (hreturns : a.exit = none) (hwrites : world.writes = true) :
    world.fuzzTestOneInput system decompress harness data =
      some ⟨fuzzCheckRoundTrip system decompress data
        (cleanupCompression world.host w.table w.outFile), w.events⟩ := by
  simp only [Facilities.complete, Bool.and_eq_true] at hsystem
  have hgiven : world.missing (harness.buffer (fuzzSetMode world.host data.length)) = none := by
    cases hbuffer : harness.buffer (fuzzSetMode world.host data.length) with
    | none => rfl
    | some what => simp [missing, hmalloc]
  simp only [fuzzTestOneInput, hskips, hmemory, hsystem.1.1, hsystem.1.2, hmalloc, hprepared,
    hgiven, ha, hrun, hreturns, hwrites, Bool.false_eq_true, Bool.true_eq_false, if_false, if_true,
    and_false, or_self]

theorem LoopEnd.ofResult_none {σ : Type} {calls : σ → List Call} {r : Result σ Exit}
    (h : (LoopEnd.ofResult calls r).exit = none) :
    ∃ s, r = .returned s ∧ (LoopEnd.ofResult calls r).calls = calls s := by
  cases r with
  | returned s => exact ⟨s, rfl, rfl⟩
  | exited e s => cases h

theorem LoopEnd.ofResult_some {σ : Type} {calls : σ → List Call} {r : Result σ Exit} {e : Exit}
    (h : (LoopEnd.ofResult calls r).exit = some e) : ∃ s, r = .exited e s := by
  cases r with
  | returned s => cases h
  | exited e' s => exact ⟨s, by rw [Option.some.inj h]⟩

theorem fuzzSetMode_clamped (host : Host) (hdata : data.length < MAX_FRAME_SIZE) :
    (fuzzSetMode host data.length).Clamped data.length := by
  obtain ⟨hmin, -, hraw⟩ := fuzzMode_small data.length
  exact ⟨Nat.le_trans hmin (by decide), hdata, hraw⟩

/-- A loop that returns has put all of the data into frames. -/
theorem World.underTest_framed (hdata : data.length < MAX_FRAME_SIZE)
    (hctx : ctx.Clamped data.length) (h : world.underTest ctx data harness = some a)
    (hreturns : a.exit = none) : Framed ctx data a.calls := by
  cases harness with
  | tarMmap =>
      obtain ⟨r, hr, rfl⟩ := Option.map_eq_some_iff.mp h
      obtain ⟨s, rfl, hcalls⟩ := LoopEnd.ofResult_none hreturns
      rw [hcalls]
      have hword : 2 ^ 32 ≤ 2 ^ ctx.sizeBits :=
        Nat.pow_le_pow_right (by decide) (by have := ctx.bits; omega)
      rw [MAX_FRAME_SIZE] at hdata
      exact .file world.after s (by omega) hr
  | tarStdin =>
      rw [underTest] at h
      split at h
      case isTrue hraw =>
        obtain ⟨r, hr, rfl⟩ := Option.map_eq_some_iff.mp h
        obtain ⟨s, rfl, hcalls⟩ := LoopEnd.ofResult_none hreturns
        rw [hcalls]
        rw [@compressStdinRaw_unclamped ctx ⟨data, false⟩ hctx] at hr
        exact .stdinRaw world.inChunk world.short false s world.inChunk_pos hraw hr
      case isFalse htar =>
        obtain ⟨r, hr, rfl⟩ := Option.map_eq_some_iff.mp h
        obtain ⟨s, rfl, hcalls⟩ := LoopEnd.ofResult_none hreturns
        rw [hcalls]
        rw [@compressStdinTar_unclamped ctx ⟨data, false⟩ hctx] at hr
        exact .stdinTar world.after false s (Bool.eq_false_iff.mpr htar) hr

theorem fuzzCheckRoundTrip_passes {IsFrame : List UInt8 → List UInt8 → Prop}
    (hdec : system.dec = true) (hreads : decompress.Reads IsFrame) {out : List UInt8}
    (h : Decodes IsFrame IsSkippable out data) :
    fuzzCheckRoundTrip system decompress data out = .passed := by
  simp [fuzzCheckRoundTrip, hdec, hreads out data (data.length + 1) h (Nat.le_succ _)]

/-- No run of a harness makes its oracle abort: one that aborts lacks what the harness
itself asks of the system. -/
theorem World.fuzz_never_aborts (hdata : data.length < MAX_FRAME_SIZE)
    (h : world.fuzzTestOneInput system decompress harness data = some run)
    {IsFrame : List UInt8 → List UInt8 → Prop} (hreads : decompress.Reads IsFrame)
    {outBuffSize : Nat} (hz : Conforms outBuffSize IsFrame run.events) :
    run.verdict = .aborted → system.complete = false := by
  intro haborted
  obtain (hskipped | hfailed | ⟨r, hrefused⟩ | ⟨-, hlacks⟩) | ⟨a, w, ha, hrun, hevents, hend⟩ :=
    fuzzTestOneInput_cases h
  · cases hskipped.symm.trans haborted
  · cases hfailed.symm.trans haborted
  · cases hrefused.symm.trans haborted
  · exact hlacks
  · obtain ⟨e, -, hexited⟩ | ⟨hreturns, hchecked⟩ := hend
    · cases hexited.symm.trans haborted
    · cases hdec : system.dec with
      | false => rw [Facilities.complete, hdec, Bool.and_false]
      | true =>
          have hframed :=
            underTest_framed hdata (fuzzSetMode_clamped world.host hdata) ha hreturns
          have hsmall : data.length < 2 ^ 62 := Nat.lt_trans hdata (by decide)
          rw [hevents] at hz
          obtain ⟨segments, hcompressed, -⟩ := hframed.compressed hsmall hrun hz
          have hpassed := fuzzCheckRoundTrip_passes hdec hreads hcompressed.decodes
          cases (hchecked.trans hpassed).symm.trans haborted

/-- What comes next in a file of these frames. -/
def nextNull (file : List UInt8) : Option (List UInt8 × List UInt8) :=
  if file.take nullFrame.length = nullFrame then some (nullBlock, file.drop nullFrame.length)
  else if readLE32 file 0 / 16 = 0x184D2A5 then some ([], file.drop (8 + readLE32 file 4))
  else none

def nullDecompress : Decompressor := fun capacity c =>
  (Multiframe.read nextNull c.length c).filter fun x => x.length ≤ capacity

theorem nullDecompress_reads :
    nullDecompress.Reads fun c x => c = nullFrame ∧ x = nullBlock := by
  intro c x capacity hdecodes hfits
  have hframe : ∀ c x rest, c = nullFrame ∧ x = nullBlock →
      nextNull (c ++ rest) = some (x, rest) := by
    rintro c x rest ⟨rfl, rfl⟩
    rw [nextNull, List.take_left, List.drop_left, if_pos rfl]
  have hskip : ∀ c rest, IsSkippable c → nextNull (c ++ rest) = some ([], rest) := by
    intro c rest hc
    have hsize := hc.size
    have hmagic := hc.magic
    have hno : (c ++ rest).take nullFrame.length ≠ nullFrame := by
      intro hframe
      rw [← readLE32_append (by omega) rest, ← List.take_append_drop nullFrame.length (c ++ rest),
        hframe, readLE32_append (by decide)] at hmagic
      exact absurd hmagic (by decide)
    rw [nextNull, if_neg hno, readLE32_append (by omega), readLE32_append (by omega), if_pos hmagic,
      ← hsize, List.drop_left]
  rw [nullDecompress,
    hdecodes.read World.zstdFormat_nullFrame.toDelimited hframe hskip (Nat.le_refl _)]
  simp [hfits]

/-- Nothing is wanting. -/
def allFacilities : Facilities := ⟨true, true, true, true⟩

theorem fuzz_never_aborts_nullBlock :
    ∃ run, nullWorld.fuzzTestOneInput allFacilities nullDecompress .tarMmap nullBlock =
        some run ∧
      run.verdict ≠ .aborted := by
  obtain ⟨w, hrun, hevents⟩ := nullReplies_run
  have hloop : nullWorld.underTest (fuzzSetMode nullWorld.host nullBlock.length) nullBlock
      .tarMmap = some ⟨none, [.frame nullBlock]⟩ := by
    decide +kernel
  have hskips : Harness.tarMmap.skips nullBlock = false := by
    rw [Harness.skips, nullBlock, List.length_replicate]
    rfl
  have hfuzz := @World.fuzzTestOneInput_of_returns nullWorld allFacilities nullDecompress .tarMmap
    nullBlock ⟨none, [.frame nullBlock]⟩ hskips rfl rfl (fun _ => rfl)
    [(.c_compressionLevel, 1), (.c_checksumFlag, 1)] rfl hloop w hrun rfl rfl
  refine ⟨_, hfuzz, fun haborted => ?_⟩
  have hlacks := World.fuzz_never_aborts (by rw [nullBlock, List.length_replicate]; decide) hfuzz
    nullDecompress_reads (hevents ▸ conforms_nullBlock) haborted
  cases hlacks

/-- No run over a mutated input stops at a header. -/
theorem World.fuzz_passes_headers (hdata : data.length < 2 ^ 30)
    (h : world.fuzzTestOneInput system decompress harness (customMutator data) = some run) :
    run.verdict ≠ .exited .invalidHeader := by
  have hlength := length_customMutator data
  obtain (hskipped | hfailed | ⟨r, hrefused⟩ | ⟨haborted, -⟩) | ⟨a, w, ha, -, -, hend⟩ :=
    fuzzTestOneInput_cases h
  · simp [hskipped]
  · simp [hfailed]
  · simp [hrefused]
  · simp [haborted]
  · obtain ⟨e, he, hexited⟩ | ⟨-, hchecked⟩ := hend
    case inr =>
      rw [hchecked, fuzzCheckRoundTrip]
      split
      case isTrue => decide
      case isFalse =>
        split
        case h_1 => decide
        case h_2 => split <;> decide
    rw [hexited, Ne, Verdict.exited.injEq]
    have hclamped := @fuzzSetMode_clamped (customMutator data) world.host
      (by rw [hlength]; exact Nat.lt_trans hdata (by decide))
    generalize fuzzSetMode world.host (customMutator data).length = ctx at ha hclamped
    have hword : 2 ^ 32 ≤ 2 ^ ctx.sizeBits :=
      Nat.pow_le_pow_right (by decide) (by have := ctx.bits; omega)
    cases harness with
    | tarMmap =>
        obtain ⟨r, hr, rfl⟩ := Option.map_eq_some_iff.mp ha
        obtain ⟨s, rfl⟩ := LoopEnd.ofResult_some he
        exact compressMapped_accepts (by omega) hr
    | tarStdin =>
        rw [underTest] at ha
        split at ha
        case isTrue =>
          obtain ⟨r, hr, rfl⟩ := Option.map_eq_some_iff.mp ha
          obtain ⟨s, rfl⟩ := LoopEnd.ofResult_some he
          exact absurd (compressStdinRaw_exits hr) Bool.false_ne_true
        case isFalse =>
          obtain ⟨r, hr, rfl⟩ := Option.map_eq_some_iff.mp ha
          obtain ⟨s, rfl⟩ := LoopEnd.ofResult_some he
          rw [@compressStdinTar_unclamped ctx ⟨customMutator data, false⟩ hclamped] at hr
          exact compressStdin_accepts (by omega) hr

/-- A header without checksum, and without the seven bytes it tells of. -/
def truncatedHeader : TarHeader := nullHeader.setByte 124 0x37

theorem fuzz_passes_headers_truncated :
    ∃ run, nullWorld.fuzzTestOneInput allFacilities nullDecompress .tarMmap
        (customMutator truncatedHeader.bytes) = some run ∧
      run.verdict ≠ .exited .invalidHeader := by
  have hfuzz : ∃ run, nullWorld.fuzzTestOneInput allFacilities nullDecompress .tarMmap
      (customMutator truncatedHeader.bytes) = some run := by
    have hsome : (nullWorld.fuzzTestOneInput allFacilities nullDecompress .tarMmap
        truncatedHeader.fixed.bytes).isSome = true := by
      decide +kernel
    rw [customMutator_header, mutateBlock_eq, if_neg (by decide +kernel)]
    exact Option.isSome_iff_exists.mp hsome
  obtain ⟨run, hrun⟩ := hfuzz
  exact ⟨run, hrun, World.fuzz_passes_headers (by rw [truncatedHeader.size_eq]; decide) hrun⟩

end Oracle

end T2sz
