import T2sz.OutputLayout
import T2sz.Unclamped

/-!
What `-s` and `-S` leave open: nothing.

There is one way to cut an archive by their rules, and among all the ways that
keep the bounds and cut between the same elements it has the most frames, so
that a reader never has to decompress more than another way would ask for. A
larger `-s` gives no more frames, and a `-S` above the size of the input is none.
-/

namespace T2sz

open Iteration Blocking

section Rules

variable {min max total : Nat} {ends sizes : List Nat}

theorem FrameRules.earliest (h : FrameRules min max ends total sizes) :
    Earliest min ends sizes := by
  intro i hi g hg hstart hstop
  cases Nat.eq_zero_or_pos min with
  | inl hmin => exact absurd ⟨hstart, hstop⟩ (h.single hmin i hi g hg)
  | inr hmin => exact h.minimal hmin i hi g hg hstart hstop

theorem rules_of_earliest (hfirst : Earliest min ends sizes)
    (h : Cutting min max ends total sizes) : FrameRules min max ends total sizes where
  toCutting := h
  single := by
    rintro rfl i hi g hg ⟨hstart, hstop⟩
    exact absurd (hfirst i hi g hg hstart hstop) (Nat.not_lt_zero _)
  minimal := fun _ i hi g hg hstart hstop => hfirst i hi g hg hstart hstop

end Rules

section Sharing

variable {ctx ctx' : Context} {input : List UInt8} {path : TarPath}

/-- Nothing but the width of `size_t` counts in what is carried past an entry. -/
theorem TarPath.rule_eq (hbits : ctx.sizeBits = ctx'.sizeBits) (input : List UInt8)
    (path : TarPath) : path.rule ctx input = path.rule ctx' input := by
  cases path with
  | file after =>
      funext c e
      simp only [TarPath.rule, filePaxRule, hbits]
  | stdin after =>
      funext c e
      simp only [TarPath.rule, stdinPaxRule, hbits]

theorem TarPath.Roomy.of_bits (h : path.Roomy ctx input) (hbits : ctx.sizeBits = ctx'.sizeBits) :
    path.Roomy ctx' input := by
  cases path with
  | file after =>
      rw [TarPath.Roomy] at h ⊢
      rwa [← hbits]
  | stdin after => trivial

end Sharing

section Accepted

variable {ctx : Context} {input : List UInt8} {path : TarPath} {log : List Element}
  {calls : List Call}

/-- The frames of a run are a cutting, and the earliest one. -/
theorem Accepts.earliest (haccepted : ctx.Accepted) (hn : input.length < 2 ^ 62)
    (hwhole : path.Whole ctx input) (h : Accepts ctx input path log calls) :
    Cutting ctx.clamp.minBlockSize ctx.clamp.maxBlockSize (groupEnds log) input.length
        (frameSizes calls) ∧
      Earliest ctx.clamp.minBlockSize (groupEnds log) (frameSizes calls) := by
  have hrules := h.rules haccepted hn hwhole
  exact ⟨hrules.toCutting, hrules.earliest⟩

/-- The rules for `-s` and `-S` leave one way to cut an archive. -/
theorem frames_determined (haccepted : ctx.Accepted) (hn : input.length < 2 ^ 62)
    (hwhole : path.Whole ctx input) (h : Accepts ctx input path log calls) (sizes : List Nat) :
    FrameRules ctx.clamp.minBlockSize ctx.clamp.maxBlockSize (groupEnds log) input.length sizes ↔
      sizes = frameSizes calls := by
  obtain ⟨hcutting, hfirst⟩ := h.earliest haccepted hn hwhole
  constructor
  · intro hrules
    exact hrules.earliest.unique hfirst hrules.toCutting hcutting
  · rintro rfl
    exact rules_of_earliest hfirst hcutting

/-- So is the archive of two members, by either path. -/
theorem frames_determined_sample :
    (∃ calls, Accepts sampleContext sampleArchive.bytes (.file fun _ => []) sampleLog calls ∧
      ∀ sizes, FrameRules 600 2000 (groupEnds sampleLog) sampleArchive.bytes.length sizes ↔
        sizes = frameSizes calls) ∧
    ∃ calls, Accepts sampleContext sampleArchive.bytes (.stdin fun _ => []) sampleLog calls ∧
      ∀ sizes, FrameRules 600 2000 (groupEnds sampleLog) sampleArchive.bytes.length sizes ↔
        sizes = frameSizes calls := by
  obtain ⟨⟨x, hx, -⟩, ⟨y, hy, -⟩⟩ := accepts_sample
  have hroom : (TarPath.file fun _ => []).Roomy sampleContext sampleArchive.bytes :=
    room_of_bits rfl sampleArchive_lt
  have hstream : (TarPath.stdin fun _ => []).Whole sampleContext sampleArchive.bytes := trivial
  exact ⟨⟨x, hx, frames_determined sampleContext_accepted sampleArchive_lt hroom.whole hx⟩,
    ⟨y, hy, frames_determined sampleContext_accepted sampleArchive_lt hstream hy⟩⟩

/-- No way to cut an archive between the same elements, with all frames but the last
at least of size `-s`, gives more frames, or ends one earlier. -/
theorem most_frames (haccepted : ctx.Accepted) (hn : input.length < 2 ^ 62)
    (hwhole : path.Whole ctx input) (h : Accepts ctx input path log calls) {other : List Nat}
    (hother : Cutting ctx.clamp.minBlockSize ctx.clamp.maxBlockSize (groupEnds log) input.length
      other) :
    other.length ≤ (frameSizes calls).length ∧
      ∀ k, k ≤ other.length → offset (frameSizes calls) k ≤ offset other k := by
  obtain ⟨hcutting, hfirst⟩ := h.earliest haccepted hn hwhole
  exact ⟨hfirst.length_le hcutting hother,
    fun k hk => (hfirst.offset_le hcutting hother hk).2⟩

/-- The null blocks may as well stay with the end of the sparse file. -/
theorem sample_cutting :
    Cutting 600 2000 (groupEnds sampleLog) sampleArchive.bytes.length [2000, 2000, 1632] := by
  rw [sampleArchive_length]
  refine ⟨by decide, by decide, ?_, by decide⟩
  intro i hi
  have hlast : i < 2 := Nat.lt_of_succ_lt_succ hi
  interval_cases i <;> simp

theorem most_frames_sample :
    ∃ calls, Accepts sampleContext sampleArchive.bytes (.file fun _ => []) sampleLog calls ∧
      [2000, 2000, 1632].length ≤ (frameSizes calls).length ∧
      ∀ k, k ≤ 3 → offset (frameSizes calls) k ≤ offset [2000, 2000, 1632] k := by
  obtain ⟨⟨calls, hcalls, -⟩, -⟩ := accepts_sample
  have hroom : (TarPath.file fun _ => []).Roomy sampleContext sampleArchive.bytes :=
    room_of_bits rfl sampleArchive_lt
  exact ⟨calls, hcalls,
    most_frames sampleContext_accepted sampleArchive_lt hroom.whole hcalls sample_cutting⟩

end Accepted

namespace World

variable {world : World} {ctx ctx' : Context} {loaded : Loaded} {a a' : Attempt}

/-- With a larger `-s` the same archive is cut into no more frames, and none of them
ends earlier. -/
theorem attempt_larger_minimum (haccepted : ctx.Accepted) (haccepted' : ctx'.Accepted)
    (htar : ctx.rawMode = false) (htar' : ctx'.rawMode = false)
    (hbits : ctx.sizeBits = ctx'.sizeBits)
    (hmin : ctx.clamp.minBlockSize ≤ ctx'.clamp.minBlockSize)
    (hmax : ctx.clamp.maxBlockSize = ctx'.clamp.maxBlockSize)
    (hn : loaded.bytes.length < 2 ^ 62)
    (hroom : (loaded.path world.after).Roomy ctx loaded.bytes)
    (h : world.attempt ctx loaded = some a) (hreturns : a.returns = true)
    (h' : world.attempt ctx' loaded = some a') (hreturns' : a'.returns = true) :
    (frameSizes a'.calls).length ≤ (frameSizes a.calls).length ∧
      ∀ k, k ≤ (frameSizes a'.calls).length →
        offset (frameSizes a.calls) k ≤ offset (frameSizes a'.calls) k := by
  obtain ⟨c, hruns, haccepts⟩ := attempt_walks htar hn hroom h hreturns
  obtain ⟨c', hruns', haccepts'⟩ := attempt_walks htar' hn (hroom.of_bits hbits) h' hreturns'
  rw [← TarPath.rule_eq hbits] at hruns'
  obtain rfl := Result.returned.inj (hruns.unique hruns')
  obtain ⟨hcutting, hfirst⟩ := haccepts.earliest haccepted hn hroom.whole
  have hother := (haccepts'.earliest haccepted' hn (hroom.of_bits hbits).whole).1.of_le hmin
  rw [← hmax] at hother
  exact ⟨hfirst.length_le hcutting hother, fun k hk => (hfirst.offset_le hcutting hother hk).2⟩

/-- Two files without content. -/
def emptyFiles : List UInt8 := emptyFileHeader.bytes ++ emptyFileHeader.bytes

/-- `-s 1024` -/
def pairContext : Context := { newContext with minBlockSize := 1024, min_lt := by decide }

/-- One file a frame, and both in one. -/
theorem attempt_larger_minimum_emptyFiles :
    ∃ a a', nullWorld.attempt newContext (.mapped emptyFiles) = some a ∧
      nullWorld.attempt pairContext (.mapped emptyFiles) = some a' ∧
      (frameSizes a'.calls).length ≤ (frameSizes a.calls).length ∧
      ∀ k, k ≤ (frameSizes a'.calls).length →
        offset (frameSizes a.calls) k ≤ offset (frameSizes a'.calls) k := by
  obtain ⟨a, ha, hreturns⟩ :
      ∃ a, nullWorld.attempt newContext (.mapped emptyFiles) = some a ∧ a.returns = true := by
    decide +kernel
  obtain ⟨a', ha', hreturns'⟩ :
      ∃ a, nullWorld.attempt pairContext (.mapped emptyFiles) = some a ∧ a.returns = true := by
    decide +kernel
  have hlen : emptyFiles.length = 1024 := by
    rw [emptyFiles, List.length_append, emptyFileHeader.size_eq]
  have hsmall : (Loaded.mapped emptyFiles).bytes.length < 2 ^ 62 := by
    rw [Loaded.bytes, hlen]
    decide
  have hroom : (TarPath.file nullWorld.after).Roomy newContext emptyFiles := by
    rw [TarPath.Roomy, hlen]
    decide
  have hpair : pairContext.Accepted := fun hne => absurd (by decide) hne
  exact ⟨a, a', ha, ha', @attempt_larger_minimum nullWorld newContext pairContext
    (.mapped emptyFiles) a a' (fun hne => absurd rfl hne) hpair rfl rfl rfl (by decide)
    (by decide) hsmall hroom ha hreturns ha' hreturns'⟩

/-- `-S` is of no account where the input does not get to it. -/
theorem attempt_unreached (hbits : ctx'.sizeBits = ctx.sizeBits)
    (hlow : ctx'.minBlockSize = ctx.minBlockSize) (hraw : ctx'.rawMode = ctx.rawMode)
    (hhigh : ctx.Unreached loaded.bytes.length) (hhigh' : ctx'.Unreached loaded.bytes.length)
    (hn : loaded.bytes.length < MAX_FRAME_SIZE) :
    world.attempt ctx' loaded = world.attempt ctx loaded := by
  have hmin : ctx'.clamp.minBlockSize = ctx.clamp.minBlockSize := by
    simp only [Context.clamp, hlow]
  cases hmode : ctx.rawMode with
  | true =>
      have hmode' := hraw.trans hmode
      have hmax : ctx'.clamp.maxBlockSize = ctx.clamp.maxBlockSize := by
        simp only [Context.clamp, hmode, hmode', Bool.true_or, if_true]
      have hclamp : ctx'.clamp = ctx.clamp := Context.eq_of_fields hbits hmin hmax hraw
      cases loaded with
      | mapped input => simp only [attempt, compressMapped, hclamp]
      | stream stream => simp only [attempt, hmode, hmode', compressRaw, hclamp, if_true]
  | false =>
      have hmode' := hraw.trans hmode
      have hctx : Alike loaded.bytes.length ctx.clamp ctx'.clamp :=
        ⟨hbits, hmin, hhigh.clamp hn, hhigh'.clamp hn⟩
      cases loaded with
      | mapped input =>
          -- The largest frame is less than half of what an address reaches.
          have hword : input.length + 512 < 2 ^ ctx.sizeBits := by
            have hshort : input.length < 0x7FFFFFFF := hn
            cases ctx.bits with
            | inl hbits =>
                rw [hbits]
                omega
            | inr hbits =>
                rw [hbits]
                omega
          have hloop : mappedLoop ctx'.clamp world.after input =
              mappedLoop ctx.clamp world.after input :=
            mappedLoop_alike hctx hmode hmode' hword ctx.clamp_max_le world.after
          simp only [attempt, compressMapped, hloop]
      | stream stream =>
          have hloop := compressStdinTar_alike hctx world.after
          simp only [attempt, hmode, hmode', compressStdin, hloop, Bool.false_eq_true, if_false]

/-- `-S 4096` -/
def wideContext : Context := { newContext with maxBlockSize := 4096, max_lt := by decide }

theorem attempt_unreached_emptyFiles :
    nullWorld.attempt wideContext (.mapped emptyFiles) =
      nullWorld.attempt newContext (.mapped emptyFiles) := by
  have hlen : (Loaded.mapped emptyFiles).bytes.length = 1024 := by
    rw [Loaded.bytes, emptyFiles, List.length_append, emptyFileHeader.size_eq]
  apply @attempt_unreached nullWorld newContext wideContext (.mapped emptyFiles) rfl rfl rfl
  · exact .inl rfl
  · rw [hlen]
    exact .inr (by decide)
  · rw [hlen]
    decide

end World

end T2sz
