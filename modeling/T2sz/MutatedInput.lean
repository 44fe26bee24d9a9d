import T2sz.FileRefinement
import T2sz.Fuzzing
import T2sz.RawFrames
import T2sz.StdinRefinement
import T2sz.Unclamped

/-!
No parser stops at a header of a mutated input.

Both parsers look for a header only where an element ends, and elements are whole
blocks, so what they read there is a block that the mutator has seen. What is
behind the checksum is reached by every mutated input.
-/

namespace T2sz

open Iteration

set_option maxRecDepth 4000

section Alignment

variable {rule : PaxRule} {input : List UInt8} {c d : Cursor}

theorem extensionBytes_mod {fuel pos extra : Nat} (h : extensionBytes input fuel pos = some extra) :
    extra % 512 = 0 := by
  induction fuel generalizing pos extra with
  | zero => cases h
  | succ fuel ih =>
      simp only [extensionBytes] at h
      split at h
      case isTrue => cases h
      case isFalse =>
        split at h
        case isTrue =>
          obtain ⟨rest, hrest, rfl⟩ := Option.map_eq_some_iff.mp h
          have hmod := ih hrest
          omega
        case isFalse =>
          cases h
          rfl

theorem recognise_length_mod {idx pax : Nat} {e : Entry} (h : recognise input idx pax = some e) :
    e.length % 512 = 0 := by
  have hextensions : e.extensions % 512 = 0 := by
    have hsparse := (recognise_spec h).2.2.2.1
    rw [sparseBytes] at hsparse
    split at hsparse
    case isTrue => exact extensionBytes_mod hsparse
    case isFalse => rw [← Option.some.inj hsparse]
  have hround := roundUp_mod e.size
  rw [Entry.length]
  omega

/-- Elements start at multiples of 512. -/
theorem nextCursor_mod (h : nextCursor rule input c = some d) (hc : c.idx % 512 = 0) :
    d.idx % 512 = 0 := by
  obtain ⟨-, ⟨-, rfl⟩ | ⟨-, e, he, rfl⟩⟩ := nextCursor_cases h
  · change (c.idx + 512) % 512 = 0
    omega
  · have hlength := recognise_length_mod he
    rw [Cursor.pastEntry_idx]
    omega

theorem reached_mod (h : Reached (scanStep rule input) .init c) : c.idx % 512 = 0 :=
  h.invariant (fun _ _ hs hst => nextCursor_mod (scanStep_next hst) hs) rfl

end Alignment

/-- A block that a parser rejects. -/
structure Rejected (input : List UInt8) (idx : Nat) : Prop where
  fits : idx + 512 ≤ input.length
  nonzero : isZeroTarBlock (blockAt input idx) = false
  invalid : isTarHeader (headerAt input idx) = false

/-- There is none of them in a mutated input. -/
theorem Rejected.not_mutated {data : List UInt8} {idx : Nat}
    (h : Rejected (customMutator data) idx) (hidx : idx % 512 = 0) : False := by
  obtain ⟨k, rfl⟩ := Nat.dvd_of_mod_eq_zero hidx
  have hmutated := customMutator_mutated data
  have hk := h.fits
  rw [length_customMutator] at hk
  have hnonzero := h.nonzero
  rw [hmutated.zero hk] at hnonzero
  exact Bool.false_ne_true (h.invalid.symm.trans (hmutated.valid hk hnonzero))

section Mapped

variable {ctx : Context} {after : Nat → List UInt8} {input data : List UInt8} {s t : FileState}
  {e : Exit}

theorem fileEntry_rejects (h : fileEntry ctx after input s = .error .invalidHeader) :
    isTarHeader (headerAt input s.tarHeaderIdx) = false := by
  by_cases hvalid : isTarHeader (headerAt input s.tarHeaderIdx) = true
  case neg => exact Bool.eq_false_iff.mpr hvalid
  simp only [fileEntry, if_pos hvalid] at h
  by_cases hlarge : input.length < (tarEntrySize (headerAt input s.tarHeaderIdx) s.paxNextSize).1
  · rw [if_pos hlarge] at h
    cases h
  · rw [if_neg hlarge] at h
    generalize (paddedSize ctx.sizeBits _ + 512 + _) % 2 ^ ctx.sizeBits = toNextHeader at h
    by_cases hfits : usub ctx.sizeBits input.length s.tarHeaderIdx < toNextHeader
    · rw [if_pos hfits] at h
      cases h
    · rw [if_neg hfits] at h
      cases h

theorem fileElement_rejects (hword : s.tarHeaderIdx + 512 < 2 ^ ctx.sizeBits)
    (h : fileElement ctx after input s = .error .invalidHeader) :
    Rejected input s.tarHeaderIdx := by
  simp only [fileElement] at h
  split at h
  case isTrue => cases h
  case isFalse =>
    split at h
    case isTrue => cases h
    case isFalse hroom =>
      rw [uadd_eq hword] at hroom
      split at h
      case isTrue hzero =>
        exact ⟨Nat.le_of_not_lt hroom, by simpa using hzero, fileEntry_rejects h⟩
      case isFalse => cases h

theorem tarStep_exit (h : tarStep ctx after input s = .exit e t) :
    fileElement ctx after input s = .error e := by
  simp only [tarStep] at h
  split at h
  case h_1 _ herror => rw [herror, (Step.exit.inj h).1]
  case h_2 =>
    split at h
    · cases h
    · rw [emitBlock] at h
      split at h <;> cases h

/-- Over a mapped file. -/
theorem compressMapped_accepts (hroom : 2 * data.length + 4096 ≤ 2 ^ ctx.sizeBits)
    (h : compressMapped ctx after (customMutator data) = some (.exited e t)) :
    e ≠ .invalidHeader := by
  rintro rfl
  cases hmode : ctx.rawMode with
  | true =>
      obtain ⟨s, hs, -⟩ := compressMapped_slices hmode after (customMutator data)
      rw [h] at hs
      cases hs
  | false =>
      have hlength := length_customMutator data
      have hspace : 2 * (customMutator data).length + 4096 ≤ 2 ^ ctx.clamp.sizeBits := by
        rw [hlength]
        exact hroom
      obtain ⟨r, hr, hr'⟩ := Option.map_eq_some_iff.mp h
      rw [fileStep_tar ctx.clamp hmode] at hr
      have hexit : r = .exited .invalidHeader t := by
        cases r with
        | exited e s => exact hr'
        | returned s =>
            rw [requireEntries] at hr'
            split at hr' <;> cases hr'
      subst hexit
      obtain ⟨s, c, hreached, ⟨hinv, hat⟩, hend⟩ := (runs_of_iterate hr).tracks
        (fun s c hsc => tarStep_matches hspace ctx.clamp_max_le.1 hsc.1 hsc.2)
        (show FileInv ctx.clamp (customMutator data) .init ∧ At .init .init from
          ⟨fileInv_init _ _, rfl, rfl, rfl⟩)
      have hidx := hinv.idx_le
      have hrejected := fileElement_rejects (by omega) (tarStep_exit hend)
      exact hrejected.not_mutated (hat.idx ▸ reached_mod hreached)

end Mapped

section Streamed

variable {ctx : Context} {after : Nat → List UInt8} {stream : Stream} {data : List UInt8}
  {fails : Bool} {s t : StdinState} {e : Exit}

theorem ending_ne (stream : Stream) : stream.ending ≠ .invalidHeader := by
  rw [Stream.ending]
  split <;> decide

theorem stdinHeader_rejects (h : stdinHeader ctx stream after s = .error .invalidHeader) :
    isTarHeader (headerAt stream.bytes s.pos) = false := by
  simp only [stdinHeader] at h
  split at h
  case isTrue hinvalid => simpa using hinvalid
  case isFalse =>
    split at h
    case isTrue => cases h
    case isFalse =>
      split at h
      · exact absurd (holdEntry_ending h).symm (ending_ne stream)
      · exact absurd (streamEntry_ending h).symm (ending_ne stream)

theorem stdinStep_rejects (hpos : s.pos ≤ stream.bytes.length)
    (h : stdinStep ctx after stream s = .exit .invalidHeader t) : Rejected stream.bytes s.pos := by
  have hround := stdinStep_round ctx after stream hpos
  rw [h] at hround
  cases hround with
  | ended hend hfinish => cases finishStdin_exit hfinish
  | rejected hroom hzero herror =>
      have hinvalid := stdinHeader_rejects herror
      rw [(headerState_same ctx s).1] at hinvalid
      exact ⟨hroom, hzero, hinvalid⟩

/-- Over a stream. -/
theorem compressStdin_accepts (hn : data.length < 2 ^ 62)
    (h : compressStdin ctx after ⟨customMutator data, fails⟩ = some (.exited e t)) :
    e ≠ .invalidHeader := by
  rintro rfl
  have hlength := length_customMutator data
  have hmax := ctx.clamp_max_le.1
  have hsmall : (customMutator data).length < 2 ^ 62 := by rwa [hlength]
  obtain ⟨s, c, hreached, ⟨hinv, hat⟩, hend⟩ := (runs_of_iterate h).tracks
    (fun s c hsc => (stdinStep_inStep hmax hsmall hsc.1 hsc.2).matches)
    (show StdinInv ctx.clamp (customMutator data) .init ∧ StdinAt .init .init from
      ⟨stdinInv_init _ _, rfl, rfl, rfl, rfl⟩)
  exact (stdinStep_rejects hinv.pos_le hend).not_mutated (hat.idx ▸ reached_mod hreached)

/-- In raw mode only a read error ends a run. -/
theorem compressStdinRaw_exits {inChunk : Nat} {short : Nat → Nat} {t : RawState}
    (h : compressStdinRaw ctx inChunk short stream = some (.exited e t)) : stream.fails = true := by
  obtain ⟨s, -, hend⟩ := (runs_of_iterate h).invariant (I := fun _ => True)
    (fun _ _ _ _ => trivial) trivial
  have hexit : stdinRawStep ctx inChunk short stream s = .exit e t := hend
  rw [stdinRawStep] at hexit
  split at hexit
  case isTrue =>
    simp only [streamRawStep] at hexit
    split at hexit
    case isTrue => cases hexit
    case isFalse =>
      split at hexit
      case isTrue hfails => exact hfails
      case isFalse => cases hexit
  case isFalse =>
    simp only [fixedRawStep] at hexit
    split at hexit
    case h_1 _ herror => exact fillFrame_error _ herror
    case h_2 =>
      split at hexit
      · cases hexit
      · split at hexit <;> cases hexit

end Streamed

end T2sz
