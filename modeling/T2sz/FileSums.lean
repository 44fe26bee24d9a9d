import T2sz.Archive
import T2sz.Checksum
import T2sz.Framing

/-!
The sums of the mapped-file branch.

No entry is larger than the input, so rounding its size does not wrap. The extension
blocks of a sparse entry lie in the input too, but the size does not count them:
in a `size_t` of 32 bits both together may be more than fits.
-/

namespace T2sz

open Iteration

set_option maxRecDepth 4000

/-- The extension blocks of the entry at `idx`. -/
def chainBytes (input : List UInt8) (idx : Nat) : Nat :=
  if hasSparseExtension (headerAt input idx) then
    extensionChain input (input.length + 1) (idx + 512)
  else 0

/-- The `entrySize` that the loop reads in this state. -/
def entrySizeAt (input : List UInt8) (s : FileState) : Nat :=
  (tarEntrySize (headerAt input s.tarHeaderIdx) s.paxNextSize).1

/-- `toNextHeader` for an entry of this size at `idx`. -/
def toNextHeader (w : Nat) (input : List UInt8) (idx entrySize : Nat) : Nat :=
  (paddedSize w entrySize + 512 +
    if hasSparseExtension (headerAt input idx) then sparseWalk w input idx (input.length + 1) 0
    else 0) % 2 ^ w

/-- A state in which the loop takes a header for an entry no larger than the input. -/
structure HeaderReached (ctx : Context) (after : Nat → List UInt8) (input : List UInt8)
    (s : FileState) : Prop where
  reached : Reached (fileStep ctx.clamp after input) .init s
  residual : s.residual = 0
  room : s.tarHeaderIdx + 512 ≤ input.length
  entry : isZeroTarBlock (blockAt input s.tarHeaderIdx) = false
  valid : isTarHeader (headerAt input s.tarHeaderIdx) = true
  size_le : entrySizeAt input s ≤ input.length

/-- The sums are exact, an entry that is not all there is refused, and one that is
moves the next header by its length. -/
structure ExactSums (ctx : Context) (after : Nat → List UInt8) (input : List UInt8)
    (s : FileState) : Prop where
  padded : paddedSize ctx.sizeBits (entrySizeAt input s) = roundUp (entrySizeAt input s)
  sum : toNextHeader ctx.sizeBits input s.tarHeaderIdx (entrySizeAt input s) =
    roundUp (entrySizeAt input s) + 512 + chainBytes input s.tarHeaderIdx
  refused : recognise input s.tarHeaderIdx s.paxNextSize = none →
    fileStep ctx.clamp after input s = .exit .truncatedEntry s
  advances : ∀ e, recognise input s.tarHeaderIdx s.paxNextSize = some e →
    (fileStep ctx.clamp after input s).state.tarHeaderIdx = s.tarHeaderIdx + e.length

/-- The payload and the extension blocks leave room for the header and for rounding. -/
def LeavesRoom (ctx : Context) (input : List UInt8) (s : FileState) : Prop :=
  entrySizeAt input s + chainBytes input s.tarHeaderIdx + 1024 ≤ 2 ^ ctx.sizeBits

section Chains

variable {input : List UInt8} {idx : Nat}

theorem extensionChain_mod (fuel pos : Nat) : extensionChain input fuel pos % 512 = 0 := by
  induction fuel generalizing pos with
  | zero => rfl
  | succ fuel ih =>
      have hrest := ih (pos + 512)
      rw [extensionChain]
      split <;> omega

/-- A chain of `k` flagged blocks. -/
theorem extensionChain_flagged {k fuel pos : Nat} (hfuel : k < fuel)
    (hflags : ∀ i, i < k → pos + 512 * i + 512 ≤ input.length ∧
      input.getD (pos + 512 * i + 504) 0 ≠ 0)
    (hlast : ¬ (pos + 512 * k + 512 ≤ input.length ∧ input.getD (pos + 512 * k + 504) 0 ≠ 0)) :
    extensionChain input fuel pos = 512 * k + 512 := by
  induction k generalizing fuel pos with
  | zero =>
      obtain ⟨fuel, rfl⟩ := Nat.exists_eq_succ_of_ne_zero (Nat.ne_of_gt hfuel)
      rw [extensionChain, if_neg hlast]
  | succ k ih =>
      obtain ⟨fuel, rfl⟩ := Nat.exists_eq_succ_of_ne_zero (Nat.ne_of_gt (Nat.zero_lt_of_lt hfuel))
      have hnext : ∀ i, pos + 512 + 512 * i = pos + 512 * (i + 1) := fun i => by omega
      have hrest := @ih fuel (pos + 512) (by omega)
        (fun i hi => by rw [hnext]; exact hflags (i + 1) (by omega)) (by rwa [hnext])
      rw [extensionChain, if_pos (hflags 0 (Nat.succ_pos k)), hrest]
      omega

theorem chainBytes_mod (input : List UInt8) (idx : Nat) : chainBytes input idx % 512 = 0 := by
  rw [chainBytes]
  split
  · exact extensionChain_mod _ _
  · rfl

theorem chainBytes_eq {w : Nat} (hw : input.length + 4096 ≤ 2 ^ w)
    (hidx : idx + 512 ≤ input.length) :
    (if hasSparseExtension (headerAt input idx) then sparseWalk w input idx (input.length + 1) 0
      else 0) = chainBytes input idx := by
  rw [chainBytes, sparseWalk_eq hw _ hidx, Nat.zero_add, Nat.add_zero]

end Chains

section Sums

variable {ctx : Context} {after : Nat → List UInt8} {input : List UInt8} {s t : FileState}

/-- A round that takes an entry leaves the next header where the entry put it. -/
theorem tarStep_idx (h : fileElement ctx after input s = .ok t) :
    (tarStep ctx after input s).state.tarHeaderIdx = t.tarHeaderIdx := by
  have hsplit : (splitBlock ctx input t).tarHeaderIdx = t.tarHeaderIdx := by
    simp only [splitBlock]
    split <;> rfl
  rw [tarStep, h, ← hsplit]
  simp only [emitBlock, emit]
  split
  · rfl
  · split <;> rfl

theorem HeaderReached.core (htar : ctx.rawMode = false)
    (hn : input.length + 4096 ≤ 2 ^ ctx.sizeBits) (h : HeaderReached ctx after input s) :
    TarCore input s := by
  have hword : input.length + 512 < 2 ^ ctx.clamp.sizeBits := by
    rw [show ctx.clamp.sizeBits = ctx.sizeBits from rfl]
    omega
  have hreached := h.reached
  rw [fileStep_tar ctx.clamp htar] at hreached
  exact hreached.invariant (fun s t hs hst => tarStep_next hword ctx.clamp_max_le hs hst)
    (tarCore_init input)

theorem HeaderReached.element (hn : input.length + 4096 ≤ 2 ^ ctx.sizeBits)
    (h : HeaderReached ctx after input s) :
    fileElement ctx.clamp after input s = fileEntry ctx.clamp after input s := by
  have hroom := h.room
  have hadd : uadd ctx.clamp.sizeBits s.tarHeaderIdx 512 = s.tarHeaderIdx + 512 :=
    uadd_eq (show s.tarHeaderIdx + 512 < 2 ^ ctx.sizeBits by omega)
  rw [fileElement, if_neg (not_not.mpr h.residual), hadd, if_neg (Nat.not_lt.mpr hroom), h.entry]
  rfl

/-- Sums that do not wrap are exact, and so is what the round does with them. -/
theorem exactSums_of_lt (htar : ctx.rawMode = false)
    (hn : input.length + 4096 ≤ 2 ^ ctx.sizeBits) (h : HeaderReached ctx after input s)
    (hsum : roundUp (entrySizeAt input s) + 512 + chainBytes input s.tarHeaderIdx <
      2 ^ ctx.sizeBits) : ExactSums ctx after input s := by
  have hcore := (h.core htar hn).idx_eq
  have hround := roundUp_lt (entrySizeAt input s)
  have hle := h.size_le
  have hpadded : paddedSize ctx.sizeBits (entrySizeAt input s) = roundUp (entrySizeAt input s) :=
    paddedSize_eq (by omega)
  have hchain := chainBytes_eq hn h.room
  have hstep : fileStep ctx.clamp after input = tarStep ctx.clamp after input :=
    fileStep_tar ctx.clamp htar after input
  obtain ⟨hnone, hsome⟩ := @fileEntry_exact ctx.clamp after input s hn h.room (by omega)
    (entrySizeAt input s) _ _ h.valid rfl hle hchain hsum
  refine ⟨hpadded, ?_, ?_, ?_⟩
  · rw [toNextHeader, hpadded, hchain, Nat.mod_eq_of_lt hsum]
  · intro hrec
    rw [hstep, tarStep, h.element hn, hnone hrec]
  · intro e hrec
    rw [hstep, tarStep_idx ((h.element hn).trans (hsome e hrec))]

/-- Only an entry with extension blocks can lack room. -/
theorem leavesRoom_plain (hn : input.length + 4096 ≤ 2 ^ ctx.sizeBits)
    (hle : entrySizeAt input s ≤ input.length)
    (hplain : hasSparseExtension (headerAt input s.tarHeaderIdx) = false) :
    LeavesRoom ctx input s := by
  rw [LeavesRoom, chainBytes, hplain, if_neg Bool.false_ne_true]
  omega

/-- And only in a file of half the address space. -/
theorem leavesRoom_half (hhalf : 2 * input.length + 4096 ≤ 2 ^ ctx.sizeBits)
    (hroom : s.tarHeaderIdx + 512 ≤ input.length) (hle : entrySizeAt input s ≤ input.length) :
    LeavesRoom ctx input s := by
  have hword : input.length + 4096 ≤ 2 ^ ctx.sizeBits := by omega
  have hinside := (sparseExt_spec hword hroom (chainBytes_eq hword hroom)).1
  rw [LeavesRoom]
  omega

end Sums

/-- In every state in which the loop over a mapped tar file takes a header, its sums
are exact when the entry leaves room in a `size_t`, and only then. -/
theorem exactSums_iff {ctx : Context} (htar : ctx.rawMode = false) (after : Nat → List UInt8)
    {input : List UInt8} (hn : input.length + 4096 ≤ 2 ^ ctx.sizeBits) {s : FileState}
    (h : HeaderReached ctx after input s) :
    ExactSums ctx after input s ↔ LeavesRoom ctx input s := by
  have hw : 9 ≤ ctx.sizeBits := by
    cases ctx.bits with
    | inl h32 => omega
    | inr h64 => omega
  rw [LeavesRoom, ← roundUp_add_lt_iff hw (chainBytes_mod input s.tarHeaderIdx)]
  constructor
  · intro hexact
    rw [← hexact.sum]
    exact Nat.mod_lt _ (Nat.two_pow_pos _)
  · exact exactSums_of_lt htar hn h

/-- The header of the sparse file, which has an extension block behind it. -/
theorem exactSums_iff_sample :
    ∃ s, HeaderReached sampleContext (fun _ => []) sampleArchive.bytes s ∧
      s.tarHeaderIdx = 2560 ∧ chainBytes sampleArchive.bytes 2560 = 512 ∧
      ExactSums sampleContext (fun _ => []) sampleArchive.bytes s := by
  obtain ⟨s, hs, ⟨hres, hroom, hentry, hvalid, hsize⟩, hidx, hchain⟩ :
      ∃ s, follow (fileStep sampleContext.clamp (fun _ => []) sampleArchive.bytes) 4 .init =
          some s ∧
        (s.residual = 0 ∧ s.tarHeaderIdx + 512 ≤ sampleArchive.bytes.length ∧
          isZeroTarBlock (blockAt sampleArchive.bytes s.tarHeaderIdx) = false ∧
          isTarHeader (headerAt sampleArchive.bytes s.tarHeaderIdx) = true ∧
          entrySizeAt sampleArchive.bytes s ≤ sampleArchive.bytes.length) ∧
        s.tarHeaderIdx = 2560 ∧ chainBytes sampleArchive.bytes 2560 = 512 := by
    decide +kernel
  have hreached : HeaderReached sampleContext (fun _ => []) sampleArchive.bytes s :=
    ⟨reached_of_follow hs, hres, hroom, hentry, hvalid, hsize⟩
  have hhalf := room_of_bits (show sampleContext.sizeBits = 64 from rfl) sampleArchive_lt
  exact ⟨s, hreached, hidx, hchain, (exactSums_iff rfl _ (by omega) hreached).mpr
    (leavesRoom_half hhalf hroom hsize)⟩

/-- The settings of a 32-bit build. -/
def narrowContext : Context where
  sizeBits := 32
  minBlockSize := 0
  maxBlockSize := 0
  rawMode := false
  bits := .inl rfl
  min_lt := by decide
  max_lt := by decide

/-- A sparse header with extension blocks, of 2^31 - 1 bytes. -/
def sparseHeader : TarHeader :=
  TarHeader.setByte (.ofFields ([0x31] ++ List.replicate 10 0x37 ++ [0])
    [0x30, 0x30, 0x31, 0x36, 0x35, 0x33, 0, 0x20] 0x53 rfl rfl) 482 1

/-- Behind that header `n` bytes, in which every extension block is flagged. -/
def flaggedInput (n : Nat) : List UInt8 := sparseHeader.bytes ++ List.replicate n 1

section Flagged

variable {n : Nat}

theorem flaggedInput_length (n : Nat) : (flaggedInput n).length = n + 512 := by
  rw [flaggedInput, List.length_append, sparseHeader.size_eq, List.length_replicate, Nat.add_comm]

theorem flaggedInput_header (n : Nat) : headerAt (flaggedInput n) 0 = sparseHeader :=
  headerAt_append sparseHeader _

theorem flaggedInput_flag {i : Nat} (hlow : 512 ≤ i) (hhigh : i < n + 512) :
    (flaggedInput n).getD i 0 = 1 := by
  have hlen := sparseHeader.size_eq
  rw [flaggedInput, List.getD_append_right _ _ _ _ (by omega), List.getD_eq_getElem?_getD,
    List.getElem?_replicate, if_pos (by omega), Option.getD_some]

theorem sparseHeader_valid : isTarHeader sparseHeader = true := by decide +kernel

theorem sparseHeader_size :
    tarEntrySize sparseHeader UINT64_MAX = (2 ^ 31 - 1, UINT64_MAX) := by decide +kernel

theorem flaggedInput_entrySize (n : Nat) : entrySizeAt (flaggedInput n) .init = 2 ^ 31 - 1 := by
  rw [entrySizeAt, show FileState.init.tarHeaderIdx = 0 from rfl, flaggedInput_header,
    show FileState.init.paxNextSize = UINT64_MAX from rfl, sparseHeader_size]

theorem flaggedInput_mapped (hn : n = 2 ^ 31 - 513) :
    (flaggedInput n).length + 4096 ≤ 2 ^ narrowContext.sizeBits := by
  rw [flaggedInput_length, show narrowContext.sizeBits = 32 from rfl]
  omega

/-- The chain goes on to the end of the input, and one block behind the last one. -/
theorem flaggedInput_chainBytes (hn : n = 2 ^ 31 - 513) :
    chainBytes (flaggedInput n) 0 = 2 ^ 31 - 512 := by
  have hlen := flaggedInput_length n
  have hflag : hasSparseExtension sparseHeader = true := by decide +kernel
  have hchain := @extensionChain_flagged (flaggedInput n) (n / 512)
    ((flaggedInput n).length + 1) (0 + 512) (by omega)
    (by
      intro i hi
      rw [hlen, flaggedInput_flag (by omega) (by omega)]
      exact ⟨by omega, by decide⟩)
    (by
      rintro ⟨hroom, -⟩
      omega)
  rw [chainBytes, flaggedInput_header, hflag, if_pos rfl, hchain]
  omega

theorem flaggedInput_reached (hn : n = 2 ^ 31 - 513) :
    HeaderReached narrowContext (fun _ => []) (flaggedInput n) .init := by
  have hlen := flaggedInput_length n
  have hidx : FileState.init.tarHeaderIdx = 0 := rfl
  refine ⟨.refl, rfl, ?_, ?_, ?_, ?_⟩
  · rw [hidx, hlen]
    omega
  · rw [hidx, ← headerAt_bytes (by omega), flaggedInput_header]
    exact not_zero_of_isTarHeader sparseHeader_valid
  · rw [hidx, flaggedInput_header, sparseHeader_valid]
  · rw [flaggedInput_entrySize, hlen]
    omega

/-- Header, chain and payload are longer than the input. -/
theorem flaggedInput_unrecognised (hn : n = 2 ^ 31 - 513) :
    recognise (flaggedInput n) 0 UINT64_MAX = none := by
  have hlen := flaggedInput_length n
  have hroom : 0 + 512 ≤ (flaggedInput n).length := by omega
  have hcount := chainBytes_eq (flaggedInput_mapped hn) hroom
  obtain ⟨-, hsome, -⟩ := sparseExt_spec (flaggedInput_mapped hn) hroom hcount
  cases hrec : recognise (flaggedInput n) 0 UINT64_MAX with
  | none => rfl
  | some e =>
      obtain ⟨hsame, -, hread, hbytes, hfits⟩ := recognise_spec hrec
      rw [hsame] at hread hbytes
      rw [flaggedInput_header, sparseHeader_size] at hread
      have hextensions := hsome _ hbytes
      rw [flaggedInput_chainBytes hn] at hextensions
      rw [Entry.length, hextensions, hlen] at hfits
      omega

/-- The sum is 2^32. -/
theorem flaggedInput_taken (hn : n = 2 ^ 31 - 513) :
    ∃ t, fileElement narrowContext.clamp (fun _ => []) (flaggedInput n) .init = .ok t ∧
      t.tarHeaderIdx = 0 := by
  have hlen := flaggedInput_length n
  have hreached := flaggedInput_reached hn
  have hcount := chainBytes_eq (flaggedInput_mapped hn) hreached.room
  have hclamp : narrowContext.clamp.sizeBits = 32 := rfl
  have hidx : FileState.init.tarHeaderIdx = 0 := rfl
  have hpax : FileState.init.paxNextSize = UINT64_MAX := rfl
  have hpadded : paddedSize 32 (2 ^ 31 - 1) = 2 ^ 31 := by decide
  have hzero : (2 ^ 31 + 512 + (2 ^ 31 - 512)) % 2 ^ 32 = 0 := by decide
  rw [hidx, flaggedInput_chainBytes hn, flaggedInput_header,
    show narrowContext.sizeBits = 32 from rfl] at hcount
  rw [hreached.element (flaggedInput_mapped hn)]
  simp only [fileEntry, hclamp, hidx, hpax, flaggedInput_header, sparseHeader_valid,
    sparseHeader_size, hcount, hpadded, hzero, if_true]
  rw [if_neg (by omega), if_neg (Nat.not_lt_zero _)]
  exact ⟨_, rfl, rfl⟩

end Flagged

/-- A file of 2^31 - 1 bytes on 32 bits: its entry is not all there, but the length
comes out as 0 and the entry is taken. -/
theorem flaggedInput_wraps :
    HeaderReached narrowContext (fun _ => []) (flaggedInput (2 ^ 31 - 513)) .init ∧
    (flaggedInput (2 ^ 31 - 513)).length + 4096 ≤ 2 ^ narrowContext.sizeBits ∧
    recognise (flaggedInput (2 ^ 31 - 513)) 0 UINT64_MAX = none ∧
    (∃ t, fileElement narrowContext.clamp (fun _ => []) (flaggedInput (2 ^ 31 - 513)) .init =
      .ok t ∧ t.tarHeaderIdx = 0) ∧
    ¬ ExactSums narrowContext (fun _ => []) (flaggedInput (2 ^ 31 - 513)) .init := by
  obtain ⟨n, hn⟩ : ∃ n, n = 2 ^ 31 - 513 := ⟨_, rfl⟩
  rw [← hn]
  refine ⟨flaggedInput_reached hn, flaggedInput_mapped hn, flaggedInput_unrecognised hn,
    flaggedInput_taken hn, ?_⟩
  intro hexact
  have hlen := flaggedInput_length n
  have hsum := hexact.sum
  have hlt : toNextHeader 32 (flaggedInput n) 0 (2 ^ 31 - 1) < 2 ^ 32 := Nat.mod_lt _ (by decide)
  have hround : roundUp (2 ^ 31 - 1) = 2 ^ 31 := by decide
  rw [flaggedInput_entrySize, show FileState.init.tarHeaderIdx = 0 from rfl, hround,
    flaggedInput_chainBytes hn, show narrowContext.sizeBits = 32 from rfl] at hsum
  omega

end T2sz
