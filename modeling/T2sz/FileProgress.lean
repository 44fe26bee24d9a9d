import T2sz.FrameContents

/-!
The loops over a mapped file end, and no block that they compress is empty.
-/

namespace T2sz

open Iteration

set_option maxRecDepth 4000

/-- What was compressed: pieces of the input, in order, none of them empty. -/
structure Pieces (input : List UInt8) (calls : List Call) : Prop where
  frames : ∀ call ∈ calls, ∃ src, call = .frame src ∧ src ≠ []
  fed : fedBytes calls <+: input

section Blocks

variable {ctx : Context} {after : Nat → List UInt8} {input : List UInt8} {s t : FileState}

theorem Pieces.length_le {calls : List Call} (h : Pieces input calls) :
    calls.length ≤ input.length := by
  have hfed : ∀ calls : List Call, (∀ call ∈ calls, ∃ src, call = .frame src ∧ src ≠ []) →
      calls.length ≤ (fedBytes calls).length := by
    intro calls hframes
    induction calls with
    | nil => exact Nat.le_refl 0
    | cons call calls ih =>
        obtain ⟨src, rfl, hne⟩ := hframes call List.mem_cons_self
        have hrest := ih fun c hc => hframes c (List.mem_cons_of_mem _ hc)
        have hsrc := List.length_pos_iff.mpr hne
        have hcons : fedBytes (.frame src :: calls) = src ++ fedBytes calls := rfl
        rw [hcons, List.length_append, List.length_cons]
        omega
  exact Nat.le_trans (hfed calls h.frames) h.fed.length_le

/-- One more block, from where the last one ended. -/
theorem Pieces.emit (h : Pieces input s.calls) (hread : fedBytes s.calls = input.take s.readBuff)
    (hpos : 0 < s.blockSize) (hfits : s.readBuff + s.blockSize ≤ input.length) :
    Pieces input (emit input s).calls := by
  constructor
  · intro call hcall
    simp only [T2sz.emit, List.mem_append, List.mem_singleton] at hcall
    cases hcall with
    | inl hold => exact h.frames call hold
    | inr hnew =>
        refine ⟨_, hnew, ?_⟩
        apply List.ne_nil_of_length_pos
        rw [List.length_take, List.length_drop]
        omega
  · simp only [T2sz.emit]
    rw [fed_emit hread]
    exact List.take_prefix _ _

theorem emitBlock_pieces (h : Pieces input s.calls)
    (hread : fedBytes s.calls = input.take s.readBuff) (hpos : 0 < s.blockSize)
    (hfits : s.readBuff + s.blockSize ≤ input.length) :
    Pieces input (emitBlock input s).state.calls := by
  have hemit := h.emit hread hpos hfits
  simp only [emitBlock]
  split
  case isTrue => exact hemit
  case isFalse => exact hemit

theorem closeRound_pieces (hgrown : FileGrown ctx input t) (h : Pieces input t.calls) :
    Pieces input (closeRound ctx input t).state.calls := by
  have hcursor := hgrown.cursor
  have hidx := hgrown.idx_le
  simp only [closeRound]
  split
  case isTrue => exact h
  case isFalse => exact emitBlock_pieces h hgrown.fed hgrown.pos (by omega)

theorem fileElement_calls (h : fileElement ctx after input s = .ok t) : t.calls = s.calls := by
  obtain ⟨-, rfl⟩ | ⟨-, -, rfl | ⟨_, _, _, -, rfl⟩⟩ := fileElement_cases h
  · simp only [takeResidual]
    split <;> rfl
  · rfl
  · rfl

/-- What a round takes into the block, it takes from the input. -/
theorem fileElement_grown (hroom : 2 * input.length + 4096 ≤ 2 ^ ctx.sizeBits)
    (hmax : 1 ≤ ctx.maxBlockSize) (h : FileInv ctx input s)
    (ht : fileElement ctx after input s = .ok t) :
    FileGrown ctx input (splitBlock ctx input t) := by
  by_cases hres : s.residual = 0
  · cases hd : nextCursor (filePaxRule ctx after input) input
        ⟨s.tarHeaderIdx, s.paxNextSize, 0, s.log⟩ with
    | none =>
        obtain ⟨e, hstuck⟩ := fileElement_stuck hroom h hres ⟨rfl, rfl, rfl⟩ hd
        rw [hstuck] at ht
        cases ht
    | some d =>
        obtain ⟨u, hu, hcore, hpos, hres', -⟩ :=
          fileElement_next hroom hmax h hres ⟨rfl, rfl, rfl⟩ hd
        rw [hu, Except.ok.injEq] at ht
        subst ht
        exact splitBlock_grown hmax hcore hpos (.inl hres')
  · rw [fileElement, if_pos hres, Except.ok.injEq] at ht
    subst ht
    obtain ⟨hcore, hpos, hcut, -⟩ := takeResidual_core h hres hmax
    exact splitBlock_grown hmax hcore hpos hcut

/-- A round of the tar loop. -/
theorem tarStep_pieces (hroom : 2 * input.length + 4096 ≤ 2 ^ ctx.sizeBits)
    (hmax : 1 ≤ ctx.maxBlockSize) (h : FileInv ctx input s) (hp : Pieces input s.calls) :
    Pieces input (tarStep ctx after input s).state.calls ∧
      ∀ u, tarStep ctx after input s = .next u → FileInv ctx input u := by
  cases ht : fileElement ctx after input s with
  | error e =>
      have hstep : tarStep ctx after input s = .exit e s := by simp only [tarStep, ht]
      rw [hstep]
      refine ⟨hp, ?_⟩
      intro u hu
      cases hu
  | ok t =>
      have hgrown := fileElement_grown hroom hmax h ht
      rw [tarStep_ok ht]
      constructor
      · apply closeRound_pieces hgrown
        have hcalls : (splitBlock ctx input t).calls = s.calls := by
          rw [← fileElement_calls ht]
          simp only [splitBlock]
          split <;> rfl
        rw [hcalls]
        exact hp
      · intro u hu
        obtain ⟨v, hv, hinv, -⟩ | ⟨v, hv, -⟩ := closeRound_spec hmax hgrown
        · rw [hv] at hu
          cases hu
          exact hinv
        · rw [hv] at hu
          cases hu

end Blocks

section Raw

variable {ctx : Context} {input : List UInt8} {s : FileState}

/-- What a raw round does: it stops behind the last byte, or compresses `k` bytes
and goes on, or compresses what is left when that is less. -/
theorem rawStep_cases {k : Nat}
    (hk : (if ctx.minBlockSize ≠ 0 then ctx.minBlockSize else ctx.maxBlockSize) = k)
    (hpos : 0 < k) (hread : s.readBuff ≤ input.length) (hmore : s.lastChunk = false)
    (hresidual : s.residual = 0) :
    (s.readBuff = input.length ∧ rawStep ctx input s = .done s) ∨
    ∃ n t, 0 < n ∧ s.readBuff + n ≤ input.length ∧ t.readBuff = s.readBuff + n ∧
      t.calls = s.calls ++ [.frame ((input.drop s.readBuff).take n)] ∧
      ((n = k ∧ t.lastChunk = false ∧ t.residual = 0 ∧ rawStep ctx input s = .next t) ∨
        (n < k ∧ s.readBuff + n = input.length ∧ rawStep ctx input s = .done t)) := by
  by_cases hend : input.length - s.readBuff = 0
  · refine .inl ⟨by omega, ?_⟩
    simp only [rawStep, hend, if_true]
  · right
    simp only [rawStep, hk, if_neg hend]
    by_cases hlast : input.length - s.readBuff < k
    · rw [if_pos hlast]
      refine ⟨input.length - s.readBuff,
        emit input { s with blockSize := input.length - s.readBuff, lastChunk := true },
        Nat.pos_of_ne_zero hend, by omega, rfl, rfl, .inr ⟨hlast, by omega, ?_⟩⟩
      simp [emitBlock, hresidual]
    · rw [if_neg hlast]
      refine ⟨k, { emit input { s with blockSize := k } with blockSize := 0 }, hpos, by omega, rfl,
        rfl, .inl ⟨rfl, hmore, hresidual, ?_⟩⟩
      simp [emitBlock, hmore]

/-- Between two raw rounds. -/
structure RawRound (input : List UInt8) (s : FileState) : Prop where
  read : s.readBuff ≤ input.length
  fed : fedBytes s.calls = input.take s.readBuff
  pieces : Pieces input s.calls
  more : s.lastChunk = false
  alone : s.residual = 0

theorem rawStep_pieces (hmax : 1 ≤ ctx.maxBlockSize) (h : RawRound input s) :
    Pieces input (rawStep ctx input s).state.calls ∧
      ∀ u, rawStep ctx input s = .next u → RawRound input u ∧ s.readBuff < u.readBuff := by
  have hpos : 0 < if ctx.minBlockSize ≠ 0 then ctx.minBlockSize else ctx.maxBlockSize := by
    split <;> omega
  obtain ⟨-, hdone⟩ | ⟨n, t, hn, hfits, hread, hcalls, hround⟩ :=
    rawStep_cases rfl hpos h.read h.more h.alone
  · rw [hdone]
    refine ⟨h.pieces, ?_⟩
    intro u hu
    cases hu
  · have hpieces : Pieces input t.calls := by
      rw [hcalls]
      exact @Pieces.emit input { s with blockSize := n } h.pieces h.fed hn hfits
    have hfed : fedBytes t.calls = input.take t.readBuff := by
      rw [hcalls, hread]
      exact @fed_emit input { s with blockSize := n } h.fed
    obtain ⟨-, hmore, halone, hnext⟩ | ⟨-, -, hdone⟩ := hround
    · rw [hnext]
      refine ⟨hpieces, ?_⟩
      intro u hu
      cases hu
      exact ⟨⟨by omega, hfed, hpieces, hmore, halone⟩, by omega⟩
    · rw [hdone]
      refine ⟨hpieces, ?_⟩
      intro u hu
      cases hu

end Raw

/-- The walk over the extension blocks stops because its condition fails. -/
theorem sparseWalk_stops {w : Nat} {input : List UInt8} {idx : Nat}
    (hw : input.length + 4096 ≤ 2 ^ w) (fuel : Nat) {extra : Nat}
    (hextra : idx + extra + 512 ≤ input.length)
    (hfuel : input.length < idx + extra + 512 + 512 * fuel) :
    let sparseExt := sparseWalk w input idx fuel extra
    ¬ ((idx + sparseExt + 512) % 2 ^ w ≤ input.length ∧
      input.getD ((idx + sparseExt + 504) % 2 ^ w) 0 ≠ 0) := by
  induction fuel generalizing extra with
  | zero => omega
  | succ fuel ih =>
      have hnext : uadd w extra 512 = extra + 512 := uadd_eq (by omega)
      simp only [sparseWalk, hnext]
      by_cases hgo : (idx + (extra + 512) + 512) % 2 ^ w ≤ input.length ∧
          input.getD ((idx + (extra + 512) + 504) % 2 ^ w) 0 ≠ 0
      · rw [if_pos hgo]
        have hblock : (idx + (extra + 512) + 512) % 2 ^ w = idx + (extra + 512) + 512 :=
          Nat.mod_eq_of_lt (by omega)
        rw [hblock] at hgo
        exact ih (by omega) (by omega)
      · rw [if_neg hgo]
        exact hgo

section Ends

variable {ctx : Context} {after : Nat → List UInt8} {input : List UInt8}

theorem pieces_init (input : List UInt8) : Pieces input FileState.init.calls :=
  ⟨List.forall_mem_nil _, List.nil_prefix⟩

theorem tarStep_keeps (hroom : 2 * input.length + 4096 ≤ 2 ^ ctx.sizeBits)
    (hmax : 1 ≤ ctx.maxBlockSize) {s t : FileState} (hs : FileInv ctx input s)
    (hpieces : Pieces input s.calls) (hst : tarStep ctx after input s = .next t) :
    FileInv ctx input t ∧ Pieces input t.calls := by
  obtain ⟨hlater, hinv⟩ := @tarStep_pieces ctx after input s hroom hmax hs hpieces
  rw [hst] at hlater
  exact ⟨hinv t hst, hlater⟩

/-- Every round of the tar loop brings the end nearer, and keeps the invariant. -/
theorem tarLoop_ends (hroom : 2 * input.length + 4096 ≤ 2 ^ ctx.sizeBits)
    (hmax : 1 ≤ ctx.maxBlockSize) :
    ∃ r, iterate (tarStep ctx after input) (4 * input.length + 4) .init = some r ∧
      Pieces input r.state.calls := by
  have round : ∀ s t, FileInv ctx input s ∧ Pieces input s.calls →
      tarStep ctx after input s = .next t →
      (FileInv ctx input t ∧ Pieces input t.calls) ∧ roundsLeft input t < roundsLeft input s :=
    fun s t hs hst => ⟨tarStep_keeps hroom hmax hs.1 hs.2 hst, tarStep_left hroom hmax hs.1 hst⟩
  have hfuel : roundsLeft input .init < 4 * input.length + 4 := by
    simp only [roundsLeft, FileState.init]
    omega
  obtain ⟨r, s, hr, hs, hend⟩ := exists_endsAt_of_measure _ _ round
    ⟨fileInv_init ctx input, pieces_init input⟩ hfuel
  refine ⟨r, hr, ?_⟩
  rw [hend.state_eq]
  exact (tarStep_pieces hroom hmax hs.1 hs.2).1

theorem rawRound_init (input : List UInt8) : RawRound input .init :=
  ⟨Nat.zero_le _, rfl, pieces_init input, rfl, rfl⟩

/-- So does every round in raw mode. -/
theorem rawLoop_ends (hmax : 1 ≤ ctx.maxBlockSize) :
    ∃ r, iterate (rawStep ctx input) (4 * input.length + 4) .init = some r ∧
      Pieces input r.state.calls := by
  have round : ∀ s t, RawRound input s → rawStep ctx input s = .next t →
      RawRound input t ∧ input.length - t.readBuff < input.length - s.readBuff := by
    intro s t hs hst
    obtain ⟨ht, hmove⟩ := (rawStep_pieces hmax hs).2 t hst
    have := ht.read
    exact ⟨ht, by omega⟩
  obtain ⟨r, s, hr, hs, hend⟩ := exists_endsAt_of_measure _ _ round (rawRound_init input)
    (show input.length - 0 < 4 * input.length + 4 by omega)
  refine ⟨r, hr, ?_⟩
  rw [hend.state_eq]
  exact (rawStep_pieces hmax hs).1

end Ends

/-- The loops over a mapped file end, in tar mode and in raw mode, with at most as
many frames as the file has bytes. -/
theorem mappedLoop_ends {ctx : Context} (hw : ctx.sizeBits = 64) (hmax : 1 ≤ ctx.maxBlockSize)
    {input : List UInt8} (hn : input.length < 2 ^ 62) (after : Nat → List UInt8) :
    (∃ r, mappedLoop ctx after input = some r ∧
      (∀ call ∈ r.state.calls, ∃ src, call = .frame src ∧ src ≠ []) ∧
      r.state.calls.length ≤ input.length) ∧
    ∀ idx, idx + 512 ≤ input.length →
      let sparseExt := sparseWalk ctx.sizeBits input idx (input.length + 1) 0
      ¬ ((idx + sparseExt + 512) % 2 ^ ctx.sizeBits ≤ input.length ∧
        input.getD ((idx + sparseExt + 504) % 2 ^ ctx.sizeBits) 0 ≠ 0) := by
  have hroom : 2 * input.length + 4096 ≤ 2 ^ ctx.sizeBits := by
    rw [hw]
    omega
  constructor
  case right =>
    intro idx hidx
    exact sparseWalk_stops (by omega) _ (by omega) (by omega)
  case left =>
    obtain ⟨r, hr, hpieces⟩ : ∃ r, iterate (fileStep ctx after input) (4 * input.length + 4) .init =
        some r ∧ Pieces input r.state.calls := by
      cases hmode : ctx.rawMode with
      | true =>
          rw [fileStep_raw ctx hmode]
          exact rawLoop_ends hmax
      | false =>
          rw [fileStep_tar ctx hmode]
          exact tarLoop_ends hroom hmax
    have hstate : (requireEntries ctx r).state = r.state := by
      cases r with
      | exited e s => rfl
      | returned s =>
          simp only [requireEntries]
          split <;> rfl
    refine ⟨requireEntries ctx r, by rw [mappedLoop, hr, Option.map_some], ?_⟩
    rw [hstate]
    exact ⟨hpieces.frames, hpieces.length_le⟩

/-- The loops over the sample archive end with four frames, and the walk over the
extension blocks of its sparse file does. -/
theorem mappedLoop_ends_sample :
    (∃ s, compressMapped sampleContext (fun _ => []) sampleArchive.bytes = some (.returned s) ∧
      recordedSizes s.calls = sampleSizes ∧
      (∀ call ∈ s.calls, ∃ src, call = .frame src ∧ src ≠ []) ∧
      s.calls.length ≤ sampleArchive.bytes.length) ∧
    let w := sampleContext.clamp.sizeBits
    let sparseExt := sparseWalk w sampleArchive.bytes 2560 (sampleArchive.bytes.length + 1) 0
    ¬ ((2560 + sparseExt + 512) % 2 ^ w ≤ sampleArchive.bytes.length ∧
      sampleArchive.bytes.getD ((2560 + sparseExt + 504) % 2 ^ w) 0 ≠ 0) := by
  obtain ⟨s, hs, hsizes, -⟩ := compressMapped_sample
  obtain ⟨⟨r, hr, hframes, hcount⟩, hwalk⟩ := @mappedLoop_ends sampleContext.clamp rfl
    sampleContext.clamp_max_le.1 sampleArchive.bytes sampleArchive_lt fun _ => []
  obtain rfl := Option.some.inj (hs.symm.trans hr)
  exact ⟨⟨s, hs, hsizes, hframes, hcount⟩, hwalk 2560 (by rw [sampleArchive_length]; decide)⟩

end T2sz
