import T2sz.StdinBounds

/-!
The rounds of `compressStdinTar`, over any stream.

A round that goes on has read one element. Nothing here bounds the length of the
stream or looks into the frames: a property of them that `pushBytesTar` keeps is
carried through the loops that push.
-/

namespace T2sz

open Iteration

set_option maxRecDepth 4000

/-- `t` is `s` after `n` more bytes of an element were read. -/
structure ReadOn (n : Nat) (s t : StdinState) : Prop where
  pos : t.pos = s.pos + n
  held : t.held = s.held
  nullRun : t.nullRun = s.nullRun
  log : t.log = s.log

/-- `t` is `s` one element later. -/
structure Advanced (s t : StdinState) : Prop where
  pos : s.pos < t.pos
  log : ∃ e, t.log = s.log ++ [e]

/-- `t` is `s` after its entry was held back. -/
structure HeldBack (stream : Stream) (padded : Nat) (s t : StdinState) : Prop where
  joins : joinsNextEntry (headerAt stream.bytes s.pos) = true
  pos : t.pos = s.pos + (512 + padded)
  held : t.held.length = s.held.length + (512 + padded)
  nullRun : t.nullRun = s.nullRun
  frames : t.frames = s.frames
  log : ∃ pax, t.log = s.log ++ [.entry s.pos (512 + padded) true pax]

/-- The state in which the header of a round is read. -/
def headerState (ctx : Context) (s : StdinState) : StdinState :=
  if s.nullRun ≠ 0 then flushHeld ctx s else s

/-- What a round can do. -/
inductive Round (ctx : Context) (after : Nat → List UInt8) (stream : Stream) (s : StdinState) :
    Step StdinState Exit → Prop
  | failed (hend : s.pos = stream.bytes.length) (hfails : stream.fails = true) :
      Round ctx after stream s (.exit .readError s)
  | ended {r : Step StdinState Exit} (hend : s.pos = stream.bytes.length)
      (hfinish : finishStdin ctx s = r) : Round ctx after stream s r
  | truncated (hmore : s.pos < stream.bytes.length) (hshort : stream.bytes.length < s.pos + 512) :
      Round ctx after stream s (.exit .truncatedHeader s)
  | null (hroom : s.pos + 512 ≤ stream.bytes.length)
      (hzero : isZeroTarBlock (blockAt stream.bytes s.pos) = true) :
      Round ctx after stream s (.next { s with
        pos := s.pos + 512
        nullRun := (s.nullRun + 512) % 2 ^ 64
        log := s.log ++ [.null s.pos] })
  | rejected {e : Exit} (hroom : s.pos + 512 ≤ stream.bytes.length)
      (hzero : isZeroTarBlock (blockAt stream.bytes s.pos) = false)
      (herror : stdinHeader ctx stream after (headerState ctx s) = .error e) :
      Round ctx after stream s (.exit e s)
  | entry {t : StdinState} (hroom : s.pos + 512 ≤ stream.bytes.length)
      (hzero : isZeroTarBlock (blockAt stream.bytes s.pos) = false)
      (hok : stdinHeader ctx stream after (headerState ctx s) = .ok t) :
      Round ctx after stream s (.next t)

/-- A property of the frames, `k` bytes being left to push, that pushing keeps. -/
def KeptByPush (ctx : Context) (P : Nat → Frames → Prop) : Prop :=
  ∀ k f (src : List UInt8), P k f → src.length ≤ k → P (k - src.length) (pushBytesTar ctx src f)

/-- `t` is `s` after its entry was streamed. Without extension blocks the frames
take `size` bytes, those that were held included. -/
structure PassedOn (ctx : Context) (stream : Stream) (padded : Nat) (s t : StdinState) : Prop where
  pos : s.pos + (512 + padded) ≤ t.pos
  held : t.held = []
  nullRun : t.nullRun = s.nullRun
  log : ∃ pax, t.log = s.log ++
    [.entry s.pos (t.pos - s.pos) (joinsNextEntry (headerAt stream.bytes s.pos)) pax]
  plain : hasSparseExtension (headerAt stream.bytes s.pos) = false →
    ∃ size f, size = s.held.length + (512 + padded) ∧ t.pos = s.pos + (512 + padded) ∧
      t.frames = (if joinsNextEntry (headerAt stream.bytes s.pos) then f
        else closeElement ctx f) ∧
      ∀ P k, KeptByPush ctx P → size ≤ k →
        P k (if joinsNextEntry (headerAt stream.bytes s.pos) then s.frames
          else startElementFrame ctx (size % 2 ^ 64) s.frames) → P (k - size) f

section Reading

variable {ctx : Context} {stream : Stream} {after : Nat → List UInt8} {s t : StdinState} {e : Exit}
  {P : Nat → Frames → Prop}

theorem ReadOn.refl (s : StdinState) : ReadOn 0 s s := ⟨rfl, rfl, rfl, rfl⟩

theorem ReadOn.next (n pax : Nat) (f : Frames) (s : StdinState) :
    ReadOn n s { s with pos := s.pos + n, paxNextSize := pax, frames := f } := ⟨rfl, rfl, rfl, rfl⟩

theorem ReadOn.trans {m n : Nat} {u : StdinState} (h₁ : ReadOn m s t) (h₂ : ReadOn n t u) :
    ReadOn (m + n) s u where
  pos := by rw [h₂.pos, h₁.pos, Nat.add_assoc]
  held := h₂.held.trans h₁.held
  nullRun := h₂.nullRun.trans h₁.nullRun
  log := h₂.log.trans h₁.log

theorem pushNullRun_keeps (hP : KeptByPush ctx P) (fuel : Nat) {k nullRun : Nat} {f : Frames}
    (hfuel : nullRun ≤ fuel) (h : P k f) (hk : nullRun ≤ k) :
    P (k - nullRun) (pushNullRun ctx fuel nullRun f) := by
  induction fuel generalizing k nullRun f with
  | zero =>
      rw [show nullRun = 0 by omega]
      exact h
  | succ fuel ih =>
      by_cases hzero : nullRun = 0
      · rw [pushNullRun, if_pos hzero, hzero]
        exact h
      · have htake : 0 < min IN_CHUNK nullRun := by
          simp only [IN_CHUNK]
          omega
        have hround := hP k f (List.replicate (min IN_CHUNK nullRun) 0) h
          (by rw [List.length_replicate]; omega)
        rw [List.length_replicate] at hround
        have hrest := @ih (k - min IN_CHUNK nullRun) (nullRun - min IN_CHUNK nullRun) _ (by omega)
          hround (by omega)
        rw [show k - nullRun =
          k - min IN_CHUNK nullRun - (nullRun - min IN_CHUNK nullRun) by omega]
        simpa only [pushNullRun, if_neg hzero, payloadChunk] using hrest

theorem readExactStdin_eq_error {pos n : Nat} (h : readExactStdin stream pos n = .error e) :
    e ≠ .noEntries := by
  by_cases hfits : pos + n ≤ stream.bytes.length
  · rw [readExactStdin_ok hfits] at h
    cases h
  · rw [readExactStdin, if_neg hfits, Except.error.injEq] at h
    rw [← h]
    split <;> decide

/-- However many extension blocks there are, they are read. -/
theorem streamExtensions_cases (ctx : Context) (stream : Stream) (fuel : Nat) (s : StdinState) :
    (∃ e, e ≠ .noEntries ∧ streamExtensions ctx stream fuel s = .error e) ∨
      ∃ n t, ReadOn n s t ∧ streamExtensions ctx stream fuel s = .ok t := by
  induction fuel generalizing s with
  | zero => exact .inr ⟨0, s, .refl s, rfl⟩
  | succ fuel ih =>
      rw [streamExtensions]
      cases hblock : readExactStdin stream s.pos 512 with
      | error e => exact .inl ⟨e, readExactStdin_eq_error hblock, rfl⟩
      | ok block =>
          simp only
          split
          · obtain herror | ⟨n, t, hread, ht⟩ := ih { s with
              pos := s.pos + 512
              frames := pushBytesTar ctx block s.frames }
            · exact .inl herror
            · exact .inr ⟨512 + n, t, (ReadOn.next 512 _ _ s).trans hread, ht⟩
          · exact .inr ⟨512, _, .next 512 _ _ s, rfl⟩

theorem extended_cases (ctx : Context) (stream : Stream) (sparseExt : Bool) (s : StdinState) :
    (∃ e, e ≠ .noEntries ∧ (if sparseExt then
        streamExtensions ctx stream (stream.bytes.length + 1) s else .ok s) = .error e) ∨
      ∃ n t, ReadOn n s t ∧ (if sparseExt then
          streamExtensions ctx stream (stream.bytes.length + 1) s else .ok s) = .ok t ∧
        (sparseExt = false → n = 0 ∧ t = s) := by
  cases sparseExt with
  | true =>
      obtain herror | ⟨n, t, hread, ht⟩ :=
        streamExtensions_cases ctx stream (stream.bytes.length + 1) s
      · exact .inl herror
      · exact .inr ⟨n, t, hread, ht, fun hno => by cases hno⟩
  | false => exact .inr ⟨0, s, .refl s, rfl, fun _ => ⟨rfl, rfl⟩⟩

/-- The payload is read and pushed. -/
theorem streamPayload_cases (ctx : Context) (stream : Stream) (after : Nat → List UInt8)
    (header : TarHeader) (fileSize padded fuel : Nat) {remaining : Nat} (s : StdinState)
    (hfuel : remaining ≤ fuel) :
    (∃ e, e ≠ .noEntries ∧
      streamPayload ctx stream after header fileSize padded fuel remaining s = .error e) ∨
    ∃ t, ReadOn remaining s t ∧
      streamPayload ctx stream after header fileSize padded fuel remaining s = .ok t ∧
      ∀ P k, KeptByPush ctx P → P k s.frames → remaining ≤ k → P (k - remaining) t.frames := by
  induction fuel generalizing s remaining with
  | zero =>
      obtain rfl : remaining = 0 := by omega
      exact .inr ⟨s, .refl s, rfl, fun P k _ h _ => h⟩
  | succ fuel ih =>
      by_cases hzero : remaining = 0
      · subst hzero
        exact .inr ⟨s, .refl s, rfl, fun P k _ h _ => h⟩
      · have htake : 0 < min IN_CHUNK remaining := by
          simp only [IN_CHUNK]
          omega
        simp only [streamPayload, if_neg hzero, payloadChunk]
        cases hchunk : readExactStdin stream s.pos (min IN_CHUNK remaining) with
        | error e => exact .inl ⟨e, readExactStdin_eq_error hchunk, rfl⟩
        | ok chunk =>
            obtain ⟨hfits, hbytes⟩ := readExactStdin_eq_ok hchunk
            have hlen : chunk.length = min IN_CHUNK remaining := by rw [hbytes, length_chunk hfits]
            obtain herror | ⟨t, hread, ht, hkeeps⟩ := @ih (remaining - min IN_CHUNK remaining)
              { s with
                pos := s.pos + min IN_CHUNK remaining
                paxNextSize :=
                  if header.typeflag == 0x78 && min IN_CHUNK remaining == padded then
                    paxSize ctx.sizeBits (chunk.take (fileSize % 2 ^ ctx.sizeBits))
                      (after (s.pos + fileSize))
                  else s.paxNextSize
                frames := pushBytesTar ctx chunk s.frames } (by omega)
            · exact .inl herror
            · refine .inr ⟨t, ?_, ht, ?_⟩
              · rw [show remaining =
                  min IN_CHUNK remaining + (remaining - min IN_CHUNK remaining) by omega]
                exact (ReadOn.next _ _ _ s).trans hread
              · intro P k hP h hk
                have hround := hP k s.frames chunk h (by omega)
                rw [hlen] at hround
                have hrest := hkeeps P _ hP hround (by omega)
                rwa [show k - remaining =
                  k - min IN_CHUNK remaining - (remaining - min IN_CHUNK remaining) by omega]

theorem holdEntry_cases (after : Nat → List UInt8) (fileSize : Nat) {padded pax : Nat}
    (hjoins : joinsNextEntry (headerAt stream.bytes s.pos) = true)
    (hpadded : padded < 2 ^ ctx.sizeBits) :
    (∃ e, e ≠ .noEntries ∧ holdEntry ctx stream after s.pos fileSize padded
      { s with pos := s.pos + 512, paxNextSize := pax } = .error e) ∨
    ∃ t, HeldBack stream padded s t ∧ holdEntry ctx stream after s.pos fileSize padded
      { s with pos := s.pos + 512, paxNextSize := pax } = .ok t := by
  simp only [holdEntry, Nat.mod_eq_of_lt hpadded]
  cases hpayload : readExactStdin stream (s.pos + 512) padded with
  | error e => exact .inl ⟨e, readExactStdin_eq_error hpayload, rfl⟩
  | ok payload =>
      obtain ⟨hfits, hbytes⟩ := readExactStdin_eq_ok hpayload
      have hlen : payload.length = padded := by rw [hbytes, length_chunk hfits]
      refine .inr ⟨_, ?_, rfl⟩
      refine ⟨hjoins, ?_, ?_, rfl, rfl, _, rfl⟩
      · simp only [hlen, Nat.add_assoc]
      · simp only [List.length_append, hlen, (headerAt stream.bytes s.pos).size_eq, Nat.add_assoc]

/-- Pushing what is held and the header of an entry without extension blocks. -/
theorem pushHeader_keeps (hP : KeptByPush ctx P) (header : TarHeader) (held : List UInt8)
    {k padded : Nat} {f : Frames} (hk : held.length + (512 + padded) ≤ k)
    (h : P k (if joinsNextEntry header then f
      else startElementFrame ctx ((held.length + (512 + padded)) % 2 ^ 64) f)) :
    P (k - held.length - 512) (pushBytesTar ctx header.bytes (pushBytesTar ctx held
      (if !joinsNextEntry header && !false then
        startElementFrame ctx ((held.length + 512 + padded) % 2 ^ 64) f else f))) := by
  have hsize := header.size_eq
  have hopened : P k (if !joinsNextEntry header && !false then
      startElementFrame ctx ((held.length + 512 + padded) % 2 ^ 64) f else f) := by
    rw [Nat.add_assoc]
    cases hjoin : joinsNextEntry header with
    | true => rwa [hjoin, if_pos rfl] at h
    | false => rwa [hjoin, if_neg Bool.false_ne_true] at h
  have hheader := hP _ _ header.bytes (hP k _ held hopened (by omega)) (by omega)
  rwa [hsize] at hheader

theorem streamEntry_cases (ctx : Context) (stream : Stream) (after : Nat → List UInt8)
    (fileSize padded pax : Nat) (s : StdinState) :
    (∃ e, e ≠ .noEntries ∧ streamEntry ctx stream after s.pos fileSize padded
      { s with pos := s.pos + 512, paxNextSize := pax } = .error e) ∨
    ∃ t, PassedOn ctx stream padded s t ∧ streamEntry ctx stream after s.pos fileSize padded
      { s with pos := s.pos + 512, paxNextSize := pax } = .ok t := by
  simp only [streamEntry]
  generalize hpushed : (StdinState.mk (s.pos + 512) [] s.nullRun
      (pushBytesTar ctx (headerAt stream.bytes s.pos).bytes (pushBytesTar ctx s.held
        (if !joinsNextEntry (headerAt stream.bytes s.pos) &&
            !hasSparseExtension (headerAt stream.bytes s.pos) then
          startElementFrame ctx ((s.held.length + 512 + padded) % 2 ^ 64) s.frames
        else s.frames))) pax s.log) = pushed
  obtain ⟨e, hne, herror⟩ | ⟨n, t, hread, ht, hplain⟩ :=
    extended_cases ctx stream (hasSparseExtension (headerAt stream.bytes s.pos)) pushed
  · rw [herror]
    exact .inl ⟨e, hne, rfl⟩
  rw [ht]
  obtain ⟨e, hne, herror⟩ | ⟨u, hpayload, hu, hkeeps⟩ := streamPayload_cases ctx stream after
    (headerAt stream.bytes s.pos) fileSize padded padded t (Nat.le_refl padded)
  · simp only [herror]
    exact .inl ⟨e, hne, rfl⟩
  simp only [hu]
  have hall := hread.trans hpayload
  have hpos : u.pos = s.pos + 512 + (n + padded) := by
    rw [hall.pos, ← hpushed]
  have hheld : u.held = [] := by
    rw [hall.held, ← hpushed]
  have hnull : u.nullRun = s.nullRun := by
    rw [hall.nullRun, ← hpushed]
  have hlog : u.log = s.log := by
    rw [hall.log, ← hpushed]
  refine .inr ⟨_, ?_, rfl⟩
  refine ⟨?_, hheld, hnull, ⟨u.paxNextSize, by simp only [hlog]⟩, ?_⟩
  · simp only
    omega
  · intro hno
    obtain ⟨rfl, rfl⟩ := hplain hno
    refine ⟨_, u.frames, rfl, by simp only; omega, rfl, ?_⟩
    intro P k hP hk h
    have hfirst := pushHeader_keeps hP (headerAt stream.bytes s.pos) s.held hk h
    rw [← hno] at hfirst
    have hframes := congrArg StdinState.frames hpushed
    simp only at hframes
    rw [hframes] at hfirst
    have hrest := hkeeps P _ hP hfirst (by omega)
    rwa [show k - (s.held.length + (512 + padded)) = k - s.held.length - 512 - padded by omega]

/-- A header is rejected, or its entry is held back, or streamed if it does not
join the next one, has extension blocks or does not fit. -/
theorem stdinHeader_cases (ctx : Context) (stream : Stream) (after : Nat → List UInt8)
    (hheld : s.held.length ≤ HELD_SIZE) :
    (∃ e, e ≠ .noEntries ∧ stdinHeader ctx stream after s = .error e) ∨
    ∃ t size, size ≤ UINT64_MAX - 1024 ∧ stdinHeader ctx stream after s = .ok t ∧
      (HeldBack stream (roundUp size) s t ∨ PassedOn ctx stream (roundUp size) s t ∧
        (joinsNextEntry (headerAt stream.bytes s.pos) = false ∨
          hasSparseExtension (headerAt stream.bytes s.pos) = true ∨
          HELD_SIZE < s.held.length + (512 + roundUp size))) := by
  by_cases hvalid : isTarHeader (headerAt stream.bytes s.pos) = true
  case neg => exact .inl ⟨.invalidHeader, by decide, by simp [stdinHeader, hvalid]⟩
  obtain ⟨⟨size, pax⟩, hsize⟩ : ∃ p, tarEntrySize (headerAt stream.bytes s.pos) s.paxNextSize = p :=
    ⟨_, rfl⟩
  by_cases hlarge : UINT64_MAX - 1024 < size
  case pos => exact .inl ⟨.entryTooLarge, by decide, by simp [stdinHeader, hvalid, hsize, hlarge]⟩
  rw [stdinHeader_eq hheld hvalid 0 hsize (Nat.le_of_not_lt hlarge)]
  split
  case isTrue hholds =>
    obtain ⟨hjoins, -, hsmall⟩ := holds_spec hholds
    have hword := ctx.HELD_SIZE_lt
    simp only at hsmall
    obtain herror | ⟨t, ht, hok⟩ :=
      @holdEntry_cases ctx stream s after size (roundUp size) pax hjoins (by omega)
    · exact .inl herror
    · exact .inr ⟨t, size, Nat.le_of_not_lt hlarge, hok, .inl ht⟩
  case isFalse hholds =>
    obtain herror | ⟨t, ht, hok⟩ := streamEntry_cases ctx stream after size (roundUp size) pax s
    · exact .inl herror
    · refine .inr ⟨t, size, Nat.le_of_not_lt hlarge, hok, .inr ⟨ht, ?_⟩⟩
      simp only [holds, Bool.and_eq_true, Bool.not_eq_true', decide_eq_true_eq, not_and,
        Nat.not_le] at hholds
      cases hjoin : joinsNextEntry (headerAt stream.bytes s.pos) with
      | false => exact .inl rfl
      | true =>
          cases hflag : hasSparseExtension (headerAt stream.bytes s.pos) with
          | true => exact .inr (.inl rfl)
          | false =>
              have hover := hholds ⟨hjoin, hflag⟩
              simp only [HELD_SIZE]
              exact .inr (.inr (by omega))

theorem HeldBack.advanced {padded : Nat} (h : HeldBack stream padded s t) : Advanced s t := by
  obtain ⟨pax, hlog⟩ := h.log
  have hpos := h.pos
  exact ⟨by omega, _, hlog⟩

theorem PassedOn.advanced {padded : Nat} (h : PassedOn ctx stream padded s t) : Advanced s t := by
  obtain ⟨pax, hlog⟩ := h.log
  have hpos := h.pos
  exact ⟨by omega, _, hlog⟩

theorem headerState_same (ctx : Context) (s : StdinState) :
    (headerState ctx s).pos = s.pos ∧ (headerState ctx s).log = s.log := by
  rw [headerState]
  split <;> exact ⟨rfl, rfl⟩

theorem headerState_held (ctx : Context) (h : s.held.length ≤ HELD_SIZE) :
    (headerState ctx s).held.length ≤ HELD_SIZE := by
  rw [headerState]
  split
  · exact Nat.zero_le _
  · exact h

theorem stdinStep_round (ctx : Context) (after : Nat → List UInt8) (stream : Stream)
    (hpos : s.pos ≤ stream.bytes.length) :
    Round ctx after stream s (stdinStep ctx after stream s) := by
  have hlen : (blockAt stream.bytes s.pos).length = min 512 (stream.bytes.length - s.pos) := by
    rw [blockAt, List.length_take, List.length_drop]
  simp only [stdinStep, hlen]
  by_cases hend : s.pos = stream.bytes.length
  · rw [if_pos (by omega)]
    cases hfails : stream.fails with
    | true => exact .failed hend hfails
    | false => exact .ended hend rfl
  rw [if_neg (by omega)]
  by_cases hroom : s.pos + 512 ≤ stream.bytes.length
  case neg =>
    rw [if_pos (by omega)]
    exact .truncated (by omega) (by omega)
  rw [if_neg (by omega)]
  cases hzero : isZeroTarBlock (blockAt stream.bytes s.pos) with
  | true => exact .null hroom hzero
  | false =>
      simp only [Bool.false_eq_true, if_false]
      cases hheader :
          stdinHeader ctx stream after (if s.nullRun ≠ 0 then flushHeld ctx s else s) with
      | error e => exact .rejected hroom hzero hheader
      | ok t => exact .entry hroom hzero hheader

/-- The bytes that are left get fewer, and the log longer. -/
theorem stdinStep_advanced (h : Buffered stream s) (hst : stdinStep ctx after stream s = .next t) :
    Advanced s t := by
  have hround := stdinStep_round ctx after stream h.pos_le
  rw [hst] at hround
  cases hround with
  | ended hend hfinish => exact absurd hfinish (finishStdin_ne_next ctx s t)
  | null hroom hzero => exact ⟨by simp only; omega, _, rfl⟩
  | entry hroom hzero hok =>
      obtain ⟨hpos, hlog⟩ := headerState_same ctx s
      obtain ⟨e, -, herror⟩ | ⟨u, _, -, hu, hcase⟩ :=
        stdinHeader_cases ctx stream after (headerState_held ctx h.held.length_le)
      · rw [herror] at hok
        cases hok
      · rw [hu, Except.ok.injEq] at hok
        subst hok
        have hadvanced : Advanced (headerState ctx s) u := by
          obtain hheld | ⟨hpassed, -⟩ := hcase
          · exact hheld.advanced
          · exact hpassed.advanced
        exact ⟨hpos ▸ hadvanced.pos, hlog ▸ hadvanced.log⟩

/-- The loop over a stream ends, however long it is. -/
theorem compressStdinTar_ends (ctx : Context) (after : Nat → List UInt8) (stream : Stream) :
    ∃ r, compressStdinTar ctx after stream = some r := by
  apply exists_iterate_of_measure (Buffered stream) (fun s => stream.bytes.length - s.pos)
  · intro s t hs hst
    exact (stdinStepChecked_eq (fun _ => 0) after hs).2 t hst
  · intro s t hs hst
    have hadvanced := (stdinStep_advanced hs hst).pos
    have hle := ((stdinStepChecked_eq (fun _ => 0) after hs).2 t hst).pos_le
    omega
  · exact buffered_init stream
  · simp only [StdinState.init]
    omega

end Reading

end T2sz
