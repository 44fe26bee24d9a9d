import T2sz.StdinFrames

/-!
The entries of `compressStdinTar`, held back or streamed.

Whatever way an entry takes, the state behind it is that of the walk behind the
entry that `recognise` finds; where `recognise` finds none, a read fails.
-/

namespace T2sz

open Iteration Blocking

set_option maxRecDepth 4000

/-- The size the streaming path carries past an entry: that of an extended
header it holds back or reads in one chunk. -/
def stdinPaxRule (ctx : Context) (after : Nat → List UInt8) (input : List UInt8) : PaxRule :=
  fun c e =>
    if e.header.typeflag == 0x78 && (holds c.held e ||
        (0 < roundUp e.size && roundUp e.size ≤ IN_CHUNK)) then
      paxSize ctx.sizeBits ((input.drop (c.idx + 512)).take e.size) (after (c.idx + 512 + e.size))
    else e.paxNextSize

section Reading

variable {ctx : Context} {stream : Stream} {after : Nat → List UInt8} {s t : StdinState}

theorem readExactStdin_ok {pos n : Nat} (h : pos + n ≤ stream.bytes.length) :
    readExactStdin stream pos n = .ok ((stream.bytes.drop pos).take n) :=
  if_pos h

theorem readExactStdin_error {pos n : Nat} (h : stream.bytes.length < pos + n) :
    ∃ e, readExactStdin stream pos n = .error e :=
  ⟨_, if_neg (Nat.not_le_of_lt h)⟩

theorem length_chunk {input : List UInt8} {pos n : Nat} (h : pos + n ≤ input.length) :
    ((input.drop pos).take n).length = n := by
  rw [List.length_take, List.length_drop]
  omega

/-- Two consecutive pieces of the input. -/
theorem chunk_append (input : List UInt8) (pos m n : Nat) :
    (input.drop pos).take m ++ (input.drop (pos + m)).take n = (input.drop pos).take (m + n) := by
  rw [List.take_add, List.drop_drop]

/-- `t` is `s` after `n` more bytes were read into the open element. -/
structure Streamed (ctx : Context) (stream : Stream) (n k : Nat) (s t : StdinState) : Prop where
  poured : Poured ctx ((stream.bytes.drop s.pos).take n) k s.frames t.frames
  pos : t.pos = s.pos + n
  pos_le : s.pos + n ≤ stream.bytes.length
  held : t.held = s.held
  nullRun : t.nullRun = s.nullRun
  log : t.log = s.log

theorem Streamed.trans (hmax : 1 ≤ ctx.maxBlockSize) {m n k : Nat} {u : StdinState}
    (h₁ : Streamed ctx stream m k s t) (h₂ : Streamed ctx stream n (k - m) t u) :
    Streamed ctx stream (m + n) k s u where
  poured := by
    have hrest := h₂.poured
    rw [h₁.pos] at hrest
    rw [← chunk_append]
    exact h₁.poured.trans hmax (by rwa [length_chunk h₁.pos_le])
  pos := by rw [h₂.pos, h₁.pos, Nat.add_assoc]
  pos_le := by
    have := h₂.pos_le
    rw [h₁.pos] at this
    omega
  held := h₂.held.trans h₁.held
  nullRun := h₂.nullRun.trans h₁.nullRun
  log := h₂.log.trans h₁.log

/-- One read that is pushed as it is. -/
theorem streamed_push (hmax : 1 ≤ ctx.maxBlockSize) {n k : Nat} (wf : s.frames.Wf)
    (hb : s.frames.Bounded ctx) (hp : s.frames.Pledged ctx k) (hk : n ≤ k)
    (hfits : s.pos + n ≤ stream.bytes.length) (pax : Nat) :
    Streamed ctx stream n k s { s with
      pos := s.pos + n
      paxNextSize := pax
      frames := pushBytesTar ctx ((stream.bytes.drop s.pos).take n) s.frames } where
  poured := pushBytesTar_spec hmax _ wf hb hp (by rwa [length_chunk hfits])
  pos := rfl
  pos_le := hfits
  held := rfl
  nullRun := rfl
  log := rfl

theorem getD_chunk (input : List UInt8) (pos : Nat) {n i : Nat} (h : i < n) :
    ((input.drop pos).take n).getD i 0 = input.getD (pos + i) 0 := by
  simp [List.getD_eq_getElem?_getD, h]

theorem streamExtensions_error (fuel : Nat) (hpos : s.pos ≤ stream.bytes.length)
    (hfuel : stream.bytes.length < s.pos + 512 * fuel)
    (h : extensionBytes stream.bytes fuel s.pos = none) :
    ∃ e, streamExtensions ctx stream fuel s = .error e := by
  induction fuel generalizing s with
  | zero => omega
  | succ fuel ih =>
      by_cases hroom : stream.bytes.length < s.pos + 512
      · obtain ⟨e, herror⟩ := readExactStdin_error hroom
        exact ⟨e, by simp only [streamExtensions, herror]⟩
      · have hread := readExactStdin_ok (Nat.le_of_not_lt hroom)
        simp only [streamExtensions, extensionBytes, hread, if_neg hroom,
          getD_chunk stream.bytes s.pos (show 504 < 512 by decide)] at h ⊢
        by_cases hmore : stream.bytes.getD (s.pos + 504) 0 ≠ 0
        · rw [if_pos hmore, Option.map_eq_none_iff] at h
          rw [if_pos hmore]
          apply ih _ _ h
          · simp only
            omega
          · simp only
            omega
        · rw [if_neg hmore] at h
          cases h

theorem streamed_refl (hmax : 1 ≤ ctx.maxBlockSize) {k : Nat} (wf : s.frames.Wf)
    (hb : s.frames.Bounded ctx) (hp : s.frames.Pledged ctx k)
    (hpos : s.pos ≤ stream.bytes.length) : Streamed ctx stream 0 k s s where
  poured := .refl hmax wf hb hp
  pos := rfl
  pos_le := hpos
  held := rfl
  nullRun := rfl
  log := rfl

/-- The extension blocks are streamed, if they are all there. -/
theorem streamExtensions_ok (hmax : 1 ≤ ctx.maxBlockSize) (fuel : Nat) {m k : Nat}
    (wf : s.frames.Wf) (hb : s.frames.Bounded ctx) (hp : s.frames.Pledged ctx k)
    (h : extensionBytes stream.bytes fuel s.pos = some m) (hk : m ≤ k) :
    ∃ t, streamExtensions ctx stream fuel s = .ok t ∧ Streamed ctx stream m k s t ∧
      t.paxNextSize = s.paxNextSize := by
  induction fuel generalizing s m k with
  | zero => simp [extensionBytes] at h
  | succ fuel ih =>
      by_cases hroom : stream.bytes.length < s.pos + 512
      · simp only [extensionBytes, if_pos hroom] at h
        cases h
      · have hfits : s.pos + 512 ≤ stream.bytes.length := Nat.le_of_not_lt hroom
        have hread := readExactStdin_ok hfits
        simp only [streamExtensions, extensionBytes, hread, if_neg hroom,
          getD_chunk stream.bytes s.pos (show 504 < 512 by decide)] at h ⊢
        by_cases hmore : stream.bytes.getD (s.pos + 504) 0 ≠ 0
        · rw [if_pos hmore, Option.map_eq_some_iff] at h
          obtain ⟨rest, hrest, rfl⟩ := h
          have hfirst := streamed_push hmax wf hb hp (show 512 ≤ k by omega) hfits s.paxNextSize
          have hleft := hfirst.poured.pledged
          rw [length_chunk hfits] at hleft
          obtain ⟨t, ht, hstreamed, hpax⟩ :=
            ih hfirst.poured.wf hfirst.poured.bounded hleft hrest (by omega)
          rw [if_pos hmore]
          exact ⟨t, ht, hfirst.trans hmax hstreamed, hpax⟩
        · rw [if_neg hmore] at h ⊢
          cases h
          exact ⟨_, rfl, streamed_push hmax wf hb hp hk hfits s.paxNextSize, rfl⟩

/-- The extension blocks of an entry that has some, behind its header. -/
theorem extended_ok (hmax : 1 ≤ ctx.maxBlockSize) {idx m k : Nat} (hidx : s.pos = idx + 512)
    (hpos : s.pos ≤ stream.bytes.length) (wf : s.frames.Wf) (hb : s.frames.Bounded ctx)
    (hp : s.frames.Pledged ctx k) {header : TarHeader}
    (h : sparseBytes stream.bytes idx header = some m) (hk : m ≤ k) :
    ∃ t, (if hasSparseExtension header then
        streamExtensions ctx stream (stream.bytes.length + 1) s else .ok s) = .ok t ∧
      Streamed ctx stream m k s t ∧ t.paxNextSize = s.paxNextSize := by
  by_cases hflag : hasSparseExtension header = true
  · simp only [sparseBytes, hflag, if_true, ← hidx] at h ⊢
    exact streamExtensions_ok hmax _ wf hb hp h hk
  · rw [sparseBytes, if_neg hflag, Option.some.injEq] at h
    rw [if_neg hflag, ← h]
    exact ⟨s, rfl, streamed_refl hmax wf hb hp hpos, rfl⟩

theorem streamPayload_error {header : TarHeader} {fileSize padded : Nat} (fuel : Nat)
    {remaining : Nat} (hfuel : remaining ≤ fuel) (hpos : s.pos ≤ stream.bytes.length)
    (h : stream.bytes.length < s.pos + remaining) :
    ∃ e, streamPayload ctx stream after header fileSize padded fuel remaining s = .error e := by
  induction fuel generalizing s remaining with
  | zero => omega
  | succ fuel ih =>
      have hne : remaining ≠ 0 := by omega
      have htake : 0 < min IN_CHUNK remaining ∧ min IN_CHUNK remaining ≤ remaining := by
        simp only [IN_CHUNK]
        omega
      simp only [streamPayload, if_neg hne, payloadChunk]
      by_cases hroom : stream.bytes.length < s.pos + min IN_CHUNK remaining
      · obtain ⟨e, herror⟩ := @readExactStdin_error stream _ _ hroom
        exact ⟨e, by simp only [herror]⟩
      · have hfits : s.pos + min IN_CHUNK remaining ≤ stream.bytes.length := Nat.le_of_not_lt hroom
        simp only [readExactStdin_ok hfits]
        apply ih
        · omega
        · simp only
          omega
        · simp only
          omega

/-- A chunk has all of the payload when the payload is one chunk. -/
theorem chunkPax {w fileSize padded remaining take : Nat} (hword : IN_CHUNK < 2 ^ w)
    (hsize : fileSize ≤ padded) (hpadded : remaining ≤ padded)
    (htake : min IN_CHUNK remaining = take) (hpos : 0 < take) (isPax : Bool) (rest : List UInt8)
    (parse : List UInt8 → Nat) (carried : Nat) :
    (if isPax && take == padded then parse ((rest.take take).take (fileSize % 2 ^ w))
      else carried) =
      if isPax && (remaining == padded && (0 < padded && padded ≤ IN_CHUNK)) then
        parse (rest.take fileSize)
      else carried := by
  by_cases hwhole : take = padded
  · have hmod : fileSize % 2 ^ w = fileSize := Nat.mod_eq_of_lt (by omega)
    have hdata : (rest.take take).take fileSize = rest.take fileSize := by
      rw [List.take_take, Nat.min_eq_left (by omega)]
    have hall : remaining = padded := by omega
    have hchunk : padded ≤ IN_CHUNK := by omega
    have hsome : 0 < padded := by omega
    simp [hwhole ▸ hdata, hmod, hwhole, hall, hchunk, hsome]
  · have hpart : ¬ (remaining = padded ∧ 0 < padded ∧ padded ≤ IN_CHUNK) := by omega
    rw [if_neg, if_neg]
    · simp only [Bool.and_eq_true, beq_iff_eq, decide_eq_true_eq]
      rintro ⟨_, hwhole, hsome, hchunk⟩
      exact hpart ⟨hwhole, hsome, hchunk⟩
    · simp [hwhole]

/-- The payload is streamed; the data of an extended header is parsed if one
chunk has all of it. -/
theorem streamPayload_ok (hmax : 1 ≤ ctx.maxBlockSize) {header : TarHeader}
    {fileSize padded : Nat} (hsize : fileSize ≤ padded) (fuel : Nat) {remaining k : Nat}
    (hfuel : remaining ≤ fuel) (hpadded : remaining ≤ padded)
    (wf : s.frames.Wf) (hb : s.frames.Bounded ctx) (hp : s.frames.Pledged ctx k)
    (hk : remaining ≤ k) (h : s.pos + remaining ≤ stream.bytes.length) :
    ∃ t, streamPayload ctx stream after header fileSize padded fuel remaining s = .ok t ∧
      Streamed ctx stream remaining k s t ∧
      t.paxNextSize = if header.typeflag == 0x78 && (remaining == padded &&
          (0 < padded && padded ≤ IN_CHUNK)) then
        paxSize ctx.sizeBits ((stream.bytes.drop s.pos).take fileSize) (after (s.pos + fileSize))
      else s.paxNextSize := by
  induction fuel generalizing s remaining k with
  | zero =>
      have hzero : remaining = 0 := by omega
      subst hzero
      refine ⟨s, rfl, streamed_refl hmax wf hb hp h, ?_⟩
      rw [if_neg]
      simp
      omega
  | succ fuel ih =>
      by_cases hzero : remaining = 0
      · subst hzero
        refine ⟨s, by simp [streamPayload], streamed_refl hmax wf hb hp h, ?_⟩
        rw [if_neg]
        simp
        omega
      · have hword := ctx.IN_CHUNK_lt
        obtain ⟨take, htake⟩ : ∃ take, min IN_CHUNK remaining = take := ⟨_, rfl⟩
        have hbounds : 0 < take ∧ take ≤ remaining := by
          simp only [IN_CHUNK] at htake
          omega
        have hfits : s.pos + take ≤ stream.bytes.length := by omega
        have hpax := chunkPax hword hsize hpadded htake hbounds.1 (header.typeflag == 0x78)
          (stream.bytes.drop s.pos)
          (fun data => paxSize ctx.sizeBits data (after (s.pos + fileSize))) s.paxNextSize
        have hfirst := streamed_push hmax wf hb hp (show take ≤ k by omega) hfits
          (if header.typeflag == 0x78 && take == padded then
            paxSize ctx.sizeBits
              (((stream.bytes.drop s.pos).take take).take (fileSize % 2 ^ ctx.sizeBits))
              (after (s.pos + fileSize))
            else s.paxNextSize)
        have hleft := hfirst.poured.pledged
        rw [length_chunk hfits] at hleft
        have hlater : s.pos + take + (remaining - take) ≤ stream.bytes.length := by omega
        obtain ⟨t, ht, hstreamed, hcarried⟩ := @ih _ (remaining - take) (k - take) (by omega)
          (by omega) hfirst.poured.wf hfirst.poured.bounded hleft (by omega) hlater
        have hall := hfirst.trans hmax hstreamed
        rw [Nat.add_sub_cancel' hbounds.2] at hall
        refine ⟨t, ?_, hall, ?_⟩
        · simp only [streamPayload, if_neg hzero, payloadChunk, htake, readExactStdin_ok hfits]
          exact ht
        · rw [hcarried, if_neg, hpax]
          simp only [Bool.and_eq_true, beq_iff_eq, decide_eq_true_eq]
          omega

end Reading

/-- The cursor of the walk is where the streaming path is. -/
structure StdinAt (s : StdinState) (c : Cursor) : Prop where
  idx : c.idx = s.pos
  pax : c.paxNextSize = s.paxNextSize
  held : c.held = if s.nullRun = 0 then s.held.length else 0
  log : c.log = s.log

section Headers

variable {ctx : Context} {stream : Stream} {after : Nat → List UInt8} {s : StdinState}
  {c : Cursor} {e : Entry}

/-- The size of an element that is streamed, as far as it was opened as one. -/
theorem opened_entry (hmax : 1 ≤ ctx.maxBlockSize) (hsteady : Steady ctx s.frames)
    {header : TarHeader} {padded size : Nat} (hsmall : size < 2 ^ 64)
    (hsize : hasSparseExtension header = false → size = s.held.length + 512 + padded) :
    Opened ctx size s.frames
      (if !joinsNextEntry header && !hasSparseExtension header then
        startElementFrame ctx ((s.held.length + 512 + padded) % 2 ^ 64) s.frames
      else s.frames) := by
  split
  case isTrue hplain =>
    rw [Bool.and_eq_true, Bool.not_eq_true', Bool.not_eq_true'] at hplain
    have heq := hsize hplain.2
    rw [← heq, Nat.mod_eq_of_lt hsmall]
    exact startElementFrame_opened hmax hsteady.wf hsteady.bounded hsteady.unpledged size
  case isFalse => exact .refl hsteady.wf hsteady.bounded hsteady.unpledged size

/-- An entry is one span more. -/
theorem run_openSpans_entry (h : StdinReady ctx stream.bytes s) (hmax : 1 ≤ ctx.maxBlockSize)
    (offset length pax : Nat) (join : Bool) :
    Blocking.run ctx.minBlockSize ctx.maxBlockSize
        (openSpans (s.log ++ [.entry offset length join pax]) join) =
      (s.frames.blocks.fill ctx.maxBlockSize (s.held.length + length)).settle
        ctx.minBlockSize join := by
  have hjoin : lastJoins s.log (some (.entry offset length join pax)) = lastJoins s.log none := by
    cases hlast : s.log.getLast? with
    | none => simp [lastJoins, hlast]
    | some e => cases e <;> simp [lastJoins, hlast, Element.isNull]
  rw [openSpans_append, hjoin, Blocking.run_append, h.blocks, Blocks.add, Element.length_entry,
    Blocks.fill_fill hmax]

/-- The invariant behind an entry, held or streamed. -/
theorem entry_inv (hmax : 1 ≤ ctx.maxBlockSize) (h : StdinReady ctx stream.bytes s)
    {held : List UInt8} {f : Frames} {length pax : Nat} {join : Bool} (hsteady : Steady ctx f)
    (hpos : 0 < length) (hfits : s.pos + length ≤ stream.bytes.length)
    (hbytes : fedBytes f.calls ++ held = stream.bytes.take (s.pos + length))
    (hheld : held.length ≤ HELD_SIZE)
    (hblocks : (s.frames.blocks.fill ctx.maxBlockSize (s.held.length + length)).settle
      ctx.minBlockSize join = f.blocks.fill ctx.maxBlockSize held.length) :
    StdinInv ctx stream.bytes ⟨s.pos + length, held, 0, f, pax,
      s.log ++ [.entry s.pos length join pax]⟩ := by
  refine ⟨⟨hsteady, hfits, ?_, by simpa using hbytes, hheld⟩, ?_, ?_⟩
  · simp only [List.append_eq_nil_iff, List.cons_ne_nil, and_false, false_iff]
    omega
  · simp [Element.isNull]
  · simp only [bne_self_eq_false, Bool.false_or, lastJoins_append, Element.joins_entry,
      Nat.add_zero]
    rw [run_openSpans_entry h hmax, hblocks]

/-- The size that is carried past an entry that was streamed. -/
theorem stdinPaxRule_streamed {held pos : Nat} {log : List Element} {pax : Nat}
    (hsparse : hasSparseExtension e.header = false → e.extensions = 0)
    (hnot : holds held e = false) :
    stdinPaxRule ctx after stream.bytes ⟨pos, pax, held, log⟩ e =
      if e.header.typeflag == 0x78 && (roundUp e.size == roundUp e.size &&
          (0 < roundUp e.size && roundUp e.size ≤ IN_CHUNK)) then
        paxSize ctx.sizeBits ((stream.bytes.drop (pos + 512 + e.extensions)).take e.size)
          (after (pos + 512 + e.extensions + e.size))
      else e.paxNextSize := by
  simp only [stdinPaxRule, hnot, Bool.false_or, beq_self_eq_true, Bool.true_and]
  by_cases hx : e.header.typeflag = 0x78
  · have hext : isExtensionHeader e.header = true := by simp [isExtensionHeader, hx]
    rw [hsparse (hasSparseExtension_of_extension hext), Nat.add_zero]
  · simp [hx]

/-- A streamed entry pours what is held for it and then itself into the frames. -/
theorem streamEntry_reads (hmax : 1 ≤ ctx.maxBlockSize) (hn : stream.bytes.length < 2 ^ 64)
    (h : StdinReady ctx stream.bytes s) (hroom : s.pos + 512 ≤ stream.bytes.length)
    (he : recognise stream.bytes s.pos s.paxNextSize = some e)
    (hnot : holds s.held.length e = false) :
    ∃ (o : Frames) (u : StdinState), Opened ctx (s.held.length + e.length) s.frames o ∧
      (joinsNextEntry e.header = true → o = s.frames) ∧
      Poured ctx (s.held ++ (stream.bytes.drop s.pos).take e.length)
        (s.held.length + e.length) o u.frames ∧
      u.pos = s.pos + e.length ∧ u.held = [] ∧ u.nullRun = s.nullRun ∧ u.log = s.log ∧
      u.paxNextSize = stdinPaxRule ctx after stream.bytes
        ⟨s.pos, s.paxNextSize, s.held.length, s.log⟩ e ∧
      streamEntry ctx stream after s.pos e.size (roundUp e.size)
        { s with pos := s.pos + 512, paxNextSize := e.paxNextSize } = .ok { u with
          frames := if joinsNextEntry e.header then u.frames else closeElement ctx u.frames
          log := u.log ++ [.entry s.pos (u.pos - s.pos) (joinsNextEntry e.header)
            u.paxNextSize] } := by
  obtain ⟨hheader, -, -, hsparse, hfits⟩ := recognise_spec he
  have hwaiting := h.waiting_le
  obtain ⟨size, hsize⟩ : ∃ size, s.held.length + e.length = size := ⟨_, rfl⟩
  have hlength : e.length = 512 + (e.extensions + roundUp e.size) := by
    rw [Entry.length, Nat.add_assoc]
  have hbytes : e.header.bytes = (stream.bytes.drop s.pos).take 512 := by
    rw [hheader, headerAt_bytes hroom]
    rfl
  have hnoext : hasSparseExtension e.header = false → e.extensions = 0 := by
    intro hno
    simp only [sparseBytes, hno, Bool.false_eq_true, if_false, Option.some.injEq] at hsparse
    exact hsparse.symm
  have hplain : hasSparseExtension e.header = false →
      size = s.held.length + 512 + roundUp e.size := by
    intro hno
    have := hnoext hno
    omega
  have hopened := @opened_entry ctx s hmax h.steady e.header (roundUp e.size) size (by omega) hplain
  obtain ⟨o, ho⟩ : ∃ o, (if !joinsNextEntry e.header && !hasSparseExtension e.header then
      startElementFrame ctx ((s.held.length + 512 + roundUp e.size) % 2 ^ 64) s.frames
      else s.frames) = o := ⟨_, rfl⟩
  rw [ho] at hopened
  -- what is held, and the header
  have hheld := pushBytesTar_spec hmax s.held hopened.wf hopened.bounded hopened.pledged
    (show s.held.length ≤ size by omega)
  have hfirst := hheld.trans hmax (pushBytesTar_spec hmax e.header.bytes hheld.wf hheld.bounded
    hheld.pledged (by rw [e.header.size_eq]; omega))
  obtain ⟨p, hp⟩ : ∃ p, pushBytesTar ctx e.header.bytes (pushBytesTar ctx s.held o) = p :=
    ⟨_, rfl⟩
  rw [hp] at hfirst
  have hlen : (s.held ++ e.header.bytes).length = s.held.length + 512 := by
    rw [List.length_append, e.header.size_eq]
  have hleft := hfirst.pledged
  rw [hlen] at hleft
  -- the extension blocks
  obtain ⟨t, ht, hext, hpaxext⟩ := @extended_ok ctx stream
    { s with pos := s.pos + 512, paxNextSize := e.paxNextSize, held := [], frames := p } hmax
    s.pos e.extensions (size - (s.held.length + 512)) rfl hroom hfirst.wf hfirst.bounded hleft _
    hsparse (by omega)
  have hpost : t.pos = s.pos + 512 + e.extensions := hext.pos
  have hleft' := hext.poured.pledged
  rw [length_chunk hext.pos_le] at hleft'
  -- the payload
  obtain ⟨u, hu, hpayload, hpax⟩ := @streamPayload_ok ctx stream after t hmax e.header e.size
    (roundUp e.size) (le_roundUp e.size) (roundUp e.size) (roundUp e.size) _ (Nat.le_refl _)
    (Nat.le_refl _) hext.poured.wf hext.poured.bounded hleft' (by omega) (by omega)
  have hrest := hext.trans hmax hpayload
  have hpoured := hfirst.trans hmax (by rw [hlen]; exact hrest.poured)
  simp only [hbytes, List.append_assoc, chunk_append, ← hlength] at hpoured
  refine ⟨o, u, hsize ▸ hopened, ?_, hsize ▸ hpoured, ?_, hrest.held, hrest.nullRun, hrest.log,
    ?_, ?_⟩
  · intro hjoin
    rw [← ho]
    simp [hjoin]
  · rw [hrest.pos]
    simp only
    omega
  · rw [hpax, stdinPaxRule_streamed hnoext hnot, hpost, hpaxext]
  · simp only [streamEntry]
    rw [← hheader, ho, hp, ht]
    simp only [hu]

theorem streamEntry_ok (hmax : 1 ≤ ctx.maxBlockSize) (hn : stream.bytes.length < 2 ^ 64)
    (h : StdinReady ctx stream.bytes s) (hroom : s.pos + 512 ≤ stream.bytes.length)
    (he : recognise stream.bytes s.pos s.paxNextSize = some e)
    (hnot : holds s.held.length e = false) (hc : StdinAt s c) :
    ∃ t, streamEntry ctx stream after s.pos e.size (roundUp e.size)
        { s with pos := s.pos + 512, paxNextSize := e.paxNextSize } = .ok t ∧
      StdinInv ctx stream.bytes t ∧
      StdinAt t (c.pastEntry (stdinPaxRule ctx after stream.bytes) e) := by
  obtain ⟨o, u, hopened, hsame, hpoured, hpos, hheld, hnull, hlog, hpax, hresult⟩ :=
    @streamEntry_reads ctx stream after s e hmax hn h hroom he hnot
  have hfits := (recognise_spec he).2.2.2.2
  have hlen := @recognise_length_pos e
  have hbefore := h.bytes
  rw [h.flushed, List.replicate_zero, List.append_nil] at hbefore
  have hsrclen : (s.held ++ (stream.bytes.drop s.pos).take e.length).length =
      s.held.length + e.length := by
    rw [List.length_append, length_chunk hfits]
  have hsrcne : s.held ++ (stream.bytes.drop s.pos).take e.length ≠ [] := by
    apply List.ne_nil_of_length_pos
    omega
  have hbytes : fedBytes s.frames.calls ++ (s.held ++ (stream.bytes.drop s.pos).take e.length) =
      stream.bytes.take (s.pos + e.length) := by
    rw [List.take_add, ← hbefore, List.append_assoc]
  obtain ⟨f, hf⟩ : ∃ f, (if joinsNextEntry e.header then u.frames
      else closeElement ctx u.frames) = f := ⟨_, rfl⟩
  have hframes : Steady ctx f ∧ f.blocks = (s.frames.blocks.fill ctx.maxBlockSize
      (s.held.length + e.length)).settle ctx.minBlockSize (joinsNextEntry e.header) ∧
      fedBytes f.calls = stream.bytes.take (s.pos + e.length) := by
    rw [← hf, ← hbytes]
    cases hjoin : joinsNextEntry e.header with
    | true =>
        rw [hsame hjoin] at hpoured
        rw [if_pos rfl, Blocks.settle_true]
        exact ⟨hpoured.steady h.steady, by rw [hpoured.blocks, hsrclen], hpoured.fed⟩
    | false => exact element_steady hopened hpoured hsrclen hsrcne
  obtain ⟨hsteady, hblocks, hfed⟩ := hframes
  have hinv := @entry_inv ctx stream s hmax h [] f e.length
    (stdinPaxRule ctx after stream.bytes ⟨s.pos, s.paxNextSize, s.held.length, s.log⟩ e)
    (joinsNextEntry e.header) hsteady (by omega) hfits (by rw [hfed, List.append_nil])
    (Nat.zero_le _) (by rw [List.length_nil, Blocks.fill_zero _ (hsteady.bounded.rest_lt hmax),
      hblocks])
  obtain ⟨pos, held, nullRun, frames, pax, log⟩ := u
  simp only at hpos hheld hnull hlog hpax hf
  subst hpos hheld hnull hlog hpax
  have hcheld : c.held = s.held.length := by rw [hc.held, if_pos h.flushed]
  refine ⟨_, hresult, ?_, ?_⟩
  · simpa [hf, h.flushed] using hinv
  · refine ⟨by simp [Cursor.pastEntry, hc.idx], ?_, ?_, ?_⟩
    · simp [Cursor.pastEntry, stdinPaxRule, hc.idx, hcheld]
    · simp [Cursor.pastEntry, hcheld, hnot, h.flushed]
    · simp [Cursor.pastEntry, stdinPaxRule, hc.idx, hc.log, hcheld]

/-- What `holds` says of the entry and the room left in `held`. -/
theorem holds_spec {held : Nat} (h : holds held e = true) :
    joinsNextEntry e.header = true ∧ hasSparseExtension e.header = false ∧
      512 + roundUp e.size + held ≤ HELD_SIZE := by
  simpa [holds, HELD_SIZE, and_assoc] using h

/-- An entry that is held back. -/
theorem holdEntry_ok (hmax : 1 ≤ ctx.maxBlockSize) (h : StdinReady ctx stream.bytes s)
    (hroom : s.pos + 512 ≤ stream.bytes.length)
    (he : recognise stream.bytes s.pos s.paxNextSize = some e)
    (hheld : holds s.held.length e = true) (hc : StdinAt s c) :
    ∃ t, holdEntry ctx stream after s.pos e.size (roundUp e.size)
        { s with pos := s.pos + 512, paxNextSize := e.paxNextSize } = .ok t ∧
      StdinInv ctx stream.bytes t ∧
      StdinAt t (c.pastEntry (stdinPaxRule ctx after stream.bytes) e) := by
  obtain ⟨hheader, -, -, hsparse, hfits⟩ := recognise_spec he
  obtain ⟨hjoin, hnosparse, hsmall⟩ := holds_spec hheld
  have hext : e.extensions = 0 := by
    simp only [sparseBytes, hnosparse, Bool.false_eq_true, if_false, Option.some.injEq] at hsparse
    exact hsparse.symm
  have hlength : e.length = 512 + roundUp e.size := by
    rw [Entry.length, hext, Nat.add_zero]
  have hbytes : e.header.bytes = (stream.bytes.drop s.pos).take 512 := by
    rw [hheader, headerAt_bytes hroom]
    rfl
  have hword := ctx.HELD_SIZE_lt
  have hsize := le_roundUp e.size
  have hpadded : roundUp e.size % 2 ^ ctx.sizeBits = roundUp e.size :=
    Nat.mod_eq_of_lt (by omega)
  have hdata : e.size % 2 ^ ctx.sizeBits = e.size := Nat.mod_eq_of_lt (by omega)
  have hpayload : s.pos + 512 + roundUp e.size ≤ stream.bytes.length := by omega
  have hcheld : c.held = s.held.length := by rw [hc.held, if_pos h.flushed]
  have hpax : (if e.header.typeflag == 0x78 then
      paxSize ctx.sizeBits (((stream.bytes.drop (s.pos + 512)).take (roundUp e.size)).take e.size)
        (after (s.pos + 512 + e.size))
      else e.paxNextSize) = stdinPaxRule ctx after stream.bytes c e := by
    have hmin : min e.size (roundUp e.size) = e.size := Nat.min_eq_left hsize
    simp only [stdinPaxRule, hc.idx, hcheld, hheld, Bool.true_or, Bool.and_true, List.take_take,
      hmin]
  have hresult : holdEntry ctx stream after s.pos e.size (roundUp e.size)
      { s with pos := s.pos + 512, paxNextSize := e.paxNextSize } =
      .ok ⟨s.pos + e.length, s.held ++ (stream.bytes.drop s.pos).take e.length, s.nullRun, s.frames,
        stdinPaxRule ctx after stream.bytes c e,
        s.log ++ [.entry s.pos e.length true (stdinPaxRule ctx after stream.bytes c e)]⟩ := by
    simp only [holdEntry, ← hheader, hpadded, readExactStdin_ok hpayload, hdata, hpax,
      length_chunk hpayload, hbytes, List.append_assoc, chunk_append, ← hlength]
    rw [hlength, Nat.add_assoc]
  have hbefore := h.bytes
  rw [h.flushed, List.replicate_zero, List.append_nil] at hbefore
  have hsrclen : (s.held ++ (stream.bytes.drop s.pos).take e.length).length =
      s.held.length + e.length := by
    rw [List.length_append, length_chunk hfits]
  have hinv := @entry_inv ctx stream s hmax h (s.held ++ (stream.bytes.drop s.pos).take e.length)
    s.frames e.length (stdinPaxRule ctx after stream.bytes c e) true h.steady (by omega) hfits
    (by rw [List.take_add, ← hbefore, List.append_assoc]) (by omega)
    (by rw [hsrclen, Blocks.settle_true])
  refine ⟨_, hresult, ?_, by simp [Cursor.pastEntry, hc.idx], rfl, ?_, ?_⟩
  · rw [h.flushed]
    exact hinv
  · simp only [Cursor.pastEntry]
    rw [hcheld, if_pos hheld, if_pos h.flushed, hsrclen]
    omega
  · simp [Cursor.pastEntry, hc.idx, hc.log, hjoin]

/-- The guard leaves room for the padding and the header. -/
theorem padded_of_guard {fileSize : Nat} (h : fileSize ≤ UINT64_MAX - 1024) :
    paddedSize 64 fileSize = roundUp fileSize ∧ 512 + roundUp fileSize < 2 ^ 64 := by
  have hround := roundUp_lt fileSize
  simp only [UINT64_MAX] at h
  exact ⟨paddedSize_eq (by omega), by omega⟩

/-- A valid header is held or streamed, as `holds` says. -/
theorem stdinHeader_eq (hheld : s.held.length ≤ HELD_SIZE)
    (hvalid : isTarHeader (headerAt stream.bytes s.pos) = true) {size pax : Nat} (extensions : Nat)
    (hsize : tarEntrySize (headerAt stream.bytes s.pos) s.paxNextSize = (size, pax))
    (hsmall : size ≤ UINT64_MAX - 1024) :
    stdinHeader ctx stream after s =
      if holds s.held.length ⟨headerAt stream.bytes s.pos, size, pax, extensions⟩ then
        holdEntry ctx stream after s.pos size (roundUp size)
          { s with pos := s.pos + 512, paxNextSize := pax }
      else streamEntry ctx stream after s.pos size (roundUp size)
        { s with pos := s.pos + 512, paxNextSize := pax } := by
  have hword := ctx.HELD_SIZE_lt
  obtain ⟨hpadded, hfull⟩ := padded_of_guard hsmall
  have hmod : (512 + roundUp size) % 2 ^ 64 = 512 + roundUp size := Nat.mod_eq_of_lt hfull
  have hleft : usub ctx.sizeBits HELD_SIZE s.held.length = HELD_SIZE - s.held.length :=
    usub_eq hheld hword
  have hfits : decide (512 + roundUp size ≤ HELD_SIZE - s.held.length) =
      decide (512 + roundUp size + s.held.length ≤ 64 * 1024) := by
    rw [decide_eq_decide]
    simp only [HELD_SIZE] at hheld ⊢
    omega
  simp only [stdinHeader, hvalid, Bool.not_true, Bool.false_eq_true, if_false, hsize,
    if_neg (Nat.not_lt_of_le hsmall), hpadded, hmod, hleft, hfits]
  rfl

/-- Where the extension blocks or the payload are not all there, streaming fails. -/
theorem streamEntry_stuck (hmax : 1 ≤ ctx.maxBlockSize) (hn : stream.bytes.length < 2 ^ 64)
    (h : StdinReady ctx stream.bytes s) (hroom : s.pos + 512 ≤ stream.bytes.length) {size pax : Nat}
    (hshort : ∀ extensions,
      sparseBytes stream.bytes s.pos (headerAt stream.bytes s.pos) = some extensions →
      stream.bytes.length < s.pos + (512 + extensions + roundUp size)) :
    ∃ e, streamEntry ctx stream after s.pos size (roundUp size)
      { s with pos := s.pos + 512, paxNextSize := pax } = .error e := by
  simp only [streamEntry]
  by_cases hflag : hasSparseExtension (headerAt stream.bytes s.pos) = true
  case neg =>
    have hend := hshort 0 (by simp [sparseBytes, hflag])
    simp only [hflag, Bool.false_eq_true, if_false]
    obtain ⟨e, herror⟩ := @streamPayload_error ctx stream after
      { s with
        pos := s.pos + 512
        paxNextSize := pax
        held := []
        frames := pushBytesTar ctx (headerAt stream.bytes s.pos).bytes (pushBytesTar ctx s.held
          (if !joinsNextEntry (headerAt stream.bytes s.pos) && !false then
            startElementFrame ctx ((s.held.length + 512 + roundUp size) % 2 ^ 64) s.frames
          else s.frames)) }
      (headerAt stream.bytes s.pos) size (roundUp size) (roundUp size) (roundUp size)
      (Nat.le_refl _) hroom (by simp only; omega)
    exact ⟨e, by simp only [herror]⟩
  simp only [hflag, Bool.not_true, Bool.and_false, Bool.false_eq_true, if_false, if_true]
  obtain ⟨pushed, hpushed⟩ : ∃ pushed : StdinState, pushed = { s with
      pos := s.pos + 512
      paxNextSize := pax
      held := []
      frames := pushBytesTar ctx (headerAt stream.bytes s.pos).bytes
        (pushBytesTar ctx s.held s.frames) } := ⟨_, rfl⟩
  have hpos : pushed.pos = s.pos + 512 := by rw [hpushed]
  simp only [← hpushed]
  cases hext : sparseBytes stream.bytes s.pos (headerAt stream.bytes s.pos) with
  | none =>
      simp only [sparseBytes, hflag, if_true] at hext
      obtain ⟨e, herror⟩ := @streamExtensions_error ctx stream pushed (stream.bytes.length + 1)
        (hpos ▸ hroom) (by omega) (hpos ▸ hext)
      exact ⟨e, by simp only [herror]⟩
  | some extensions =>
      have hend := hshort extensions hext
      simp only [sparseBytes, hflag, if_true] at hext
      have hle := extensionBytes_le hext
      have hheld := pushBytesTar_spec hmax s.held h.steady.wf h.steady.bounded
        (h.steady.unpledged.pledged ctx (s.held.length + 512 + stream.bytes.length)) (by omega)
      have hfirst := pushBytesTar_spec hmax (headerAt stream.bytes s.pos).bytes hheld.wf
        hheld.bounded hheld.pledged (by rw [(headerAt stream.bytes s.pos).size_eq]; omega)
      have hleft := hfirst.pledged
      rw [(headerAt stream.bytes s.pos).size_eq] at hleft
      have hframes : pushed.frames = pushBytesTar ctx (headerAt stream.bytes s.pos).bytes
          (pushBytesTar ctx s.held s.frames) := by rw [hpushed]
      obtain ⟨t, ht, hext, -⟩ := @streamExtensions_ok ctx stream pushed hmax
        (stream.bytes.length + 1) extensions _ (hframes ▸ hfirst.wf) (hframes ▸ hfirst.bounded)
        (hframes ▸ hleft) (hpos ▸ hext) (by omega)
      have hpost := hext.pos
      obtain ⟨e, herror⟩ := @streamPayload_error ctx stream after t
        (headerAt stream.bytes s.pos) size (roundUp size) (roundUp size) (roundUp size)
        (Nat.le_refl _) (by omega) (by omega)
      exact ⟨e, by simp only [ht, herror]⟩

/-- Without an entry at the cursor the streaming path fails. -/
theorem stdinHeader_stuck (hmax : 1 ≤ ctx.maxBlockSize) (hn : stream.bytes.length < 2 ^ 64)
    (h : StdinReady ctx stream.bytes s) (hroom : s.pos + 512 ≤ stream.bytes.length)
    (hnone : recognise stream.bytes s.pos s.paxNextSize = none) :
    ∃ e, stdinHeader ctx stream after s = .error e := by
  by_cases hvalid : isTarHeader (headerAt stream.bytes s.pos) = true
  case neg => exact ⟨.invalidHeader, by simp [stdinHeader, hvalid]⟩
  obtain ⟨⟨size, pax⟩, hsize⟩ : ∃ p, tarEntrySize (headerAt stream.bytes s.pos) s.paxNextSize = p :=
    ⟨_, rfl⟩
  by_cases hlarge : UINT64_MAX - 1024 < size
  case pos => exact ⟨.entryTooLarge, by simp [stdinHeader, hvalid, hsize, hlarge]⟩
  rw [stdinHeader_eq h.held_le hvalid 0 hsize (Nat.le_of_not_lt hlarge)]
  have hshort := (recognise_eq_none_iff hvalid hsize).mp hnone
  split
  case isTrue hheld =>
    obtain ⟨-, hnosparse, hsmall⟩ := holds_spec hheld
    have hword := ctx.HELD_SIZE_lt
    simp only at hsmall hnosparse
    have hpadded : roundUp size % 2 ^ ctx.sizeBits = roundUp size := Nat.mod_eq_of_lt (by omega)
    have hend := hshort 0 (by simp [sparseBytes, hnosparse])
    obtain ⟨e, herror⟩ := @readExactStdin_error stream (s.pos + 512) (roundUp size) (by omega)
    exact ⟨e, by simp only [holdEntry, hpadded, herror]⟩
  case isFalse => exact streamEntry_stuck hmax hn h hroom hshort

/-- The streaming path takes the entry at the cursor. -/
theorem stdinHeader_ok (hmax : 1 ≤ ctx.maxBlockSize) (hn : stream.bytes.length < 2 ^ 64)
    (h : StdinReady ctx stream.bytes s) (hroom : s.pos + 512 ≤ stream.bytes.length)
    (he : recognise stream.bytes s.pos s.paxNextSize = some e)
    (hsmall : e.size ≤ UINT64_MAX - 1024) (hc : StdinAt s c) :
    ∃ t, stdinHeader ctx stream after s = .ok t ∧ StdinInv ctx stream.bytes t ∧
      StdinAt t (c.pastEntry (stdinPaxRule ctx after stream.bytes) e) := by
  obtain ⟨hheader, hvalid, hsize, -, -⟩ := recognise_spec he
  rw [hheader] at hvalid hsize
  rw [stdinHeader_eq h.held_le hvalid e.extensions hsize.symm hsmall]
  have heta : (⟨headerAt stream.bytes s.pos, e.size, e.paxNextSize, e.extensions⟩ : Entry) = e := by
    rw [← hheader]
  rw [heta]
  cases hheld : holds s.held.length e with
  | true => exact holdEntry_ok hmax h hroom he hheld hc
  | false => exact streamEntry_ok hmax hn h hroom he hheld hc

end Headers

end T2sz
