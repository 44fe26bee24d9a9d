import T2sz.ArchiveScan
import T2sz.Library.Growing
import T2sz.MostFrames

/-!
Inputs that begin alike give frames that begin alike.

The walk over an archive looks at one element at a time, so it does not see what
comes behind, and the blocks are cut as the elements come. A frame that ends
before some element does is therefore the same in every archive that begins with
the same bytes up to the end of that element: appending to an archive leaves all
frames but the last few as they are.
-/

namespace T2sz

open Iteration Blocking Blocks Slicing

section Locality

variable {common rest : List UInt8} {idx pax n : Nat} {e : Entry}

theorem extensionBytes_common (rest : List UInt8) {fuel fuel' pos extra : Nat}
    (h : extensionBytes common fuel pos = some extra) (hfuel : fuel ≤ fuel') :
    extensionBytes (common ++ rest) fuel' pos = some extra := by
  induction fuel generalizing fuel' pos extra with
  | zero => cases h
  | succ fuel ih =>
      obtain ⟨fuel', rfl⟩ := Nat.exists_eq_succ_of_ne_zero (by omega : fuel' ≠ 0)
      simp only [extensionBytes] at h ⊢
      split at h
      case isTrue => cases h
      case isFalse hroom =>
        have hflag : (common ++ rest).getD (pos + 504) 0 = common.getD (pos + 504) 0 := by
          rw [List.getD_eq_getElem?_getD, List.getD_eq_getElem?_getD,
            List.getElem?_append_left (by omega)]
        rw [if_neg (by rw [List.length_append]; omega), hflag]
        split at h
        case isTrue hmore =>
          obtain ⟨extra', hextra, rfl⟩ := Option.map_eq_some_iff.mp h
          rw [if_pos hmore, ih hextra (by omega)]
          rfl
        case isFalse hlast =>
          rw [if_neg hlast]
          exact h

theorem sparseBytes_common (rest : List UInt8) {header : TarHeader} {extensions : Nat}
    (h : sparseBytes common idx header = some extensions) :
    sparseBytes (common ++ rest) idx header = some extensions := by
  rw [sparseBytes] at h ⊢
  split at h
  case isTrue hsparse =>
    rw [if_pos hsparse]
    exact extensionBytes_common rest h (by rw [List.length_append]; omega)
  case isFalse hplain =>
    rw [if_neg hplain]
    exact h

/-- An entry that is all there is the same entry in front of anything. -/
theorem recognise_common (rest : List UInt8) (h : recognise common idx pax = some e) :
    recognise (common ++ rest) idx pax = some e := by
  obtain ⟨hheader, hvalid, hsize, hsparse, hfits⟩ := recognise_spec h
  have hlen : 512 ≤ e.length := recognise_length_pos
  have hsame := headerAt_common rest (Nat.le_trans (Nat.add_le_add_left hlen idx) hfits)
  obtain ⟨header, size, paxNextSize, extensions⟩ := e
  obtain rfl : header = headerAt common idx := hheader
  simp only [recognise, hsame]
  rw [if_pos hvalid, ← hsize]
  simp only [sparseBytes_common rest hsparse, Option.bind_some]
  exact if_pos (by rw [List.length_append]; omega)

/-- Two rules that agree about the entries in `common`. -/
def AgreeOn (rule rule' : PaxRule) (common : List UInt8) : Prop :=
  ∀ (c : Cursor) (e : Entry), c.idx + e.length ≤ common.length → rule c e = rule' c e

variable {rule rule' : PaxRule} {c d : Cursor}

theorem nextCursor_common (rest : List UInt8) (hrule : AgreeOn rule rule' common)
    (h : nextCursor rule common c = some d) : nextCursor rule' (common ++ rest) c = some d := by
  obtain ⟨hroom, hcases⟩ := nextCursor_cases h
  have hblock : blockAt (common ++ rest) c.idx = blockAt common c.idx := chunk_common rest hroom
  rw [nextCursor, if_neg (by rw [List.length_append]; omega), hblock]
  obtain ⟨hzero, rfl⟩ | ⟨hzero, e, he, rfl⟩ := hcases
  · rw [if_pos hzero]
  · rw [hzero, if_neg Bool.false_ne_true, recognise_common rest he, Option.map_some,
      Cursor.pastEntry, Cursor.pastEntry, hrule c e (recognise_spec he).2.2.2.2]

theorem Reaches.idx_le (h : Reaches rule common .init d) : d.idx ≤ common.length := by
  cases h with
  | refl => exact Nat.zero_le _
  | tail _ hnext => exact (nextCursor_idx_le hnext).2

theorem Reaches.append (rest : List UInt8) (hrule : AgreeOn rule rule' common)
    (h : Reaches rule common c d) : Reaches rule' (common ++ rest) c d := by
  induction h with
  | refl => exact .refl
  | tail _ hnext ih => exact ih.tail (nextCursor_common rest hrule hnext)

end Locality

section Spans

variable {rule : PaxRule} {input : List UInt8} {c d : Cursor}

theorem total_openSpans (log : List Element) (last : Bool) :
    Blocking.total (openSpans log last) = (log.map Element.length).sum := by
  rw [Blocking.total]
  congr 1
  induction log with
  | nil => rfl
  | cons a log ih =>
      cases log with
      | nil => rfl
      | cons b log =>
          rw [openSpans, List.map_cons, List.map_cons, ih]

/-- The walk has come as far as its elements are long. -/
theorem Reaches.sum_log (h : Reaches rule input .init d) :
    (d.log.map Element.length).sum = d.idx := by
  induction h with
  | refl => rfl
  | tail _ hnext ih =>
      obtain ⟨e, hlog, hoffset, hidx, -⟩ := nextCursor_log hnext
      rw [hlog, List.map_append, List.sum_append, ih, hidx, Element.stop, hoffset]
      simp

/-- The join of an element is all that what comes behind it can change. -/
theorem spans_common (log : List Element) (e : Element) (more : List Element) :
    spans (log ++ e :: more) =
      openSpans log (lastJoins log (some e)) ++ (e.length, e.joins more.head?) :: spans more := by
  induction log with
  | nil => exact spans_cons e more
  | cons a log ih =>
      rw [List.cons_append, spans_cons, ih]
      cases log with
      | nil => rfl
      | cons b log =>
          have hlast : lastJoins (a :: b :: log) (some e) = lastJoins (b :: log) (some e) := by
            simp [lastJoins]
          rw [hlast]
          rfl

/-- The blocks when the last element of a walk is poured, and its join is not known. -/
def blocksBefore (low high : Nat) (log : List Element) : Blocks :=
  match log.getLast? with
  | none => ⟨[], 0⟩
  | some e =>
      (run low high (openSpans log.dropLast (lastJoins log.dropLast (some e)))).fill high e.length

/-- They grow to those of every log that goes on. -/
theorem grows_blocksBefore {low high : Nat} (hh : 0 < high) (log more : List Element) :
    Grows (blocksBefore low high log) (run low high (spans (log ++ more))) ∧
      (blocksBefore low high log).total = (log.map Element.length).sum := by
  cases log using List.reverseRecOn with
  | nil => exact ⟨grows_foldl hh hh _, rfl⟩
  | append_singleton log e =>
      rw [blocksBefore, List.getLast?_concat, List.dropLast_concat, List.append_assoc,
        List.singleton_append, spans_common]
      constructor
      · rw [run, List.foldl_append, List.foldl_cons]
        have hfill :=
          fill_rest_lt hh (run low high (openSpans log (lastJoins log (some e)))) e.length
        exact (grows_settle _ _).trans (grows_foldl hh (settle_rest_lt _ _ hfill) _)
      · rw [total_fill, total_run, total_openSpans, List.map_append, List.sum_append]
        simp

end Spans

namespace Loaded

/-- The same input with more bytes behind it. -/
def append : Loaded → List UInt8 → Loaded
  | .mapped input, rest => .mapped (input ++ rest)
  | .stream s, rest => .stream { s with bytes := s.bytes ++ rest }

/-- A place up to which nothing that comes behind is looked at: in tar mode the end
of an element. -/
def Boundary (ctx : Context) (after : Nat → List UInt8) (common : Loaded) (g : Nat) : Prop :=
  if ctx.rawMode then g ≤ common.bytes.length
  else ∃ d, Reaches ((common.path after).rule ctx common.bytes) common.bytes .init d ∧ d.idx = g

variable {common : Loaded} {ctx : Context} {after : Nat → List UInt8}

@[simp] theorem bytes_append (common : Loaded) (rest : List UInt8) :
    (common.append rest).bytes = common.bytes ++ rest := by
  cases common <;> rfl

@[simp] theorem path_append (common : Loaded) (rest : List UInt8) :
    (common.append rest).path after = common.path after := by
  cases common <;> rfl

theorem Boundary.le {g : Nat} (h : common.Boundary ctx after g) : g ≤ common.bytes.length := by
  rw [Boundary] at h
  split at h
  · exact h
  · obtain ⟨d, hreach, rfl⟩ := h
    exact hreach.idx_le

theorem fits {loaded : Loaded} (h : (loaded.path after).Roomy ctx loaded.bytes) :
    ∀ input, loaded = .mapped input → input.length + 4096 ≤ 2 ^ ctx.sizeBits := by
  rintro input rfl
  have hhalf : 2 * input.length + 4096 ≤ 2 ^ ctx.sizeBits := h
  omega

/-- The size carried past an entry is read in the entry. -/
theorem rule_append (rest : List UInt8) :
    AgreeOn ((common.path after).rule ctx common.bytes)
      ((common.path after).rule ctx (common.bytes ++ rest)) common.bytes := by
  intro c e hfits
  have hsize := le_roundUp e.size
  rw [Entry.length] at hfits
  have hdata := @chunk_common common.bytes (c.idx + 512) e.size rest (by omega)
  cases common with
  | mapped input =>
      rw [Loaded.bytes] at hdata
      simp only [path, TarPath.rule, Loaded.bytes, filePaxRule, hdata]
  | stream s =>
      rw [Loaded.bytes] at hdata
      simp only [path, TarPath.rule, Loaded.bytes, stdinPaxRule, hdata]

end Loaded

/-- The contents of the frames. -/
def frameContents (calls : List Call) : List (List UInt8) :=
  (session calls).closed.map Frame.content

theorem map_length_frameContents (calls : List Call) :
    (frameContents calls).map List.length = frameSizes calls := by
  rw [frameContents, frameSizes, List.map_map]
  rfl

/-- Every byte that is fed is in a frame. -/
theorem Bracketed.content {calls : List Call} {n : Option Nat} (h : Bracketed calls n) :
    (session calls).content = fedBytes calls := by
  induction h with
  | nil => rfl
  | frame src hcalls ih =>
      have hnone := Option.map_eq_none_iff.mp hcalls.recorded.2
      rw [Session.content, hnone] at ih
      rw [fedBytes_append, ← ih]
      simp [Session.content, Session.call, fedBytes]
  | start pledged hcalls ih =>
      have hnone := Option.map_eq_none_iff.mp hcalls.recorded.2
      rw [Session.content, hnone] at ih
      rw [fedBytes_append, ← ih]
      simp [Session.content, Session.call, fedBytes]
  | push src hcalls ih =>
      obtain ⟨frame, hframe, -⟩ := Option.map_eq_some_iff.mp hcalls.recorded.2
      rw [Session.content, hframe] at ih
      rw [fedBytes_append, ← ih]
      simp [Session.content, Session.call, fedBytes, hframe]
  | finish hcalls ih =>
      obtain ⟨frame, hframe, -⟩ := Option.map_eq_some_iff.mp hcalls.recorded.2
      rw [Session.content, hframe] at ih
      rw [fedBytes_append, ← ih]
      simp [Session.content, Session.call, fedBytes, hframe]

/-- The frames of a run, one after the other, are its input. -/
theorem Framing.flatten {input : List UInt8} {calls : List Call} (h : Framing input calls) :
    (frameContents calls).flatten = input := by
  have hnone := Option.map_eq_none_iff.mp h.bracketed.recorded.2
  have hcontent := h.bracketed.content
  rw [Session.content, hnone, h.fed] at hcontent
  simpa [frameContents] using hcontent

/-- Pieces of the same sizes of lists that begin alike are the same. -/
theorem take_pieces {pieces pieces' : List (List UInt8)} {common rest rest' : List UInt8} {k : Nat}
    (h : pieces.flatten = common ++ rest) (h' : pieces'.flatten = common ++ rest')
    (hsizes : (pieces'.map List.length).take k = (pieces.map List.length).take k)
    (hend : offset (pieces.map List.length) k ≤ common.length) :
    pieces'.take k = pieces.take k := by
  have hflatten : ∀ l : List (List UInt8), (l.take k).flatten =
      l.flatten.take (offset (l.map List.length) k) := by
    intro l
    rw [offset, List.take_sum_flatten]
  have hoffset : offset (pieces'.map List.length) k = offset (pieces.map List.length) k := by
    rw [offset, offset, hsizes]
  rw [List.eq_iff_flatten_eq]
  constructor
  · rw [hflatten, hflatten, hoffset, h, h', List.take_append_of_le_length hend,
      List.take_append_of_le_length hend]
  · rw [List.map_take, List.map_take, hsizes]

/-- Frames of inputs that begin alike, their sizes grown out of the same blocks. -/
theorem contents_common {common rest rest' : List UInt8} {calls calls' : List Call}
    (hframing : Framing (common ++ rest) calls) (hframing' : Framing (common ++ rest') calls')
    {b c c' : Blocks} (hc : Grows b c) (hc' : Grows b c') (hsizes : frameSizes calls = c.finish)
    (hsizes' : frameSizes calls' = c'.finish) (hle : b.total ≤ common.length) {k : Nat}
    (hend : offset (frameSizes calls) k < b.total) :
    (frameContents calls').take k = (frameContents calls).take k := by
  have hbefore := Nat.le_of_lt (Nat.lt_of_lt_of_le hend hle)
  rw [hsizes] at hend
  apply take_pieces hframing.flatten hframing'.flatten
  · rw [map_length_frameContents, map_length_frameContents, hsizes, hsizes']
    exact hc.common hc' hend
  · rwa [map_length_frameContents]

/-- The sizes of the slices, as blocks. -/
theorem slices_blocks {k : Nat} (hk : 0 < k) (input : List UInt8) :
    (slices k input).map List.length = ((Blocks.mk [] 0).fill k input.length).finish := by
  rw [map_length_slices hk, fill, Blocks.finish]
  simp only [Nat.zero_add, List.nil_append]
  split
  · rfl
  · rw [List.append_nil]

namespace World

variable {world : World} {ctx : Context} {common : Loaded} {rest rest' : List UInt8}
  {a a' : Attempt} {g k : Nat}

/-- What is in front of a boundary settles all frames that end before it. -/
theorem boundary_grows (hboundary : common.Boundary ctx world.after g) :
    ∃ b : Blocks, b.total = g ∧ ∀ rest a, (common.append rest).bytes.length < 2 ^ 62 →
      (common.path world.after).Roomy ctx (common.append rest).bytes →
      world.attempt ctx (common.append rest) = some a → a.returns = true →
      ∃ c, Grows b c ∧ frameSizes a.calls = c.finish := by
  rw [Loaded.Boundary] at hboundary
  split at hboundary
  case isTrue hraw =>
    have hpos := rawBlockSize_pos ctx.minBlockSize
    refine ⟨(Blocks.mk [] 0).fill (rawBlockSize ctx.minBlockSize) g, ?_, ?_⟩
    · rw [total_fill, Blocks.total]
      simp
    · intro rest a hn hroom h hreturns
      have hslices := attempt_sliced hraw h hreturns
      obtain ⟨more, hmore⟩ := Nat.exists_eq_add_of_le
        (Nat.le_trans hboundary (Nat.le_add_right _ rest.length))
      refine ⟨(Blocks.mk [] 0).fill (rawBlockSize ctx.minBlockSize)
        (common.append rest).bytes.length, ?_, ?_⟩
      · rw [Loaded.bytes_append, List.length_append, hmore, ← fill_fill hpos]
        exact grows_fill (fill_rest_lt hpos _ _) _
      · rw [← map_length_frameContents, frameContents, hslices.contents, slices_blocks hpos]
  case isFalse htar =>
    obtain ⟨d, hreach, rfl⟩ := hboundary
    have hmax := ctx.clamp_max_le.1
    refine ⟨blocksBefore ctx.clamp.minBlockSize ctx.clamp.maxBlockSize d.log, ?_, ?_⟩
    · rw [(grows_blocksBefore hmax d.log []).2, hreach.sum_log]
    · intro rest a hn hroom h hreturns
      rw [← Loaded.path_append common rest] at hroom
      obtain ⟨c, hruns, haccepts⟩ := attempt_walks (Bool.eq_false_iff.mpr htar) hn hroom h
        hreturns
      rw [Loaded.path_append, Loaded.bytes_append] at hruns
      have hbehind := (hreach.append rest (Loaded.rule_append rest)).runs_from hruns
      obtain ⟨more, hmore, -⟩ := scan_log hbehind
      have hlog : c.log = d.log ++ more := hmore
      refine ⟨_, (grows_blocksBefore hmax d.log more).1, ?_⟩
      rw [(haccepts.recorded hn hroom.whole).sizes, hlog]
      rfl

/-- The frames of two inputs that begin alike are the same, as far as they end
before the place up to which both were read in the same way. -/
theorem attempt_stable (hboundary : common.Boundary ctx world.after g)
    (hn : (common.append rest).bytes.length < 2 ^ 62)
    (hn' : (common.append rest').bytes.length < 2 ^ 62)
    (hroom : (common.path world.after).Roomy ctx (common.append rest).bytes)
    (hroom' : (common.path world.after).Roomy ctx (common.append rest').bytes)
    (h : world.attempt ctx (common.append rest) = some a) (hreturns : a.returns = true)
    (h' : world.attempt ctx (common.append rest') = some a') (hreturns' : a'.returns = true)
    (hend : offset (frameSizes a.calls) k < g) :
    (frameContents a'.calls).take k = (frameContents a.calls).take k := by
  obtain ⟨b, rfl, hgrows⟩ := boundary_grows hboundary
  obtain ⟨c, hc, hsizes⟩ := hgrows rest a hn hroom h hreturns
  obtain ⟨c', hc', hsizes'⟩ := hgrows rest' a' hn' hroom' h' hreturns'
  rw [← Loaded.path_append common] at hroom hroom'
  have hframing := (attempt_framed h hreturns (Loaded.fits hroom)).1.framing hn
  have hframing' := (attempt_framed h' hreturns' (Loaded.fits hroom')).1.framing hn'
  rw [Loaded.bytes_append] at hframing hframing'
  exact contents_common hframing hframing' hc hc' hsizes hsizes' hboundary.le hend

/-- A file without content, and another one behind it. -/
theorem emptyFiles_boundary :
    (Loaded.mapped emptyFiles).Boundary newContext nullWorld.after 1024 := by
  rw [Loaded.Boundary, if_neg (by decide)]
  refine ⟨⟨1024, UINT64_MAX, 0, [.entry 0 512 false UINT64_MAX, .entry 512 512 false UINT64_MAX]⟩,
    .head (b := ⟨512, UINT64_MAX, 0, [.entry 0 512 false UINT64_MAX]⟩) ?_ (.single ?_), rfl⟩
  · decide +kernel
  · decide +kernel

/-- The first frame stays when a null block is appended. -/
theorem attempt_stable_emptyFiles :
    ∃ a a', nullWorld.attempt newContext (.mapped emptyFiles) = some a ∧
      nullWorld.attempt newContext (.mapped (emptyFiles ++ nullBlock)) = some a' ∧
      (frameContents a'.calls).take 1 = (frameContents a.calls).take 1 := by
  obtain ⟨a, ha, hreturns, hend⟩ :
      ∃ a, nullWorld.attempt newContext (.mapped (emptyFiles ++ [])) = some a ∧
        a.returns = true ∧ offset (frameSizes a.calls) 1 < 1024 := by
    decide +kernel
  obtain ⟨a', ha', hreturns'⟩ :
      ∃ a, nullWorld.attempt newContext (.mapped (emptyFiles ++ nullBlock)) = some a ∧
        a.returns = true := by
    decide +kernel
  have hlen : emptyFiles.length = 1024 := by
    rw [emptyFiles, List.length_append, emptyFileHeader.size_eq]
  have hlen' : (emptyFiles ++ nullBlock).length = 1536 := by
    rw [List.length_append, hlen, nullBlock, List.length_replicate]
  have hroom : ∀ input : List UInt8, input.length ≤ 1536 →
      (Loaded.mapped input).bytes.length < 2 ^ 62 ∧
        (TarPath.file nullWorld.after).Roomy newContext input := by
    intro input hinput
    have hsmall : (Loaded.mapped input).bytes.length < 2 ^ 62 := by
      rw [Loaded.bytes]
      omega
    exact ⟨hsmall, room_of_bits rfl hsmall⟩
  have hfits := hroom (emptyFiles ++ []) (by rw [List.append_nil, hlen]; decide)
  have hfits' := hroom (emptyFiles ++ nullBlock) (Nat.le_of_eq hlen')
  refine ⟨a, a', by rw [← ha, List.append_nil], ha', ?_⟩
  exact @attempt_stable nullWorld newContext (.mapped emptyFiles) [] nullBlock a a' 1024 1
    emptyFiles_boundary hfits.1 hfits'.1 hfits.2 hfits'.2 ha hreturns ha' hreturns' hend

end World

end T2sz
