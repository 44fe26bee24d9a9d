import T2sz.FrameContents
import T2sz.FrameLog
import T2sz.Framing

/-!
Random access through the seek table is exact: its entries are the sizes of the
frames in the file and of what they hold, so their sums are offsets into the
file and into the input.
-/

namespace T2sz

/-- What libzstd promises of a run, `IsFrame c x` saying that `c` is a complete
frame with the content `x`. -/
structure Conforms (outBuffSize : Nat) (IsFrame : List UInt8 → List UInt8 → Prop)
    (events : List Event) : Prop where
  consumes : ∀ mode offered answer, Event.stream mode offered answer ∈ events →
    answer.consumed ≤ offered.length
  emits : ∀ mode offered answer, Event.stream mode offered answer ∈ events →
    answer.output.length ≤ outBuffSize
  /-- `ZSTD_e_end` returns 0 only when the frame is flushed. -/
  flushes : ∀ s : Segment, s.events <:+: events → Ended s.body → IsFrame s.written s.fed
  compact : ∀ c x, IsFrame c x → x.length ≤ 2 ^ 31 - 1 → c.length < 2 ^ 32

/-- How many bytes of input the calls took. -/
def Segment.taken (s : Segment) : Nat :=
  (s.body.map fun e => match e with
    | .stream _ _ answer => answer.consumed
    | _ => 0).sum

section Segments

variable {events : List Event} {segments : List Segment} {s : Segment}

theorem Segment.taken_eq (h : ∀ mode offered answer, Event.stream mode offered answer ∈ s.body →
    answer.consumed ≤ offered.length) : s.taken = s.fed.length := by
  have hall : ∀ body : List Event, (∀ mode offered answer, Event.stream mode offered answer ∈ body →
      answer.consumed ≤ offered.length) →
      (Segment.mk none body).taken = (Segment.mk none body).fed.length := by
    intro body hbody
    induction body with
    | nil => rfl
    | cons e body ih =>
        have hrest := ih fun mode offered answer he =>
          hbody mode offered answer (List.mem_cons_of_mem _ he)
        simp only [Segment.taken, Segment.fed] at hrest
        simp only [Segment.taken, Segment.fed, List.map_cons, List.sum_cons, consumed_cons,
          List.length_append, hrest]
        cases e with
        | reset => rfl
        | pledge size => rfl
        | stream mode offered answer =>
            have htake := hbody mode offered answer List.mem_cons_self
            rw [Event.fed, List.length_take, Nat.min_eq_left htake]
  exact hall s.body h

theorem Segment.events_infix (hs : s ∈ segments) :
    s.events <:+: segments.flatMap Segment.events := by
  obtain ⟨before, after, rfl⟩ := List.append_of_mem hs
  exact ⟨before.flatMap Segment.events, after.flatMap Segment.events, by simp⟩

/-- Frame `i` starts where the sizes before it add up to. -/
theorem drop_flatMap {f : Segment → List UInt8} {i : Nat} (hi : i < segments.length) :
    ((segments.flatMap f).drop ((segments.map fun s => (f s).length).take i).sum).take
      (f segments[i]).length = f segments[i] := by
  induction segments generalizing i with
  | nil => cases hi
  | cons s segments ih =>
      cases i with
      | zero => simp
      | succ i =>
          have hrest := ih (Nat.lt_of_succ_lt_succ hi)
          rw [List.flatMap_cons, List.map_cons, List.take_succ_cons, List.sum_cons,
            List.drop_length_add_append]
          exact hrest

end Segments

/-- The seek table describes the frames of the file, one by one. -/
structure Exact (host : Host) (IsFrame : List UInt8 → List UInt8 → Prop) (input : List UInt8)
    (w : Writer) (segments : List Segment) : Prop where
  events : w.events = segments.flatMap Segment.events
  /-- The output of a frame lies between a reset and the `ZSTD_e_end` that returned 0. -/
  frames : ∀ s ∈ segments, Ended s.body ∧ IsFrame s.written s.fed
  pairs : w.table.pairs = segments.map fun s => (s.written.length, s.taken)
  outFile : w.outFile = segments.flatMap Segment.written
  whole : input = segments.flatMap Segment.fed
  access : ∀ i, (hi : i < segments.length) →
    (w.outFile.drop ((w.table.pairs.map Prod.fst).take i).sum).take segments[i].written.length =
        segments[i].written ∧
      (input.drop ((w.table.pairs.map Prod.snd).take i).sum).take segments[i].taken =
        segments[i].fed
  compressed : (w.table.pairs.map Prod.fst).sum = w.outFile.length
  decompressed : (w.table.pairs.map Prod.snd).sum = input.length
  readable : seekTableEntries (cleanupCompression host w.table w.outFile) = some w.table.pairs

/-- The sizes of the frame and of its content. -/
def Segment.sizes (s : Segment) : Nat × Nat := (s.written.length, s.fed.length)

/-- What a run that returns leaves: frames that have ended, of sizes that 32 bits
hold, and a table in which each was recorded. -/
structure Written (host : Host) (IsFrame : List UInt8 → List UInt8 → Prop) (input : List UInt8)
    (w : Writer) (segments : List Segment) : Prop where
  events : w.events = segments.flatMap Segment.events
  frames : ∀ s ∈ segments, Ended s.body ∧ IsFrame s.written s.fed
  outFile : w.outFile = segments.flatMap Segment.written
  whole : input = segments.flatMap Segment.fed
  taken : ∀ s ∈ segments, s.taken = s.fed.length
  small : ∀ s ∈ segments, s.written.length < 2 ^ 32 ∧ s.fed.length < 2 ^ 32
  table : Records host false (segments.map Segment.entry) w.table

section Exactness

variable {host : Host} {IsFrame : List UInt8 → List UInt8 → Prop} {input : List UInt8}
  {w : Writer} {segments : List Segment}

theorem Framed.written {ctx : Context} (hn : input.length < 2 ^ 62) {calls : List Call}
    (hframed : Framed ctx input calls) {replies : List Reply}
    (hrun : (Writer.init false replies).run host calls = .ok w) {outBuffSize : Nat}
    (hz : Conforms outBuffSize IsFrame w.events) :
    ∃ segments, Written host IsFrame input w segments ∧
      segments.length = (recordedSizes calls).length := by
  obtain ⟨hbracketed, hfed, hbounds⟩ := hframed.framing hn
  obtain ⟨segments, opened, hlogged, hopened⟩ := run_follows hbracketed hrun
  rw [Option.map_eq_none_iff] at hopened
  subst hopened
  have hevents := hlogged.events
  have houtFile := hlogged.outFile
  have hinput := hlogged.fed
  simp only [Option.map_none, Option.getD_none, List.append_nil] at hevents houtFile hinput
  have hframes : ∀ s ∈ segments, Ended s.body ∧ IsFrame s.written s.fed := by
    intro s hs
    refine ⟨hlogged.ended s hs, hz.flushes s ?_ (hlogged.ended s hs)⟩
    rw [hevents]
    exact Segment.events_infix hs
  refine ⟨segments, ⟨hevents, hframes, houtFile, ?_, ?_, ?_, hlogged.table⟩, ?_⟩
  case refine_1 => rw [hinput, hfed]
  case refine_2 =>
    intro s hs
    apply Segment.taken_eq
    intro mode offered answer he
    apply hz.consumes mode offered answer
    rw [hevents, List.mem_flatMap]
    exact ⟨s, hs, List.mem_cons_of_mem _ (List.mem_cons_of_mem _ he)⟩
  case refine_3 =>
    intro s hs
    have hsize := hbounds s.fed.length (by
      rw [hlogged.sizes]
      exact List.mem_map_of_mem hs)
    rw [MAX_FRAME_SIZE] at hsize
    exact ⟨hz.compact _ _ (hframes s hs).2 hsize, by omega⟩
  case refine_4 => rw [hlogged.sizes, List.length_map]

/-- The entries are the sizes themselves, as 64 bits hold them. -/
theorem Written.records (h : Written host IsFrame input w segments) :
    Records host false (segments.map Segment.sizes) w.table := by
  have hentries : segments.map Segment.entry = segments.map Segment.sizes := by
    apply List.map_congr_left
    intro s hs
    have hsmall := h.small s hs
    rw [Segment.entry, Segment.sizes, Nat.mod_eq_of_lt (by omega)]
  exact hentries ▸ h.table

theorem Written.sizes_lt (h : Written host IsFrame input w segments) :
    ∀ p ∈ segments.map Segment.sizes, p.1 < 2 ^ 32 ∧ p.2 < 2 ^ 32 := by
  intro p hp
  obtain ⟨s, hs, rfl⟩ := List.mem_map.mp hp
  exact h.small s hs

theorem Written.pairs_eq (h : Written host IsFrame input w segments)
    (hfew : segments.length < 2 ^ 27) : w.table.pairs = segments.map Segment.sizes := by
  have hkept := h.records.kept_iff.mpr ⟨rfl, by rwa [List.length_map]⟩
  rw [h.records.pairs h.sizes_lt, h.records.len_of_kept hkept, List.take_length]

theorem Written.readable (h : Written host IsFrame input w segments)
    (hfew : segments.length < 2 ^ 27) :
    seekTableEntries (cleanupCompression host w.table w.outFile) = some w.table.pairs := by
  have hcount : (segments.map Segment.sizes).length < 2 ^ 27 := by rwa [List.length_map]
  rw [h.records.cleanup_kept hcount, h.pairs_eq hfew]
  exact seekTableEntries_written host _ h.sizes_lt hcount

theorem Written.exact (h : Written host IsFrame input w segments)
    (hfew : segments.length < 2 ^ 27) : Exact host IsFrame input w segments := by
  have hpairs := h.pairs_eq hfew
  have hfst : w.table.pairs.map Prod.fst = segments.map fun s => s.written.length := by
    rw [hpairs, List.map_map]
    rfl
  have hsnd : w.table.pairs.map Prod.snd = segments.map fun s => s.fed.length := by
    rw [hpairs, List.map_map]
    rfl
  refine ⟨h.events, h.frames, ?_, h.outFile, h.whole, ?_, ?_, ?_, h.readable hfew⟩
  · rw [hpairs]
    apply List.map_congr_left
    intro s hs
    rw [Segment.sizes, h.taken s hs]
  · intro i hi
    rw [hfst, hsnd, h.taken _ (List.getElem_mem hi), h.outFile, h.whole]
    exact ⟨drop_flatMap hi, drop_flatMap hi⟩
  · rw [hfst, h.outFile, List.length_flatMap]
  · rw [hsnd, h.whole, List.length_flatMap]

end Exactness

/-- The seek table of a run that returns is exact. -/
theorem random_access_exact {ctx : Context} {input : List UInt8} (hn : input.length < 2 ^ 62)
    {calls : List Call} (hframed : Framed ctx input calls) (host : Host) {replies : List Reply}
    {w : Writer} (hrun : (Writer.init false replies).run host calls = .ok w) {outBuffSize : Nat}
    {IsFrame : List UInt8 → List UInt8 → Prop} (hz : Conforms outBuffSize IsFrame w.events)
    (hfew : (recordedSizes calls).length < 2 ^ 27) :
    ∃ segments, Exact host IsFrame input w segments := by
  obtain ⟨segments, hwritten, hcount⟩ := hframed.written hn hrun hz
  exact ⟨segments, hwritten.exact (hcount ▸ hfew)⟩

section Segmentation

variable {l m a b : List Event} {segments : List Segment} {s : Segment}

/-- Calls that end a frame do not go on. -/
theorem Ended.not_more (hl : Ended l) (hm : Ended m) {c : List Event} (h : m = l ++ c) :
    c = [] := by
  obtain ⟨before, last, rfl, -, -, hcloses⟩ := hl
  obtain ⟨before', last', rfl, hrunning, -, -⟩ := hm
  cases c using List.reverseRecOn with
  | nil => rfl
  | append_singleton c e =>
      have hinit := congrArg List.dropLast h
      rw [← List.append_assoc, List.dropLast_concat, List.dropLast_concat] at hinit
      have hgoes := (hrunning last (by simp [hinit])).2
      rw [hcloses] at hgoes
      cases hgoes

theorem Ended.unique (hl : Ended l) (hm : Ended m) (h : l ++ a = m ++ b) : l = m := by
  obtain ⟨c, hc, -⟩ | ⟨c, hc, -⟩ := List.append_eq_append_iff.mp h
  · rw [hc, hl.not_more hm hc, List.append_nil]
  · rw [hc, hm.not_more hl hc, List.append_nil]

theorem Ended.no_reset (h : Ended l) : Event.reset ∉ l := by
  obtain ⟨before, last, rfl, hrunning, hstream, -⟩ := h
  intro hmem
  rw [List.mem_append, List.mem_singleton] at hmem
  cases hmem with
  | inl hbefore => exact absurd (hrunning _ hbefore).1 Bool.false_ne_true
  | inr hlast =>
      rw [← hlast] at hstream
      exact absurd hstream Bool.false_ne_true

/-- A log of frames that were ended is cut into them in one way. -/
theorem mem_of_infix (hended : ∀ t ∈ segments, Ended t.body) (hs : Ended s.body)
    (h : s.events <:+: segments.flatMap Segment.events) : s ∈ segments := by
  induction segments with
  | nil =>
      obtain ⟨before, after, hnil⟩ := h
      simp [Segment.events] at hnil
  | cons t segments ih =>
      obtain ⟨ht, hrest⟩ := List.forall_mem_cons.mp hended
      obtain ⟨before, after, hsplit⟩ := h
      rw [List.flatMap_cons] at hsplit
      cases before with
      | nil =>
          simp only [Segment.events, List.nil_append, List.cons_append, List.cons.injEq, true_and,
            Event.pledge.injEq] at hsplit
          obtain ⟨hpledged, hbodies⟩ := hsplit
          have hbody := hs.unique ht hbodies
          have hsame : s = t := by
            cases s
            cases t
            rw [Segment.mk.injEq]
            exact ⟨hpledged, hbody⟩
          rw [hsame]
          exact List.mem_cons_self
      | cons e before =>
          -- The next reset is behind the calls of `t`.
          have hno : Event.reset ∉ Event.pledge t.pledged :: t.body := by
            simpa using ht.no_reset
          have hsplit : before ++ (s.events ++ after) =
              (.pledge t.pledged :: t.body) ++ segments.flatMap Segment.events := by
            rw [← List.append_assoc]
            exact (List.cons.inj hsplit).2
          apply List.mem_cons_of_mem
          apply ih hrest
          obtain ⟨c, hc, hbehind⟩ | ⟨c, hc, hbehind⟩ := List.append_eq_append_iff.mp hsplit
          · cases c with
            | nil => exact ⟨[], after, by simpa using hbehind⟩
            | cons f c =>
                have hreset : f = .reset := by
                  simp only [Segment.events, List.cons_append, List.cons.injEq] at hbehind
                  exact hbehind.1.symm
                exact absurd (by rw [hc, hreset]; simp) hno
          · exact ⟨c, after, by rw [hbehind, List.append_assoc]⟩

end Segmentation

/-- The frame that zstd makes of a null block: one run of zeros and a checksum. -/
def nullFrame : List UInt8 :=
  [0x28, 0xb5, 0x2f, 0xfd, 0x64, 0x00, 0x01, 0x03, 0x10, 0x00, 0x00, 0x7c, 0xb8, 0xc3, 0xe8]

/-- The calls that make it: a reset, a pledge, the block, and the end of the frame. -/
def nullReplies : List Reply :=
  [some ⟨0, [], 0⟩, some ⟨0, [], 0⟩, some ⟨512, [], 15⟩, some ⟨0, nullFrame, 0⟩]

theorem nullReplies_run :
    ∃ w, (Writer.init false nullReplies).run (plainHost 64 (.inr rfl)) [.frame nullBlock] = .ok w ∧
      w.events = [.reset, .pledge (some 512), .stream .e_continue nullBlock ⟨512, [], 15⟩,
        .stream .e_end [] ⟨0, nullFrame, 0⟩] := by
  have hevents : ((Writer.init false nullReplies).run (plainHost 64 (.inr rfl))
      [.frame nullBlock]).toOption.map Writer.events =
      some [.reset, .pledge (some 512), .stream .e_continue nullBlock ⟨512, [], 15⟩,
        .stream .e_end [] ⟨0, nullFrame, 0⟩] := by
    decide +kernel
  cases hrun : (Writer.init false nullReplies).run (plainHost 64 (.inr rfl)) [.frame nullBlock] with
  | error e =>
      rw [hrun] at hevents
      cases hevents
  | ok w =>
      rw [hrun] at hevents
      exact ⟨w, rfl, Option.some.inj hevents⟩

/-- The part of a log that such a frame takes. -/
def nullSegment : Segment :=
  ⟨some 512, [.stream .e_continue nullBlock ⟨512, [], 15⟩, .stream .e_end [] ⟨0, nullFrame, 0⟩]⟩

theorem nullSegment_ended : Ended nullSegment.body :=
  ⟨[.stream .e_continue nullBlock ⟨512, [], 15⟩], .stream .e_end [] ⟨0, nullFrame, 0⟩, rfl,
    by simp [Running, Event.isStream, Event.closes], rfl, rfl⟩

theorem nullSegment_streams {mode : EndDirective} {offered : List UInt8} {answer : Answer}
    (h : Event.stream mode offered answer ∈ nullSegment.events) :
    (offered = nullBlock ∧ answer = ⟨512, [], 15⟩) ∨
      (offered = [] ∧ answer = ⟨0, nullFrame, 0⟩) := by
  simp only [Segment.events, nullSegment, List.mem_cons, reduceCtorEq, Event.stream.injEq,
    List.not_mem_nil, or_false, false_or] at h
  obtain ⟨-, hblock⟩ | ⟨-, hend⟩ := h
  · exact .inl hblock
  · exact .inr hend

/-- In a log of such frames there are no other segments. -/
theorem conforms_nullSegments (n : Nat) :
    Conforms 131591 (fun c x => c = nullFrame ∧ x = nullBlock)
      ((List.replicate n nullSegment).flatMap Segment.events) where
  consumes := by
    intro mode offered answer he
    obtain ⟨s, hs, he⟩ := List.mem_flatMap.mp he
    rw [List.eq_of_mem_replicate hs] at he
    obtain ⟨rfl, rfl⟩ | ⟨rfl, rfl⟩ := nullSegment_streams he
    · rw [nullBlock, List.length_replicate]
    · exact Nat.le_refl 0
  emits := by
    intro mode offered answer he
    obtain ⟨s, hs, he⟩ := List.mem_flatMap.mp he
    rw [List.eq_of_mem_replicate hs] at he
    obtain ⟨rfl, rfl⟩ | ⟨rfl, rfl⟩ := nullSegment_streams he
    · exact Nat.zero_le _
    · exact Nat.le_of_ble_eq_true rfl
  flushes := by
    intro s hinfix hended
    have hmem := mem_of_infix (fun t ht => List.eq_of_mem_replicate ht ▸ nullSegment_ended)
      hended hinfix
    have htake : nullBlock.take 512 = nullBlock :=
      List.take_of_length_le (by rw [nullBlock, List.length_replicate])
    rw [List.eq_of_mem_replicate hmem]
    exact ⟨rfl, by simp [Segment.fed, nullSegment, consumed, Event.fed, htake]⟩
  compact := by
    rintro c x ⟨rfl, rfl⟩ -
    decide

theorem conforms_nullBlock :
    Conforms 131591 (fun c x => c = nullFrame ∧ x = nullBlock)
      [.reset, .pledge (some 512), .stream .e_continue nullBlock ⟨512, [], 15⟩,
        .stream .e_end [] ⟨0, nullFrame, 0⟩] :=
  conforms_nullSegments 1

/-- `-S 512` -/
def blockContext : Context := { newContext with maxBlockSize := 512, max_lt := by decide }

/-- Two null blocks in a frame each. -/
theorem random_access_exact_nullBlocks :
    ∃ calls w segments, Framed blockContext (nullBlock ++ nullBlock) calls ∧
      (Writer.init false (nullReplies ++ nullReplies)).run (plainHost 64 (.inr rfl)) calls =
        .ok w ∧
      w.table.pairs = [(15, 512), (15, 512)] ∧
      Exact (plainHost 64 (.inr rfl)) (fun c x => c = nullFrame ∧ x = nullBlock)
        (nullBlock ++ nullBlock) w segments := by
  obtain ⟨r, hr, hreturned, hcalls⟩ :
      ∃ r, compressMapped blockContext (fun _ => []) (nullBlock ++ nullBlock) = some r ∧
        r.isReturned = true ∧ r.state.calls = [.frame nullBlock, .frame nullBlock] := by
    decide +kernel
  obtain ⟨w, hrun, hevents, hpairs⟩ :
      ∃ w, ((Writer.init false (nullReplies ++ nullReplies)).run (plainHost 64 (.inr rfl))
          [.frame nullBlock, .frame nullBlock]).toOption = some w ∧
        w.events = (List.replicate 2 nullSegment).flatMap Segment.events ∧
        w.table.pairs = [(15, 512), (15, 512)] := by
    decide +kernel
  cases r with
  | exited e s => cases hreturned
  | returned s =>
      have hframed : Framed blockContext (nullBlock ++ nullBlock) s.calls :=
        .file (fun _ => []) s (by decide +kernel) hr
      have hok : (Writer.init false (nullReplies ++ nullReplies)).run (plainHost 64 (.inr rfl))
          s.calls = .ok w := by
        rw [show s.calls = _ from hcalls]
        revert hrun
        cases (Writer.init false (nullReplies ++ nullReplies)).run (plainHost 64 (.inr rfl))
          [.frame nullBlock, .frame nullBlock] with
        | error e => exact fun h => nomatch h
        | ok v => exact fun h => congrArg Except.ok (Option.some.inj h)
      obtain ⟨segments, hexact⟩ := random_access_exact (by decide +kernel) hframed
        (plainHost 64 (.inr rfl)) hok (hevents ▸ conforms_nullSegments 2)
        (by rw [show s.calls = _ from hcalls]; decide)
      exact ⟨s.calls, w, segments, hframed, hok, hpairs, hexact⟩

end T2sz
