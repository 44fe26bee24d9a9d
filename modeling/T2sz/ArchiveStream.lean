import T2sz.Agreement
import T2sz.Stability

/-!
An archive that comes through a pipe.

The stdin path holds less of an archive in memory than the file path maps. An
archive as its writer lays it out is cut into the same frames all the same, as
long as a pax header that brings a size fits a chunk.
-/

namespace T2sz

open Iteration Blocking

/-- A pax header that brings a size is no larger than a chunk. -/
def Member.Streamable (m : Member) : Prop :=
  ∀ p, m.pax = some p → (∃ r ∈ p.records, r.isSize = true) → p.entry.data.length ≤ IN_CHUNK

def Archive.Streamable (a : Archive) : Prop := ∀ m ∈ a.members, m.Streamable

/-- A pax header is parsed on both paths, or changes nothing. -/
def Passes (pax : Nat) (e : WrittenEntry) (pax' : Nat) : Prop :=
  Carries pax e pax' ∧
    (e.header.typeflag = 0x78 → pax' = pax ∨ (e.data ≠ [] ∧ e.data.length ≤ IN_CHUNK))

def PassesAll : Nat → List WrittenEntry → Nat → Prop
  | pax, [], pax' => pax = pax'
  | pax, e :: rest, pax' => ∃ between, Passes pax e between ∧ PassesAll between rest pax'

theorem passesAll_append {pax between pax' : Nat} {l m : List WrittenEntry}
    (hl : PassesAll pax l between) (hm : PassesAll between m pax') :
    PassesAll pax (l ++ m) pax' := by
  induction l generalizing pax with
  | nil =>
      have heq : pax = between := hl
      rwa [heq]
  | cons e l ih =>
      obtain ⟨next, he, hrest⟩ := hl
      exact ⟨next, he, ih hrest⟩

theorem ExtensionEntry.passes (x : ExtensionEntry) (hsmall : x.entry.data.length < 2 ^ 62)
    (pax : Nat) : Passes pax x.entry pax :=
  ⟨x.carries hsmall pax, fun hx => absurd hx x.isExtension.2⟩

/-- The first entry of a member, where nothing is carried yet. -/
theorem PaxEntry.passes (p : PaxEntry) (hsmall : p.entry.data.length < 2 ^ 62) {n : Nat}
    (hn : recordsSize p.records n)
    (hfits : (∃ r ∈ p.records, r.isSize = true) → p.entry.data.length ≤ IN_CHUNK) :
    Passes UINT64_MAX p.entry n := by
  refine ⟨p.carries hsmall hn, fun _ => ?_⟩
  by_cases hsized : ∃ r ∈ p.records, r.isSize = true
  · refine .inr ⟨?_, hfits hsized⟩
    obtain ⟨r, hr, -⟩ := hsized
    intro hnil
    rw [p.data, List.flatMap_eq_nil_iff] at hnil
    have hbytes := hnil r hr
    simp [PaxRecord.bytes] at hbytes
  · have hnone : p.records.filter PaxRecord.isSize = [] := by
      rw [List.filter_eq_nil_iff]
      exact fun r hr hsize => hsized ⟨r, hr, hsize⟩
    rw [recordsSize, hnone] at hn
    exact .inl hn

theorem Member.passes (m : Member) (hsmall : ∀ e ∈ m.entries, e.data.length < 2 ^ 62)
    (hstreamable : m.Streamable) : PassesAll UINT64_MAX m.entries UINT64_MAX := by
  obtain ⟨n, hn, hlast, hnone⟩ := m.size_spec (hsmall m.entry (by simp [Member.entries]))
  have hothers : ∀ l : List ExtensionEntry, (∀ x ∈ l, x.entry.data.length < 2 ^ 62) →
      PassesAll n (l.map ExtensionEntry.entry) n := by
    intro l hl
    induction l with
    | nil => rfl
    | cons x l ih =>
        exact ⟨n, x.passes (hl x List.mem_cons_self) n,
          ih fun y hy => hl y (List.mem_cons_of_mem _ hy)⟩
  have hpax : PassesAll UINT64_MAX (m.pax.map PaxEntry.entry).toList n := by
    cases hp : m.pax with
    | none => exact (hnone hp).symm
    | some p =>
        rw [hp] at hn
        exact ⟨n, p.passes (hsmall p.entry (by simp [Member.entries, hp])) hn
          (hstreamable p hp), rfl⟩
  have hkind : m.entry.header.typeflag ≠ 0x78 := by
    intro hx
    have hordinary := m.ordinary
    simp [isExtensionHeader, hx] at hordinary
  refine passesAll_append (passesAll_append hpax (hothers m.others ?_))
    ⟨UINT64_MAX, ⟨hlast, fun hx => absurd hx hkind⟩, rfl⟩
  intro x hx
  apply hsmall
  simp only [Member.entries, List.mem_append, List.mem_map]
  exact .inl (.inr ⟨x, hx, rfl⟩)

theorem Archive.passes (a : Archive) (hsmall : ∀ e ∈ a.entries, e.data.length < 2 ^ 62)
    (hstreamable : a.Streamable) : PassesAll UINT64_MAX a.entries UINT64_MAX := by
  have hall : ∀ members : List Member,
      (∀ e ∈ members.flatMap Member.entries, e.data.length < 2 ^ 62) →
      (∀ m ∈ members, m.Streamable) →
      PassesAll UINT64_MAX (members.flatMap Member.entries) UINT64_MAX := by
    intro members hmembers hstreams
    induction members with
    | nil => rfl
    | cons m members ih =>
        rw [List.flatMap_cons] at hmembers ⊢
        exact passesAll_append
          (m.passes (fun e he => hmembers e (List.mem_append_left _ he))
            (hstreams m List.mem_cons_self))
          (ih (fun e he => hmembers e (List.mem_append_right _ he))
            fun m hm => hstreams m (List.mem_cons_of_mem _ hm))
  exact hall a.members hsmall hstreamable

section Walk

variable {ctx : Context} {after : Nat → List UInt8} {input : List UInt8} {c : Cursor}

theorem le_IN_CHUNK {n : Nat} (h : n ≤ IN_CHUNK) : roundUp n ≤ IN_CHUNK := by
  simp only [roundUp, IN_CHUNK] at h ⊢
  omega

/-- Past such an entry the two paths carry the same. -/
theorem stdinPaxRule_passes {e : WrittenEntry} {pax pax' : Nat} (hpasses : Passes pax e pax')
    (hfile : filePaxRule ctx after input c (e.entry (tarEntrySize e.header pax).2) = pax') :
    stdinPaxRule ctx after input c (e.entry (tarEntrySize e.header pax).2) = pax' := by
  simp only [filePaxRule, stdinPaxRule] at hfile ⊢
  by_cases hx : e.header.typeflag = 0x78
  case neg => simpa [WrittenEntry.entry, hx] using hfile
  have hkind : isExtensionHeader e.header = true := by simp [isExtensionHeader, hx]
  cases hpasses.2 hx with
  | inl hsame =>
      split
      case isTrue => simpa [WrittenEntry.entry, hx] using hfile
      case isFalse =>
        rw [WrittenEntry.entry, tarEntrySize_extension hkind]
        exact hsame.symm
  | inr hchunk =>
      have hpos : 0 < e.data.length := List.length_pos_of_ne_nil hchunk.1
      have hround : 0 < roundUp e.data.length := Nat.lt_of_lt_of_le hpos (le_roundUp _)
      have hle := le_IN_CHUNK hchunk.2
      simpa [WrittenEntry.entry, hx, hround, hle] using hfile

/-- Both walks move over the entries that were written, and carry the same. -/
theorem reaches_passed (hw : ctx.sizeBits = 64) (l : List WrittenEntry)
    (before behind : List UInt8)
    (hinput : input = before ++ (l.flatMap WrittenEntry.bytes ++ behind))
    (hc : c.idx = before.length) {pax' : Nat} (hpasses : PassesAll c.paxNextSize l pax') :
    ∃ d, Reaches (filePaxRule ctx after input) input c d ∧
      Reaches (stdinPaxRule ctx after input) input c d ∧
      d.idx = (before ++ l.flatMap WrittenEntry.bytes).length ∧
      d.log.map Element.shape =
        c.log.map Element.shape ++ writtenElements before.length l := by
  induction l generalizing before c with
  | nil => exact ⟨c, .refl, .refl, by simpa using hc, by simp [writtenElements]⟩
  | cons e l ih =>
      obtain ⟨between, hfirst, hrest⟩ := hpasses
      rw [List.flatMap_cons, List.append_assoc] at hinput
      obtain ⟨d, hnext, hidx, hpax, hlog⟩ :=
        @nextCursor_written ctx after input c hw before _ e hinput hc _ hfirst.1
      have hfile := nextCursor_entry (filePaxRule ctx after input) hinput hc hfirst.1.1
      have hstdin := nextCursor_entry (stdinPaxRule ctx after input) hinput hc hfirst.1.1
      obtain rfl := Option.some.inj (hnext.symm.trans hfile)
      have hrule := stdinPaxRule_passes hfirst hpax
      have hsame : c.pastEntry (stdinPaxRule ctx after input)
          (e.entry (tarEntrySize e.header c.paxNextSize).2) =
          c.pastEntry (filePaxRule ctx after input)
            (e.entry (tarEntrySize e.header c.paxNextSize).2) := by
        rw [Cursor.pastEntry_paxNextSize] at hpax
        rw [Cursor.pastEntry, Cursor.pastEntry, hrule, hpax]
      rw [hsame] at hstdin
      obtain ⟨f, hreach, hreach', hidx', hlog'⟩ := ih (before ++ e.bytes)
        (by rw [hinput]; simp) hidx (by rwa [hpax])
      refine ⟨f, .head hnext hreach, .head hstdin hreach', ?_, ?_⟩
      · rw [hidx', List.flatMap_cons, List.append_assoc]
      · rw [hlog', hlog, writtenElements, List.length_append, e.length_bytes, List.append_assoc]
        rfl

end Walk

section Ways

/-- Bytes that come through a pipe, or are mapped. -/
def Loaded.of (piped : Bool) (input : List UInt8) : Loaded :=
  if piped then .stream ⟨input, false⟩ else .mapped input

variable (piped : Bool) (input rest : List UInt8)

@[simp] theorem Loaded.bytes_of : (Loaded.of piped input).bytes = input := by
  cases piped <;> rfl

@[simp] theorem Loaded.fails_of : (Loaded.of piped input).fails = false := by
  cases piped <;> rfl

@[simp] theorem Loaded.of_append :
    (Loaded.of piped input).append rest = Loaded.of piped (input ++ rest) := by
  cases piped <;> rfl

variable {ctx : Context}

theorem Loaded.of_roomy (hw : ctx.sizeBits = 64) (after : Nat → List UInt8)
    (hn : input.length < 2 ^ 62) (common : List UInt8) :
    ((Loaded.of piped common).path after).Roomy ctx input := by
  cases piped with
  | false => exact room_of_bits hw hn
  | true => trivial

theorem Loaded.of_fits (hw : ctx.sizeBits = 64) (hn : input.length < 2 ^ 62) :
    ∀ mapped, Loaded.of piped input = .mapped mapped → mapped.length + 4096 ≤ 2 ^ ctx.sizeBits := by
  intro mapped hmapped
  have hbytes := congrArg Loaded.bytes hmapped
  rw [Loaded.bytes_of, Loaded.bytes] at hbytes
  rw [← hbytes, hw]
  omega

end Ways

section Archives

variable {ctx : Context} (after : Nat → List UInt8) (a : Archive) (piped : Bool)

/-- Either walk over an archive ends with the elements that were written. -/
theorem Archive.scanned (hw : ctx.sizeBits = 64) (hn : a.bytes.length < 2 ^ 62)
    (hstreamable : piped = true → a.Streamable) :
    ∃ c, Runs (scanStep (((Loaded.of piped a.bytes).path after).rule ctx a.bytes) a.bytes) .init
        (.returned c) ∧ c.log.map Element.shape = a.elements := by
  cases piped with
  | false =>
      obtain ⟨c, hreach, hend, hne, hshapes⟩ := @Archive.reaches ctx hw after a hn
      exact ⟨c, Reaches.runs hreach (.done (scanStep_of_end hend hne)), hshapes⟩
  | true =>
      obtain ⟨b, -, hstdin, hidx, hlog⟩ := @reaches_passed ctx after a.bytes .init hw a.entries []
        (List.replicate (512 * a.nulls) 0) rfl rfl _ (a.passes (a.data_lt hn) (hstreamable rfl))
      obtain ⟨c, hreach, hend, hne, hshapes⟩ := a.reaches_end hstdin hidx hlog
      exact ⟨c, Reaches.runs hreach (.done (scanStep_of_end hend hne)), hshapes⟩

/-- The end of the last member is a place that either walk comes to. -/
theorem Archive.boundary (hw : ctx.sizeBits = 64) (htar : ctx.rawMode = false)
    (hn : a.bytes.length < 2 ^ 62) (hstreamable : piped = true → a.Streamable) :
    (Loaded.of piped (a.entries.flatMap WrittenEntry.bytes)).Boundary ctx after
      (a.entries.flatMap WrittenEntry.bytes).length := by
  rw [Loaded.Boundary, htar, if_neg Bool.false_ne_true]
  cases piped with
  | false =>
      obtain ⟨d, hreach, hidx, -⟩ := @reaches_written ctx after
        (a.entries.flatMap WrittenEntry.bytes) .init hw a.entries [] []
        (by rw [List.append_nil]; rfl) rfl _ (a.carries (a.data_lt hn))
      exact ⟨d, hreach, hidx⟩
  | true =>
      obtain ⟨d, -, hreach, hidx, -⟩ := @reaches_passed ctx after
        (a.entries.flatMap WrittenEntry.bytes) .init hw a.entries [] []
        (by rw [List.append_nil]; rfl) rfl _ (a.passes (a.data_lt hn) (hstreamable rfl))
      exact ⟨d, hreach, hidx⟩

end Archives

/-- The frames of one input are settled by their sizes. -/
theorem Framing.contents_eq {input : List UInt8} {calls calls' : List Call}
    (h : Framing input calls) (h' : Framing input calls')
    (hsizes : frameSizes calls' = frameSizes calls) :
    frameContents calls' = frameContents calls := by
  rw [List.eq_iff_flatten_eq, h.flatten, h'.flatten, map_length_frameContents,
    map_length_frameContents]
  exact ⟨rfl, hsizes⟩

namespace World

variable {world : World} {ctx : Context} {loaded : Loaded}

/-- Where the walk gets to the end, the loop returns. -/
theorem attempt_of_walk (hw : ctx.sizeBits = 64) (htar : ctx.rawMode = false)
    (hn : loaded.bytes.length < 2 ^ 62) (hsound : loaded.fails = false) {c : Cursor}
    (h : Runs (scanStep ((loaded.path world.after).rule ctx loaded.bytes) loaded.bytes) .init
      (.returned c)) :
    ∃ a, world.attempt ctx loaded = some a ∧ a.returns = true ∧
      Accepts ctx loaded.bytes (loaded.path world.after) c.log a.calls := by
  cases loaded with
  | mapped input =>
      have hroom := room_of_bits hw hn
      obtain ⟨r, r', hr, hruns, hreturned, hlog, -⟩ := compressMapped_scans htar hroom world.after
      obtain rfl := hruns.unique h
      cases r with
      | exited e s => cases hreturned
      | returned s =>
          have hsame : s.log = c.log := hlog
          exact ⟨⟨true, s.calls⟩, Option.map_eq_some_iff.mpr ⟨_, hr, rfl⟩, rfl,
            hsame ▸ .file world.after s htar (by omega) hr⟩
  | stream stream =>
      obtain ⟨input, fails⟩ := stream
      obtain rfl : fails = false := hsound
      obtain ⟨r, r', hr, hruns, hreturned, hlog, -⟩ := compressStdin_scans hw hn world.after
      obtain rfl := hruns.unique h
      cases r with
      | exited e s => cases hreturned
      | returned s =>
          have hsame : s.log = c.log := hlog
          refine ⟨⟨true, s.frames.calls⟩, ?_, rfl, hsame ▸ .stdin world.after s htar hr⟩
          rw [attempt, if_neg (by rw [htar]; decide)]
          exact Option.map_eq_some_iff.mpr ⟨_, hr, rfl⟩

/-- So an archive gets through on either way. -/
theorem attempt_of (hw : ctx.sizeBits = 64) (htar : ctx.rawMode = false) (archive : Archive)
    (hn : archive.bytes.length < 2 ^ 62) (piped : Bool)
    (hstreamable : piped = true → archive.Streamable) :
    ∃ a log, world.attempt ctx (.of piped archive.bytes) = some a ∧ a.returns = true ∧
      Accepts ctx archive.bytes ((Loaded.of piped archive.bytes).path world.after) log a.calls ∧
      log.map Element.shape = archive.elements := by
  obtain ⟨c, hruns, hshapes⟩ := archive.scanned world.after piped hw hn hstreamable
  obtain ⟨a, ha, hreturns, haccepts⟩ := @attempt_of_walk world ctx (.of piped archive.bytes) hw
    htar (by rwa [Loaded.bytes_of]) (Loaded.fails_of piped _) c (by rwa [Loaded.bytes_of])
  rw [Loaded.bytes_of] at haccepts
  exact ⟨a, c.log, ha, hreturns, haccepts, hshapes⟩

/-- Its frames are cut by the elements that were written. -/
theorem accepts_sizes (hw : ctx.sizeBits = 64) {archive : Archive}
    (hn : archive.bytes.length < 2 ^ 62) {piped : Bool} {log : List Element} {calls : List Call}
    (h : Accepts ctx archive.bytes ((Loaded.of piped archive.bytes).path world.after) log calls)
    (hshapes : log.map Element.shape = archive.elements) :
    frameSizes calls = Blocking.sizes ctx.clamp.minBlockSize ctx.clamp.maxBlockSize
      (spans archive.elements) := by
  have hroom := @Loaded.of_roomy piped archive.bytes ctx hw world.after hn archive.bytes
  rw [(h.recorded hn hroom.whole).sizes, ← hshapes, spans_shape]

/-- An archive is compressed alike whether it is mapped or comes through a pipe, and
its frames are cut between its members. -/
theorem attempt_archive (hw : ctx.sizeBits = 64) (htar : ctx.rawMode = false)
    (haccepted : ctx.Accepted) (a : Archive) (hn : a.bytes.length < 2 ^ 62)
    (hstreamable : a.Streamable) :
    ∃ x y, world.attempt ctx (.mapped a.bytes) = some x ∧ x.returns = true ∧
      world.attempt ctx (.stream ⟨a.bytes, false⟩) = some y ∧ y.returns = true ∧
      frameContents y.calls = frameContents x.calls ∧
      FrameRules ctx.clamp.minBlockSize ctx.clamp.maxBlockSize a.ends a.bytes.length
        (frameSizes x.calls) := by
  obtain ⟨x, log, hx, hreturns, haccepts, hshapes⟩ :=
    @attempt_of world ctx hw htar a hn false fun h => nomatch h
  obtain ⟨y, log', hy, hreturns', haccepts', hshapes'⟩ :=
    @attempt_of world ctx hw htar a hn true fun _ => hstreamable
  have hsizes : frameSizes y.calls = frameSizes x.calls := by
    rw [accepts_sizes hw hn haccepts hshapes, accepts_sizes hw hn haccepts' hshapes']
  have hroom : (TarPath.file world.after).Roomy ctx a.bytes := room_of_bits hw hn
  have hframing := (attempt_framed hx hreturns (Loaded.fits hroom)).1.framing hn
  have hframing' := (attempt_framed hy hreturns' (fun _ h => nomatch h)).1.framing hn
  have hrules := haccepts.rules haccepted hn hroom.whole
  rw [groupEnds, ← spans_shape, hshapes] at hrules
  rw [← a.groupEnds_elements]
  exact ⟨x, y, hx, hreturns, hy, hreturns', hframing.contents_eq hframing' hsizes, hrules⟩

theorem sampleArchive_streamable : sampleArchive.Streamable := by
  intro m hm p hp _
  obtain rfl | rfl := by simpa [sampleArchive] using hm
  · obtain rfl := Option.some.inj hp
    decide +kernel
  · cases hp

theorem attempt_archive_sample :
    ∃ x y, nullWorld.attempt sampleContext (.mapped sampleArchive.bytes) = some x ∧
      x.returns = true ∧
      nullWorld.attempt sampleContext (.stream ⟨sampleArchive.bytes, false⟩) = some y ∧
      y.returns = true ∧ frameContents y.calls = frameContents x.calls ∧
      FrameRules 600 2000 sampleArchive.ends sampleArchive.bytes.length (frameSizes x.calls) :=
  attempt_archive rfl rfl sampleContext_accepted sampleArchive sampleArchive_lt
    sampleArchive_streamable

variable {a a' : Attempt} {k : Nat}

/-- Members that are appended to an archive, in the place of the null blocks at its
end, change no frame that ends before its last member does. -/
theorem appended_members (hw : ctx.sizeBits = 64) (htar : ctx.rawMode = false) {old new : Archive}
    {members : List Member} (hmembers : new.members = old.members ++ members)
    (hn : old.bytes.length < 2 ^ 62) (hn' : new.bytes.length < 2 ^ 62) (piped : Bool)
    (hstreamable : piped = true → old.Streamable)
    (h : world.attempt ctx (.of piped old.bytes) = some a) (hreturns : a.returns = true)
    (h' : world.attempt ctx (.of piped new.bytes) = some a') (hreturns' : a'.returns = true)
    (hend : offset (frameSizes a.calls) k < (old.entries.flatMap WrittenEntry.bytes).length) :
    (frameContents a'.calls).take k = (frameContents a.calls).take k := by
  have hold : old.bytes = old.entries.flatMap WrittenEntry.bytes ++
      List.replicate (512 * old.nulls) 0 := rfl
  have hnew : new.bytes = old.entries.flatMap WrittenEntry.bytes ++
      ((members.flatMap Member.entries).flatMap WrittenEntry.bytes ++
        List.replicate (512 * new.nulls) 0) := by
    rw [Archive.bytes, Archive.entries, hmembers, List.flatMap_append, List.flatMap_append,
      List.append_assoc]
    rfl
  obtain ⟨b, hb, hgrows⟩ :=
    boundary_grows (old.boundary world.after piped hw htar hn hstreamable)
  rw [hold] at h hn
  rw [hnew] at h' hn'
  simp only [Loaded.of_append, Loaded.bytes_of] at hgrows
  obtain ⟨c, hc, hsizes⟩ := hgrows _ a hn (Loaded.of_roomy piped _ hw _ hn _) h hreturns
  obtain ⟨c', hc', hsizes'⟩ :=
    hgrows _ a' hn' (Loaded.of_roomy piped _ hw _ hn' _) h' hreturns'
  have hframed := (attempt_framed h hreturns (Loaded.of_fits piped _ hw hn)).1
  have hframed' := (attempt_framed h' hreturns' (Loaded.of_fits piped _ hw hn')).1
  rw [Loaded.bytes_of] at hframed hframed'
  exact contents_common (hframed.framing hn) (hframed'.framing hn') hc hc' hsizes hsizes'
    (Nat.le_of_eq hb) (hb ▸ hend)

/-- The sample archive with an empty file behind its members. -/
def grownArchive : Archive where
  members := sampleArchive.members ++ emptyFileArchive.members
  nonempty := List.cons_ne_nil _ _
  nulls := 2

theorem grownArchive_lt : grownArchive.bytes.length < 2 ^ 62 := by
  have hlength : grownArchive.bytes.length = 6144 := by
    rw [Archive.bytes, List.length_append, length_entries, List.length_replicate]
    decide +kernel
  rw [hlength]
  decide

theorem grownArchive_streamable : grownArchive.Streamable := by
  intro m hm
  obtain hold | hnew := List.mem_append.mp hm
  · exact sampleArchive_streamable m hold
  · intro p hp
    rw [List.mem_singleton.mp hnew] at hp
    cases hp

/-- The two frames in front of the end of the sparse file stay. -/
theorem appended_members_sample :
    (∃ a a', nullWorld.attempt sampleContext (.mapped sampleArchive.bytes) = some a ∧
      nullWorld.attempt sampleContext (.mapped grownArchive.bytes) = some a' ∧
      (frameContents a'.calls).take 2 = (frameContents a.calls).take 2) ∧
    ∃ a a', nullWorld.attempt sampleContext (.stream ⟨sampleArchive.bytes, false⟩) = some a ∧
      nullWorld.attempt sampleContext (.stream ⟨grownArchive.bytes, false⟩) = some a' ∧
      (frameContents a'.calls).take 2 = (frameContents a.calls).take 2 := by
  have hlength : (sampleArchive.entries.flatMap WrittenEntry.bytes).length = 4608 := by
    rw [length_entries]
    decide +kernel
  have hkept : ∀ piped, ∃ a a', nullWorld.attempt sampleContext (.of piped sampleArchive.bytes) =
      some a ∧ nullWorld.attempt sampleContext (.of piped grownArchive.bytes) = some a' ∧
      (frameContents a'.calls).take 2 = (frameContents a.calls).take 2 := by
    intro piped
    obtain ⟨a, log, ha, hreturns, haccepts, hshapes⟩ := @attempt_of nullWorld sampleContext rfl rfl
      sampleArchive sampleArchive_lt piped fun _ => sampleArchive_streamable
    obtain ⟨a', -, ha', hreturns', -⟩ := @attempt_of nullWorld sampleContext rfl rfl
      grownArchive grownArchive_lt piped fun _ => grownArchive_streamable
    have hend : offset (frameSizes a.calls) 2 < 4608 := by
      rw [accepts_sizes rfl sampleArchive_lt haccepts hshapes]
      decide +kernel
    exact ⟨a, a', ha, ha', @appended_members nullWorld sampleContext a a' 2 rfl rfl sampleArchive
      grownArchive emptyFileArchive.members rfl sampleArchive_lt grownArchive_lt piped
      (fun _ => sampleArchive_streamable) ha hreturns ha' hreturns' (by rw [hlength]; exact hend)⟩
  exact ⟨hkept false, hkept true⟩

end World

end T2sz
