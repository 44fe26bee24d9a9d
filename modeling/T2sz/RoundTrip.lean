import T2sz.Decompression
import T2sz.MainFiles

/-!
The round trip of a whole run: what `main` leaves behind when it ends with
`EXIT_SUCCESS` decompresses to what its input held.

The one exception is a stream that was at its end before it was read: the answer
to the prompt ended with the end of the file, and the input, a pipe say, was put
in the place of the terminal afterwards.
-/

namespace T2sz

open Files FileSystem Stdio Iteration Multiframe

namespace Loaded

def bytes : Loaded → List UInt8
  | .mapped input => input
  | .stream s => s.bytes

/-- It ends in a read error. -/
def fails : Loaded → Bool
  | .mapped _ => false
  | .stream s => s.fails

end Loaded

/-- What is at the output of a run. -/
def Report.output (report : Report) : Destination → List UInt8
  | .stdout => report.sent
  | .file outFilename =>
      match report.files.stat outFilename with
      | some id =>
          if (report.files.file id).type = .regular then (report.files.file id).content
          else report.sent
      | none => report.sent

section Reading

variable {ctx : Context} {inChunk : Nat} {short : Nat → Nat} {stream : Stream}

/-- A frame stays unfilled only at the end of the stream. -/
theorem fillFrame_short {frameSize : Nat} (fuel : Nat) {pos : Nat} {frameBuf filled : List UInt8}
    (hfuel : frameSize ≤ frameBuf.length + fuel)
    (h : fillFrame stream short frameSize fuel pos frameBuf = .ok filled)
    (hlt : filled.length < frameSize) : stream.fails = false := by
  induction fuel generalizing pos frameBuf with
  | zero =>
      have hfilled : frameBuf = filled := Except.ok.inj h
      rw [hfilled] at hfuel
      omega
  | succ fuel ih =>
      simp only [fillFrame] at h
      split at h
      case isTrue =>
        split at h
        case isTrue hsome => exact ih (by rw [List.length_append]; omega) h
        case isFalse =>
          split at h
          case isTrue => cases h
          case isFalse hgood => exact Bool.not_eq_true _ ▸ hgood
      case isFalse hfull =>
        have hfilled : frameBuf = filled := Except.ok.inj h
        rw [hfilled] at hfull
        exact absurd hlt hfull

/-- The raw mode returns only from a stream that was read to its end. -/
theorem compressRaw_sound {s : RawState}
    (h : compressRaw ctx inChunk short stream = some (.returned s)) : stream.fails = false := by
  obtain ⟨t, -, hend⟩ := (runs_of_iterate h).invariant (fun _ _ _ _ => trivial) trivial
  have hdone : stdinRawStep ctx.clamp inChunk short stream t = .done s := hend
  rw [stdinRawStep] at hdone
  split at hdone
  case isTrue =>
    simp only [streamRawStep] at hdone
    split at hdone
    case isTrue => cases hdone
    case isFalse =>
      split at hdone
      case isTrue => cases hdone
      case isFalse hgood => exact Bool.not_eq_true _ ▸ hgood
  case isFalse hmin =>
    simp only [fixedRawStep] at hdone
    split at hdone
    case h_1 => cases hdone
    case h_2 frameBuf hfilled =>
      have hsound := fillFrame_short ctx.clamp.minBlockSize (by rw [List.length_nil]; omega) hfilled
      split at hdone
      case isTrue hempty => exact hsound (by omega)
      case isFalse =>
        split at hdone
        case isTrue hlt => exact hsound hlt
        case isFalse => cases hdone

/-- So does the tar mode. -/
theorem compressStdin_sound {after : Nat → List UInt8} {s : StdinState}
    (h : compressStdin ctx after stream = some (.returned s)) : stream.fails = false := by
  obtain ⟨t, -, hend⟩ := (runs_of_iterate h).invariant (fun _ _ _ _ => trivial) trivial
  have hdone : stdinStep ctx.clamp after stream t = .done s := hend
  simp only [stdinStep] at hdone
  split at hdone
  case isTrue =>
    split at hdone
    case isTrue => cases hdone
    case isFalse hgood => exact Bool.not_eq_true _ ▸ hgood
  case isFalse =>
    split at hdone
    case isTrue => cases hdone
    case isFalse =>
      split at hdone
      case isTrue => cases hdone
      case isFalse => split at hdone <;> cases hdone

end Reading

namespace World

variable {world : World} {argv : List CString} {report : Report}
  {plan : Plan world.host.sizeBits} {source : Source} {output : Output}

/-- Loops that return have put all of the input into frames. -/
theorem attempt_framed {ctx : Context} {loaded : Loaded} {a : Attempt}
    (h : world.attempt ctx loaded = some a) (hreturns : a.returns = true)
    (hfits : ∀ input, loaded = .mapped input → input.length + 4096 ≤ 2 ^ ctx.sizeBits) :
    Framed ctx loaded.bytes a.calls ∧ loaded.fails = false := by
  cases loaded with
  | mapped input =>
      obtain ⟨r, hr, rfl⟩ := Option.map_eq_some_iff.mp h
      cases r with
      | exited e s => cases hreturns
      | returned s => exact ⟨.file world.after s (hfits input rfl) hr, rfl⟩
  | stream stream =>
      simp only [attempt] at h
      split at h
      case isTrue hraw =>
        obtain ⟨r, hr, rfl⟩ := Option.map_eq_some_iff.mp h
        cases r with
        | exited e s => cases hreturns
        | returned s =>
            exact ⟨.stdinRaw world.inChunk world.short stream.fails s world.inChunk_pos hraw hr,
              compressRaw_sound hr⟩
      case isFalse htar =>
        obtain ⟨r, hr, rfl⟩ := Option.map_eq_some_iff.mp h
        cases r with
        | exited e s => cases hreturns
        | returned s =>
            exact ⟨.stdinTar world.after stream.fails s (Bool.not_eq_true _ ▸ htar) hr,
              compressStdin_sound hr⟩

/-- The loops read standard input, or the file of that name: mapped, or in its place. -/
theorem source_cases {i : Invocation world.host.sizeBits} (h : world.source i = .ok source) :
    (i.stdinMode = true ∧ source = .stdin) ∨
    (i.stdinMode = false ∧ ∃ id, world.files.stat i.inFilename = some id ∧
      ((source = .mapped id ∧ (world.files.file id).type = .regular ∧
          0 < (world.files.file id).size ∧ world.mappable id = true) ∨
        source = .redirected id)) := by
  rw [World.source] at h
  split at h
  case isTrue hmode =>
    cases h
    exact .inl ⟨hmode, rfl⟩
  case isFalse hmode =>
    refine .inr ⟨Bool.eq_false_iff.mpr hmode, ?_⟩
    simp only [prepareInput] at h
    split at h
    case h_1 => cases h
    case h_2 id hid =>
      split at hid
      case isFalse => cases hid
      case isTrue =>
        refine ⟨id, hid, ?_⟩
        split at h
        · cases h
        · split at h
          · cases h
          · split at h
            case isTrue hmapped =>
              cases h
              exact .inl ⟨rfl, hmapped.1, hmapped.2.1, hmapped.2.2.2⟩
            case isFalse =>
              split at h
              · cases h
                exact .inr rfl
              · cases h

/-- Opening the output leaves the input alone. -/
theorem output_keeps_input (hplan : Planned world argv plan)
    (houtput : world.prepareOutput plan.destination = .ok output) {id : FileId}
    (hid : world.inputFile plan.invocation = some id) :
    output.files.file id = world.files.file id := by
  cases hd : plan.destination with
  | stdout =>
      rw [hd] at houtput
      rw [prepareOutput_stdout houtput]
  | file outFilename =>
      have hconfirmed := hplan.confirmed
      rw [hd] at houtput hconfirmed
      rw [prepareOutput_file houtput]
      apply (confined_put _ _ _ _).files id
      · rintro rfl
        exact inputFile_ne_fresh world _ hid
      · intro hout
        exact (confirm_file hconfirmed hout).1 hid

/-- The bytes are read as they were before the output was opened. -/
theorem load_output (hplan : Planned world argv plan)
    (houtput : world.prepareOutput plan.destination = .ok output)
    (hsource : world.source plan.invocation = .ok source) :
    world.load output.files plan.stdin source = world.load world.files plan.stdin source := by
  have hkept := fun id hid => @output_keeps_input _ _ _ _ hplan houtput id hid
  unfold inputFile at hkept
  obtain ⟨hmode, rfl⟩ | ⟨hmode, id, hid, hsource⟩ := source_cases hsource
  · rw [hmode, if_pos rfl] at hkept
    rw [load, load, world.stdinReads_eq _ hkept]
  · rw [hmode, if_neg Bool.false_ne_true] at hkept
    obtain ⟨rfl, -⟩ | rfl := hsource
    · rw [load, load, hkept id hid]
    · rw [load, load, hkept id hid]

/-- The file under the name of the output is there, and `-f` is not given. -/
def Asks (world : World) (i : Invocation world.host.sizeBits) : Prop :=
  i.settings.overwrite = false ∧ ∃ outFilename, world.destination i = .ok (.file outFilename) ∧
    (world.files.stat outFilename).isSome

/-- What the input of a run holds. -/
inductive Holds (world : World) (i : Invocation world.host.sizeBits) : List UInt8 → Prop
  | stdin (mode : i.stdinMode = true) (sound : world.stdinFails = false) :
      Holds world i world.stdin.rest
  | mapped (id : FileId) (found : world.files.stat i.inFilename = some id)
      (source : world.source i = .ok (.mapped id)) : Holds world i (world.files.file id).content
  | redirected (id : FileId) (found : world.files.stat i.inFilename = some id)
      (source : world.source i = .ok (.redirected id))
      (sound : (world.files.file id).fails = false) : Holds world i (world.files.file id).content

/-- The answer to the prompt has ended `stdin`, and what is put in its place is not
read: `t2sz -r -o out.zst fifo` with a `y` and the end of the file behind it. -/
structure Exhausted (world : World) (i : Invocation world.host.sizeBits) : Prop where
  source : ∃ id, world.source i = .ok (.redirected id)
  asked : world.Asks i
  eof : world.answer.2.eof = true

/-- What the loops get: all that the input holds, or nothing behind such an answer. -/
def Reads (world : World) (i : Invocation world.host.sizeBits) (content : List UInt8) : Prop :=
  (¬ world.Exhausted i ∧ world.Holds i content) ∨ (world.Exhausted i ∧ content = [])

theorem Reads.length_lt {i : Invocation world.host.sizeBits} {content : List UInt8}
    (h : world.Reads i content)
    (hsmall : ∀ content, world.Holds i content → content.length < 2 ^ 62) :
    content.length < 2 ^ 62 := by
  obtain ⟨-, hholds⟩ | ⟨-, rfl⟩ := h
  · exact hsmall content hholds
  · decide

/-- The stream is unread, or an answer was typed. -/
theorem confirm_stdin {i : Invocation world.host.sizeBits} {d : Destination} {stdin : Input UInt8}
    (hd : world.destination i = .ok d) (h : world.confirm i d = .ok stdin) :
    (¬ world.Asks i ∧ stdin = world.stdin) ∨
      (i.stdinMode = false ∧ world.stdinTerminal = true ∧ world.Asks i ∧
        stdin = world.answer.2) := by
  cases d with
  | stdout =>
      cases h
      refine .inl ⟨?_, rfl⟩
      rintro ⟨-, outFilename, hfile, -⟩
      rw [hd] at hfile
      cases hfile
  | file outFilename =>
      simp only [confirm] at h
      split at h
      case isTrue => cases h
      case isFalse =>
        split at h
        case isFalse hnew =>
          cases h
          refine .inl ⟨?_, rfl⟩
          rintro ⟨hkeeps, other, hfile, hthere⟩
          rw [hd, Except.ok.injEq, Destination.file.injEq] at hfile
          subst hfile
          exact hnew ⟨hkeeps, hthere⟩
        case isTrue hthere =>
          split at h
          case isTrue => cases h
          case isFalse hterminal =>
            rw [Bool.or_eq_true, not_or, Bool.not_eq_true, Bool.not_eq_true',
              Bool.not_eq_false] at hterminal
            split at h
            case isFalse => cases h
            case isTrue =>
              cases h
              exact .inr ⟨hterminal.1, hterminal.2, ⟨hthere.1, outFilename, hd, hthere.2⟩, rfl⟩

/-- A stream that delivers a file and nothing else. -/
theorem flatten_content (content : List UInt8) :
    (([content] : List (List UInt8)).takeWhile (!·.isEmpty)).flatten = content := by
  cases content with
  | nil => rfl
  | cons c content => simp

/-- What is read in the place of the terminal, behind the answer. -/
theorem rest_answer (hterminal : world.stdinTerminal = true) (content : List UInt8) :
    (world.answer.2.redirect [content]).rest = if world.answer.2.eof then [] else content := by
  have h := Input.answer_typed (world.stdinTerminal_lines hterminal) [content]
  rw [flatten_content] at h
  exact h

/-- A source that is not put in the place of `stdin` cannot be exhausted. -/
theorem not_exhausted {i : Invocation world.host.sizeBits} (hsource : world.source i = .ok source)
    (hkind : ∀ id, source ≠ .redirected id) : ¬ world.Exhausted i := by
  rintro ⟨⟨id, hredirected⟩, -, -⟩
  rw [hsource, Except.ok.injEq] at hredirected
  exact hkind id hredirected

theorem load_reads (hplan : Planned world argv plan)
    (hsource : world.source plan.invocation = .ok source)
    (hsound : (world.load world.files plan.stdin source).fails = false) :
    world.Reads plan.invocation (world.load world.files plan.stdin source).bytes := by
  have hstdin := confirm_stdin hplan.destination hplan.confirmed
  obtain ⟨hmode, rfl⟩ | ⟨-, id, hid, ⟨rfl, -⟩ | rfl⟩ := source_cases hsource
  · have hunread : plan.stdin = world.stdin := by
      obtain ⟨-, hunread⟩ | ⟨hfile, -⟩ := hstdin
      · exact hunread
      · rw [hmode] at hfile
        cases hfile
    rw [hunread] at hsound ⊢
    exact .inl ⟨not_exhausted hsource (fun _ h => nomatch h), .stdin hmode hsound⟩
  · exact .inl ⟨not_exhausted hsource (fun _ h => nomatch h), .mapped id hid hsource⟩
  · obtain ⟨hnone, hunread⟩ | ⟨-, hterminal, hasks, hanswer⟩ := hstdin
    · rw [hunread] at hsound ⊢
      have hbytes : (world.load world.files world.stdin (.redirected id)).bytes =
          (world.files.file id).content := flatten_content _
      rw [hbytes]
      exact .inl ⟨fun h => hnone h.asked, .redirected id hid hsource hsound⟩
    · rw [hanswer] at hsound ⊢
      have hbytes : (world.load world.files world.answer.2 (.redirected id)).bytes =
          if world.answer.2.eof then [] else (world.files.file id).content :=
        rest_answer hterminal _
      have hfails : (!world.answer.2.eof && (world.files.file id).fails) = false := hsound
      rw [hbytes]
      cases heof : world.answer.2.eof with
      | true => exact .inr ⟨⟨⟨id, hsource⟩, hasks, heof⟩, rfl⟩
      | false =>
          rw [heof] at hfails
          refine .inl ⟨fun h => ?_, .redirected id hid hsource hfails⟩
          exact Bool.false_ne_true (heof.symm.trans h.eof)

/-- A mapped file fits in the address space. -/
theorem load_fits {i : Invocation world.host.sizeBits} (hsource : world.source i = .ok source)
    {stdin : Input UInt8} {input : List UInt8}
    (hinput : world.load world.files stdin source = .mapped input) :
    input.length + 4096 ≤ 2 ^ world.host.sizeBits := by
  obtain ⟨-, rfl⟩ | ⟨-, id, -, ⟨rfl, hregular, hpos, hmappable⟩ | rfl⟩ := source_cases hsource
  · cases hinput
  · cases hinput
    rw [(world.files.file id).sized hregular (Nat.ne_of_gt hpos)]
    exact world.mappable_fits id hmappable
  · cases hinput

/-- Where the output leads to, there is what was written. -/
theorem complete_output {d : Destination} (houtput : world.prepareOutput d = .ok output)
    (parameters : List (CParameter × Int)) (w : Writer) :
    (world.complete output parameters w).output d =
      cleanupCompression world.host w.table w.outFile := by
  cases d with
  | stdout =>
      obtain rfl := prepareOutput_stdout houtput
      rfl
  | file outFilename =>
      generalize harchive : cleanupCompression world.host w.table w.outFile = archive
      have hfiles : (world.complete output parameters w).files =
          world.files.put outFilename world.fresh archive := by
        rw [← harchive]
        exact fill_files houtput _
      have hsent : (world.complete output parameters w).sent =
          if ((world.files.put outFilename world.fresh []).stat outFilename).any fun id =>
            ((world.files.put outFilename world.fresh []).file id).type != .regular then archive
          else [] := by
        rw [← harchive, prepareOutput_file houtput]
        rfl
      rw [Report.output, hfiles, stat_put]
      by_cases hregular : ∀ id, world.files.stat outFilename = some id →
          (world.files.file id).type = .regular
      · simp only [file_put hregular, File.ofContent, if_true]
      · push Not at hregular
        obtain ⟨id, hid, hspecial⟩ := hregular
        rw [hsent, put_of_ne_regular hid hspecial, put_of_ne_regular hid hspecial, hid]
        simp [hspecial]

theorem prepareCctx_parameters {w : Nat} {s : Settings w} {parameters : List (CParameter × Int)}
    (h : world.prepareCctx s = .ok parameters) :
    (CParameter.c_compressionLevel, (s.level.toNat : Int)) ∈ parameters ∧
      (CParameter.c_checksumFlag, 1) ∈ parameters := by
  simp only [prepareCctx] at h
  split at h
  case isFalse => cases h
  case isTrue =>
    split at h
    case h_1 => cases h
    case h_2 =>
      split at h
      case h_1 => cases h
      case h_2 =>
        cases h
        simp

/-- What lies behind a run that ends with `EXIT_SUCCESS` and was not sent away. -/
structure Archived (world : World) (argv : List CString) (report : Report)
    (plan : Plan world.host.sizeBits) (content : List UInt8) (a : Attempt) (w : Writer) : Prop where
  planned : Planned world argv plan
  reads : world.Reads plan.invocation content
  attempted : ∃ source, world.source plan.invocation = .ok source ∧
    (world.load world.files plan.stdin source).bytes = content ∧
    (world.load world.files plan.stdin source).fails = false ∧
    world.attempt (plan.invocation.context world.host.bits)
      (world.load world.files plan.stdin source) = some a
  returns : a.returns = true
  framed : Framed (plan.invocation.context world.host.bits) content a.calls
  written : (Writer.init plan.invocation.settings.skipSeekTable world.replies).run world.host
    a.calls = .ok w
  events : report.events = w.events
  output : report.output plan.destination = cleanupCompression world.host w.table w.outFile
  parameters : world.prepareCctx plan.invocation.settings = .ok report.parameters

theorem main_success (h : world.main argv = some report) (hsuccess : report.ending = .success) :
    (Dismissed world argv ∧ report = world.unchanged .success) ∨
    ∃ plan content a w, Archived world argv report plan content a w := by
  simp only [main] at h
  split at h
  case h_1 e he =>
    cases h
    obtain rfl : e = .success := hsuccess
    exact .inl ⟨plan_error he, rfl⟩
  case h_2 plan hplan =>
    have hplanned := plan_ok hplan
    obtain ⟨r, rfl⟩ | ⟨source, output, hsource, houtput, hreport⟩ := compressFile_cases h
    · cases hsuccess
    · obtain ⟨e, parameters, events, hfails, rfl⟩ | ⟨parameters, a, w, hdone, rfl⟩ :=
        compress_cases hreport
      · exact absurd hsuccess hfails
      · have hattempted := hdone.attempted
        rw [load_output hplanned houtput hsource] at hattempted
        obtain ⟨hframed, hsound⟩ := attempt_framed hattempted hdone.returns
          fun input hinput => load_fits hsource hinput
        exact .inr ⟨plan, _, a, w, hplanned, load_reads hplanned hsource hsound,
          ⟨source, hsource, rfl, hsound, hattempted⟩, hdone.returns, hframed, hdone.written, rfl,
          complete_output houtput parameters w, hdone.prepared⟩

/-- A run that ends with `EXIT_SUCCESS` and was not sent away leaves a file of the
zstd format, made at the level that was asked for, that has one content: all that
the input holds, or nothing where the answer to the prompt has ended `stdin`. -/
theorem main_round_trip (h : world.main argv = some report) (hsuccess : report.ending = .success)
    (hsmall : ∀ i content,
      parseArgs world.host.sizeBits world.longBits world.permute argv = .ok i →
      world.Holds i content → content.length < 2 ^ 62)
    {IsFrame : List UInt8 → List UInt8 → Prop} (hformat : ZstdFormat IsFrame) {outBuffSize : Nat}
    (hz : Conforms outBuffSize IsFrame report.events) :
    (Dismissed world argv ∧ report = world.unchanged .success) ∨
    ∃ i d content, parseArgs world.host.sizeBits world.longBits world.permute argv = .ok i ∧
      world.destination i = .ok d ∧
      ((¬ world.Exhausted i ∧ world.Holds i content) ∨ (world.Exhausted i ∧ content = [])) ∧
      Decodes IsFrame IsSkippable (report.output d) content ∧
      (∀ other, Decodes IsFrame IsSkippable (report.output d) other → other = content) ∧
      (.c_compressionLevel, (i.settings.level.toNat : Int)) ∈ report.parameters ∧
      (.c_checksumFlag, 1) ∈ report.parameters := by
  obtain hdismissed | ⟨plan, content, a, w, hdone⟩ := main_success h hsuccess
  · exact .inl hdismissed
  · have hn := hdone.reads.length_lt fun content => hsmall _ content hdone.planned.parsed
    rw [hdone.events] at hz
    obtain ⟨segments, hcompressed, -⟩ := hdone.framed.compressed hn hdone.written hz
    have hdecodes := hcompressed.decodes
    rw [← hdone.output] at hdecodes
    have hparameters := prepareCctx_parameters hdone.parameters
    exact .inr ⟨plan.invocation, plan.destination, content, hdone.planned.parsed,
      hdone.planned.destination, hdone.reads, hdecodes,
      fun other hother => hother.unique hformat.toDelimited hdecodes,
      hparameters.1, hparameters.2⟩

/-- The frame of a null block, as the only frame of a format. -/
theorem zstdFormat_nullFrame : ZstdFormat fun c x => c = nullFrame ∧ x = nullBlock where
  size := by
    rintro c x ⟨rfl, -⟩
    decide
  magic := by
    rintro c x ⟨rfl, -⟩
    decide
  delimited := by
    rintro c x c' x' rest rest' ⟨rfl, rfl⟩ ⟨rfl, rfl⟩ -
    exact ⟨rfl, rfl⟩

theorem nullWorld_small (i : Invocation 64) {content : List UInt8}
    (h : nullWorld.Holds i content) : content.length < 2 ^ 62 := by
  have hfile : ∀ id, (nullWorld.files.file id).content.length < 2 ^ 62 := by
    intro id
    change (if id = ⟨0, 1⟩ then nullBlock else [0]).length < 2 ^ 62
    split
    · exact nullBlock_lt
    · decide
  cases h with
  | stdin mode sound => decide
  | mapped id found source => exact hfile id
  | redirected id found source sound => exact hfile id

theorem main_round_trip_nullBlock :
    ∃ report, nullWorld.main [tarName] = some report ∧
      ((Dismissed nullWorld [tarName] ∧ report = nullWorld.unchanged .success) ∨
      ∃ i d content, parseArgs 64 64 true [tarName] = .ok i ∧
        nullWorld.destination i = .ok d ∧
        ((¬ nullWorld.Exhausted i ∧ nullWorld.Holds i content) ∨
          (nullWorld.Exhausted i ∧ content = [])) ∧
        Decodes (fun c x => c = nullFrame ∧ x = nullBlock) IsSkippable (report.output d) content ∧
        (∀ other, Decodes (fun c x => c = nullFrame ∧ x = nullBlock) IsSkippable
          (report.output d) other → other = content) ∧
        (.c_compressionLevel, (i.settings.level.toNat : Int)) ∈ report.parameters ∧
        (.c_checksumFlag, 1) ∈ report.parameters) := by
  obtain ⟨report, hmain, hsuccess, hevents⟩ := nullWorld_main
  exact ⟨report, hmain, main_round_trip hmain hsuccess (fun i _ _ => nullWorld_small i)
    zstdFormat_nullFrame (hevents ▸ conforms_nullBlock)⟩

end World

end T2sz
