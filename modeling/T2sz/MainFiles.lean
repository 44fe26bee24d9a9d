import T2sz.Main
import T2sz.RandomAccess

/-!
What a run does to the files: nothing, or it makes, writes or removes the one
output, which is not the input, and which nobody keeps who has not agreed.
-/

namespace T2sz

open Files FileSystem Stdio

namespace World

/-- The user lets a file be overwritten, by `-f` or by an answer typed at the prompt. -/
def Consents (world : World) (i : Invocation world.host.sizeBits) : Prop :=
  i.settings.overwrite = true ∨
    (i.stdinMode = false ∧ world.stdinTerminal = true ∧ world.answer.1 = true)

/-- What `main` has checked before it calls `compressFile`. -/
structure Planned (world : World) (argv : List CString) (plan : Plan world.host.sizeBits) :
    Prop where
  parsed : parseArgs world.host.sizeBits world.longBits world.permute argv = .ok plan.invocation
  destination : world.destination plan.invocation = .ok plan.destination
  confirmed : world.confirm plan.invocation plan.destination = .ok plan.stdin

/-- The ways in which `main` ends before it calls `compressFile` without an error. -/
inductive Dismissed (world : World) (argv : List CString) : Prop
  /-- `-h` and `-V` -/
  | informed (u : Usage) (h : parseArgs world.host.sizeBits world.longBits world.permute argv =
      .error u) (help : u = .help ∨ u = .version)
  /-- Another answer than yes. -/
  | declined (i : Invocation world.host.sizeBits) (outFilename : CString)
      (parsed : parseArgs world.host.sizeBits world.longBits world.permute argv = .ok i)
      (destination : world.destination i = .ok (.file outFilename))
      (found : (world.files.stat outFilename).isSome) (answer : world.answer.1 = false)

variable {world : World} {argv : List CString} {report : Report}
  {plan : Plan world.host.sizeBits} {i : Invocation world.host.sizeBits}
  {outFilename : CString} {stdin : Input UInt8} {output : Output} {id : FileId}

theorem outputIsInput_iff : world.outputIsInput i outFilename = true ↔
    ∃ id, world.files.stat outFilename = some id ∧ world.inputFile i = some id := by
  unfold outputIsInput
  split
  case h_1 out input hout hinput =>
    rw [hout, hinput, Bool.and_eq_true, beq_iff_eq, beq_iff_eq]
    constructor
    · rintro ⟨hdev, hino⟩
      obtain ⟨dev, ino⟩ := out
      obtain rfl : dev = input.dev := hdev
      obtain rfl : ino = input.ino := hino
      exact ⟨_, rfl, rfl⟩
    · rintro ⟨id, hid, hsame⟩
      cases hid
      cases hsame
      exact ⟨rfl, rfl⟩
  case h_2 hnone =>
    constructor
    · intro h
      cases h
    · rintro ⟨id, hid, hsame⟩
      exact absurd hsame (hnone id id hid)

/-- An output that is there is not the input, and may be overwritten. -/
theorem confirm_file (h : world.confirm i (.file outFilename) = .ok stdin)
    (hid : world.files.stat outFilename = some id) :
    world.inputFile i ≠ some id ∧ world.Consents i := by
  simp only [confirm] at h
  split at h
  case isTrue => cases h
  case isFalse hdistinct =>
    refine ⟨fun hinput => hdistinct (outputIsInput_iff.mpr ⟨id, hid, hinput⟩), ?_⟩
    split at h
    case isFalse hforced =>
      rw [hid, Option.isSome_some] at hforced
      exact .inl (by simpa using hforced)
    case isTrue =>
      split at h
      case isTrue => cases h
      case isFalse hterminal =>
        rw [Bool.or_eq_true, not_or, Bool.not_eq_true, Bool.not_eq_true', Bool.not_eq_false]
          at hterminal
        split at h
        case isTrue hyes => exact .inr ⟨hterminal.1, hterminal.2, hyes⟩
        case isFalse => cases h

/-- Only an answer at the prompt ends the run there without an error. -/
theorem confirm_error {d : Destination} (h : world.confirm i d = .error .success) :
    ∃ outFilename, d = .file outFilename ∧ (world.files.stat outFilename).isSome ∧
      world.answer.1 = false := by
  cases d with
  | stdout => cases h
  | file outFilename =>
      simp only [confirm] at h
      split at h
      case isTrue => cases h
      case isFalse =>
        split at h
        case isFalse => cases h
        case isTrue hthere =>
          split at h
          case isTrue => cases h
          case isFalse =>
            split at h
            case isTrue => cases h
            case isFalse hno => exact ⟨outFilename, rfl, hthere.2, by simpa using hno⟩

theorem plan_ok (h : world.plan argv = .ok plan) : Planned world argv plan := by
  simp only [World.plan] at h
  split at h
  case isFalse => cases h
  case isTrue =>
    split at h
    case h_1 => cases h
    case h_2 i hparsed =>
      split at h
      case isTrue => cases h
      case isFalse =>
        split at h
        case h_1 => cases h
        case h_2 d hd =>
          split at h
          case h_1 => cases h
          case h_2 stdin hstdin =>
            cases h
            exact ⟨hparsed, hd, hstdin⟩

theorem plan_error (h : world.plan argv = .error .success) : Dismissed world argv := by
  simp only [World.plan] at h
  split at h
  case isFalse => cases h
  case isTrue =>
    split at h
    case h_1 u hu =>
      cases u with
      | error str => cases h
      | help => exact .informed _ hu (.inl rfl)
      | version => exact .informed _ hu (.inr rfl)
    case h_2 i hparsed =>
      split at h
      case isTrue => cases h
      case isFalse =>
        split at h
        case h_1 => cases h
        case h_2 d hd =>
          split at h
          case h_1 e he =>
            cases h
            obtain ⟨outFilename, rfl, hthere, hno⟩ := confirm_error he
            exact .declined i outFilename hparsed hd hthere hno
          case h_2 => cases h

/-- A run that has gone through the loops and written everything. -/
structure Completed (world : World) (plan : Plan world.host.sizeBits) (source : Source)
    (output : Output) (parameters : List (CParameter × Int)) (a : Attempt) (w : Writer) :
    Prop where
  prepared : world.prepareCctx plan.invocation.settings = .ok parameters
  buffered : world.missing ((world.load output.files plan.stdin source).buffer
    (plan.invocation.context world.host.bits)) = none
  attempted : world.attempt (plan.invocation.context world.host.bits)
    (world.load output.files plan.stdin source) = some a
  returns : a.returns = true
  written : (Writer.init plan.invocation.settings.skipSeekTable world.replies).run world.host
    a.calls = .ok w

/-- With the output open a run fails or is complete. -/
theorem compress_cases {source : Source} (h : world.compress plan source output = some report) :
    (∃ e parameters events, e ≠ .success ∧ report = world.abort output e parameters events) ∨
      ∃ parameters a w, Completed world plan source output parameters a w ∧
        report = world.complete output parameters w := by
  simp only [compress] at h
  split at h
  case isFalse =>
    cases h
    exact .inl ⟨_, _, _, by simp, rfl⟩
  case isTrue =>
    split at h
    case h_1 =>
      cases h
      exact .inl ⟨_, _, _, by simp, rfl⟩
    case h_2 parameters hparameters =>
      split at h
      case h_1 =>
        cases h
        exact .inl ⟨_, _, _, by simp, rfl⟩
      case h_2 hbuffered =>
        split at h
        case h_1 => cases h
        case h_2 a ha =>
          split at h
          case h_1 => cases h
          case h_2 =>
            cases h
            exact .inl ⟨_, _, _, by simp, rfl⟩
          case h_3 w hw =>
            split at h
            case isTrue hgood =>
              cases h
              rw [Bool.and_eq_true] at hgood
              exact .inr ⟨parameters, a, w, ⟨hparameters, hbuffered, ha, hgood.1, hw⟩, rfl⟩
            case isFalse =>
              cases h
              exact .inl ⟨_, _, _, by simp, rfl⟩

/-- The source that `compressFile` settles on. -/
def source (world : World) (i : Invocation world.host.sizeBits) : Except Refusal Source :=
  if i.stdinMode then .ok .stdin
  else world.prepareInput i.settings.rawMode i.inFilename

theorem compressFile_cases (h : world.compressFile plan = some report) :
    (∃ r, report = world.unchanged (.refused r)) ∨
    ∃ source output, world.source plan.invocation = .ok source ∧
      world.prepareOutput plan.destination = .ok output ∧
      world.compress plan source output = some report := by
  simp only [compressFile] at h
  split at h
  case h_1 =>
    cases h
    exact .inl ⟨_, rfl⟩
  case h_2 source hsource =>
    split at h
    case h_1 =>
      cases h
      exact .inl ⟨_, rfl⟩
    case h_2 output houtput => exact .inr ⟨source, output, hsource, houtput, h⟩

theorem compressFile_completed {source : Source} {parameters : List (CParameter × Int)}
    {a : Attempt} {w : Writer} (hsource : world.source plan.invocation = .ok source)
    (houtput : world.prepareOutput plan.destination = .ok output)
    (hbuff : world.malloc .outBuff = true)
    (hdone : Completed world plan source output parameters a w) (hwrites : world.writes = true) :
    world.compressFile plan = some (world.complete output parameters w) := by
  rw [World.source] at hsource
  simp only [compressFile, hsource, houtput, compress, hbuff, if_true, hdone.prepared,
    hdone.buffered, hdone.attempted, hdone.written, hdone.returns, hwrites, Bool.and_self]

theorem prepareOutput_stdout (h : world.prepareOutput .stdout = .ok output) :
    output = ⟨world.files, .stdout, false⟩ := by
  cases h
  rfl

theorem prepareOutput_file (h : world.prepareOutput (.file outFilename) = .ok output) :
    output = ⟨world.files.put outFilename world.fresh [], .file outFilename,
      world.regular outFilename⟩ := by
  simp only [prepareOutput] at h
  split at h
  case isTrue =>
    cases h
    rfl
  case isFalse => cases h

/-- The files of a run that opened the output. -/
theorem fill_files (h : world.prepareOutput (.file outFilename) = .ok output)
    (bytes : List UInt8) :
    (world.fill output bytes).1 = world.files.put outFilename world.fresh bytes := by
  rw [prepareOutput_file h]
  exact put_put _ _ _ _ _

/-- Whatever comes of the run, only the output is another file than before. -/
theorem compress_confined {source : Source}
    (houtput : world.prepareOutput (.file outFilename) = .ok output)
    (h : world.compress plan source output = some report) :
    Confined world.files report.files outFilename world.fresh := by
  obtain ⟨e, parameters, events, -, rfl⟩ | ⟨parameters, a, w, -, rfl⟩ :=
    compress_cases h
  · have hfile : output.destination = .file outFilename := by rw [prepareOutput_file houtput]
    simp only [abort, hfile, fill_files houtput]
    split
    · exact (confined_put _ _ _ _).unlink
    · exact confined_put _ _ _ _
  · simp only [complete, fill_files houtput]
    exact confined_put _ _ _ _

theorem compress_stdout {source : Source} (houtput : world.prepareOutput .stdout = .ok output)
    (h : world.compress plan source output = some report) : report.files = world.files := by
  obtain rfl := prepareOutput_stdout houtput
  obtain ⟨e, parameters, events, -, rfl⟩ | ⟨parameters, a, w, -, rfl⟩ :=
    compress_cases h
  · rfl
  · rfl

/-- A run that fails with the output open removes it, if it is one that it can remove. -/
theorem compress_removes {source : Source}
    (houtput : world.prepareOutput (.file outFilename) = .ok output)
    (h : world.compress plan source output = some report) (hfails : report.ending ≠ .success)
    (hregular : world.regular outFilename = true)
    (hremovable : world.removable outFilename = true) :
    report.files.stat outFilename = none := by
  obtain ⟨e, parameters, events, -, rfl⟩ | ⟨parameters, a, w, -, rfl⟩ := compress_cases h
  · rw [prepareOutput_file houtput]
    simp only [abort, hregular, hremovable, Bool.and_self, if_true]
    exact stat_unlink _ _
  · exact absurd rfl hfails

/-- The file that is made is no input. -/
theorem inputFile_ne_fresh (world : World) (i : Invocation world.host.sizeBits) :
    world.inputFile i ≠ some world.fresh := by
  unfold inputFile
  split
  · exact world.stdinFile_ne
  · exact world.unused _

end World

section Example

def tarName : CString := ⟨chars "a.tar", by decide⟩

/-- The archive, and an older output. -/
def nullFiles : Storage where
  resolve path := path
  isLink _ := false
  entry name :=
    if name = tarName then some ⟨0, 1⟩
    else if name = getOutFilename tarName then some ⟨0, 2⟩
    else none
  file id := .ofContent (if id = ⟨0, 1⟩ then nullBlock else [0])

theorem line_yes : Input.Line '\n'.toUInt8 (chars "y\n") := by
  intro front back hline
  have hlen := congrArg List.length hline
  cases front with
  | nil => cases hline
  | cons c front =>
      rw [List.length_append, List.length_cons, List.length_cons] at hlen
      have hback : back.length = 0 := by
        have htwo : (chars "y\n").length = 2 := by decide
        omega
      exact List.eq_nil_of_length_eq_zero hback

/-- A terminal on which the prompt is answered, and an archive of one null block. -/
def nullWorld : World where
  host := plainHost 64 newContext.bits
  longBits := 64
  permute := true
  files := nullFiles
  fresh := ⟨0, 3⟩
  unused := by
    intro name
    simp only [nullFiles]
    split
    · decide
    · split <;> decide
  readable _ := true
  writable _ := true
  removable _ := true
  mappable _ := true
  mappable_fits := by
    intro id _
    simp only [nullFiles, File.ofContent]
    split
    · rw [nullBlock, List.length_replicate]
      decide
    · decide
  redirects := true
  stdinFile := some ⟨1, 1⟩
  stdinFile_ne := by decide
  stdinReads _ := [chars "y\n"]
  stdinReads_eq := fun _ _ => rfl
  stdinFails := false
  stdinTerminal := true
  stdinTerminal_lines := by
    intro _ read hread
    rw [List.mem_singleton.mp hread]
    exact line_yes
  stdoutTerminal := true
  malloc _ := true
  createCCtx := true
  setParameter _ _ := none
  replies := nullReplies
  inChunk := 131072
  inChunk_pos := by decide
  short _ := 0
  after _ := []
  writes := true
  residue := []

def nullPlan : Plan 64 where
  invocation := ⟨Settings.newContext 64, tarName, false, fun h => absurd rfl h⟩
  destination := .file (getOutFilename tarName)
  stdin := ⟨[], [], false⟩

theorem nullPlan_context : nullPlan.invocation.context (.inr rfl) = newContext := by
  simp [Invocation.context, newContext, nullPlan, Settings.newContext, Size.ofNat]

theorem nullWorld_main :
    ∃ report, nullWorld.main [tarName] = some report ∧ report.ending = .success ∧
      report.events = [.reset, .pledge (some 512), .stream .e_continue nullBlock ⟨512, [], 15⟩,
        .stream .e_end [] ⟨0, nullFrame, 0⟩] := by
  obtain ⟨w, hrun, hevents⟩ := nullReplies_run
  have hplan : nullWorld.plan [tarName] = .ok nullPlan := rfl
  have hsource : nullWorld.source nullPlan.invocation = .ok (.mapped ⟨0, 1⟩) := by
    decide +kernel
  have houtput : nullWorld.prepareOutput nullPlan.destination = .ok
      ⟨nullFiles.put (getOutFilename tarName) ⟨0, 3⟩ [], .file (getOutFilename tarName), true⟩ :=
    rfl
  have hload : nullWorld.load (nullFiles.put (getOutFilename tarName) ⟨0, 3⟩ []) nullPlan.stdin
      (.mapped ⟨0, 1⟩) = .mapped nullBlock := rfl
  have hattempt : nullWorld.attempt (nullPlan.invocation.context (.inr rfl))
      (.mapped nullBlock) = some ⟨true, [.frame nullBlock]⟩ := by
    rw [nullPlan_context, World.attempt, show nullWorld.after = fun _ => [] from rfl,
      compressMapped_nullBlock]
    rfl
  have hdone : World.Completed nullWorld nullPlan (.mapped ⟨0, 1⟩)
      ⟨nullFiles.put (getOutFilename tarName) ⟨0, 3⟩ [], .file (getOutFilename tarName), true⟩
      [(.c_compressionLevel, 3), (.c_checksumFlag, 1)] ⟨true, [.frame nullBlock]⟩ w :=
    ⟨rfl, rfl, by rw [hload]; exact hattempt, rfl, hrun⟩
  have hmain : nullWorld.main [tarName] = nullWorld.compressFile nullPlan := by
    simp only [World.main, hplan]
  exact ⟨_, hmain.trans (World.compressFile_completed hsource houtput rfl hdone rfl), rfl, hevents⟩

end Example

section Messages

/-- The file that a message is about. -/
def Refusal.subject : Refusal → Option CString
  | .notFound inFilename | .unableToOpen inFilename | .isDirectory inFilename
  | .emptyInput inFilename | .unableToRedirect inFilename => some inFilename
  | .isInput outFilename | .alreadyExists outFilename => some outFilename
  | _ => none

theorem Refusal.text_subject {r : Refusal} {filename : CString} (h : r.subject = some filename) :
    filename.bytes <:+: r.text := by
  cases r with
  | notFound | unableToOpen | isDirectory | emptyInput | unableToRedirect | isInput
  | alreadyExists =>
      cases h
      first
        | exact ⟨_, _, rfl⟩
        | exact ⟨[], _, rfl⟩
  | usage | outOfMemory | stdoutTerminal | cannotOpenOutput | cannotCreateCCtx | cannotSet =>
      cases h

end Messages

namespace World

variable {world : World} {argv : List CString} {report : Report}

theorem prepareInput_subject {rawMode : Bool} {inFilename filename : CString} {r : Refusal}
    (h : world.prepareInput rawMode inFilename = .error r) (hr : r.subject = some filename) :
    filename = inFilename := by
  simp only [prepareInput] at h
  split at h
  case h_1 =>
    cases h
    exact (Option.some.inj hr).symm
  case h_2 =>
    split at h
    · cases h
      exact (Option.some.inj hr).symm
    · split at h
      · cases h
        exact (Option.some.inj hr).symm
      · split at h
        · cases h
        · split at h
          · cases h
          · cases h
            exact (Option.some.inj hr).symm

theorem prepareCctx_subject {w : Nat} {s : Settings w} {r : Refusal}
    (h : world.prepareCctx s = .error r) : r.subject = none := by
  simp only [prepareCctx] at h
  split at h
  · split at h
    · cases h
      rfl
    · split at h
      · cases h
        rfl
      · cases h
  · cases h
    rfl

theorem destination_subject {i : Invocation world.host.sizeBits} {r : Refusal}
    (h : world.destination i = .error r) : r.subject = none := by
  simp only [destination] at h
  split at h
  · split at h
    · split at h
      · cases h
        rfl
      · cases h
    · split at h
      · cases h
      · cases h
        rfl
  · split at h <;> cases h

theorem confirm_subject {i : Invocation world.host.sizeBits} {d : Destination} {r : Refusal}
    {filename : CString} (h : world.confirm i d = .error (.refused r))
    (hr : r.subject = some filename) : d = .file filename := by
  cases d with
  | stdout => cases h
  | file outFilename =>
      simp only [confirm] at h
      split at h
      · cases h
        rw [Option.some.inj hr]
      · split at h
        · split at h
          · cases h
            rw [Option.some.inj hr]
          · split at h <;> cases h
        · cases h

theorem plan_subject {r : Refusal} {filename : CString}
    (h : world.plan argv = .error (.refused r)) (hr : r.subject = some filename) :
    ∃ i, parseArgs world.host.sizeBits world.longBits world.permute argv = .ok i ∧
      (filename = i.inFilename ∨ world.destination i = .ok (.file filename)) := by
  simp only [World.plan] at h
  split at h
  case isFalse =>
    cases h
    cases hr
  case isTrue =>
    split at h
    case h_1 u _ =>
      cases u with
      | error str =>
          cases h
          cases hr
      | help => cases h
      | version => cases h
    case h_2 i hparsed =>
      refine ⟨i, hparsed, ?_⟩
      split at h
      case isTrue =>
        cases h
        exact .inl (Option.some.inj hr).symm
      case isFalse =>
        split at h
        case h_1 hd =>
          cases h
          rw [destination_subject hd] at hr
          cases hr
        case h_2 d hd =>
          split at h
          case h_1 e he =>
            cases h
            exact .inr (confirm_subject he hr ▸ hd)
          case h_2 => cases h

theorem prepareOutput_subject {d : Destination} {r : Refusal}
    (h : world.prepareOutput d = .error r) : r.subject = none := by
  cases d with
  | stdout => cases h
  | file outFilename =>
      simp only [prepareOutput] at h
      split at h
      · cases h
      · cases h
        rfl

/-- With the output open no message is about a file. -/
theorem compress_subject {plan : Plan world.host.sizeBits} {source : Source} {output : Output}
    {r : Refusal} (h : world.compress plan source output = some report)
    (hrefused : report.ending = .refused r) : r.subject = none := by
  simp only [compress] at h
  split at h
  case isFalse =>
    cases h
    cases hrefused
    rfl
  case isTrue =>
    split at h
    case h_1 hcctx =>
      cases h
      cases hrefused
      exact prepareCctx_subject hcctx
    case h_2 =>
      split at h
      case h_1 =>
        cases h
        cases hrefused
        rfl
      case h_2 =>
        split at h
        case h_1 => cases h
        case h_2 =>
          split at h
          case h_1 => cases h
          case h_2 =>
            cases h
            cases hrefused
          case h_3 => split at h <;> cases h <;> cases hrefused

/-- A message about a file is about the input or the output of the command line. -/
theorem main_subject {r : Refusal} {filename : CString} (h : world.main argv = some report)
    (hrefused : report.ending = .refused r) (hr : r.subject = some filename) :
    ∃ i, parseArgs world.host.sizeBits world.longBits world.permute argv = .ok i ∧
      (filename = i.inFilename ∨ world.destination i = .ok (.file filename)) := by
  simp only [main] at h
  split at h
  case h_1 e he =>
    cases h
    obtain rfl : e = .refused r := hrefused
    exact plan_subject he hr
  case h_2 plan hplan =>
    have hplanned := plan_ok hplan
    refine ⟨plan.invocation, hplanned.parsed, .inl ?_⟩
    simp only [compressFile] at h
    split at h
    case h_1 hsource =>
      cases h
      cases hrefused
      split at hsource
      · cases hsource
      · exact prepareInput_subject hsource hr
    case h_2 =>
      split at h
      case h_1 houtput =>
        cases h
        cases hrefused
        rw [prepareOutput_subject houtput] at hr
        cases hr
      case h_2 =>
        rw [compress_subject h hrefused] at hr
        cases hr

/-- No run touches another file than its output, which is not the input, nor a file
that the user has not given up; and a run that fails leaves no part of an output. -/
theorem main_confined (h : world.main argv = some report) :
    (∀ i, parseArgs world.host.sizeBits world.longBits world.permute argv = .ok i →
      ∀ id, world.inputFile i = some id → report.files.file id = world.files.file id) ∧
    (report.files = world.files ∨
      ∃ i outFilename, parseArgs world.host.sizeBits world.longBits world.permute argv = .ok i ∧
        world.destination i = .ok (.file outFilename) ∧
        Confined world.files report.files outFilename world.fresh ∧
        (∀ id, world.files.stat outFilename = some id → world.Consents i) ∧
        (report.ending ≠ .success → world.regular outFilename = true →
          world.removable outFilename = true → report.files.stat outFilename = none)) := by
  simp only [main] at h
  split at h
  case h_1 =>
    cases h
    exact ⟨fun _ _ _ _ => rfl, .inl rfl⟩
  case h_2 plan hplan =>
    obtain ⟨hparsed, hdestination, hconfirmed⟩ := plan_ok hplan
    obtain ⟨r, rfl⟩ | ⟨source, output, -, houtput, hreport⟩ := compressFile_cases h
    · exact ⟨fun _ _ _ _ => rfl, .inl rfl⟩
    · cases hd : plan.destination with
      | stdout =>
          have hfiles := compress_stdout (hd ▸ houtput) hreport
          exact ⟨fun _ _ _ _ => by rw [hfiles], .inl hfiles⟩
      | file outFilename =>
          rw [hd] at houtput hdestination hconfirmed
          have hconfined := compress_confined houtput hreport
          refine ⟨?_, .inr ⟨plan.invocation, outFilename, hparsed, hdestination, hconfined,
            fun id hid => (confirm_file hconfirmed hid).2, compress_removes houtput hreport⟩⟩
          intro i hi id hid
          rw [hparsed] at hi
          cases hi
          apply hconfined.files id
          · rintro rfl
            exact inputFile_ne_fresh world _ hid
          · intro hout
            exact (confirm_file hconfirmed hout).1 hid

/-- The prompt is answered, and the older output is overwritten. -/
theorem main_confined_overwrites :
    ∃ report, nullWorld.main [tarName] = some report ∧
      ((∀ i, parseArgs 64 64 true [tarName] = .ok i →
        ∀ id, nullWorld.inputFile i = some id → report.files.file id = nullFiles.file id) ∧
      (report.files = nullFiles ∨
        ∃ i outFilename, parseArgs 64 64 true [tarName] = .ok i ∧
          nullWorld.destination i = .ok (.file outFilename) ∧
          Confined nullFiles report.files outFilename ⟨0, 3⟩ ∧
          (∀ id, nullFiles.stat outFilename = some id → nullWorld.Consents i) ∧
          (report.ending ≠ .success → nullWorld.regular outFilename = true →
            nullWorld.removable outFilename = true → report.files.stat outFilename = none))) := by
  obtain ⟨report, hmain, -⟩ := nullWorld_main
  exact ⟨report, hmain, main_confined hmain⟩

end World

end T2sz
