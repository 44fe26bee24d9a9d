import T2sz.ArchiveStream
import T2sz.MutatedInput

/-!
Where nothing fails, an archive is not refused.

The other results begin with a run that ends well. Here the system and libzstd
do their part, and the input is an archive as its writer lays it out, or is cut
in raw mode: then a run that has got through the checks of `main` ends well.
-/

namespace T2sz

open Iteration

namespace Writer

variable {w : Writer} {host : Host} {src : List UInt8}

/-- A call that does not exit, and leaves no error among the replies. -/
def Proceeds {α : Type} (after : α → Writer) : Except Stop α → Prop
  | .error e => e = .starved
  | .ok x => none ∉ (after x).replies

theorem ask_proceeds (h : none ∉ w.replies) : Proceeds Prod.snd w.ask := by
  rw [ask]
  split
  case h_1 => rfl
  case h_2 rest hreplies =>
    rw [hreplies] at h
    exact absurd List.mem_cons_self h
  case h_3 answer rest hreplies =>
    rw [hreplies] at h
    exact fun hmem => h (List.mem_cons_of_mem _ hmem)

theorem compressStream2_proceeds (mode : EndDirective) (offered : List UInt8)
    (h : none ∉ w.replies) : Proceeds Prod.snd (w.compressStream2 mode offered) := by
  have hask := ask_proceeds h
  rw [compressStream2]
  cases hw : w.ask with
  | error e => rwa [hw] at hask
  | ok p => rwa [hw] at hask

theorem zstdResetFrame_proceeds (h : none ∉ w.replies) : Proceeds id w.zstdResetFrame := by
  have hask := ask_proceeds h
  rw [zstdResetFrame]
  cases hw : w.ask with
  | error e => rwa [hw] at hask
  | ok p => rwa [hw] at hask

theorem zstdSetPledged_proceeds (size : Option Nat) (h : none ∉ w.replies) :
    Proceeds id (w.zstdSetPledged size) := by
  have hask := ask_proceeds h
  rw [zstdSetPledged]
  cases hw : w.ask with
  | error e => rwa [hw] at hask
  | ok p => rwa [hw] at hask

theorem bufferLoop_proceeds (fuel pos size : Nat) (h : none ∉ w.replies) :
    Proceeds Prod.snd (bufferLoop src fuel pos size w) := by
  induction fuel generalizing w pos size with
  | zero => rfl
  | succ fuel ih =>
      rw [bufferLoop]
      generalize (if pos < src.length then EndDirective.e_continue else .e_end) = mode
      have hcall := compressStream2_proceeds mode (src.drop pos) h
      cases hw : w.compressStream2 mode (src.drop pos) with
      | error e => rwa [hw] at hcall
      | ok p =>
          rw [hw] at hcall
          simp only
          split
          · exact hcall
          · exact ih _ _ hcall

theorem endLoop_proceeds (fuel size : Nat) (h : none ∉ w.replies) :
    Proceeds Prod.snd (endLoop fuel size w) := by
  induction fuel generalizing w size with
  | zero => rfl
  | succ fuel ih =>
      rw [endLoop]
      have hcall := compressStream2_proceeds .e_end [] h
      cases hw : w.compressStream2 .e_end [] with
      | error e => rwa [hw] at hcall
      | ok p =>
          rw [hw] at hcall
          simp only
          split
          · exact hcall
          · exact ih _ hcall

theorem pushLoop_proceeds (fuel pos : Nat) (h : none ∉ w.replies) :
    Proceeds id (pushLoop src fuel pos w) := by
  induction fuel generalizing w pos with
  | zero => rfl
  | succ fuel ih =>
      rw [pushLoop]
      split
      case isFalse => exact h
      case isTrue =>
        have hcall := compressStream2_proceeds .e_continue (src.drop pos) h
        cases hw : w.compressStream2 .e_continue (src.drop pos) with
        | error e => rwa [hw] at hcall
        | ok p =>
            rw [hw] at hcall
            exact ih _ hcall

theorem zstdCompressBufferToFrame_proceeds (h : none ∉ w.replies) :
    Proceeds Prod.snd (w.zstdCompressBufferToFrame src) := by
  have hreset := zstdResetFrame_proceeds h
  rw [zstdCompressBufferToFrame]
  cases hw : w.zstdResetFrame with
  | error e => rwa [hw] at hreset
  | ok u =>
      rw [hw] at hreset
      have hpledge := zstdSetPledged_proceeds (some src.length) hreset
      simp only [id_eq] at hpledge ⊢
      cases hu : u.zstdSetPledged (some src.length) with
      | error e => rwa [hu] at hpledge
      | ok v =>
          rw [hu] at hpledge
          exact bufferLoop_proceeds _ _ _ hpledge

section Recording

variable (hmemory : ∀ n, ∃ fresh, host.realloc n = some fresh)
include hmemory

theorem record_proceeds (compressedSize decompressedSize : Nat) (h : none ∉ w.replies) :
    Proceeds id (w.record host compressedSize decompressedSize) := by
  obtain ⟨t, ht⟩ := seekTableAddAll_ok hmemory w.table [(compressedSize, decompressedSize)]
  rw [seekTableAddAll] at ht
  rw [record]
  cases hadd : seekTableAdd host w.table compressedSize decompressedSize with
  | error e =>
      rw [hadd] at ht
      cases ht
  | ok t => exact h

theorem call_proceeds (c : Call) (h : none ∉ w.replies) : Proceeds id (w.call host c) := by
  cases c with
  | frame src =>
      have hframe := @zstdCompressBufferToFrame_proceeds w src h
      rw [call]
      cases hw : w.zstdCompressBufferToFrame src with
      | error e => rwa [hw] at hframe
      | ok p =>
          rw [hw] at hframe
          exact record_proceeds hmemory _ _ hframe
  | start pledged =>
      have hreset := zstdResetFrame_proceeds h
      rw [call]
      cases hw : w.zstdResetFrame with
      | error e => rwa [hw] at hreset
      | ok u =>
          rw [hw] at hreset
          have hpledge := zstdSetPledged_proceeds pledged hreset
          simp only [id_eq] at hpledge ⊢
          cases hu : u.zstdSetPledged pledged with
          | error e => rwa [hu] at hpledge
          | ok v => rwa [hu] at hpledge
  | push src => exact pushLoop_proceeds _ _ h
  | finish frameIn =>
      have hend := @endLoop_proceeds w (w.replies.length + 1) 0 h
      rw [call, zstdEndFrame]
      cases hw : endLoop (w.replies.length + 1) 0 w with
      | error e => rwa [hw] at hend
      | ok p =>
          rw [hw] at hend
          exact record_proceeds hmemory _ _ hend

/-- Where libzstd reports no error and there is memory for the table, no call exits. -/
theorem run_proceeds (calls : List Call) (h : none ∉ w.replies) :
    Proceeds id (w.run host calls) := by
  induction calls generalizing w with
  | nil => exact h
  | cons c calls ih =>
      have hcall := call_proceeds hmemory c h
      rw [run]
      cases hw : w.call host c with
      | error e => rwa [hw] at hcall
      | ok u =>
          rw [hw] at hcall
          exact ih hcall

end Recording

end Writer

namespace World

variable {world : World} {argv : List CString} {report : Report} {ctx : Context}
  {loaded : Loaded} {a : Attempt}

/-- The raw mode takes every input that can be read. -/
theorem attempt_raw (hraw : ctx.rawMode = true) (hsound : loaded.fails = false)
    (h : world.attempt ctx loaded = some a) : a.returns = true := by
  cases loaded with
  | mapped input =>
      obtain ⟨s, hs, -⟩ := compressMapped_slices hraw world.after input
      obtain ⟨r, hr, rfl⟩ := Option.map_eq_some_iff.mp h
      obtain rfl := Option.some.inj (hr.symm.trans hs)
      rfl
  | stream stream =>
      rw [attempt, if_pos hraw] at h
      obtain ⟨r, hr, rfl⟩ := Option.map_eq_some_iff.mp h
      cases r with
      | returned s => rfl
      | exited e s =>
          have hfails := compressStdinRaw_exits hr
          rw [Loaded.fails] at hsound
          exact absurd (hfails.symm.trans hsound) (by decide)

/-- The tar mode takes an archive as its writer lays it out. -/
theorem attempt_laid_out (hw : ctx.sizeBits = 64) (htar : ctx.rawMode = false) {archive : Archive}
    (hstreamable : archive.Streamable) (hbytes : loaded.bytes = archive.bytes)
    (hn : loaded.bytes.length < 2 ^ 62) (hsound : loaded.fails = false)
    (h : world.attempt ctx loaded = some a) : a.returns = true := by
  obtain ⟨piped, rfl⟩ : ∃ piped, loaded = .of piped archive.bytes := by
    cases loaded with
    | mapped input => exact ⟨false, congrArg Loaded.mapped hbytes⟩
    | stream stream =>
        obtain ⟨input, fails⟩ := stream
        obtain rfl : input = archive.bytes := hbytes
        obtain rfl : fails = false := hsound
        exact ⟨true, rfl⟩
  obtain ⟨x, -, hx, hreturns, -⟩ :=
    attempt_of hw htar archive (hbytes ▸ hn) piped fun _ => hstreamable
  obtain rfl := Option.some.inj (h.symm.trans hx)
  exact hreturns

/-- The system and libzstd do their part. -/
structure Unfailing (world : World) : Prop where
  files : ∀ id, (world.files.file id).fails = false
  stdin : world.stdinFails = false
  memory : ∀ n, ∃ fresh, world.host.realloc n = some fresh
  replies : none ∉ world.replies
  writes : world.writes = true

theorem Unfailing.load (hworld : world.Unfailing) (stdin : Stdio.Input UInt8) (source : Source) :
    (world.load world.files stdin source).fails = false := by
  cases source with
  | mapped id => rfl
  | redirected id => simp [World.load, Loaded.fails, hworld.files id]
  | stdin => simp [World.load, Loaded.fails, hworld.stdin]

/-- The checks of `main` have messages of their own. -/
theorem plan_refuses {e : ExitStatus} (h : world.plan argv = .error e) : e ≠ .exited := by
  rintro rfl
  simp only [World.plan] at h
  split at h
  case isFalse => cases h
  case isTrue =>
    split at h
    case h_1 u hu => cases u <;> cases h
    case h_2 i hparsed =>
      split at h
      case isTrue => cases h
      case isFalse =>
        split at h
        case h_1 => cases h
        case h_2 d hd =>
          split at h
          case h_2 => cases h
          case h_1 e he =>
            cases h
            cases d with
            | stdout => cases he
            | file outFilename =>
                simp only [confirm] at he
                repeat' split at he
                all_goals cases he

/-- With the output open a run does not fail in the loops or behind them. -/
theorem compress_accepts {plan : Plan world.host.sizeBits} {source : Source} {output : Output}
    (hworld : world.Unfailing) (h : world.compress plan source output = some report)
    (hreturns : ∀ a, world.attempt (plan.invocation.context world.host.bits)
      (world.load output.files plan.stdin source) = some a → a.returns = true) :
    report.ending ≠ .exited := by
  simp only [compress] at h
  split at h
  case isFalse =>
    cases h
    exact ExitStatus.noConfusion
  case isTrue =>
    split at h
    case h_1 =>
      cases h
      exact ExitStatus.noConfusion
    case h_2 parameters _ =>
      split at h
      case h_1 =>
        cases h
        exact ExitStatus.noConfusion
      case h_2 =>
        split at h
        case h_1 => cases h
        case h_2 a ha =>
          have hrun := @Writer.run_proceeds
            (.init plan.invocation.settings.skipSeekTable world.replies) world.host hworld.memory
            a.calls hworld.replies
          split at h
          case h_1 => cases h
          case h_2 e hexit =>
            rw [hexit] at hrun
            cases hrun
          case h_3 w _ =>
            rw [if_pos (by rw [hreturns a ha, hworld.writes]; rfl)] at h
            cases h
            exact ExitStatus.noConfusion

/-- Where the system and libzstd do their part, a run that comes back from libzstd
ends well, or with a message of the checks in front of the loops, those of the memory
they need among them: nothing in an archive makes it fail, and nothing at all in raw
mode. An answer that has ended `stdin` leaves the tar mode without an archive. -/
theorem main_accepts (hw : world.host.sizeBits = 64) (hworld : world.Unfailing)
    (h : world.main argv = some report)
    (hinput : ∀ i content,
      parseArgs world.host.sizeBits world.longBits world.permute argv = .ok i →
      world.Holds i content → i.settings.rawMode = true ∨
        content.length < 2 ^ 62 ∧ ∃ archive : Archive, archive.Streamable ∧
          content = archive.bytes)
    (hanswer : ∀ i, parseArgs world.host.sizeBits world.longBits world.permute argv = .ok i →
      world.Exhausted i → i.settings.rawMode = true) :
    report.ending = .success ∨ ∃ r, report.ending = .refused r := by
  have hends : report.ending ≠ .exited := by
    simp only [main] at h
    split at h
    case h_1 e he =>
      cases h
      exact plan_refuses he
    case h_2 plan hplan =>
      have hplanned := plan_ok hplan
      obtain ⟨r, rfl⟩ | ⟨source, output, hsource, houtput, hreport⟩ := compressFile_cases h
      · exact ExitStatus.noConfusion
      · refine compress_accepts hworld hreport ?_
        rw [load_output hplanned houtput hsource]
        have hsound := hworld.load plan.stdin source
        intro a ha
        obtain ⟨-, hholds⟩ | ⟨hexhausted, -⟩ := load_reads hplanned hsource hsound
        · obtain hraw | ⟨hsmall, archive, hstreamable, hbytes⟩ :=
            hinput plan.invocation _ hplanned.parsed hholds
          · exact attempt_raw hraw hsound ha
          · cases hmode : plan.invocation.settings.rawMode with
            | true => exact attempt_raw hmode hsound ha
            | false => exact attempt_laid_out hw hmode hstreamable hbytes hsmall hsound ha
        · exact attempt_raw (hanswer plan.invocation hplanned.parsed hexhausted) hsound ha
  cases hending : report.ending with
  | success => exact .inl rfl
  | refused r => exact .inr ⟨r, rfl⟩
  | exited => exact absurd hending hends

/-- The files of `nullWorld`, with an empty file in the archive. -/
def emptyFileFiles : Storage :=
  { nullFiles with
    file := fun id => .ofContent (if id = ⟨0, 1⟩ then emptyFileArchive.bytes else [0]) }

theorem length_emptyFileArchive : emptyFileArchive.bytes.length = 1536 := by
  rw [Archive.bytes, List.length_append, length_entries, List.length_replicate]
  decide +kernel

/-- A frame for the file, and one for the null blocks. -/
def emptyFileWorld : World :=
  { nullWorld with
    files := emptyFileFiles
    unused := nullWorld.unused
    mappable_fits := by
      intro id _
      change (if id = ⟨0, 1⟩ then emptyFileArchive.bytes else [0]).length + 4096 ≤ 2 ^ 64
      split
      · rw [length_emptyFileArchive]
        decide
      · decide
    stdinReads_eq := fun _ _ => rfl
    stdinTerminal_lines := nullWorld.stdinTerminal_lines
    replies := nullReplies ++
      [some ⟨0, [], 0⟩, some ⟨0, [], 0⟩, some ⟨1024, [], 15⟩, some ⟨0, nullFrame, 0⟩] }

theorem emptyFileWorld_unfailing : emptyFileWorld.Unfailing where
  files := fun _ => rfl
  stdin := rfl
  memory := fun _ => ⟨_, rfl⟩
  replies := by decide
  writes := rfl

theorem emptyFileWorld_main : ∃ report, emptyFileWorld.main [tarName] = some report := by
  have hplan : emptyFileWorld.plan [tarName] = .ok nullPlan := rfl
  have hsource : emptyFileWorld.source nullPlan.invocation = .ok (.mapped ⟨0, 1⟩) := by
    decide +kernel
  obtain ⟨a, ha, hreturns, hrun⟩ : ∃ a, emptyFileWorld.attempt
      (nullPlan.invocation.context (.inr rfl)) (.mapped emptyFileArchive.bytes) = some a ∧
      a.returns = true ∧
      ((Writer.init false emptyFileWorld.replies).run emptyFileWorld.host
        a.calls).toOption.isSome = true := by
    decide +kernel
  obtain ⟨w, hw⟩ : ∃ w, (Writer.init false emptyFileWorld.replies).run emptyFileWorld.host
      a.calls = .ok w := by
    cases hcalls : (Writer.init false emptyFileWorld.replies).run emptyFileWorld.host a.calls with
    | error e =>
        rw [hcalls] at hrun
        cases hrun
    | ok w => exact ⟨w, rfl⟩
  have hdone : Completed emptyFileWorld nullPlan (.mapped ⟨0, 1⟩)
      ⟨emptyFileFiles.put (getOutFilename tarName) ⟨0, 3⟩ [], .file (getOutFilename tarName), true⟩
      [(.c_compressionLevel, 3), (.c_checksumFlag, 1)] a w :=
    ⟨rfl, rfl, ha, hreturns, hw⟩
  have hmain : emptyFileWorld.main [tarName] = emptyFileWorld.compressFile nullPlan := by
    simp only [main, hplan]
  exact ⟨_, hmain.trans (compressFile_completed hsource rfl rfl hdone rfl)⟩

theorem emptyFileWorld_source {i : Invocation 64} (hi : parseArgs 64 64 true [tarName] = .ok i) :
    emptyFileWorld.source i = .ok (.mapped ⟨0, 1⟩) := by
  obtain rfl : nullPlan.invocation = i := Except.ok.inj
    ((show parseArgs 64 64 true [tarName] = .ok nullPlan.invocation from rfl).symm.trans hi)
  decide +kernel

theorem emptyFileWorld_holds {i : Invocation 64} {content : List UInt8}
    (hi : parseArgs 64 64 true [tarName] = .ok i) (h : emptyFileWorld.Holds i content) :
    content = emptyFileArchive.bytes := by
  obtain rfl : nullPlan.invocation = i := Except.ok.inj
    ((show parseArgs 64 64 true [tarName] = .ok nullPlan.invocation from rfl).symm.trans hi)
  cases h with
  | stdin mode => cases mode
  | mapped id found =>
      cases found
      rfl
  | redirected id found =>
      cases found
      rfl

theorem main_accepts_emptyFile :
    ∃ report, emptyFileWorld.main [tarName] = some report ∧
      (report.ending = .success ∨ ∃ r, report.ending = .refused r) := by
  obtain ⟨report, hmain⟩ := emptyFileWorld_main
  refine ⟨report, hmain, main_accepts rfl emptyFileWorld_unfailing hmain ?_ ?_⟩
  · intro i content hi hholds
    obtain rfl := emptyFileWorld_holds hi hholds
    refine .inr ⟨by rw [length_emptyFileArchive]; decide, emptyFileArchive, ?_, rfl⟩
    intro m hm p hp
    rw [List.mem_singleton.mp hm] at hp
    cases hp
  · intro i hi hexhausted
    exact absurd hexhausted
      (not_exhausted (emptyFileWorld_source hi) fun _ hkind => nomatch hkind)

end World

end T2sz
