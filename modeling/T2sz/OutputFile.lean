import T2sz.FrameLog
import T2sz.Process

/-!
All or nothing: what a run leaves at the path of its output.

A run goes through four phases. Before the output is opened the path is as it
was. While the output is open the file and the buffer hold a part of the archive.
A run that aborts has the partial output on record and may remove it. At the end
the output is gone or complete.
-/

namespace T2sz

/-- The file holds the whole archive, and was closed without an error. -/
def Complete (job : Job) (p : Process) : Prop := p.node = .regular job.archive ∧ p.closed = true

/-- What is promised of a process that has ended. -/
structure Kept (job : Job) (p : Process) : Prop where
  whole : job.initial ≠ .other → p.opened = true → p.node = .absent ∨ Complete job p
  untouched : p.opened = false → p.node = job.initial
  special : job.initial = .other → p.node = .other

/-- A step that leaves a partial output which nothing will remove: a signal in
front of the statement that records it, or a failure or a signal while it is
open where the directory does not let it be removed. -/
def Harmful (job : Job) (p : Process) (e : Outcome) : Prop :=
  p.regular = true ∧ p.opened = true ∧ p.closed = false ∧
    ((p.point = .setOutput ∧ ∃ sig, e = .signal sig) ∨
      (job.directoryWritable = false ∧ ∀ n, e ≠ .succeeds n))

/-- No step of the run is harmful. -/
def Unharmed (job : Job) : Process → List Outcome → Prop
  | _, [] => True
  | p, e :: rest => ¬ Harmful job p e ∧ ∀ q, p.step job e = some q → Unharmed job q rest

/-- Whether an output at this path is removed when the run fails. -/
def Job.removable (job : Job) : Bool := job.initial != .other

/-- The output is not opened yet, or never will be. -/
structure Before (job : Job) (p : Process) : Prop where
  node : p.node = job.initial
  opened : p.opened = false
  closed : p.closed = false
  partialOutput : p.partialOutput = false
  partialFile : p.partialFile = false
  buffer : p.buffer = []

def bothSignals : List Signal := [.SIGINT, .SIGTERM]

/-- From the installation of the handlers on. -/
structure Guarded (job : Job) (p : Process) : Prop where
  registered : p.registered = true
  installed : p.installed = bothSignals
  regular : p.regular = job.removable

/-- The output is open, and `rest` is still to be written. -/
structure Open (job : Job) (rest : List Action) (p : Process) : Prop extends Guarded job p where
  opened : p.opened = true
  closed : p.closed = false
  content : p.regular = true → ∃ content, p.node = .regular content ∧
    content ++ p.buffer ++ rest.flatMap Action.bytes = job.archive
  special : p.regular = false → p.node = .other

/-- The output is still there, on record, and can be removed. -/
structure Aborting (job : Job) (p : Process) : Prop extends Guarded job p where
  opened : p.opened = true
  recorded : p.partialOutput = p.regular
  content : p.regular = true → job.directoryWritable = true ∧ ∃ content, p.node = .regular content
  special : p.regular = false → p.node = .other

/-- The output is gone or complete. -/
structure Settled (job : Job) (p : Process) : Prop extends Guarded job p where
  opened : p.opened = true
  recorded : p.partialOutput = true → p.regular = true
  content : p.regular = true →
    (p.node = .absent ∧ job.directoryWritable = true) ∨ (Complete job p ∧ p.buffer = [])
  special : p.regular = false → p.node = .other

/-- The run ends, with nothing left to write. -/
inductive Ending (job : Job) (p : Process) : Prop
  | before (h : Before job p)
  | aborting (h : Aborting job p)
  | settled (h : Settled job p)

/-- The phase the process is in at each statement. -/
def Phase (job : Job) (p : Process) : Prop :=
  match p.point with
  | .start | .register => Before job p
  | .install .SIGINT => Before job p ∧ p.registered = true
  | .install .SIGTERM => Before job p ∧ p.registered = true ∧ p.installed = [.SIGINT]
  | .prepareInput | .lstat =>
      Before job p ∧ p.registered = true ∧ p.installed = bothSignals
  | .fopen => Before job p ∧ Guarded job p
  | .setOutput => Open job job.actions p ∧ p.partialOutput = false ∧ p.regular = true
  | .setFile => Open job job.actions p ∧ p.partialOutput = p.regular
  | .work rest => Open job rest p ∧ p.partialOutput = p.regular
  | .clearFile | .fclose => Open job [] p ∧ p.partialOutput = p.regular
  | .clearOutput => Settled job p
  | .exit | .handler => Ending job p
  | .closePartial | .remove => Ending job p ∧ p.partialOutput = true
  | .raise | .ended => Before job p ∨ Settled job p

section Steps

variable {job : Job} {p q : Process} {rest : List Action}

/-- Setting the next statement keeps what the phases say. -/
theorem Before.goto (h : Before job p) (point : Point) : Before job { p with point := point } :=
  ⟨h.node, h.opened, h.closed, h.partialOutput, h.partialFile, h.buffer⟩

theorem Aborting.goto (h : Aborting job p) (point : Point) :
    Aborting job { p with point := point } :=
  ⟨⟨h.registered, h.installed, h.regular⟩, h.opened, h.recorded, h.content, h.special⟩

theorem Settled.goto (h : Settled job p) (point : Point) : Settled job { p with point := point } :=
  ⟨⟨h.registered, h.installed, h.regular⟩, h.opened, h.recorded, h.content, h.special⟩

theorem Ending.goto (h : Ending job p) (point : Point) : Ending job { p with point := point } := by
  cases h with
  | before h => exact .before (h.goto point)
  | aborting h => exact .aborting (h.goto point)
  | settled h => exact .settled (h.goto point)

theorem Open.goto (h : Open job rest p) (point : Point) : Open job rest { p with point := point } :=
  ⟨⟨h.registered, h.installed, h.regular⟩, h.opened, h.closed, h.content, h.special⟩

/-- An output that is on record can be removed. -/
theorem Open.abort (h : Open job rest p) (hrecorded : p.partialOutput = p.regular)
    (hdir : p.regular = true → job.directoryWritable = true) : Aborting job p :=
  ⟨h.toGuarded, h.opened, hrecorded, fun hregular => ⟨hdir hregular, by
    obtain ⟨content, hnode, -⟩ := h.content hregular
    exact ⟨content, hnode⟩⟩, h.special⟩

/-- What is flushed stays in front of what is left. -/
theorem Open.flush (h : Open job rest p) (n : Nat) : Open job rest (p.flush n) := by
  refine ⟨⟨h.registered, h.installed, h.regular⟩, h.opened, h.closed, ?_, ?_⟩
  · intro hregular
    obtain ⟨content, hnode, hcontent⟩ := h.content hregular
    refine ⟨content ++ p.buffer.take n, by simp [Process.flush, hnode], ?_⟩
    rw [← hcontent]
    simp only [Process.flush, List.append_assoc]
    rw [← List.append_assoc (p.buffer.take n), List.take_append_drop]
  · intro hother
    simp [Process.flush, h.special hother]

theorem Aborting.flush (h : Aborting job p) (n : Nat) : Aborting job (p.flush n) := by
  refine ⟨⟨h.registered, h.installed, h.regular⟩, h.opened, h.recorded, ?_, ?_⟩
  · intro hregular
    obtain ⟨hdir, content, hnode⟩ := h.content hregular
    exact ⟨hdir, content ++ p.buffer.take n, by simp [Process.flush, hnode]⟩
  · intro hother
    simp [Process.flush, h.special hother]

theorem Settled.flush (h : Settled job p) (n : Nat) : Settled job (p.flush n) := by
  refine ⟨⟨h.registered, h.installed, h.regular⟩, h.opened, h.recorded, ?_, ?_⟩
  · intro hregular
    cases h.content hregular with
    | inl habsent => exact .inl ⟨by simp [Process.flush, habsent.1], habsent.2⟩
    | inr hcomplete =>
        refine .inr ⟨⟨?_, hcomplete.1.2⟩, by simp [Process.flush, hcomplete.2]⟩
        simp [Process.flush, hcomplete.1.1, hcomplete.2]
  · intro hother
    simp [Process.flush, h.special hother]

/-- Removing a regular file settles the run. -/
theorem Guarded.unlink (h : Guarded job p) (hopened : p.opened = true) (hregular : p.regular = true)
    (hdir : job.directoryWritable = true) : Settled job (p.unlink job) := by
  rw [Process.unlink, if_pos hdir]
  refine ⟨⟨h.registered, h.installed, h.regular⟩, hopened, fun _ => hregular,
    fun _ => .inl ⟨rfl, hdir⟩, ?_⟩
  intro hother
  rw [show p.regular = false from hother] at hregular
  cases hregular

theorem Aborting.unlink (h : Aborting job p) (hrecorded : p.partialOutput = true) :
    Settled job (p.unlink job) := by
  have hregular : p.regular = true := h.recorded ▸ hrecorded
  exact h.toGuarded.unlink h.opened hregular (h.content hregular).1

theorem Settled.unlink (h : Settled job p) (hrecorded : p.partialOutput = true) :
    Settled job (p.unlink job) := by
  by_cases hdir : job.directoryWritable = true
  · exact h.toGuarded.unlink h.opened (h.recorded hrecorded) hdir
  · rw [Process.unlink, if_neg hdir]
    exact h

theorem Aborting.settled (h : Aborting job p) (hrecorded : p.partialOutput = false) :
    Settled job p := by
  have hregular : p.regular = false := h.recorded ▸ hrecorded
  refine ⟨h.toGuarded, h.opened, ?_, ?_, h.special⟩
  · intro hp
    rw [hrecorded] at hp
    cases hp
  · intro hp
    rw [hregular] at hp
    cases hp

/-- A run that ends has an output on record only after it was opened. -/
theorem Ending.registered (h : Ending job p) (hrecorded : p.partialOutput = true) :
    p.registered = true := by
  cases h with
  | before h =>
      rw [h.partialOutput] at hrecorded
      cases hrecorded
  | aborting h => exact h.toGuarded.registered
  | settled h => exact h.toGuarded.registered

theorem Ending.unlink (h : Ending job p) (hrecorded : p.partialOutput = true) :
    Settled job (p.unlink job) := by
  cases h with
  | before h =>
      rw [h.partialOutput] at hrecorded
      cases hrecorded
  | aborting h => exact h.unlink hrecorded
  | settled h => exact h.unlink hrecorded

theorem Ending.flush (h : Ending job p) (hrecorded : p.partialOutput = true) (n : Nat) :
    Ending job (p.flush n) := by
  cases h with
  | before h =>
      rw [h.partialOutput] at hrecorded
      cases hrecorded
  | aborting h => exact .aborting (h.flush n)
  | settled h => exact .settled (h.flush n)

/-- Without one there is nothing to be removed. -/
theorem Ending.unrecorded (h : Ending job p) (hrecorded : p.partialOutput = false) :
    Before job p ∨ Settled job p := by
  cases h with
  | before h => exact .inl h
  | aborting h => exact .inr (h.settled hrecorded)
  | settled h => exact .inr h

/-- A signal is handled, once the handlers are installed. -/
theorem Guarded.deliver (h : Guarded job p) (hend : p.point ≠ .ended) (sig : Signal) :
    p.deliver sig = some { p with point := .handler } := by
  have hmem : sig ∈ p.installed := by
    rw [h.installed]
    cases sig <;> decide
  rw [Process.deliver, if_neg hend, if_pos hmem]

theorem Before.deliver (h : Before job p) {sig : Signal} (hs : p.deliver sig = some q) :
    Phase job q := by
  rw [Process.deliver] at hs
  split at hs
  case isTrue => cases hs
  case isFalse =>
    cases hs
    split
    · exact .before (h.goto _)
    · exact .inl (h.goto _)

theorem Ending.deliver (h : Ending job p) (hend : p.point ≠ .ended) {sig : Signal}
    (hs : p.deliver sig = some q) : Phase job q := by
  cases h with
  | before h => exact h.deliver hs
  | aborting h =>
      rw [h.toGuarded.deliver hend sig] at hs
      cases hs
      exact .aborting (h.goto _)
  | settled h =>
      rw [h.toGuarded.deliver hend sig] at hs
      cases hs
      exact .settled (h.goto _)

/-- While the output is open, a step that is not harmful may abort the run. -/
theorem Open.unharmed {e : Outcome} (h : Open job rest p) (hharm : ¬ Harmful job p e)
    (he : ∀ n, e ≠ .succeeds n) (hregular : p.regular = true) : job.directoryWritable = true := by
  by_contra hdir
  exact hharm ⟨hregular, h.opened, h.closed, .inr ⟨by simpa using hdir, he⟩⟩

theorem Phase.deliver {sig : Signal} (h : Phase job p) (hharm : ¬ Harmful job p (.signal sig))
    (hs : p.deliver sig = some q) : Phase job q := by
  have hopen : ∀ {rest : List Action}, Open job rest p → p.partialOutput = p.regular →
      p.point ≠ .ended → Phase job q := by
    intro rest ho hrecorded hend
    have habort := ho.abort hrecorded (ho.unharmed hharm fun _ h => by cases h)
    exact Ending.deliver (.aborting habort) hend hs
  cases hpoint : p.point <;> simp only [Phase, hpoint] at h
  case start => exact h.deliver hs
  case register => exact h.deliver hs
  case install first =>
    cases first with
    | SIGINT => exact Before.deliver h.1 hs
    | SIGTERM => exact Before.deliver h.1 hs
  case prepareInput => exact h.1.deliver hs
  case lstat => exact h.1.deliver hs
  case fopen => exact h.1.deliver hs
  case setOutput =>
    exact absurd ⟨h.2.2, h.1.opened, h.1.closed, .inl ⟨hpoint, sig, rfl⟩⟩ hharm
  case setFile => exact hopen h.1 h.2 (by simp [hpoint])
  case work rest => exact hopen h.1 h.2 (by simp [hpoint])
  case clearFile => exact hopen h.1 h.2 (by simp [hpoint])
  case fclose => exact hopen h.1 h.2 (by simp [hpoint])
  case clearOutput => exact Ending.deliver (.settled h) (by simp [hpoint]) hs
  case exit => exact h.deliver (by simp [hpoint]) hs
  case closePartial => exact h.1.deliver (by simp [hpoint]) hs
  case remove => exact h.1.deliver (by simp [hpoint]) hs
  case handler => exact h.deliver (by simp [hpoint]) hs
  case raise =>
    cases h with
    | inl hbefore => exact hbefore.deliver hs
    | inr hsettled => exact Ending.deliver (.settled hsettled) (by simp [hpoint]) hs
  case ended =>
    rw [Process.deliver, if_pos hpoint] at hs
    cases hs

theorem Phase.fail {n : Nat} (h : Phase job p) (hharm : ¬ Harmful job p (.fails n))
    (hs : p.fail n = some q) : Phase job q := by
  have hopen : ∀ {rest : List Action}, Open job rest p → p.partialOutput = p.regular →
      Aborting job p := fun ho hrecorded =>
    ho.abort hrecorded (ho.unharmed hharm fun _ h => by cases h)
  cases hpoint : p.point <;> simp only [Phase, hpoint] at h <;>
    simp only [Process.fail, hpoint] at hs
  case start =>
    cases hs
    exact .before (h.goto _)
  case prepareInput =>
    cases hs
    exact .before (h.1.goto _)
  case fopen =>
    cases hs
    exact .before (h.1.goto _)
  case work rest =>
    cases rest with
    | nil => cases hs
    | cons action rest =>
        have habort := hopen h.1 h.2
        cases action with
        | call =>
            cases hs
            exact .aborting (habort.goto _)
        | write buf =>
            cases hs
            have hbuffer : Aborting job { p with buffer := p.buffer ++ buf } :=
              ⟨⟨habort.registered, habort.installed, habort.regular⟩, habort.opened,
                habort.recorded, habort.content, habort.special⟩
            exact .aborting ((hbuffer.flush n).goto _)
  case fclose =>
    cases hs
    exact .aborting (((hopen h.1 h.2).flush n).goto _)
  all_goals cases hs

/-- `fopen` has created or truncated the file. -/
theorem Before.fopen (h : Before job p) (hguarded : Guarded job p) (point : Point) :
    Open job job.actions { p with
      node := if p.node = .other then .other else .regular []
      opened := true
      point := point } := by
  refine ⟨⟨hguarded.registered, hguarded.installed, hguarded.regular⟩, rfl, h.closed, ?_, ?_⟩
  · intro hregular
    have hnode : p.node ≠ .other := by
      rw [hguarded.regular, Job.removable, ← h.node, bne_iff_ne] at hregular
      exact hregular
    refine ⟨[], if_neg hnode, ?_⟩
    rw [show p.buffer = [] from h.buffer]
    rfl
  · intro hother
    have hnode : p.node = .other := by
      rw [hguarded.regular, Job.removable, ← h.node, bne_eq_false_iff_eq] at hother
      exact hother
    exact if_pos hnode

/-- The last bytes are written, and nothing is left. -/
theorem Open.fclose (h : Open job [] p) (hrecorded : p.partialOutput = p.regular) (point : Point) :
    Settled job { p.flush p.buffer.length with closed := true, point := point } := by
  refine ⟨⟨h.registered, h.installed, h.regular⟩, h.opened, ?_, ?_, ?_⟩
  · intro hp
    exact hrecorded ▸ hp
  · intro hregular
    obtain ⟨content, hnode, hcontent⟩ := h.content hregular
    rw [List.flatMap_nil, List.append_nil] at hcontent
    refine .inr ⟨⟨?_, rfl⟩, ?_⟩
    · simp [Process.flush, hnode, hcontent]
    · simp [Process.flush]
  · intro hother
    simp [Process.flush, h.special hother]

/-- What `fwrite` takes is behind what it took before. -/
theorem Open.write {buf : List UInt8} (h : Open job (.write buf :: rest) p) :
    Open job rest { p with buffer := p.buffer ++ buf } := by
  refine ⟨⟨h.registered, h.installed, h.regular⟩, h.opened, h.closed, ?_, h.special⟩
  intro hregular
  obtain ⟨content, hnode, hcontent⟩ := h.content hregular
  refine ⟨content, hnode, ?_⟩
  rw [← hcontent, List.flatMap_cons, Action.bytes]
  simp only [List.append_assoc]

/-- An output that is a regular file goes on record next. -/
theorem Before.opens {n : Nat} (h : Before job p) (hguarded : Guarded job p)
    (hpoint : p.point = .fopen) (hs : p.succeed job n = some q) : Phase job q := by
  simp only [Process.succeed, hpoint] at hs
  split at hs
  case isTrue => cases hs
  case isFalse =>
    have hopen := h.fopen hguarded
    generalize hnext :
      (if p.regular = true then Point.setOutput else .work job.actions) = next at hs
    cases hs
    by_cases hregular : p.regular = true
    · rw [if_pos hregular] at hnext
      subst hnext
      exact ⟨hopen _, h.partialOutput, hregular⟩
    · rw [if_neg hregular] at hnext
      subst hnext
      rw [Bool.not_eq_true] at hregular
      exact ⟨hopen _, h.partialOutput.trans hregular.symm⟩

theorem Open.works {n : Nat} (h : Open job rest p) (hrecorded : p.partialOutput = p.regular)
    (hpoint : p.point = .work rest) (hs : p.succeed job n = some q) : Phase job q := by
  simp only [Process.succeed, hpoint] at hs
  cases rest with
  | nil =>
      cases hs
      exact ⟨h.goto _, hrecorded⟩
  | cons action rest =>
      cases action with
      | call =>
          cases hs
          have hrest : Open job rest p :=
            ⟨h.toGuarded, h.opened, h.closed, h.content, h.special⟩
          exact ⟨hrest.goto _, hrecorded⟩
      | write buf =>
          cases hs
          exact ⟨(h.write.flush n).goto _, hrecorded⟩

/-- `exit` removes what is on record, and nothing else. -/
theorem Ending.exits {n : Nat} (h : Ending job p) (hpoint : p.point = .exit)
    (hs : p.succeed job n = some q) : Phase job q := by
  simp only [Process.succeed, hpoint] at hs
  generalize hnext : (if (p.registered && p.partialOutput) = true then
    if p.partialFile = true then Point.closePartial else .remove else .ended) = next at hs
  cases hs
  by_cases hrecorded : p.partialOutput = true
  · rw [h.registered hrecorded, hrecorded, if_pos (by decide)] at hnext
    split at hnext
    · subst hnext
      exact ⟨h.goto _, hrecorded⟩
    · subst hnext
      exact ⟨h.goto _, hrecorded⟩
  · rw [Bool.not_eq_true] at hrecorded
    rw [hrecorded, Bool.and_false, if_neg Bool.false_ne_true] at hnext
    subst hnext
    exact (h.unrecorded hrecorded).imp (Before.goto · _) (Settled.goto · _)

theorem Ending.handles {n : Nat} (h : Ending job p) (hpoint : p.point = .handler)
    (hs : p.succeed job n = some q) : Phase job q := by
  simp only [Process.succeed, hpoint] at hs
  cases hrecorded : p.partialOutput with
  | false =>
      rw [hrecorded] at hs
      cases hs
      exact (h.unrecorded hrecorded).imp (Before.goto · _) (Settled.goto · _)
  | true =>
      rw [hrecorded] at hs
      cases hs
      exact .inr ((h.unlink hrecorded).goto _)

theorem Phase.succeed {n : Nat} (h : Phase job p) (hs : p.succeed job n = some q) :
    Phase job q := by
  have hstep := hs
  cases hpoint : p.point <;> simp only [Phase, hpoint] at h <;>
    simp only [Process.succeed, hpoint] at hs
  case start =>
    cases hs
    exact h.goto _
  case register =>
    cases hs
    exact ⟨⟨h.node, h.opened, h.closed, h.partialOutput, h.partialFile, h.buffer⟩, rfl⟩
  case install first =>
    cases first with
    | SIGINT =>
        cases hs
        exact ⟨⟨h.1.node, h.1.opened, h.1.closed, h.1.partialOutput, h.1.partialFile, h.1.buffer⟩,
          h.2, rfl⟩
    | SIGTERM =>
        cases hs
        exact ⟨⟨h.1.node, h.1.opened, h.1.closed, h.1.partialOutput, h.1.partialFile, h.1.buffer⟩,
          h.2.1, rfl⟩
  case prepareInput =>
    cases hs
    exact ⟨h.1.goto _, h.2⟩
  case lstat =>
    cases hs
    refine ⟨⟨h.1.node, h.1.opened, h.1.closed, h.1.partialOutput, h.1.partialFile, h.1.buffer⟩,
      h.2.1, h.2.2, ?_⟩
    show (p.node != .other) = job.removable
    rw [h.1.node, Job.removable]
  case fopen => exact h.1.opens h.2 hpoint hstep
  case setOutput =>
    cases hs
    exact ⟨⟨⟨h.1.registered, h.1.installed, h.1.regular⟩, h.1.opened, h.1.closed, h.1.content,
      h.1.special⟩, h.2.2.symm⟩
  case setFile =>
    cases hs
    exact ⟨⟨⟨h.1.registered, h.1.installed, h.1.regular⟩, h.1.opened, h.1.closed, h.1.content,
      h.1.special⟩, h.2⟩
  case work rest => exact h.1.works h.2 hpoint hstep
  case clearFile =>
    cases hs
    exact ⟨⟨⟨h.1.registered, h.1.installed, h.1.regular⟩, h.1.opened, h.1.closed, h.1.content,
      h.1.special⟩, h.2⟩
  case fclose =>
    cases hs
    exact h.1.fclose h.2 _
  case clearOutput =>
    cases hs
    refine .settled ⟨⟨h.registered, h.installed, h.regular⟩, h.opened, ?_, h.content, h.special⟩
    intro hp
    cases hp
  case exit => exact h.exits hpoint hstep
  case closePartial =>
    cases hs
    exact ⟨(h.1.flush h.2 n).goto _, h.2⟩
  case remove =>
    cases hs
    exact .inr ((h.1.unlink h.2).goto _)
  case handler => exact h.handles hpoint hstep
  case raise =>
    cases hs
    exact Or.imp (Before.goto · _) (Settled.goto · _) h
  case ended => cases hs

theorem Phase.step {e : Outcome} (h : Phase job p) (hharm : ¬ Harmful job p e)
    (hs : p.step job e = some q) : Phase job q := by
  cases e with
  | succeeds n => exact h.succeed hs
  | fails n => exact h.fail hharm hs
  | signal sig => exact h.deliver hharm hs

/-- A process that has ended has kept the promise. -/
theorem Phase.kept (h : Phase job p) (hend : p.point = .ended) : Kept job p := by
  simp only [Phase, hend] at h
  cases h with
  | inl hbefore =>
      refine ⟨?_, fun _ => hbefore.node, ?_⟩
      · intro _ hopened
        rw [hbefore.opened] at hopened
        cases hopened
      · intro hinitial
        rw [hbefore.node, hinitial]
  | inr hsettled =>
      refine ⟨?_, ?_, ?_⟩
      · intro hinitial _
        have hregular : p.regular = true := by
          rw [hsettled.regular, Job.removable, bne_iff_ne]
          exact hinitial
        exact (hsettled.content hregular).imp And.left And.left
      · intro hopened
        rw [hsettled.opened] at hopened
        cases hopened
      · intro hinitial
        apply hsettled.special
        rw [hsettled.regular, Job.removable, hinitial]
        rfl

end Steps

/-- The run is ending. -/
def Point.late : Point → Bool
  | .exit | .closePartial | .remove | .handler | .raise | .ended => true
  | _ => false

/-- A partial output that is not on record, or that cannot be removed. -/
structure Doomed (job : Job) (p : Process) : Prop where
  late : p.point.late = true
  initial : job.initial ≠ .other
  opened : p.opened = true
  closed : p.closed = false
  content : ∃ content, p.node = .regular content
  stuck : p.partialOutput = false ∨ job.directoryWritable = false
  recorded : p.point = .closePartial ∨ p.point = .remove → p.partialOutput = true

section Harm

variable {job : Job} {p q : Process} {e : Outcome}

theorem Doomed.goto (h : Doomed job p) {point : Point} (hlate : point.late = true)
    (hrecorded : point = .closePartial ∨ point = .remove → p.partialOutput = true) :
    Doomed job { p with point := point } :=
  ⟨hlate, h.initial, h.opened, h.closed, h.content, h.stuck, hrecorded⟩

theorem Doomed.flush (h : Doomed job p) (n : Nat) : Doomed job (p.flush n) := by
  obtain ⟨content, hnode⟩ := h.content
  exact ⟨h.late, h.initial, h.opened, h.closed,
    ⟨content ++ p.buffer.take n, by simp [Process.flush, hnode]⟩, h.stuck, h.recorded⟩

/-- Nothing removes it. -/
theorem Doomed.unlink (h : Doomed job p) (hrecorded : p.partialOutput = true) :
    p.unlink job = p := by
  cases h.stuck with
  | inl hstuck =>
      rw [hstuck] at hrecorded
      cases hrecorded
  | inr hstuck => rw [Process.unlink, hstuck, if_neg Bool.false_ne_true]

/-- It is the file of an open output, when the run ends early. -/
theorem Open.doomed {rest : List Action} (h : Open job rest p) (hregular : p.regular = true)
    (hstuck : p.partialOutput = false ∨ job.directoryWritable = false) {point : Point}
    (hpoint : point = .exit ∨ point = .handler) : Doomed job { p with point := point } := by
  obtain ⟨content, hnode, -⟩ := h.content hregular
  rw [h.regular, Job.removable, bne_iff_ne] at hregular
  cases hpoint with
  | inl hpoint =>
      subst hpoint
      exact ⟨rfl, hregular, h.opened, h.closed, ⟨content, hnode⟩, hstuck, by simp⟩
  | inr hpoint =>
      subst hpoint
      exact ⟨rfl, hregular, h.opened, h.closed, ⟨content, hnode⟩, hstuck, by simp⟩

theorem Doomed.deliver {sig : Signal} (h : Doomed job p) (hs : p.deliver sig = some q) :
    Doomed job q := by
  rw [Process.deliver] at hs
  split at hs
  case isTrue => cases hs
  case isFalse =>
    cases hs
    split
    · exact h.goto rfl (by simp)
    · exact h.goto rfl (by simp)

theorem Doomed.succeed {n : Nat} (h : Doomed job p) (hs : p.succeed job n = some q) :
    Doomed job q := by
  have hlate := h.late
  have hrecorded := h.recorded
  cases hpoint : p.point <;> rw [hpoint] at hlate hrecorded <;>
    simp only [Process.succeed, hpoint] at hs
  case exit =>
    generalize hnext : (if (p.registered && p.partialOutput) = true then
      if p.partialFile = true then Point.closePartial else .remove else .ended) = next at hs
    cases hs
    split at hnext
    case isTrue hp =>
      rw [Bool.and_eq_true] at hp
      split at hnext
      · subst hnext
        exact h.goto rfl fun _ => hp.2
      · subst hnext
        exact h.goto rfl fun _ => hp.2
    case isFalse =>
      subst hnext
      exact h.goto rfl (by simp)
  case closePartial =>
    cases hs
    exact (h.flush n).goto rfl fun _ => hrecorded (.inl rfl)
  case remove =>
    cases hs
    rw [h.unlink (hrecorded (.inr rfl))]
    exact h.goto rfl (by simp)
  case handler =>
    cases hs
    split
    case isTrue hp =>
      rw [h.unlink hp]
      exact h.goto rfl (by simp)
    case isFalse => exact h.goto rfl (by simp)
  case raise =>
    cases hs
    exact h.goto rfl (by simp)
  all_goals cases hlate
  cases hs

theorem Doomed.fail {n : Nat} (h : Doomed job p) : p.fail n = none := by
  have hlate := h.late
  cases hpoint : p.point <;> rw [hpoint] at hlate <;> simp only [Process.fail, hpoint]
  all_goals cases hlate

theorem Doomed.step (h : Doomed job p) (hs : p.step job e = some q) : Doomed job q := by
  cases e with
  | succeeds n => exact h.succeed hs
  | fails n =>
      rw [Process.step, h.fail] at hs
      cases hs
  | signal sig => exact h.deliver hs

/-- What a failure does to the output. -/
theorem fail_cases {n : Nat} (hs : p.fail n = some q) :
    q = { p with point := .exit } ∨
    ∃ buffer, q = { ({ p with buffer := buffer } : Process).flush n with point := .exit } := by
  cases hpoint : p.point <;> simp only [Process.fail, hpoint] at hs
  case start => exact .inl (Option.some.inj hs).symm
  case prepareInput => exact .inl (Option.some.inj hs).symm
  case fopen => exact .inl (Option.some.inj hs).symm
  case work rest =>
    cases rest with
    | nil => cases hs
    | cons action rest =>
        cases action with
        | call => exact .inl (Option.some.inj hs).symm
        | write buf => exact .inr ⟨p.buffer ++ buf, (Option.some.inj hs).symm⟩
  case fclose => exact .inr ⟨p.buffer, (Option.some.inj hs).symm⟩
  all_goals cases hs

/-- A harmful step is taken while the output is open. -/
theorem Phase.harmful_open (h : Phase job p) (hharm : Harmful job p e) :
    ∃ rest, Open job rest p ∧ p.point ≠ .ended ∧
      (p.point = .setOutput → p.partialOutput = false) := by
  obtain ⟨hregular, hopened, hclosed, hcause⟩ := hharm
  have hbefore : ¬ Before job p := by
    intro hb
    rw [hb.opened] at hopened
    cases hopened
  have hdir (hpoint : p.point ≠ .setOutput) : job.directoryWritable = false := by
    cases hcause with
    | inl hset => exact absurd hset.1 hpoint
    | inr hdir => exact hdir.1
  have hsettled (hpoint : p.point ≠ .setOutput) : ¬ Settled job p := by
    intro hc
    cases hc.content hregular with
    | inl habsent =>
        have hwritable := habsent.2
        rw [hdir hpoint] at hwritable
        cases hwritable
    | inr hcomplete =>
        rw [hcomplete.1.2] at hclosed
        cases hclosed
  have hending (hpoint : p.point ≠ .setOutput) : ¬ Ending job p := by
    intro hc
    cases hc with
    | before hc => exact hbefore hc
    | aborting hc =>
        have hwritable := (hc.content hregular).1
        rw [hdir hpoint] at hwritable
        cases hwritable
    | settled hc => exact hsettled hpoint hc
  cases hpoint : p.point <;> simp only [Phase, hpoint] at h <;>
    simp only [hpoint, ne_eq, reduceCtorEq, not_false_eq_true, forall_const] at hending hsettled
  case start => exact absurd h hbefore
  case register => exact absurd h hbefore
  case install first =>
    cases first with
    | SIGINT => exact absurd h.1 hbefore
    | SIGTERM => exact absurd h.1 hbefore
  case prepareInput => exact absurd h.1 hbefore
  case lstat => exact absurd h.1 hbefore
  case fopen => exact absurd h.1 hbefore
  case setOutput => exact ⟨_, h.1, by simp, fun _ => h.2.1⟩
  case setFile => exact ⟨_, h.1, by simp, by simp⟩
  case work rest => exact ⟨_, h.1, by simp, by simp⟩
  case clearFile => exact ⟨_, h.1, by simp, by simp⟩
  case fclose => exact ⟨_, h.1, by simp, by simp⟩
  case clearOutput => exact absurd h hsettled
  case exit => exact absurd h hending
  case closePartial => exact absurd h.1 hending
  case remove => exact absurd h.1 hending
  case handler => exact absurd h hending
  case raise => exact absurd h (by simp [hbefore, hsettled])
  case ended => exact absurd h (by simp [hbefore, hsettled])

/-- It leaves the output behind. -/
theorem Phase.doomed (h : Phase job p) (hharm : Harmful job p e) (hs : p.step job e = some q) :
    Doomed job q := by
  obtain ⟨rest, hopen, hend, hset⟩ := h.harmful_open hharm
  obtain ⟨hregular, -, -, hcause⟩ := hharm
  have hstuck : p.partialOutput = false ∨ job.directoryWritable = false :=
    hcause.imp (fun hc => hset hc.1) And.left
  cases e with
  | succeeds n =>
      cases hcause with
      | inl hset =>
          obtain ⟨-, sig, hsig⟩ := hset
          cases hsig
      | inr hdir => exact absurd rfl (hdir.2 n)
  | fails n =>
      have hexit := hopen.doomed hregular hstuck (.inl rfl)
      cases fail_cases hs with
      | inl hq =>
          subst hq
          exact hexit
      | inr hq =>
          obtain ⟨buffer, rfl⟩ := hq
          have hbuffer : Doomed job { p with point := .exit, buffer := buffer } :=
            ⟨hexit.late, hexit.initial, hexit.opened, hexit.closed, hexit.content, hexit.stuck,
              hexit.recorded⟩
          exact hbuffer.flush n
  | signal sig =>
      rw [Process.step, hopen.toGuarded.deliver hend sig] at hs
      cases hs
      exact hopen.doomed hregular hstuck (.inr rfl)

theorem Doomed.run {events : List Outcome} (h : Doomed job p) (hs : p.run job events = some q) :
    Doomed job q := by
  induction events generalizing p with
  | nil =>
      cases hs
      exact h
  | cons e events ih =>
      rw [Process.run, Option.bind_eq_some_iff] at hs
      obtain ⟨r, hstep, hrest⟩ := hs
      exact ih (h.step hstep) hrest

theorem Doomed.not_kept (h : Doomed job p) : ¬ Kept job p := by
  intro hkept
  obtain ⟨content, hnode⟩ := h.content
  cases hkept.whole h.initial h.opened with
  | inl habsent =>
      rw [hnode] at habsent
      cases habsent
  | inr hcomplete =>
      have hclosed := hcomplete.2
      rw [h.closed] at hclosed
      cases hclosed

end Harm

theorem phase_init (job : Job) : Phase job (.init job) := ⟨rfl, rfl, rfl, rfl, rfl, rfl⟩

theorem kept_iff_from {job : Job} {p q : Process} {events : List Outcome} (h : Phase job p)
    (hrun : p.run job events = some q) (hend : q.point = .ended) :
    Kept job q ↔ Unharmed job p events := by
  induction events generalizing p with
  | nil =>
      cases hrun
      exact ⟨fun _ => trivial, fun _ => h.kept hend⟩
  | cons e events ih =>
      rw [Process.run, Option.bind_eq_some_iff] at hrun
      obtain ⟨r, hstep, hrest⟩ := hrun
      by_cases hharm : Harmful job p e
      · have hdoomed := ((h.doomed hharm hstep).run hrest).not_kept
        exact ⟨fun hkept => absurd hkept hdoomed, fun hall => absurd hharm hall.1⟩
      · have hrest := ih (h.step hharm hstep) hrest
        refine ⟨fun hkept => ⟨hharm, ?_⟩, fun hall => hrest.mpr (hall.2 r hstep)⟩
        intro r' hr'
        rw [hstep, Option.some.injEq] at hr'
        subst hr'
        exact hrest.mp hkept

/-- A process that has ended has kept the promise exactly if none of its steps was
harmful. -/
theorem kept_iff_unharmed {job : Job} {events : List Outcome} {p : Process}
    (hrun : (Process.init job).run job events = some p) (hend : p.point = .ended) :
    Kept job p ↔ Unharmed job (.init job) events :=
  kept_iff_from (phase_init job) hrun hend

/-- A new file of one byte. -/
def oneByteJob : Job := ⟨.absent, true, [.write [0]]⟩

/-- A signal behind the creation of the file and in front of its record leaves an
empty file under the final name. -/
theorem unrecorded_output_kept :
    ∃ p, (Process.init oneByteJob).run oneByteJob
        (List.replicate 7 (.succeeds 0) ++ [.signal .SIGTERM, .succeeds 0, .succeeds 0]) = some p ∧
      p.point = .ended ∧ p.node = .regular [] ∧ ¬ Kept oneByteJob p := by
  refine ⟨_, rfl, rfl, rfl, ?_⟩
  intro hkept
  cases hkept.whole (by decide) rfl with
  | inl habsent => cases habsent
  | inr hcomplete => cases hcomplete.2

/-- A signal in front of the write, when the file is on record. -/
theorem kept_iff_unharmed_removed :
    ∃ p, (Process.init oneByteJob).run oneByteJob
        (List.replicate 9 (.succeeds 0) ++ [.signal .SIGTERM, .succeeds 0, .succeeds 0]) = some p ∧
      (Kept oneByteJob p ↔ Unharmed oneByteJob (.init oneByteJob)
        (List.replicate 9 (.succeeds 0) ++ [.signal .SIGTERM, .succeeds 0, .succeeds 0])) :=
  ⟨_, rfl, kept_iff_unharmed rfl rfl⟩

theorem flatMap_actions (events : List Event) :
    (events.flatMap Event.actions).flatMap Action.bytes = written events := by
  induction events with
  | nil => rfl
  | cons e events ih =>
      rw [List.flatMap_cons, List.flatMap_append, ih, written_cons]
      cases e with
      | reset => rfl
      | pledge size => rfl
      | stream mode offered answer => simp [Event.actions, Event.output, Action.bytes]

theorem flatMap_write (bufs : List (List UInt8)) :
    (bufs.map Action.write).flatMap Action.bytes = bufs.flatten := by
  induction bufs with
  | nil => rfl
  | cons buf bufs ih =>
      rw [List.map_cons, List.flatMap_cons, ih, List.flatten_cons]
      rfl

/-- The archive of a run: its frames and its table. -/
theorem Job.archive_ofWriter {initial : Node} {directoryWritable : Bool} {host : Host} {w : Writer}
    (houtFile : w.outFile = written w.events) :
    (Job.ofWriter initial directoryWritable host w).archive =
      cleanupCompression host w.table w.outFile := by
  rw [Job.archive, Job.ofWriter, List.flatMap_append, List.flatMap_append, flatMap_write,
    flatMap_actions, cleanupCompression, houtFile]
  rfl

/-- A run of the program that is not harmed keeps the promise, for its frames and its
table. -/
theorem run_kept {skip : Bool} {replies : List Reply} {calls : List Call} {host : Host}
    {w : Writer} (hcalls : Bracketed calls none)
    (hwriter : (Writer.init skip replies).run host calls = .ok w) {initial : Node}
    {directoryWritable : Bool} {events : List Outcome} {p : Process}
    (hrun : (Process.init (.ofWriter initial directoryWritable host w)).run
      (.ofWriter initial directoryWritable host w) events = some p) (hend : p.point = .ended)
    (hall : Unharmed (.ofWriter initial directoryWritable host w)
      (.init (.ofWriter initial directoryWritable host w)) events) :
    Kept (.ofWriter initial directoryWritable host w) p ∧
      (Job.ofWriter initial directoryWritable host w).archive =
        cleanupCompression host w.table w.outFile := by
  obtain ⟨segments, opened, hlogged, hnone⟩ := run_follows hcalls hwriter
  rw [Option.map_eq_none_iff] at hnone
  subst hnone
  have houtFile : w.outFile = written w.events := by
    rw [hlogged.outFile, hlogged.events, written_append, written_segments]
    rfl
  exact ⟨(kept_iff_from (phase_init _) hrun hend).mpr hall, Job.archive_ofWriter houtFile⟩

end T2sz
