import T2sz.Library.Descriptors
import T2sz.RoundTrip

/-!
The descriptors of `main`, whatever a caller has closed.

The table is followed from the first lines of `main`, which look after a closed
standard error, through what `prepareInput` and `prepareOutput` open, move and
close. Messages go to descriptor 2 and the loops read descriptor 0, so the
matter is that neither leads to the archive.
-/

namespace T2sz

open Descriptors Files

/-- What a descriptor leads to. -/
inductive Channel
  /-- What the program was started with. -/
  | inherited (fd : Nat)
  /-- `/dev/null`, to write to -/
  | null
  /-- The input, to read from -/
  | input (id : FileId)
  /-- The output, to write to -/
  | output (outFilename : CString)
  deriving DecidableEq

def STDIN_FILENO : Nat := 0
def STDOUT_FILENO : Nat := 1
def STDERR_FILENO : Nat := 2

/-- The first lines of `main`; `opens` tells whether `/dev/null` can be opened. -/
def redirectStderr (opens : Bool) (t : Table Channel) : Table Channel :=
  if (t.get STDERR_FILENO).isSome then t
  else if opens then
    let (fd, opened) := t.openFd .null
    if fd ≠ STDERR_FILENO then (opened.dup2 fd STDERR_FILENO).close fd else opened
  else t

/-- What `prepareInput` leaves when it returns; it is not called for standard input. -/
def Source.attach (t : Table Channel) : Source → Table Channel
  | .stdin => t
  | .mapped id =>
      let (fd, opened) := t.openFd (.input id)
      opened.close fd
  | .redirected id =>
      let (fd, opened) := t.openFd (.input id)
      if fd ≠ STDIN_FILENO then (opened.dup2 fd STDIN_FILENO).close fd else opened

/-- What `prepareOutput` opens: the descriptor of `outFile`. -/
def Destination.attach (t : Table Channel) : Destination → Nat × Table Channel
  | .stdout => (STDOUT_FILENO, t)
  | .file outFilename => t.openFd (.output outFilename)

/-- From the start of `main` to the loops. -/
def attach (opens : Bool) (source : Source) (d : Destination) (t : Table Channel) :
    Nat × Table Channel :=
  d.attach (source.attach (redirectStderr opens t))

/-- The descriptor is one that is opened for the input. -/
def Source.uses (source : Source) (fd : Nat) : Prop :=
  match source with
  | .redirected _ => fd = STDIN_FILENO
  | _ => False

def Destination.uses (d : Destination) (outFile fd : Nat) : Prop :=
  match d with
  | .stdout => False
  | .file _ => fd = outFile

/-- Where the descriptors lead when the loops start. -/
structure Attached (source : Source) (d : Destination) (t : Table Channel) (outFile : Nat)
    (t' : Table Channel) : Prop where
  /-- Messages go where they went, or nowhere. -/
  messages : t'.get STDERR_FILENO = some ((t.get STDERR_FILENO).getD .null)
  /-- A named input is read from, -/
  input : ∀ id, source = .redirected id → t'.get STDIN_FILENO = some (.input id)
  /-- and standard input if it is open; if it is closed there is nothing to read. -/
  stdin : source = .stdin → ∀ c, t'.get STDIN_FILENO = some c →
    t.get STDIN_FILENO = some c ∨ ∃ outFilename, c = .output outFilename
  /-- The archive is written to the output, and to nothing that was open, -/
  file : ∀ outFilename, d = .file outFilename →
    t'.get outFile = some (.output outFilename) ∧ outFile ≠ STDERR_FILENO ∧ t.get outFile = none
  /-- or to standard output, which stays closed if it is. -/
  stdout : d = .stdout → outFile = STDOUT_FILENO ∧ t'.get outFile = t.get STDOUT_FILENO
  /-- Nothing else is opened or closed. -/
  others : ∀ fd, fd ≠ STDERR_FILENO → ¬ source.uses fd → ¬ d.uses outFile fd →
    t'.get fd = t.get fd

section Stages

variable {opens : Bool} {t : Table Channel} {source : Source} {d : Destination} {fd : Nat}

theorem get_redirectStderr (h : (t.get STDERR_FILENO).isSome ∨ opens = true) :
    (redirectStderr opens t).get fd =
      if fd = STDERR_FILENO then some ((t.get STDERR_FILENO).getD .null) else t.get fd := by
  rw [redirectStderr]
  cases hold : t.get STDERR_FILENO with
  | some c =>
      rw [Option.isSome_some, if_pos rfl]
      split
      case isTrue heq => rw [heq, hold, Option.getD_some]
      case isFalse => rfl
  | none =>
      have hopens : opens = true := by simpa [hold] using h
      rw [Option.isSome_none, if_neg Bool.false_ne_true, if_pos hopens]
      exact Table.get_opened_at t STDERR_FILENO fd .null

theorem get_attach_source (source : Source) :
    (source.attach t).get fd =
      match source with
      | .redirected id => if fd = STDIN_FILENO then some (.input id) else t.get fd
      | _ => t.get fd := by
  cases source with
  | stdin => rfl
  | mapped id => exact Table.get_closed t fd (.input id)
  | redirected id => exact Table.get_opened_at t STDIN_FILENO fd (.input id)

theorem get_attach_destination (outFilename : CString) :
    ((Destination.file outFilename).attach t).2.get fd =
      if fd = ((Destination.file outFilename).attach t).1 then some (.output outFilename)
      else t.get fd :=
  Table.get_openFd t fd (.output outFilename)

/-- The output takes a descriptor that is not in use. -/
theorem attach_destination_unused (outFilename : CString) :
    t.get ((Destination.file outFilename).attach t).1 = none :=
  Table.get_lowest t

theorem Source.uses_stdin (h : source.uses fd) :
    fd = STDIN_FILENO ∧ ∃ id, source = .redirected id := by
  cases source with
  | stdin => exact absurd h id
  | mapped id => exact absurd h False.elim
  | redirected id => exact ⟨h, id, rfl⟩

end Stages

/-- Where the descriptors lead when the input is at its place. -/
structure Readied (source : Source) (t t' : Table Channel) : Prop where
  messages : t'.get STDERR_FILENO = some ((t.get STDERR_FILENO).getD .null)
  input : ∀ id, source = .redirected id → t'.get STDIN_FILENO = some (.input id)
  others : ∀ fd, fd ≠ STDERR_FILENO → ¬ source.uses fd → t'.get fd = t.get fd

section Readied

variable {opens : Bool} {t t' : Table Channel} {source : Source}

theorem readied (h : (t.get STDERR_FILENO).isSome ∨ opens = true) :
    Readied source t (source.attach (redirectStderr opens t)) := by
  refine ⟨?_, ?_, ?_⟩
  · rw [get_attach_source]
    cases source with
    | stdin => exact (get_redirectStderr h).trans (if_pos rfl)
    | mapped id => exact (get_redirectStderr h).trans (if_pos rfl)
    | redirected id =>
        exact (if_neg (by decide)).trans ((get_redirectStderr h).trans (if_pos rfl))
  · rintro id rfl
    exact (get_attach_source (.redirected id)).trans (if_pos rfl)
  · intro fd hstderr huses
    rw [get_attach_source]
    have hkept := (@get_redirectStderr opens t fd h).trans (if_neg hstderr)
    cases source with
    | stdin => exact hkept
    | mapped id => exact hkept
    | redirected id => exact (if_neg huses).trans hkept

theorem Readied.stdin (h : Readied source t t') (hsource : source = .stdin) :
    t'.get STDIN_FILENO = t.get STDIN_FILENO := by
  apply h.others STDIN_FILENO (by decide)
  subst hsource
  exact id

theorem Readied.stdout (h : Readied source t t') :
    Attached source .stdout t STDOUT_FILENO t' where
  messages := h.messages
  input := h.input
  stdin := fun hsource c hc => .inl ((h.stdin hsource).symm.trans hc)
  file := by
    intro outFilename hd
    cases hd
  stdout := fun _ => ⟨rfl, h.others STDOUT_FILENO (by decide) fun huses =>
    absurd (Source.uses_stdin huses).1 (by decide)⟩
  others := fun fd hstderr huses _ => h.others fd hstderr huses

/-- The output takes a descriptor that is not in use, so neither that of the messages
nor that of the input. -/
theorem Readied.file (h : Readied source t t') (outFilename : CString) :
    Attached source (.file outFilename) t ((Destination.file outFilename).attach t').1
      ((Destination.file outFilename).attach t').2 := by
  have hget := fun fd => @get_attach_destination t' fd outFilename
  have hunused := @attach_destination_unused t' outFilename
  generalize (Destination.file outFilename).attach t' = r at hget hunused
  have hne : ∀ fd c, t'.get fd = some c → fd ≠ r.1 := by
    rintro fd c hfd rfl
    rw [hunused] at hfd
    cases hfd
  have hstderr := hne STDERR_FILENO _ h.messages
  refine ⟨?_, ?_, ?_, ?_, ?_, ?_⟩
  · rw [hget, if_neg hstderr, h.messages]
  · intro id hsource
    rw [hget, if_neg (hne STDIN_FILENO _ (h.input id hsource)), h.input id hsource]
  · intro hsource c hc
    rw [hget] at hc
    split at hc
    · cases hc
      exact .inr ⟨outFilename, rfl⟩
    · exact .inl ((h.stdin hsource).symm.trans hc)
  · intro name hname
    cases hname
    refine ⟨by rw [hget, if_pos rfl], hstderr.symm, ?_⟩
    rw [← h.others r.1 hstderr.symm, hunused]
    intro huses
    obtain ⟨hzero, id, hsource⟩ := Source.uses_stdin huses
    exact hne STDIN_FILENO _ (h.input id hsource) hzero.symm
  · intro hd
    cases hd
  · intro fd hfd huses hout
    rw [hget]
    exact (if_neg hout).trans (h.others fd hfd huses)

end Readied

/-- Whatever is closed when the program starts, its messages do not get into the
archive, and the archive is not written to another file; what is read is the input. -/
theorem descriptors_attached (opens : Bool) (source : Source) (d : Destination)
    (t : Table Channel) (h : (t.get STDERR_FILENO).isSome ∨ opens = true) :
    Attached source d t (attach opens source d t).1 (attach opens source d t).2 := by
  have hready := @readied opens t source h
  cases d with
  | stdout => exact hready.stdout
  | file outFilename => exact hready.file outFilename

/-- All three streams are closed, and the input cannot be mapped. -/
theorem descriptors_attached_closed :
    Attached (.redirected ⟨0, 1⟩) (.file tarName) ⟨[]⟩
      (attach true (.redirected ⟨0, 1⟩) (.file tarName) ⟨[]⟩).1
      (attach true (.redirected ⟨0, 1⟩) (.file tarName) ⟨[]⟩).2 :=
  descriptors_attached true _ _ _ (.inr rfl)

end T2sz
