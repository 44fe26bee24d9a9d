import T2sz.CommandLineSpec
import T2sz.OutputLayout

/-!
What `-j` changes: the table at the end of the output, and nothing else. The
table is not looked at while frames are made, so the same calls are made to
libzstd and the same bytes are written in front of it.
-/

namespace T2sz

open Files FileSystem Getopt

namespace Writer

/-- The same run with another table. -/
def withTable (t : SeekTable) (w : Writer) : Writer := { w with table := t }

variable {w v : Writer} {t : SeekTable} {mode : EndDirective} {offered src : List UInt8}
  {host : Host}

theorem ask_withTable (w : Writer) :
    (w.withTable t).ask = w.ask.map fun p => (p.1, p.2.withTable t) := by
  obtain ⟨replies, events, outFile, frameOut, table⟩ := w
  cases replies with
  | nil => rfl
  | cons reply rest => cases reply <;> rfl

theorem compressStream2_withTable (w : Writer) :
    (w.withTable t).compressStream2 mode offered =
      (w.compressStream2 mode offered).map fun p => (p.1, p.2.withTable t) := by
  rw [compressStream2, compressStream2, ask_withTable]
  cases w.ask <;> rfl

theorem zstdResetFrame_withTable (w : Writer) :
    (w.withTable t).zstdResetFrame = w.zstdResetFrame.map (withTable t) := by
  rw [zstdResetFrame, zstdResetFrame, ask_withTable]
  cases w.ask <;> rfl

theorem zstdSetPledged_withTable (size : Option Nat) (w : Writer) :
    (w.withTable t).zstdSetPledged size = (w.zstdSetPledged size).map (withTable t) := by
  rw [zstdSetPledged, zstdSetPledged, ask_withTable]
  cases w.ask <;> rfl

theorem bufferLoop_withTable (fuel : Nat) (pos size : Nat) (w : Writer) :
    (w.withTable t).bufferLoop src fuel pos size =
      (w.bufferLoop src fuel pos size).map fun p => (p.1, p.2.withTable t) := by
  induction fuel generalizing w pos size with
  | zero => rfl
  | succ fuel ih =>
      simp only [bufferLoop, compressStream2_withTable]
      generalize (if pos < src.length then EndDirective.e_continue else .e_end) = mode
      cases w.compressStream2 mode (src.drop pos) with
      | error e => rfl
      | ok p =>
          simp only [Except.map]
          split
          · rfl
          · exact ih _ _ _

theorem endLoop_withTable (fuel : Nat) (size : Nat) (w : Writer) :
    (w.withTable t).endLoop fuel size =
      (w.endLoop fuel size).map fun p => (p.1, p.2.withTable t) := by
  induction fuel generalizing w size with
  | zero => rfl
  | succ fuel ih =>
      simp only [endLoop, compressStream2_withTable]
      cases w.compressStream2 _ _ with
      | error e => rfl
      | ok p =>
          simp only [Except.map]
          split
          · rfl
          · exact ih _ _

theorem pushLoop_withTable (fuel : Nat) (pos : Nat) (w : Writer) :
    (w.withTable t).pushLoop src fuel pos = (w.pushLoop src fuel pos).map (withTable t) := by
  induction fuel generalizing w pos with
  | zero => rfl
  | succ fuel ih =>
      simp only [pushLoop, compressStream2_withTable]
      split
      · cases w.compressStream2 .e_continue (src.drop pos) with
        | error e => rfl
        | ok p =>
            exact ih _ { p.2 with frameOut := uadd 64 p.2.frameOut p.1.output.length }
      · rfl

/-- With `-j` a frame is counted, and that cannot fail. -/
theorem record_withTable (hskip : t.skipSeekTable = true) {compressedSize decompressedSize : Nat}
    (h : w.record host compressedSize decompressedSize = .ok v) :
    ∃ t', t'.skipSeekTable = true ∧
      (w.withTable t).record host compressedSize decompressedSize = .ok (v.withTable t') := by
  have hadd : seekTableAdd host t compressedSize decompressedSize =
      .ok { t with frameCount := uadd host.sizeBits t.frameCount 1 } := by
    rw [seekTableAdd, if_pos hskip]
  refine ⟨{ t with frameCount := uadd host.sizeBits t.frameCount 1 }, hskip, ?_⟩
  simp only [record] at h
  split at h
  case h_1 => cases h
  case h_2 =>
    cases h
    rw [record, show (w.withTable t).table = t from rfl, hadd]
    rfl

theorem call_withTable (hskip : t.skipSeekTable = true) {c : Call} (h : w.call host c = .ok v) :
    ∃ t', t'.skipSeekTable = true ∧ (w.withTable t).call host c = .ok (v.withTable t') := by
  cases c with
  | frame src =>
      simp only [call, zstdCompressBufferToFrame, zstdResetFrame_withTable] at h ⊢
      cases hreset : w.zstdResetFrame with
      | error e =>
          rw [hreset] at h
          cases h
      | ok reset =>
          simp only [hreset, Except.map, zstdSetPledged_withTable] at h ⊢
          cases hpledge : reset.zstdSetPledged (some src.length) with
          | error e =>
              rw [hpledge] at h
              cases h
          | ok pledged =>
              simp only [hpledge] at h ⊢
              rw [show (pledged.withTable t).replies = pledged.replies from rfl,
                bufferLoop_withTable]
              cases hloop : pledged.bufferLoop src (pledged.replies.length + 1) 0 0 with
              | error e =>
                  rw [hloop] at h
                  cases h
              | ok p =>
                  simp only [hloop, Except.map] at h ⊢
                  exact record_withTable hskip h
  | start pledged =>
      simp only [call, zstdResetFrame_withTable] at h ⊢
      cases hreset : w.zstdResetFrame with
      | error e =>
          rw [hreset] at h
          cases h
      | ok reset =>
          simp only [hreset, Except.map, zstdSetPledged_withTable] at h ⊢
          cases hpledge : reset.zstdSetPledged pledged with
          | error e =>
              rw [hpledge] at h
              cases h
          | ok started =>
              simp only [hpledge] at h ⊢
              cases h
              exact ⟨t, hskip, rfl⟩
  | push src =>
      refine ⟨t, hskip, ?_⟩
      rw [call] at h ⊢
      rw [show (w.withTable t).replies = w.replies from rfl, pushLoop_withTable, h]
      rfl
  | finish frameIn =>
      simp only [call, zstdEndFrame] at h ⊢
      rw [show (w.withTable t).replies = w.replies from rfl, endLoop_withTable]
      cases hloop : w.endLoop (w.replies.length + 1) 0 with
      | error e =>
          rw [hloop] at h
          cases h
      | ok p =>
          simp only [hloop, Except.map] at h ⊢
          exact record_withTable hskip h

theorem run_withTable (hskip : t.skipSeekTable = true) {calls : List Call}
    (h : w.run host calls = .ok v) :
    ∃ t', t'.skipSeekTable = true ∧ (w.withTable t).run host calls = .ok (v.withTable t') := by
  induction calls generalizing w t with
  | nil =>
      cases h
      exact ⟨t, hskip, rfl⟩
  | cons c calls ih =>
      rw [run] at h ⊢
      cases hcall : w.call host c with
      | error e =>
          rw [hcall] at h
          cases h
      | ok u =>
          obtain ⟨t', hskip', hcall'⟩ := call_withTable hskip hcall
          rw [hcall] at h
          rw [hcall']
          exact ih hskip' h

end Writer

section Options

variable {w longBits : Nat} {permute : Bool}

def Settings.withoutTable (s : Settings w) : Settings w := { s with skipSeekTable := true }

def Invocation.withoutTable (i : Invocation w) : Invocation w :=
  { i with settings := i.settings.withoutTable }

def Plan.withoutTable (plan : Plan w) : Plan w :=
  { plan with invocation := plan.invocation.withoutTable }

end Options

namespace World

variable {world : World} {argv : List CString} {report : Report}
  {plan : Plan world.host.sizeBits} {source : Source} {output : Output}

/-- The same frames, and nothing behind them. -/
theorem Completed.withoutTable {parameters : List (CParameter × Int)} {a : Attempt} {w : Writer}
    (h : Completed world plan source output parameters a w) :
    ∃ t, t.skipSeekTable = true ∧
      Completed world plan.withoutTable source output parameters a (w.withTable t) := by
  obtain ⟨t, hskip, hrun⟩ := Writer.run_withTable (t := .init true) rfl h.written
  exact ⟨t, hskip, h.prepared, h.buffered, h.attempted, h.returns, hrun⟩

end World

end T2sz
