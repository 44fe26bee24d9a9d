import T2sz.OutputFile
import T2sz.RoundTrip

/-!
A run that is interrupted, seen by a reader of its output.

`main` tells what a run writes in which nothing goes wrong. Here the same
statements are taken one by one, and each may fail or be cut off by a signal.
-/

namespace T2sz

open Multiframe

variable {world : World} {argv : List CString} {report : Report}

/-- What a run that has ended leaves at the path of its output: what was there if it
did not get to open it, a link, a FIFO or a device if there was one, and else no
output or one that has this content. -/
structure Left (IsFrame : List UInt8 → List UInt8 → Prop) (initial : Node) (content : List UInt8)
    (p : Process) : Prop where
  untouched : p.opened = false → p.node = initial
  special : initial = .other → p.node = .other
  whole : initial ≠ .other → p.opened = true → p.node = .absent ∨
    ∃ file, p.node = .regular file ∧ Decodes IsFrame IsSkippable file content

/-- Where a run of `main` would leave the archive of `content`, a run of the same
statements that is stopped anywhere leaves it whole or not at all. -/
def AllOrNothing (world : World) (IsFrame : List UInt8 → List UInt8 → Prop) (w : Writer)
    (content : List UInt8) : Prop :=
  ∀ (initial : Node) (directoryWritable : Bool) (events : List Outcome) (p : Process),
    (Process.init (.ofWriter initial directoryWritable world.host w)).run
      (.ofWriter initial directoryWritable world.host w) events = some p →
    p.point = .ended →
    Unharmed (.ofWriter initial directoryWritable world.host w)
      (.init (.ofWriter initial directoryWritable world.host w)) events →
    Left IsFrame initial content p

/-- However its statements end, a run that is told to end well leaves all or nothing. -/
theorem main_interrupted (h : world.main argv = some report)
    (hsuccess : report.ending = .success)
    (hsmall : ∀ i content,
      parseArgs world.host.sizeBits world.longBits world.permute argv = .ok i →
      world.Holds i content → content.length < 2 ^ 62)
    {IsFrame : List UInt8 → List UInt8 → Prop} {outBuffSize : Nat}
    (hz : Conforms outBuffSize IsFrame report.events) :
    (World.Dismissed world argv ∧ report = world.unchanged .success) ∨
    ∃ i d content w, parseArgs world.host.sizeBits world.longBits world.permute argv = .ok i ∧
      world.destination i = .ok d ∧
      ((¬ world.Exhausted i ∧ world.Holds i content) ∨ (world.Exhausted i ∧ content = [])) ∧
      report.output d = cleanupCompression world.host w.table w.outFile ∧
      AllOrNothing world IsFrame w content := by
  obtain hdismissed | ⟨plan, content, a, w, hdone⟩ := World.main_success h hsuccess
  · exact .inl hdismissed
  · have hn := hdone.reads.length_lt fun content => hsmall _ content hdone.planned.parsed
    refine .inr ⟨plan.invocation, plan.destination, content, w, hdone.planned.parsed,
      hdone.planned.destination, hdone.reads, hdone.output, ?_⟩
    rw [hdone.events] at hz
    obtain ⟨segments, hcompressed, -⟩ := hdone.framed.compressed hn hdone.written hz
    intro initial directoryWritable events p hrun hend hall
    obtain ⟨hkept, harchive⟩ := run_kept (hdone.framed.framing hn).bracketed hdone.written
      hrun hend hall
    refine ⟨hkept.untouched, hkept.special, fun hinitial hopened => ?_⟩
    cases hkept.whole hinitial hopened with
    | inl habsent => exact .inl habsent
    | inr hcomplete =>
        exact .inr ⟨_, hcomplete.1, by rw [harchive]; exact hcompressed.decodes⟩

theorem main_interrupted_nullBlock :
    ∃ report, nullWorld.main [tarName] = some report ∧
      ((World.Dismissed nullWorld [tarName] ∧ report = nullWorld.unchanged .success) ∨
      ∃ i d content w, parseArgs 64 64 true [tarName] = .ok i ∧ nullWorld.destination i = .ok d ∧
        ((¬ nullWorld.Exhausted i ∧ nullWorld.Holds i content) ∨
          (nullWorld.Exhausted i ∧ content = [])) ∧
        report.output d = cleanupCompression (plainHost 64 (.inr rfl)) w.table w.outFile ∧
        AllOrNothing nullWorld (fun c x => c = nullFrame ∧ x = nullBlock) w content) := by
  obtain ⟨report, hmain, hsuccess, hevents⟩ := nullWorld_main
  exact ⟨report, hmain, main_interrupted hmain hsuccess (fun i _ _ => World.nullWorld_small i)
    (hevents ▸ conforms_nullBlock)⟩

end T2sz
