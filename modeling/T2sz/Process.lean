import T2sz.Zstd

/-!
The process and its output file: `main`, `prepareOutput`, the exits inside
`compressFile`, `cleanupCompression`, and the two handlers that remove a partial
output.

One step is one statement that can fail or that another process can observe. An
event says how the step at the current point ends, or that a signal is delivered
in front of it. A signal that is ignored is no event.
-/

namespace T2sz

/-- What the path of `-o` names. -/
inductive Node
  | absent
  | regular (content : List UInt8)
  /-- A link, a FIFO or a device. -/
  | other
  deriving DecidableEq

inductive Action
  /-- `malloc`, a call to libzstd, a read or a check: it writes nothing. -/
  | call
  /-- `checkedFwrite` -/
  | write (buf : List UInt8)
  deriving DecidableEq

def Action.bytes : Action → List UInt8
  | .call => []
  | .write buf => buf

/-- A run to be made: the path, its directory, and what the program does between
the opening and the closing of the output. -/
structure Job where
  initial : Node
  /-- Entries of the directory can be made and removed. -/
  directoryWritable : Bool
  actions : List Action
  deriving DecidableEq

/-- All that is to be in the file. -/
def Job.archive (job : Job) : List UInt8 := job.actions.flatMap Action.bytes

inductive Signal
  | SIGINT
  | SIGTERM
  deriving DecidableEq

/-- The next statement. -/
inductive Point
  /-- `main` up to `atexit` -/
  | start
  /-- `atexit(removePartialOutput)` -/
  | register
  /-- `signal(sig, removePartialOutputOnSignal)` -/
  | install (sig : Signal)
  | prepareInput
  | lstat
  | fopen
  /-- `partialOutput = ctx->outFilename` -/
  | setOutput
  /-- `partialFile = ctx->outFile` -/
  | setFile
  /-- From `malloc(ctx->outBuffSize)` to the end of `writeSeekTable`. -/
  | work (rest : List Action)
  /-- `partialFile = NULL` -/
  | clearFile
  | fclose
  /-- `partialOutput = NULL` -/
  | clearOutput
  /-- `exit`, or the return from `main`. -/
  | exit
  /-- `fclose(partialFile)` in `removePartialOutput` -/
  | closePartial
  /-- `remove(partialOutput)` -/
  | remove
  /-- `removePartialOutputOnSignal` -/
  | handler
  /-- `raise(sig)` with the default action -/
  | raise
  | ended
  deriving DecidableEq

structure Process where
  point : Point
  node : Node
  /-- The output was opened. -/
  opened : Bool
  /-- `fclose` of `cleanupCompression` has returned 0. -/
  closed : Bool
  regular : Bool
  partialOutput : Bool
  partialFile : Bool
  registered : Bool
  installed : List Signal
  /-- What `fwrite` has taken and not written yet. -/
  buffer : List UInt8
  deriving DecidableEq

def Process.init (job : Job) : Process where
  point := .start
  node := job.initial
  opened := false
  closed := false
  regular := false
  partialOutput := false
  partialFile := false
  registered := false
  installed := []
  buffer := []

/-- How the next step ends. A step of the stream lets `flushed` bytes of its buffer
get to the file. -/
inductive Outcome
  | succeeds (flushed : Nat)
  | fails (flushed : Nat)
  | signal (sig : Signal)
  deriving DecidableEq

namespace Process

/-- The stream writes `n` bytes of its buffer. -/
def flush (n : Nat) (p : Process) : Process :=
  { p with
    node := match p.node with
      | .regular content => .regular (content ++ p.buffer.take n)
      | node => node
    buffer := p.buffer.drop n }

/-- `unlink` and `remove` -/
def unlink (job : Job) (p : Process) : Process :=
  if job.directoryWritable then { p with node := .absent } else p

/-- A statement that ends as intended. -/
def succeed (job : Job) (n : Nat) (p : Process) : Option Process :=
  match p.point with
  | .start => some { p with point := .register }
  | .register => some { p with registered := true, point := .install .SIGINT }
  | .install .SIGINT => some { p with installed := [.SIGINT], point := .install .SIGTERM }
  | .install .SIGTERM => some { p with installed := [.SIGINT, .SIGTERM], point := .prepareInput }
  | .prepareInput => some { p with point := .lstat }
  | .lstat => some { p with regular := p.node != .other, point := .fopen }
  | .fopen =>
      if p.node = .absent ∧ job.directoryWritable = false then none
      else some { p with
        node := if p.node = .other then .other else .regular []
        opened := true
        point := if p.regular then .setOutput else .work job.actions }
  | .setOutput => some { p with partialOutput := true, point := .setFile }
  | .setFile => some { p with partialFile := true, point := .work job.actions }
  | .work [] => some { p with point := .clearFile }
  | .work (.call :: rest) => some { p with point := .work rest }
  | .work (.write buf :: rest) =>
      some { ({ p with buffer := p.buffer ++ buf } : Process).flush n with point := .work rest }
  | .clearFile => some { p with partialFile := false, point := .fclose }
  | .fclose => some { p.flush p.buffer.length with closed := true, point := .clearOutput }
  | .clearOutput => some { p with partialOutput := false, point := .exit }
  | .exit =>
      some { p with point :=
        if p.registered && p.partialOutput then
          if p.partialFile then .closePartial else .remove
        else .ended }
  | .closePartial => some { p.flush n with point := .remove }
  | .remove => some { p.unlink job with point := .ended }
  | .handler =>
      some { if p.partialOutput then p.unlink job else p with point := .raise }
  | .raise => some { p with point := .ended }
  | .ended => none

/-- A statement that calls `exit`, or that makes `main` return. -/
def fail (n : Nat) (p : Process) : Option Process :=
  match p.point with
  | .start => some { p with point := .exit }
  | .prepareInput => some { p with point := .exit }
  | .fopen => some { p with point := .exit }
  | .work (.call :: _) => some { p with point := .exit }
  | .work (.write buf :: _) =>
      some { ({ p with buffer := p.buffer ++ buf } : Process).flush n with point := .exit }
  | .fclose => some { p.flush n with point := .exit }
  | _ => none

/-- A signal in front of the statement. -/
def deliver (sig : Signal) (p : Process) : Option Process :=
  if p.point = .ended then none
  else some { p with point := if sig ∈ p.installed then .handler else .ended }

def step (job : Job) (p : Process) : Outcome → Option Process
  | .succeeds n => p.succeed job n
  | .fails n => p.fail n
  | .signal sig => p.deliver sig

/-- The run with these outcomes of its steps. -/
def run (job : Job) : Process → List Outcome → Option Process
  | p, [] => some p
  | p, e :: rest => (p.step job e).bind fun q => run job q rest

end Process

def Event.actions : Event → List Action
  | .stream _ _ answer => [.call, .write answer.output]
  | _ => [.call]

/-- What is to be in the file after the calls of `w`: `prepareOutput` and
`prepareCctx` call four functions that can fail before the first frame. -/
def Job.ofWriter (initial : Node) (directoryWritable : Bool) (host : Host) (w : Writer) : Job where
  initial := initial
  directoryWritable := directoryWritable
  actions := List.replicate 4 .call ++
    w.events.flatMap Event.actions ++ (tableWrites host w.table).map .write

end T2sz
