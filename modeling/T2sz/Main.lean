import T2sz.CommandLine
import T2sz.Library.Files
import T2sz.Library.Stdio
import T2sz.RawInput
import T2sz.Zstd

/-!
`main`, and what `compressFile` does in front of its loops and behind them:
`outputIsInput`, `getOutFilename`, `prepareInput`, `prepareOutput`,
`prepareCctx`.

A `World` is what one run finds: the files, the answers of the system and those
of libzstd. The bytes of the input are read when the output has been opened, so
an output that is the input would be read empty. Signals, and the place at which
a write fails, are the matter of `T2sz.Process`; where standard output leads to
is left open.
-/

namespace T2sz

open Files Stdio

abbrev Storage := FileSystem CString CString UInt8

/-- The blocks that a run takes from `malloc`, those of `compressStdinRaw` last. -/
inductive Allocation
  | context
  | outFilename
  | outBuff
  | inBuf
  | frameBuf (frameSize : Nat)
  deriving DecidableEq

/-- `ZSTD_cParameter` -/
inductive CParameter
  | c_compressionLevel
  | c_checksumFlag
  | c_nbWorkers
  deriving DecidableEq

structure World where
  host : Host
  /-- The width of `long`. -/
  longBits : Nat
  /-- `getopt` looks for options behind the operands. -/
  permute : Bool
  files : Storage
  /-- The file that is made where the output is a new one. -/
  fresh : FileId
  unused : files.Unused fresh
  /-- `open(path, O_RDONLY)` of a file that is there -/
  readable : CString → Bool
  /-- `fopen(path, "wb")` -/
  writable : CString → Bool
  /-- `remove(path)` -/
  removable : CString → Bool
  mappable : FileId → Bool
  /-- A mapping leaves the null page free. -/
  mappable_fits : ∀ id, mappable id = true → (files.file id).size + 4096 ≤ 2 ^ host.sizeBits
  /-- `dup2(fd, STDIN_FILENO)` -/
  redirects : Bool
  /-- `fstat(STDIN_FILENO)` -/
  stdinFile : Option FileId
  stdinFile_ne : stdinFile ≠ some fresh
  /-- What standard input delivers, call by call of `read`, when the files are these. -/
  stdinReads : Storage → List (List UInt8)
  stdinReads_eq : ∀ fs, (∀ id, stdinFile = some id → fs.file id = files.file id) →
    stdinReads fs = stdinReads files
  /-- It ends in a read error. -/
  stdinFails : Bool
  stdinTerminal : Bool
  /-- A terminal delivers at most a line at a time. -/
  stdinTerminal_lines : stdinTerminal = true → ∀ read ∈ stdinReads files,
    Input.Line '\n'.toUInt8 read
  stdoutTerminal : Bool
  malloc : Allocation → Bool
  /-- `ZSTD_createCCtx` -/
  createCCtx : Bool
  /-- `ZSTD_CCtx_setParameter`: the name of the error, if it is one. -/
  setParameter : CParameter → Int → Option (List UInt8)
  replies : List Reply
  /-- `ZSTD_CStreamInSize()` -/
  inChunk : Nat
  inChunk_pos : 0 < inChunk
  /-- How much less than asked for `fread` delivers, by the offset. -/
  short : Nat → Nat
  /-- The memory behind the data of an extended header. -/
  after : Nat → List UInt8
  /-- All writes succeed, and the closing of the output too. -/
  writes : Bool
  /-- What has got out of the archive when the run fails. -/
  residue : List UInt8

/-- The messages of `main` and of the functions named above. -/
inductive Refusal
  | usage (str : String)
  | outOfMemory (what : Allocation)
  | notFound (inFilename : CString)
  | stdoutTerminal
  | isInput (outFilename : CString)
  | alreadyExists (outFilename : CString)
  | unableToOpen (inFilename : CString)
  | isDirectory (inFilename : CString)
  | emptyInput (inFilename : CString)
  | unableToRedirect (inFilename : CString)
  | cannotOpenOutput
  | cannotCreateCCtx
  | cannotSet (parameter : CParameter) (errorName : List UInt8)
  deriving DecidableEq

/-- What is printed; `usage` goes on with the help. -/
def Refusal.text : Refusal → List UInt8
  | .usage str => chars str ++ chars "\n\n"
  | .outOfMemory .context => chars "ERROR: Out of memory allocating new context\n"
  | .outOfMemory .outFilename => chars "ERROR: Out of memory allocating output filename buffer\n"
  | .outOfMemory .outBuff => chars "ERROR: Out of memory allocating output buffer\n"
  | .outOfMemory .inBuf => chars "ERROR: Out of memory allocating stdin buffer\n"
  | .outOfMemory (.frameBuf frameSize) =>
      chars ("ERROR: Out of memory allocating " ++ toString frameSize ++ "-byte frame buffer\n")
  | .notFound inFilename => inFilename.bytes ++ chars ": File not found\n"
  | .stdoutTerminal =>
      chars "ERROR: stdout is a terminal. Redirect it, or use -o - to write there anyway.\n"
  | .isInput outFilename =>
      chars "ERROR: " ++ outFilename.bytes ++
        chars " is the input itself. Choose another output file.\n"
  | .alreadyExists outFilename =>
      chars "ERROR: " ++ outFilename.bytes ++ chars " already exists. Use -f to overwrite.\n"
  | .unableToOpen inFilename => chars "ERROR: Unable to open '" ++ inFilename.bytes ++ chars "'\n"
  | .isDirectory inFilename => chars "ERROR: '" ++ inFilename.bytes ++ chars "' is a directory\n"
  | .emptyInput inFilename =>
      chars "ERROR: Empty input file '" ++ inFilename.bytes ++ chars "'\n"
  | .unableToRedirect inFilename =>
      chars "ERROR: Unable to redirect '" ++ inFilename.bytes ++ chars "' to stdin\n"
  | .cannotOpenOutput => chars "ERROR: Cannot open output file for writing\n"
  | .cannotCreateCCtx => chars "ERROR: Cannot create ZSTD CCtx\n"
  | .cannotSet .c_compressionLevel errorName =>
      chars "ERROR: Cannot set compression level: " ++ errorName ++ chars "\n"
  | .cannotSet .c_checksumFlag errorName =>
      chars "ERROR: Cannot set checksum flag: " ++ errorName ++ chars "\n"
  -- A warning, with which the run goes on.
  | .cannotSet .c_nbWorkers _ =>
      chars ("ERROR: Multi-thread is supported only with libzstd >= 1.5.0 or on older versions " ++
        "compiled with ZSTD_MULTITHREAD. Reverting to single-thread.\n")

/-- How `main` ends. -/
inductive ExitStatus
  /-- `EXIT_SUCCESS` -/
  | success
  | refused (r : Refusal)
  /-- `exit(EXIT_FAILURE)` in the loops of `compressFile` or behind them. -/
  | exited
  deriving DecidableEq

/-- `usage` and `version` end the program. -/
def Usage.ending : Usage → ExitStatus
  | .error str => .refused (.usage str)
  | .help | .version => .success

inductive Destination
  | stdout
  | file (outFilename : CString)
  deriving DecidableEq

def getOutFilename (inFilename : CString) : CString where
  bytes := inFilename.bytes ++ chars ".zst"
  no_nul := by
    intro h
    rw [List.mem_append] at h
    cases h with
    | inl h => exact inFilename.no_nul h
    | inr h => exact absurd h (by decide)

/-- What `Context` holds for the loops. -/
def Invocation.context {w : Nat} (bits : w = 32 ∨ w = 64) (i : Invocation w) : Context where
  sizeBits := w
  minBlockSize := i.settings.minBlockSize
  maxBlockSize := i.settings.maxBlockSize
  rawMode := i.settings.rawMode
  bits := bits
  min_lt := i.settings.minBlockSize.isLt
  max_lt := i.settings.maxBlockSize.isLt

/-- What `main` has made out when it calls `compressFile`. `stdin` is the stream,
as the answer to the prompt has left it. -/
structure Plan (w : Nat) where
  invocation : Invocation w
  destination : Destination
  stdin : Input UInt8

namespace World

variable (world : World)

/-- The file that is the input. -/
def inputFile (i : Invocation world.host.sizeBits) : Option FileId :=
  if i.stdinMode then world.stdinFile else world.files.stat i.inFilename

def outputIsInput (i : Invocation world.host.sizeBits) (outFilename : CString) : Bool :=
  match world.files.stat outFilename, world.inputFile i with
  | some out, some input => out.dev == input.dev && out.ino == input.ino
  | _, _ => false

def destination (i : Invocation world.host.sizeBits) : Except Refusal Destination :=
  match i.settings.outFilename with
  | none =>
      if i.stdinMode then
        if world.stdoutTerminal then .error .stdoutTerminal else .ok .stdout
      else if world.malloc .outFilename then .ok (.file (getOutFilename i.inFilename))
      else .error (.outOfMemory .outFilename)
  | some outFilename =>
      if outFilename.bytes = chars "-" then .ok .stdout else .ok (.file outFilename)

/-- The stream `stdin`, before anything was read from it. -/
def stdin : Input UInt8 := .ofReads (world.stdinReads world.files)

/-- The answer typed at the prompt, and the stream behind it. -/
def answer : Bool × Input UInt8 :=
  let (c, stdin) := world.stdin.answer '\n'.toUInt8
  (c == some 'y'.toUInt8 || c == some 'Y'.toUInt8, stdin)

/-- From `outputIsInput` to the prompt. -/
def confirm (i : Invocation world.host.sizeBits) : Destination → Except ExitStatus (Input UInt8)
  | .stdout => .ok world.stdin
  | .file outFilename =>
      if world.outputIsInput i outFilename then .error (.refused (.isInput outFilename))
      else if i.settings.overwrite = false ∧ (world.files.stat outFilename).isSome then
        if i.stdinMode || !world.stdinTerminal then
          .error (.refused (.alreadyExists outFilename))
        else if world.answer.1 then .ok world.answer.2
        else .error .success
      else .ok world.stdin

/-- `main` up to the call of `compressFile`. -/
def plan (argv : List CString) : Except ExitStatus (Plan world.host.sizeBits) :=
  if world.malloc .context then
    match parseArgs world.host.sizeBits world.longBits world.permute argv with
    | .error u => .error u.ending
    | .ok i =>
        if i.stdinMode = false ∧ (world.files.stat i.inFilename).isNone then
          .error (.refused (.notFound i.inFilename))
        else
          match world.destination i with
          | .error r => .error (.refused r)
          | .ok d =>
              match world.confirm i d with
              | .error e => .error e
              | .ok stdin => .ok ⟨i, d, stdin⟩
  else .error (.refused (.outOfMemory .context))

end World

/-- Where the loops take their bytes from. -/
inductive Source
  | mapped (id : FileId)
  | redirected (id : FileId)
  | stdin
  deriving DecidableEq

/-- The bytes themselves. -/
inductive Loaded
  | mapped (input : List UInt8)
  | stream (stream : Stream)
  deriving DecidableEq

/-- What `compressStdinRaw` allocates, the sizes being those of the loops. -/
def rawBuffer (ctx : Context) : Allocation :=
  if ctx.minBlockSize = 0 then .inBuf else .frameBuf ctx.minBlockSize

/-- What is allocated in front of the loop. -/
def Loaded.buffer (ctx : Context) : Loaded → Option Allocation
  | .mapped _ => none
  | .stream _ => if ctx.rawMode then some (rawBuffer ctx.clamp) else none

/-- What the loops have done. -/
structure Attempt where
  returns : Bool
  calls : List Call

/-- The output, opened. `recorded` tells whether `partialOutput` is set. -/
structure Output where
  files : Storage
  destination : Destination
  recorded : Bool

structure Report where
  ending : ExitStatus
  files : Storage
  /-- What went to standard output, or to an output that is no regular file. -/
  sent : List UInt8
  parameters : List (CParameter × Int)
  events : List Event

namespace World

variable (world : World)

/-- A run that ends before it opens the output. -/
def unchanged (e : ExitStatus) : Report where
  ending := e
  files := world.files
  sent := []
  parameters := []
  events := []

def prepareInput (rawMode : Bool) (inFilename : CString) : Except Refusal Source :=
  match if world.readable inFilename then world.files.stat inFilename else none with
  | none => .error (.unableToOpen inFilename)
  | some id =>
      let st := world.files.file id
      if st.type = .directory then .error (.isDirectory inFilename)
      else if st.type = .regular ∧ st.size = 0 ∧ rawMode = false then
        .error (.emptyInput inFilename)
      else if st.type = .regular ∧ 0 < st.size ∧ st.size ≤ SIZE_MAX world.host.sizeBits ∧
          world.mappable id = true then
        .ok (.mapped id)
      else if world.redirects then .ok (.redirected id)
      else .error (.unableToRedirect inFilename)

/-- `lstat` finds nothing, or a regular file. -/
def regular (outFilename : CString) : Bool :=
  !world.files.isLink outFilename &&
    (world.files.stat outFilename).all fun id => (world.files.file id).type == .regular

/-- Up to the allocation of the buffer. -/
def prepareOutput : Destination → Except Refusal Output
  | .stdout => .ok ⟨world.files, .stdout, false⟩
  | .file outFilename =>
      if world.writable outFilename then
        .ok ⟨world.files.put outFilename world.fresh [], .file outFilename,
          world.regular outFilename⟩
      else .error .cannotOpenOutput

/-- The parameters that are set in the end. A library without threads is used
without them. -/
def prepareCctx {w : Nat} (s : Settings w) : Except Refusal (List (CParameter × Int)) :=
  if world.createCCtx then
    match world.setParameter .c_compressionLevel s.level.toNat with
    | some errorName => .error (.cannotSet .c_compressionLevel errorName)
    | none =>
        match world.setParameter .c_checksumFlag 1 with
        | some errorName => .error (.cannotSet .c_checksumFlag errorName)
        | none =>
            let workers := s.workers.toInt32.toInt
            let threads :=
              if s.workers ≠ 0 ∧ world.setParameter .c_nbWorkers workers = none then
                [(CParameter.c_nbWorkers, workers)]
              else []
            .ok ([(.c_compressionLevel, (s.level.toNat : Int)), (.c_checksumFlag, 1)] ++ threads)
  else .error .cannotCreateCCtx

/-- The bytes of the source, when the files are these. A stream at its end is not
read again. -/
def load (fs : Storage) (stdin : Input UInt8) : Source → Loaded
  | .mapped id => .mapped (fs.file id).content
  | .redirected id =>
      .stream ⟨(stdin.redirect [(fs.file id).content]).rest, !stdin.eof && (fs.file id).fails⟩
  | .stdin => .stream ⟨(stdin.redirect (world.stdinReads fs)).rest, !stdin.eof && world.stdinFails⟩

/-- The four loops of `compressFile`. -/
def attempt (ctx : Context) : Loaded → Option Attempt
  | .mapped input =>
      (compressMapped ctx world.after input).map fun r => ⟨r.isReturned, r.state.calls⟩
  | .stream stream =>
      if ctx.rawMode then
        (compressRaw ctx world.inChunk world.short stream).map fun r =>
          ⟨r.isReturned, r.state.frames.calls⟩
      else
        (compressStdin ctx world.after stream).map fun r =>
          ⟨r.isReturned, r.state.frames.calls⟩

/-- These bytes have been written to the output. -/
def fill (output : Output) (bytes : List UInt8) : Storage × List UInt8 :=
  match output.destination with
  | .stdout => (output.files, bytes)
  | .file outFilename =>
      (output.files.put outFilename world.fresh bytes,
        if (output.files.stat outFilename).any fun id =>
            (output.files.file id).type != .regular then bytes else [])

/-- A run that fails with the output open; `removePartialOutput`. -/
def abort (output : Output) (e : ExitStatus) (parameters : List (CParameter × Int))
    (events : List Event) : Report :=
  let filled := world.fill output world.residue
  { ending := e
    files :=
      match output.destination with
      | .file outFilename =>
          if output.recorded && world.removable outFilename then filled.1.unlink outFilename
          else filled.1
      | .stdout => filled.1
    sent := filled.2
    parameters := parameters
    events := events }

/-- A run that has written and closed the output. -/
def complete (output : Output) (parameters : List (CParameter × Int)) (w : Writer) : Report :=
  let filled := world.fill output (cleanupCompression world.host w.table w.outFile)
  { ending := .success
    files := filled.1
    sent := filled.2
    parameters := parameters
    events := w.events }

/-- The block that `malloc` does not give. -/
def missing (what : Option Allocation) : Option Allocation :=
  what.filter fun what => !world.malloc what

/-- The part of `compressFile` that runs with the output open. -/
def compress (plan : Plan world.host.sizeBits) (source : Source) (output : Output) :
    Option Report :=
  if world.malloc .outBuff then
    match world.prepareCctx plan.invocation.settings with
    | .error r => some (world.abort output (.refused r) [] [])
    | .ok parameters =>
        let ctx := plan.invocation.context world.host.bits
        let loaded := world.load output.files plan.stdin source
        match world.missing (loaded.buffer ctx) with
        | some what => some (world.abort output (.refused (.outOfMemory what)) parameters [])
        | none =>
            match world.attempt ctx loaded with
            | none => none
            | some a =>
                match (Writer.init plan.invocation.settings.skipSeekTable world.replies).run
                  world.host a.calls with
                | .error .starved => none
                | .error (.exit _) => some (world.abort output .exited parameters [])
                | .ok w =>
                    if a.returns && world.writes then some (world.complete output parameters w)
                    else some (world.abort output .exited parameters w.events)
  else some (world.abort output (.refused (.outOfMemory .outBuff)) [] [])

def compressFile (plan : Plan world.host.sizeBits) : Option Report :=
  match if plan.invocation.stdinMode then .ok .stdin
    else world.prepareInput plan.invocation.settings.rawMode plan.invocation.inFilename with
  | .error r => some (world.unchanged (.refused r))
  | .ok source =>
      match world.prepareOutput plan.destination with
      | .error r => some (world.unchanged (.refused r))
      | .ok output => world.compress plan source output

/-- `none` is a run that does not come back from libzstd. -/
def main (argv : List CString) : Option Report :=
  match world.plan argv with
  | .error e => some (world.unchanged e)
  | .ok plan => world.compressFile plan

end World

end T2sz
