import T2sz.Compressor
import T2sz.SeekTable

/-!
The calls of the framing code, carried out on libzstd.

libzstd is a list of replies, one for each call that is made to it, in the order
of the calls: whatever it may do is some such list, and a list that runs out
stands for a run that has not come back yet. `events` keeps the calls with their
replies. The framing code reads none of them but the errors, so its calls can be
carried out after it has made them all.
-/

namespace T2sz

inductive EndDirective
  | e_continue
  | e_end
  deriving DecidableEq

/-- How much input a call took, what it put out, and the value it returned. -/
structure Answer where
  consumed : Nat
  output : List UInt8
  remaining : Nat
  deriving DecidableEq

/-- `none` is an error, by `ZSTD_isError`. -/
abbrev Reply := Option Answer

inductive Event
  | reset
  | pledge (size : Option Nat)
  | stream (mode : EndDirective) (offered : List UInt8) (answer : Answer)
  deriving DecidableEq

/-- Why the calls stop: the replies run out, or the program exits. -/
inductive Stop
  | starved
  | exit (e : Exit)
  deriving DecidableEq

structure Writer where
  replies : List Reply
  events : List Event
  outFile : List UInt8
  frameOut : Nat
  table : SeekTable
  deriving DecidableEq

def Writer.init (skipSeekTable : Bool) (replies : List Reply) : Writer where
  replies := replies
  events := []
  outFile := []
  frameOut := 0
  table := .init skipSeekTable

namespace Writer

/-- A call to libzstd. -/
def ask (w : Writer) : Except Stop (Answer × Writer) :=
  match w.replies with
  | [] => .error .starved
  | none :: _ => .error (.exit .zstdError)
  | some answer :: rest => .ok (answer, { w with replies := rest })

def log (w : Writer) (e : Event) : Writer := { w with events := w.events ++ [e] }

def zstdResetFrame (w : Writer) : Except Stop Writer :=
  match w.ask with
  | .error e => .error e
  | .ok (_, w) => .ok (w.log .reset)

def zstdSetPledged (size : Option Nat) (w : Writer) : Except Stop Writer :=
  match w.ask with
  | .error e => .error e
  | .ok (_, w) => .ok (w.log (.pledge size))

/-- `ZSTD_compressStream2` and the `checkedFwrite` of its output. -/
def compressStream2 (mode : EndDirective) (offered : List UInt8) (w : Writer) :
    Except Stop (Answer × Writer) :=
  match w.ask with
  | .error e => .error e
  | .ok (answer, w) =>
      let logged := w.log (.stream mode offered answer)
      .ok (answer, { logged with outFile := logged.outFile ++ answer.output })

/-- The loop of `zstdCompressBufferToFrame`; every round takes a reply. -/
def bufferLoop (src : List UInt8) : Nat → Nat → Nat → Writer → Except Stop (Nat × Writer)
  | 0, _, _, _ => .error .starved
  | fuel + 1, pos, compressedSize, w =>
      let mode := if pos < src.length then EndDirective.e_continue else .e_end
      match w.compressStream2 mode (src.drop pos) with
      | .error e => .error e
      | .ok (answer, w) =>
          let size := uadd 64 compressedSize answer.output.length
          if mode = .e_end ∧ answer.remaining = 0 then .ok (size, w)
          else bufferLoop src fuel (pos + answer.consumed) size w

def zstdCompressBufferToFrame (src : List UInt8) (w : Writer) : Except Stop (Nat × Writer) :=
  match w.zstdResetFrame with
  | .error e => .error e
  | .ok w =>
      match w.zstdSetPledged (some src.length) with
      | .error e => .error e
      | .ok w => bufferLoop src (w.replies.length + 1) 0 0 w

/-- The loop of `zstdEndFrame`. -/
def endLoop : Nat → Nat → Writer → Except Stop (Nat × Writer)
  | 0, _, _ => .error .starved
  | fuel + 1, compressedSize, w =>
      match w.compressStream2 .e_end [] with
      | .error e => .error e
      | .ok (answer, w) =>
          let size := uadd 64 compressedSize answer.output.length
          if answer.remaining = 0 then .ok (size, w) else endLoop fuel size w

def zstdEndFrame (w : Writer) : Except Stop (Nat × Writer) := endLoop (w.replies.length + 1) 0 w

/-- The inner loop of `pushBytesTar`. -/
def pushLoop (src : List UInt8) : Nat → Nat → Writer → Except Stop Writer
  | 0, _, _ => .error .starved
  | fuel + 1, pos, w =>
      if pos < src.length then
        match w.compressStream2 .e_continue (src.drop pos) with
        | .error e => .error e
        | .ok (answer, w) =>
            pushLoop src fuel (pos + answer.consumed)
              { w with frameOut := uadd 64 w.frameOut answer.output.length }
      else .ok w

def record (host : Host) (compressedSize decompressedSize : Nat) (w : Writer) :
    Except Stop Writer :=
  match seekTableAdd host w.table compressedSize decompressedSize with
  | .error e => .error (.exit e)
  | .ok table => .ok { w with table := table }

/-- One call of the framing code. `endFrameAndRecord` adds what ending the frame
puts out to its own copy of `frameOut`. -/
def call (host : Host) (w : Writer) : Call → Except Stop Writer
  | .frame src =>
      match w.zstdCompressBufferToFrame src with
      | .error e => .error e
      | .ok (compressedSize, w) => w.record host compressedSize src.length
  | .start pledged =>
      match w.zstdResetFrame with
      | .error e => .error e
      | .ok w =>
          match w.zstdSetPledged pledged with
          | .error e => .error e
          | .ok w => .ok { w with frameOut := 0 }
  | .push src => w.pushLoop src (w.replies.length + 1) 0
  | .finish frameIn =>
      match w.zstdEndFrame with
      | .error e => .error e
      | .ok (size, w) => w.record host (uadd 64 w.frameOut size) frameIn

def run (host : Host) (w : Writer) : List Call → Except Stop Writer
  | [] => .ok w
  | c :: rest =>
      match w.call host c with
      | .error e => .error e
      | .ok w => run host w rest

end Writer

end T2sz
