import T2sz.BlockSize
import T2sz.Compressor
import T2sz.Library.Getopt

/-!
`parseArgs`, and what it calls: `strEndsWith`, and `getopt` of the C library.

Implementations of `getopt` differ in whether they look for options behind the
first operand; that is the parameter `permute`. `argv` is the command line
without the name of the program, and `longBits` the width of `long`.
-/

namespace T2sz

open Getopt

/-- The string that starts at a pointer ends at the first NUL. -/
def CString.ofBytes (bytes : List UInt8) : CString where
  bytes := bytes.takeWhile (· != 0)
  no_nul := by
    intro h
    have hzero := List.mem_takeWhile_imp h
    simp at hzero

/-- `size_t` -/
abbrev Size (w : Nat) := Fin (2 ^ w)

/-- A conversion to `size_t`. -/
def Size.ofNat (w n : Nat) : Size w := ⟨n % 2 ^ w, Nat.mod_lt _ (Nat.two_pow_pos w)⟩

/-- The fields of `Context` that the options set, and `overwrite`. -/
@[ext] structure Settings (w : Nat) where
  outFilename : Option CString
  level : UInt8
  minBlockSize : Size w
  maxBlockSize : Size w
  verbose : Bool
  rawMode : Bool
  workers : UInt32
  skipSeekTable : Bool
  overwrite : Bool
  deriving DecidableEq

/-- As `newContext` and `main` set them. -/
def Settings.newContext (w : Nat) : Settings w where
  outFilename := none
  level := 3
  minBlockSize := .ofNat w 0
  maxBlockSize := .ofNat w 0
  verbose := false
  rawMode := false
  workers := 0
  skipSeekTable := false
  overwrite := false

/-- The calls that end the program while it reads its options. -/
inductive Usage
  /-- `usage(executable, str)`, which exits with `EXIT_FAILURE` -/
  | error (str : String)
  /-- `usage(executable, NULL)`, which exits with `EXIT_SUCCESS` -/
  | help
  /-- `version()` and `exit(EXIT_SUCCESS)` -/
  | version
  deriving DecidableEq

def chars (s : String) : List UInt8 := s.toList.map Char.toUInt8

def opts : List UInt8 := chars "l:o:s:S:T:rjVfvh"

/-- What is behind the first occurrence of a character, as `strchr` finds it. -/
def strchr : List UInt8 → UInt8 → Option (List UInt8)
  | [], _ => none
  | d :: rest, c => if d = c then some rest else strchr rest c

/-- A colon is no option, and marks the option in front of it. -/
def takesArgument (c : UInt8) : Option Bool :=
  if c = ':'.toUInt8 then none
  else (strchr opts c).map fun rest => rest.head? == some ':'.toUInt8

def optionGrammar : Grammar UInt8 where
  dash := '-'.toUInt8
  takes := takesArgument
  dash_takes := by decide

def UINT32_MAX : Nat := 2 ^ 32 - 1

/-- The number of `-l` and `-T`: from 1 to `max`. -/
def parseNumber (longBits max : Nat) (optarg : CString) : Option Int :=
  let val := strtol longBits 10 optarg.bytes
  if val.endptr = optarg.bytes ∨ val.endptr.getD 0 0 ≠ 0 ∨ val.erange = true ∨ val.value < 1 ∨
      (max : Int) < val.value then
    none
  else some val.value

/-- The `switch` over what `getopt` returns, `optarg` and `optopt` being set by it. -/
def parseOption (w longBits : Nat) (s : Settings w) : Item UInt8 → Except Usage (Settings w)
  | .given ch argument =>
      let optarg := CString.ofBytes (argument.getD [])
      if ch = 'l'.toUInt8 then
        match parseNumber longBits 22 optarg with
        | none => .error (.error "ERROR: Invalid level. Must be between 1 and 22.")
        | some val => .ok { s with level := .ofNat val.toNat }
      else if ch = 'o'.toUInt8 then .ok { s with outFilename := some optarg }
      else if ch = 's'.toUInt8 then
        match parseBlockSize w optarg with
        | none => .error (.error "ERROR: Invalid block size")
        | some size => .ok { s with minBlockSize := .ofNat w size }
      else if ch = 'S'.toUInt8 then
        match parseBlockSize w optarg with
        | none => .error (.error "ERROR: Invalid block size")
        | some size => .ok { s with maxBlockSize := .ofNat w size }
      else if ch = 'T'.toUInt8 then
        match parseNumber longBits UINT32_MAX optarg with
        | none => .error (.error "ERROR: Invalid number of threads. Must be greater than 0.")
        | some val => .ok { s with workers := .ofNat val.toNat }
      else if ch = 'r'.toUInt8 then .ok { s with rawMode := true }
      else if ch = 'j'.toUInt8 then .ok { s with skipSeekTable := true }
      else if ch = 'v'.toUInt8 then .ok { s with verbose := true }
      else if ch = 'f'.toUInt8 then .ok { s with overwrite := true }
      else if ch = 'V'.toUInt8 then .error .version
      else if ch = 'h'.toUInt8 then .error .help
      else .ok s
  -- `getopt` returns `?` for both.
  | .unknown optopt | .missing optopt =>
      if (strchr opts optopt).bind List.head? = some ':'.toUInt8 then
        .error (.error ("ERROR: Option -" ++ String.singleton (.ofNat optopt.toNat) ++
          " requires an argument"))
      else .error (.error "ERROR: Unknown option")

/-- The loop of `strEndsWith`. -/
def sameIgnoringCase : List UInt8 → List UInt8 → Bool
  | c :: str, d :: suf => if tolower c ≠ tolower d then false else sameIgnoringCase str suf
  | _, _ => true

def strEndsWith (str suf : List UInt8) : Bool :=
  if str.length < suf.length then false
  else sameIgnoringCase (str.drop (str.length - suf.length)) suf

/-- What `parseArgs` leaves in `Context`. -/
@[ext] structure Invocation (w : Nat) where
  settings : Settings w
  inFilename : CString
  stdinMode : Bool
  ordered : settings.maxBlockSize.val ≠ 0 →
    settings.minBlockSize.val ≤ settings.maxBlockSize.val
  deriving DecidableEq

/-- The settings for an input of this name. -/
def Settings.detectMode {w : Nat} (s : Settings w) (inFilename : CString) (stdinMode : Bool) :
    Settings w :=
  if !s.rawMode && !stdinMode then
    { s with rawMode :=
        !strEndsWith inFilename.bytes (chars ".tar") &&
          !strEndsWith inFilename.bytes (chars ".gtar") }
  else s

@[simp] theorem Settings.detectMode_minBlockSize {w : Nat} (s : Settings w) (inFilename : CString)
    (stdinMode : Bool) : (s.detectMode inFilename stdinMode).minBlockSize = s.minBlockSize := by
  rw [detectMode]
  split <;> rfl

@[simp] theorem Settings.detectMode_maxBlockSize {w : Nat} (s : Settings w) (inFilename : CString)
    (stdinMode : Bool) : (s.detectMode inFilename stdinMode).maxBlockSize = s.maxBlockSize := by
  rw [detectMode]
  split <;> rfl

/-- `-` is standard input. -/
def isStdin (inFilename : CString) : Bool := inFilename.bytes == chars "-"

def parseArgs (w longBits : Nat) (permute : Bool) (argv : List CString) :
    Except Usage (Invocation w) :=
  let found := scan optionGrammar permute (argv.map CString.bytes)
  match found.1.foldlM (parseOption w longBits) (Settings.newContext w) with
  | .error u => .error u
  | .ok s =>
      match found.2 with
      | [] => .error (.error "Not enough arguments")
      | [operand] =>
          if h : s.maxBlockSize.val ≠ 0 ∧ s.maxBlockSize.val < s.minBlockSize.val then
            .error (.error "The maximum block size can't be smaller than the minimum one")
          else
            let inFilename := CString.ofBytes operand
            .ok {
              settings := s.detectMode inFilename (isStdin inFilename)
              inFilename := inFilename
              stdinMode := isStdin inFilename
              ordered := by
                rw [s.detectMode_minBlockSize, s.detectMode_maxBlockSize]
                intro hne
                exact Nat.le_of_not_lt fun hlt => h ⟨hne, hlt⟩ }
      | _ => .error (.error "Too many arguments")

end T2sz
