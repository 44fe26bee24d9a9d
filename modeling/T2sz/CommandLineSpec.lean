import Mathlib.Data.List.Induction
import T2sz.CommandLine

/-!
The command line means what its options say.

`parseArgs` goes on exactly for the command lines that are spelled as `getopt`
reads them, with one operand, and whose arguments are numbers and sizes. Of the
options of one letter the last one counts.
-/

namespace T2sz

open Getopt

/-- A decimal number from 1 to `max` that fits in a `long`; blanks and a plus sign
may be in front of it. -/
inductive NumberArgument (longBits max : Nat) (arg : List UInt8) (value : Nat) : Prop
  | intro (blanks sign digits : List UInt8) (parts : arg = blanks ++ (sign ++ digits))
      (blank : ∀ c ∈ blanks, isspace c = true) (plus : sign = [] ∨ sign = [0x2b])
      (nonempty : digits ≠ []) (decimal : ∀ c ∈ digits, isDigitOf 10 c = true)
      (denotes : value = digitsValue 10 digits) (positive : 1 ≤ value) (le_max : value ≤ max)
      (fits : value < 2 ^ (longBits - 1))

/-- The arguments of the options of one letter, in their order. -/
def argumentsOf (letter : Char) (options : List (Given UInt8)) : List CString :=
  options.filterMap fun o =>
    if o.1 = letter.toUInt8 then some (.ofBytes (o.2.getD [])) else none

def isGiven (letter : Char) (options : List (Given UInt8)) : Bool :=
  options.any fun o => o.1 == letter.toUInt8

/-- All the arguments mean something, and the value is what the last one means. -/
structure LastOf {α : Type} (args : List CString) (Means : CString → α → Prop)
    (default value : α) : Prop where
  valid : ∀ arg ∈ args, ∃ v, Means arg v
  last : args.getLast?.elim (value = default) fun arg => Means arg value

/-- What the settings owe to the options, the mode apart. -/
structure Denotes (w longBits : Nat) (options : List (Given UInt8)) (s : Settings w) : Prop where
  goes : isGiven 'V' options = false ∧ isGiven 'h' options = false
  level : LastOf (argumentsOf 'l' options) (fun arg => NumberArgument longBits 22 arg.bytes)
    3 s.level.toNat
  outFilename : LastOf (argumentsOf 'o' options) (fun arg name => name = some arg)
    none s.outFilename
  minBlockSize : LastOf (argumentsOf 's' options) (fun arg => SizeArgument w arg.bytes)
    0 s.minBlockSize.val
  maxBlockSize : LastOf (argumentsOf 'S' options) (fun arg => SizeArgument w arg.bytes)
    0 s.maxBlockSize.val
  workers : LastOf (argumentsOf 'T' options)
    (fun arg => NumberArgument longBits UINT32_MAX arg.bytes) 0 s.workers.toNat
  verbose : s.verbose = isGiven 'v' options
  skipSeekTable : s.skipSeekTable = isGiven 'j' options
  overwrite : s.overwrite = isGiven 'f' options

/-- What one option does to the settings. -/
inductive Sets {w : Nat} (longBits : Nat) (s : Settings w) (ch : UInt8) (optarg : CString) :
    Settings w → Prop
  | level (value : Nat) (number : NumberArgument longBits 22 optarg.bytes value)
      (letter : ch = 'l'.toUInt8) :
      Sets longBits s ch optarg { s with level := .ofNat value }
  | outFilename (letter : ch = 'o'.toUInt8) :
      Sets longBits s ch optarg { s with outFilename := some optarg }
  | minBlockSize (size : Nat) (number : SizeArgument w optarg.bytes size)
      (letter : ch = 's'.toUInt8) :
      Sets longBits s ch optarg { s with minBlockSize := .ofNat w size }
  | maxBlockSize (size : Nat) (number : SizeArgument w optarg.bytes size)
      (letter : ch = 'S'.toUInt8) :
      Sets longBits s ch optarg { s with maxBlockSize := .ofNat w size }
  | workers (value : Nat) (number : NumberArgument longBits UINT32_MAX optarg.bytes value)
      (letter : ch = 'T'.toUInt8) :
      Sets longBits s ch optarg { s with workers := .ofNat value }
  | rawMode (letter : ch = 'r'.toUInt8) : Sets longBits s ch optarg { s with rawMode := true }
  | skipSeekTable (letter : ch = 'j'.toUInt8) :
      Sets longBits s ch optarg { s with skipSeekTable := true }
  | verbose (letter : ch = 'v'.toUInt8) : Sets longBits s ch optarg { s with verbose := true }
  | overwrite (letter : ch = 'f'.toUInt8) : Sets longBits s ch optarg { s with overwrite := true }
  | nothing (others : ∀ letter ∈ ['l', 'o', 's', 'S', 'T', 'r', 'j', 'v', 'f', 'V', 'h'],
      ch ≠ letter.toUInt8) : Sets longBits s ch optarg s

/-- A name that ends in `.tar` or `.gtar`, in any case. -/
def TarName (name : List UInt8) : Prop :=
  ∃ front suffix, name = front ++ suffix ∧
    (suffix.map tolower = chars ".tar" ∨ suffix.map tolower = chars ".gtar")

section Numbers

variable {longBits max : Nat}

theorem splitSign_cases (s : List UInt8) :
    (∃ rest, s = 0x2d :: rest ∧ splitSign s = (true, rest)) ∨
    (∃ rest, s = 0x2b :: rest ∧ splitSign s = (false, rest)) ∨ splitSign s = (false, s) := by
  unfold splitSign
  split
  · exact .inl ⟨_, rfl, rfl⟩
  · exact .inr (.inl ⟨_, rfl, rfl⟩)
  · exact .inr (.inr rfl)

/-- A positive number that fits has no minus sign. -/
theorem strtol_positive {w : Nat} {s : List UInt8} {r : StrtolResult} (h : strtol w 10 s = r)
    (hfits : r.erange = false) (hpositive : 1 ≤ r.value) :
    ∃ blanks sign digits, s = blanks ++ (sign ++ (digits ++ r.endptr)) ∧
      (∀ c ∈ blanks, isspace c = true) ∧ (sign = [] ∨ sign = [0x2b]) ∧ digits ≠ [] ∧
      (∀ c ∈ digits, isDigitOf 10 c = true) ∧ r.value = digitsValue 10 digits ∧
      digitsValue 10 digits < 2 ^ (w - 1) := by
  have hblanks : s = s.takeWhile isspace ++ s.dropWhile isspace :=
    List.takeWhile_append_dropWhile.symm
  have hblank : ∀ c ∈ s.takeWhile isspace, isspace c = true := fun c hc => List.mem_takeWhile_imp hc
  have hsplit := splitSign_cases (s.dropWhile isspace)
  unfold strtol at h
  generalize splitSign (s.dropWhile isspace) = p at h hsplit
  obtain ⟨negative, body⟩ := p
  simp only at h
  have hbody : body = body.takeWhile (isDigitOf 10) ++ body.dropWhile (isDigitOf 10) :=
    List.takeWhile_append_dropWhile.symm
  have hdecimal : ∀ c ∈ body.takeWhile (isDigitOf 10), isDigitOf 10 c = true :=
    fun c hc => List.mem_takeWhile_imp hc
  split at h
  case isTrue =>
    subst h
    simp at hpositive
  case isFalse hnonempty =>
    cases negative with
    | true =>
        simp only [if_true] at h
        split at h
        case isTrue =>
          subst h
          cases hfits
        case isFalse =>
          split at h
          case isTrue =>
            subst h
            cases hfits
          case isFalse =>
            subst h
            simp only at hpositive
            omega
    | false =>
        simp only [Bool.false_eq_true, if_false] at h
        split at h
        case isTrue =>
          subst h
          cases hfits
        case isFalse =>
          split at h
          case isTrue =>
            subst h
            cases hfits
          case isFalse hlt =>
            subst h
            have hvalue : digitsValue 10 (body.takeWhile (isDigitOf 10)) < 2 ^ (w - 1) := by
              exact_mod_cast Int.not_le.mp hlt
            obtain ⟨rest, -, hpair⟩ | ⟨rest, hrest, hpair⟩ | hpair := hsplit
            · cases hpair
            · cases hpair
              refine ⟨_, [0x2b], _, ?_, hblank, .inr rfl, hnonempty, hdecimal, rfl, hvalue⟩
              rw [← hbody, List.singleton_append, ← hrest, ← hblanks]
            · cases hpair
              refine ⟨_, [], _, ?_, hblank, .inl rfl, hnonempty, hdecimal, rfl, hvalue⟩
              rw [← hbody, List.nil_append, ← hblanks]

/-- What is converted to the end, if it is positive, is a number. -/
theorem numberArgument_of_parseNumber {arg : CString} {val : Int}
    (h : parseNumber longBits max arg = some val) :
    ∃ value : Nat, val = value ∧ NumberArgument longBits max arg.bytes value := by
  simp only [parseNumber] at h
  split at h
  case isTrue => cases h
  case isFalse hok =>
    simp only [not_or, Bool.not_eq_true, not_not, Int.not_lt] at hok
    obtain ⟨-, hend, hfits, hpositive, hmax⟩ := hok
    obtain ⟨blanks, sign, digits, hparts, hblank, hplus, hnonempty, hdecimal, hvalue, hlt⟩ :=
      strtol_positive rfl hfits hpositive
    have hrest : (strtol longBits 10 arg.bytes).endptr = [] := by
      have hhead := @CString.head_ne_zero arg (blanks ++ (sign ++ digits)) _
        (by simpa only [List.append_assoc] using hparts)
      exact not_not.mp fun hne => hhead.mpr hne hend
    rw [hrest, List.append_nil] at hparts
    rw [hvalue] at hpositive hmax h
    refine ⟨_, (Option.some.inj h).symm, .intro blanks sign digits hparts hblank hplus hnonempty
      hdecimal rfl ?_ ?_ hlt⟩
    · exact_mod_cast hpositive
    · exact_mod_cast hmax

theorem parseNumber_of_numberArgument {arg : CString} {value : Nat}
    (h : NumberArgument longBits max arg.bytes value) :
    parseNumber longBits max arg = some (value : Int) := by
  obtain ⟨blanks, sign, digits, hparts, hblank, hplus, hnonempty, hdecimal, rfl, hpositive, hmax,
    hfits⟩ := h
  obtain ⟨c, rest, rfl⟩ := List.exists_cons_of_ne_nil hnonempty
  have hc := hdecimal c List.mem_cons_self
  have hdrop : arg.bytes.dropWhile isspace = sign ++ (c :: rest) := by
    rw [hparts, List.dropWhile_append_of_pos hblank]
    cases hplus with
    | inl hnil =>
        subst hnil
        rw [List.nil_append, List.dropWhile_cons_of_neg (by simp [isspace_of_digit hc])]
    | inr hsign =>
        subst hsign
        rfl
  have hsplit : splitSign (sign ++ (c :: rest)) = (false, c :: rest) := by
    cases hplus with
    | inl hnil =>
        subst hnil
        exact splitSign_of_digit hc rest
    | inr hsign =>
        subst hsign
        rfl
  obtain ⟨htake, hend⟩ := @takeWhile_digits 10 _ [] hdecimal (by simp)
  rw [List.append_nil] at htake hend
  have hne : ([] : List UInt8) ≠ arg.bytes := by
    rw [hparts]
    cases blanks <;> cases sign <;> simp
  have hfits' : ¬ (2 : Int) ^ (longBits - 1) ≤ digitsValue 10 (c :: rest) := by
    rw [Int.not_le]
    exact_mod_cast hfits
  have hlow : ¬ ((digitsValue 10 (c :: rest) : Nat) : Int) < -2 ^ (longBits - 1) := by
    have hpow : (0 : Int) < 2 ^ (longBits - 1) := Int.pow_pos (by decide)
    omega
  simp only [parseNumber, strtol, hdrop, hsplit, htake, hend, Bool.false_eq_true, if_false,
    if_neg (List.cons_ne_nil c rest), if_neg hlow, if_neg hfits']
  rw [if_neg]
  simp only [List.getD_nil, not_true, ne_eq, hne, false_or, not_or, Int.not_lt]
  omega

theorem parseNumber_eq_some_iff {arg : CString} {value : Nat} :
    parseNumber longBits max arg = some (value : Int) ↔
      NumberArgument longBits max arg.bytes value := by
  constructor
  · intro h
    obtain ⟨value', hvalue, harg⟩ := numberArgument_of_parseNumber h
    rwa [Int.ofNat_inj.mp hvalue]
  · exact parseNumber_of_numberArgument

end Numbers

section Options

variable {w longBits : Nat} {options : List (Given UInt8)} {o : Given UInt8}
  {s s' : Settings w}

theorem argumentsOf_append (letter : Char) (options : List (Given UInt8)) (o : Given UInt8) :
    argumentsOf letter (options ++ [o]) = argumentsOf letter options ++
      if o.1 = letter.toUInt8 then [.ofBytes (o.2.getD [])] else [] := by
  rw [argumentsOf, List.filterMap_append, List.filterMap_cons, List.filterMap_nil]
  split
  case h_1 hnone =>
    split at hnone
    · cases hnone
    · rw [if_neg ‹_›]
      rfl
  case h_2 arg hsome =>
    split at hsome
    · cases hsome
      rw [if_pos ‹_›]
      rfl
    · cases hsome

theorem isGiven_append (letter : Char) (options : List (Given UInt8)) (o : Given UInt8) :
    isGiven letter (options ++ [o]) = (isGiven letter options || o.1 == letter.toUInt8) := by
  rw [isGiven, List.any_append, List.any_cons, List.any_nil, Bool.or_false]
  rfl

section Last

variable {α : Type} {args : List CString} {arg : CString} {Means : CString → α → Prop}
  {default value value' : α}

theorem lastOf_nil (Means : CString → α → Prop) (default : α) :
    LastOf [] Means default default :=
  ⟨fun _ h => absurd h List.not_mem_nil, rfl⟩

theorem LastOf.snoc (h : LastOf args Means default value) (harg : Means arg value') :
    LastOf (args ++ [arg]) Means default value' := by
  constructor
  · intro a ha
    rw [List.mem_append, List.mem_singleton] at ha
    cases ha with
    | inl hold => exact h.valid a hold
    | inr hnew => exact ⟨value', hnew ▸ harg⟩
  · rw [List.getLast?_concat]
    exact harg

theorem LastOf.unique (hMeans : ∀ arg v v', Means arg v → Means arg v' → v = v')
    (h : LastOf args Means default value) (h' : LastOf args Means default value') :
    value = value' := by
  have hlast := h.last
  have hlast' := h'.last
  cases hargs : args.getLast? with
  | none =>
      rw [hargs] at hlast hlast'
      exact Eq.trans hlast (Eq.symm hlast')
  | some arg =>
      rw [hargs] at hlast hlast'
      exact hMeans arg value value' hlast hlast'

end Last

theorem LastOf.skip {α : Type} {letter : Char} {Means : CString → α → Prop} {default value : α}
    (h : LastOf (argumentsOf letter options) Means default value) (hne : o.1 ≠ letter.toUInt8) :
    LastOf (argumentsOf letter (options ++ [o])) Means default value := by
  rw [argumentsOf_append, if_neg hne, List.append_nil]
  exact h

theorem LastOf.take {α : Type} {letter : Char} {Means : CString → α → Prop} {default value : α}
    {value' : α} (h : LastOf (argumentsOf letter options) Means default value)
    (heq : o.1 = letter.toUInt8) (harg : Means (.ofBytes (o.2.getD [])) value') :
    LastOf (argumentsOf letter (options ++ [o])) Means default value' := by
  rw [argumentsOf_append, if_pos heq]
  exact h.snoc harg

theorem sets_of_parseOption {ch : UInt8} {argument : Option (List UInt8)}
    (h : parseOption w longBits s (.given ch argument) = .ok s') :
    Sets longBits s ch (.ofBytes (argument.getD [])) s' := by
  simp only [parseOption] at h
  by_cases hl : ch = 'l'.toUInt8
  · rw [if_pos hl] at h
    split at h
    case h_1 => cases h
    case h_2 val hval =>
      obtain ⟨value, rfl, number⟩ := numberArgument_of_parseNumber hval
      cases h
      exact .level value number hl
  rw [if_neg hl] at h
  by_cases ho : ch = 'o'.toUInt8
  · rw [if_pos ho] at h
    cases h
    exact .outFilename ho
  rw [if_neg ho] at h
  by_cases hs : ch = 's'.toUInt8
  · rw [if_pos hs] at h
    split at h
    case h_1 => cases h
    case h_2 size hsize =>
      cases h
      exact .minBlockSize size (sizeArgument_of_parseBlockSize hsize) hs
  rw [if_neg hs] at h
  by_cases hS : ch = 'S'.toUInt8
  · rw [if_pos hS] at h
    split at h
    case h_1 => cases h
    case h_2 size hsize =>
      cases h
      exact .maxBlockSize size (sizeArgument_of_parseBlockSize hsize) hS
  rw [if_neg hS] at h
  by_cases hT : ch = 'T'.toUInt8
  · rw [if_pos hT] at h
    split at h
    case h_1 => cases h
    case h_2 val hval =>
      obtain ⟨value, rfl, number⟩ := numberArgument_of_parseNumber hval
      cases h
      exact .workers value number hT
  rw [if_neg hT] at h
  by_cases hr : ch = 'r'.toUInt8
  · rw [if_pos hr] at h
    cases h
    exact .rawMode hr
  rw [if_neg hr] at h
  by_cases hj : ch = 'j'.toUInt8
  · rw [if_pos hj] at h
    cases h
    exact .skipSeekTable hj
  rw [if_neg hj] at h
  by_cases hv : ch = 'v'.toUInt8
  · rw [if_pos hv] at h
    cases h
    exact .verbose hv
  rw [if_neg hv] at h
  by_cases hf : ch = 'f'.toUInt8
  · rw [if_pos hf] at h
    cases h
    exact .overwrite hf
  rw [if_neg hf] at h
  by_cases hV : ch = 'V'.toUInt8
  · rw [if_pos hV] at h
    cases h
  rw [if_neg hV] at h
  by_cases hh : ch = 'h'.toUInt8
  · rw [if_pos hh] at h
    cases h
  rw [if_neg hh] at h
  cases h
  refine .nothing ?_
  simp only [List.forall_mem_cons, List.not_mem_nil, false_implies, implies_true, and_true]
  exact ⟨hl, ho, hs, hS, hT, hr, hj, hv, hf, hV, hh⟩

/-- A size fits in `size_t`. -/
theorem SizeArgument.val_ofNat {arg : List UInt8} {size : Nat} (h : SizeArgument w arg size) :
    (Size.ofNat w size).val = size := by
  have hword : SIZE_MAX w < 2 ^ w := Nat.sub_lt (Nat.two_pow_pos w) Nat.one_pos
  obtain ⟨digits, suffix, multiplier, parts, nonempty, decimal, known, positive, fits, rfl⟩ := h
  exact Nat.mod_eq_of_lt (Nat.lt_of_le_of_lt fits hword)

theorem denotes_init (w longBits : Nat) :
    Denotes w longBits [] (Settings.newContext w) where
  goes := ⟨rfl, rfl⟩
  level := lastOf_nil _ _
  outFilename := lastOf_nil _ _
  minBlockSize := by
    have hzero : (Settings.newContext w).minBlockSize.val = 0 := Nat.zero_mod _
    rw [hzero]
    exact lastOf_nil _ _
  maxBlockSize := by
    have hzero : (Settings.newContext w).maxBlockSize.val = 0 := Nat.zero_mod _
    rw [hzero]
    exact lastOf_nil _ _
  workers := lastOf_nil _ _
  verbose := rfl
  skipSeekTable := rfl
  overwrite := rfl

theorem parseOption_of_sets (hw : w = 32 ∨ w = 64) {ch : UInt8} {argument : Option (List UInt8)}
    (h : Sets longBits s ch (.ofBytes (argument.getD [])) s') :
    parseOption w longBits s (.given ch argument) = .ok s' := by
  simp only [parseOption]
  cases h with
  | level value number letter =>
      rw [if_pos letter, parseNumber_of_numberArgument number]
      rfl
  | outFilename letter =>
      rw [letter, if_neg (by decide), if_pos rfl]
  | minBlockSize size number letter =>
      rw [letter, if_neg (by decide), if_neg (by decide), if_pos rfl,
        parseBlockSize_of_sizeArgument hw number]
  | maxBlockSize size number letter =>
      rw [letter, if_neg (by decide), if_neg (by decide), if_neg (by decide), if_pos rfl,
        parseBlockSize_of_sizeArgument hw number]
  | workers value number letter =>
      rw [letter, if_neg (by decide), if_neg (by decide), if_neg (by decide), if_neg (by decide),
        if_pos rfl, parseNumber_of_numberArgument number]
      rfl
  | rawMode letter =>
      subst letter
      rfl
  | skipSeekTable letter =>
      subst letter
      rfl
  | verbose letter =>
      subst letter
      rfl
  | overwrite letter =>
      subst letter
      rfl
  | nothing others =>
      simp only [List.forall_mem_cons, List.not_mem_nil, false_implies, implies_true,
        and_true] at others
      simp only [others, if_false]

section Step

variable (h : Denotes w longBits options s)
  (hsets : Sets longBits s o.1 (.ofBytes (o.2.getD [])) s')

include h hsets

theorem goes_step :
    isGiven 'V' (options ++ [o]) = false ∧ isGiven 'h' (options ++ [o]) = false := by
  have hne : o.1 ≠ 'V'.toUInt8 ∧ o.1 ≠ 'h'.toUInt8 := by
    cases hsets with
    | nothing others => exact ⟨others 'V' (by decide), others 'h' (by decide)⟩
    | _ =>
        rename_i letter
        rw [letter]
        decide
  rw [isGiven_append, isGiven_append, h.goes.1, h.goes.2, Bool.false_or, Bool.false_or,
    beq_eq_false_iff_ne, beq_eq_false_iff_ne]
  exact hne

theorem level_step : LastOf (argumentsOf 'l' (options ++ [o]))
    (fun arg => NumberArgument longBits 22 arg.bytes) 3 s'.level.toNat := by
  cases hsets with
  | level value number letter =>
      have hvalue : (UInt8.ofNat value).toNat = value := by
        cases number
        exact Nat.mod_eq_of_lt (by omega)
      refine h.level.take letter ?_
      rwa [hvalue]
  | nothing others => exact h.level.skip (others 'l' (by decide))
  | _ =>
      rename_i letter
      exact h.level.skip (by rw [letter]; decide)

theorem outFilename_step : LastOf (argumentsOf 'o' (options ++ [o]))
    (fun arg name => name = some arg) none s'.outFilename := by
  cases hsets with
  | outFilename letter => exact h.outFilename.take letter rfl
  | nothing others => exact h.outFilename.skip (others 'o' (by decide))
  | _ =>
      rename_i letter
      exact h.outFilename.skip (by rw [letter]; decide)

theorem minBlockSize_step : LastOf (argumentsOf 's' (options ++ [o]))
    (fun arg => SizeArgument w arg.bytes) 0 s'.minBlockSize.val := by
  cases hsets with
  | minBlockSize size number letter =>
      refine h.minBlockSize.take letter ?_
      rwa [number.val_ofNat]
  | nothing others => exact h.minBlockSize.skip (others 's' (by decide))
  | _ =>
      rename_i letter
      exact h.minBlockSize.skip (by rw [letter]; decide)

theorem maxBlockSize_step : LastOf (argumentsOf 'S' (options ++ [o]))
    (fun arg => SizeArgument w arg.bytes) 0 s'.maxBlockSize.val := by
  cases hsets with
  | maxBlockSize size number letter =>
      refine h.maxBlockSize.take letter ?_
      rwa [number.val_ofNat]
  | nothing others => exact h.maxBlockSize.skip (others 'S' (by decide))
  | _ =>
      rename_i letter
      exact h.maxBlockSize.skip (by rw [letter]; decide)

theorem workers_step : LastOf (argumentsOf 'T' (options ++ [o]))
    (fun arg => NumberArgument longBits UINT32_MAX arg.bytes) 0 s'.workers.toNat := by
  cases hsets with
  | workers value number letter =>
      have hvalue : (UInt32.ofNat value).toNat = value := by
        cases number with
        | intro blanks sign digits parts blank plus nonempty decimal denotes positive le_max fits =>
            rw [UINT32_MAX] at le_max
            exact Nat.mod_eq_of_lt (by omega)
      refine h.workers.take letter ?_
      rwa [hvalue]
  | nothing others => exact h.workers.skip (others 'T' (by decide))
  | _ =>
      rename_i letter
      exact h.workers.skip (by rw [letter]; decide)

end Step

theorem verbose_step (hset : Sets longBits s o.1 (.ofBytes (o.2.getD [])) s') :
    s'.verbose = (s.verbose || o.1 == 'v'.toUInt8) := by
  cases hset with
  | verbose letter =>
      rw [letter, beq_self_eq_true, Bool.or_true]
  | nothing others =>
      rw [beq_eq_false_iff_ne.mpr (others 'v' (by decide)), Bool.or_false]
  | _ =>
      rename_i letter
      rw [letter]
      exact (Bool.or_false _).symm

theorem skipSeekTable_step (hset : Sets longBits s o.1 (.ofBytes (o.2.getD [])) s') :
    s'.skipSeekTable = (s.skipSeekTable || o.1 == 'j'.toUInt8) := by
  cases hset with
  | skipSeekTable letter =>
      rw [letter, beq_self_eq_true, Bool.or_true]
  | nothing others =>
      rw [beq_eq_false_iff_ne.mpr (others 'j' (by decide)), Bool.or_false]
  | _ =>
      rename_i letter
      rw [letter]
      exact (Bool.or_false _).symm

theorem overwrite_step (hset : Sets longBits s o.1 (.ofBytes (o.2.getD [])) s') :
    s'.overwrite = (s.overwrite || o.1 == 'f'.toUInt8) := by
  cases hset with
  | overwrite letter =>
      rw [letter, beq_self_eq_true, Bool.or_true]
  | nothing others =>
      rw [beq_eq_false_iff_ne.mpr (others 'f' (by decide)), Bool.or_false]
  | _ =>
      rename_i letter
      rw [letter]
      exact (Bool.or_false _).symm

theorem rawMode_step (hset : Sets longBits s o.1 (.ofBytes (o.2.getD [])) s') :
    s'.rawMode = (s.rawMode || o.1 == 'r'.toUInt8) := by
  cases hset with
  | rawMode letter =>
      rw [letter, beq_self_eq_true, Bool.or_true]
  | nothing others =>
      rw [beq_eq_false_iff_ne.mpr (others 'r' (by decide)), Bool.or_false]
  | _ =>
      rename_i letter
      rw [letter]
      exact (Bool.or_false _).symm

/-- The settings, with the mode as `-r` sets it. -/
def Collected (w longBits : Nat) (options : List (Given UInt8)) (s : Settings w) : Prop :=
  Denotes w longBits options s ∧ s.rawMode = isGiven 'r' options

theorem Collected.step (h : Collected w longBits options s)
    (hsets : Sets longBits s o.1 (.ofBytes (o.2.getD [])) s') :
    Collected w longBits (options ++ [o]) s' := by
  refine ⟨⟨goes_step h.1 hsets, level_step h.1 hsets, outFilename_step h.1 hsets,
    minBlockSize_step h.1 hsets, maxBlockSize_step h.1 hsets, workers_step h.1 hsets,
    ?_, ?_, ?_⟩, ?_⟩
  · rw [verbose_step hsets, isGiven_append, h.1.verbose]
  · rw [skipSeekTable_step hsets, isGiven_append, h.1.skipSeekTable]
  · rw [overwrite_step hsets, isGiven_append, h.1.overwrite]
  · rw [rawMode_step hsets, isGiven_append, h.2]

/-- The loop of `parseArgs` collects the options. -/
theorem collected_of_loop (options : List (Given UInt8)) {s : Settings w}
    (h : (options.map Given.item).foldlM (parseOption w longBits) (.newContext w) = .ok s) :
    Collected w longBits options s := by
  induction options using List.reverseRecOn generalizing s with
  | nil =>
      cases h
      exact ⟨denotes_init w longBits, rfl⟩
  | append_singleton options o ih =>
      rw [List.map_append, List.foldlM_append] at h
      cases hfirst : (options.map Given.item).foldlM (parseOption w longBits) (.newContext w) with
      | error u =>
          rw [hfirst] at h
          cases h
      | ok t =>
          rw [hfirst] at h
          have hlast : parseOption w longBits t o.item = .ok s := by
            cases hstep : parseOption w longBits t o.item with
            | error u =>
                simp [bind, Except.bind, hstep] at h
            | ok t' =>
                simpa [bind, Except.bind, hstep, pure, Except.pure] using h
          exact (ih hfirst).step (sets_of_parseOption hlast)

theorem mem_argumentsOf {letter : Char} (ho : o ∈ options) (hletter : o.1 = letter.toUInt8) :
    CString.ofBytes (o.2.getD []) ∈ argumentsOf letter options := by
  rw [argumentsOf, List.mem_filterMap]
  exact ⟨o, ho, if_pos hletter⟩

theorem isGiven_of_mem {letter : Char} (ho : o ∈ options) (hletter : o.1 = letter.toUInt8) :
    isGiven letter options = true := by
  rw [isGiven, List.any_eq_true]
  exact ⟨o, ho, by rw [hletter, beq_self_eq_true]⟩

/-- Nothing stops the loop at an option that means something. -/
theorem Denotes.goes_on (hw : w = 32 ∨ w = 64) (h : Denotes w longBits options s)
    (ho : o ∈ options) (t : Settings w) : ∃ t', parseOption w longBits t o.item = .ok t' := by
  have hsets : ∃ t', Sets longBits t o.1 (.ofBytes (o.2.getD [])) t' := by
    by_cases hl : o.1 = 'l'.toUInt8
    · obtain ⟨value, number⟩ := h.level.valid _ (mem_argumentsOf ho hl)
      exact ⟨_, .level value number hl⟩
    by_cases hs : o.1 = 's'.toUInt8
    · obtain ⟨size, number⟩ := h.minBlockSize.valid _ (mem_argumentsOf ho hs)
      exact ⟨_, .minBlockSize size number hs⟩
    by_cases hS : o.1 = 'S'.toUInt8
    · obtain ⟨size, number⟩ := h.maxBlockSize.valid _ (mem_argumentsOf ho hS)
      exact ⟨_, .maxBlockSize size number hS⟩
    by_cases hT : o.1 = 'T'.toUInt8
    · obtain ⟨value, number⟩ := h.workers.valid _ (mem_argumentsOf ho hT)
      exact ⟨_, .workers value number hT⟩
    by_cases ho : o.1 = 'o'.toUInt8
    · exact ⟨_, .outFilename ho⟩
    by_cases hr : o.1 = 'r'.toUInt8
    · exact ⟨_, .rawMode hr⟩
    by_cases hj : o.1 = 'j'.toUInt8
    · exact ⟨_, .skipSeekTable hj⟩
    by_cases hv : o.1 = 'v'.toUInt8
    · exact ⟨_, .verbose hv⟩
    by_cases hf : o.1 = 'f'.toUInt8
    · exact ⟨_, .overwrite hf⟩
    have hV : o.1 ≠ 'V'.toUInt8 := by
      intro hletter
      have hgiven := h.goes.1
      rw [isGiven_of_mem ‹_› hletter] at hgiven
      cases hgiven
    have hh : o.1 ≠ 'h'.toUInt8 := by
      intro hletter
      have hgiven := h.goes.2
      rw [isGiven_of_mem ‹_› hletter] at hgiven
      cases hgiven
    refine ⟨t, .nothing ?_⟩
    simp only [List.forall_mem_cons, List.not_mem_nil, false_implies, implies_true, and_true]
    exact ⟨hl, ho, hs, hS, hT, hr, hj, hv, hf, hV, hh⟩
  obtain ⟨t', ht'⟩ := hsets
  exact ⟨t', parseOption_of_sets hw ht'⟩

/-- The loop goes through the options if each of them means something. -/
theorem loop_ok (hw : w = 32 ∨ w = 64) (h : Denotes w longBits options s) :
    ∃ t, (options.map Given.item).foldlM (parseOption w longBits) (.newContext w) = .ok t := by
  have hall : ∀ l : List (Given UInt8), (∀ o ∈ l, o ∈ options) → ∀ t : Settings w,
      ∃ t', (l.map Given.item).foldlM (parseOption w longBits) t = .ok t' := by
    intro l
    induction l with
    | nil =>
        intro _ t
        exact ⟨t, rfl⟩
    | cons o l ih =>
        intro hl t
        obtain ⟨u, hu⟩ := h.goes_on hw (hl o List.mem_cons_self) t
        obtain ⟨t', ht'⟩ := ih (fun o' ho' => hl o' (List.mem_cons_of_mem _ ho')) u
        refine ⟨t', ?_⟩
        rw [List.map_cons, List.foldlM_cons, hu]
        exact ht'
  exact hall options (fun _ ho => ho) _

theorem NumberArgument.unique {max value value' : Nat} {arg : CString}
    (h : NumberArgument longBits max arg.bytes value)
    (h' : NumberArgument longBits max arg.bytes value') : value = value' := by
  have heq := (parseNumber_of_numberArgument h).symm.trans (parseNumber_of_numberArgument h')
  exact Int.ofNat_inj.mp (Option.some.inj heq)

theorem SizeArgument.unique (hw : w = 32 ∨ w = 64) {size size' : Nat} {arg : CString}
    (h : SizeArgument w arg.bytes size) (h' : SizeArgument w arg.bytes size') : size = size' := by
  have heq := (parseBlockSize_of_sizeArgument hw h).symm.trans
    (parseBlockSize_of_sizeArgument hw h')
  exact Option.some.inj heq

/-- The options determine the settings. -/
theorem Denotes.unique (hw : w = 32 ∨ w = 64) (h : Denotes w longBits options s)
    (h' : Denotes w longBits options s') (hraw : s.rawMode = s'.rawMode) : s = s' := by
  refine Settings.ext ?_ ?_ ?_ ?_ ?_ hraw ?_ ?_ ?_
  · exact h.outFilename.unique (fun _ _ _ hv hv' => hv.trans hv'.symm) h'.outFilename
  · exact UInt8.toNat_inj.mp (h.level.unique (fun _ _ _ hv hv' => hv.unique hv') h'.level)
  · exact Fin.ext (h.minBlockSize.unique (fun _ _ _ hv hv' => hv.unique hw hv') h'.minBlockSize)
  · exact Fin.ext (h.maxBlockSize.unique (fun _ _ _ hv hv' => hv.unique hw hv') h'.maxBlockSize)
  · rw [h.verbose, h'.verbose]
  · exact UInt32.toNat_inj.mp (h.workers.unique (fun _ _ _ hv hv' => hv.unique hv') h'.workers)
  · rw [h.skipSeekTable, h'.skipSeekTable]
  · rw [h.overwrite, h'.overwrite]

/-- The loop of `parseArgs` leaves the settings that the options denote. -/
theorem loop_eq_ok_iff (hw : w = 32 ∨ w = 64) :
    (options.map Given.item).foldlM (parseOption w longBits) (.newContext w) = .ok s ↔
      Collected w longBits options s := by
  constructor
  · exact collected_of_loop options
  · intro h
    obtain ⟨t, ht⟩ := loop_ok hw h.1
    have hcollected := collected_of_loop options ht
    rw [ht, hcollected.1.unique hw h.1 (hcollected.2.trans h.2.symm)]

/-- `getopt` has reported no error where the loop goes to its end. -/
theorem items_given {items : List (Item UInt8)}
    (h : items.foldlM (parseOption w longBits) s = .ok s') :
    ∃ options : List (Given UInt8), items = options.map Given.item := by
  induction items generalizing s with
  | nil => exact ⟨[], rfl⟩
  | cons item items ih =>
      rw [List.foldlM_cons] at h
      cases hitem : parseOption w longBits s item with
      | error u =>
          rw [hitem] at h
          cases h
      | ok t =>
          rw [hitem] at h
          obtain ⟨options, rfl⟩ := ih h
          cases item with
          | given c argument => exact ⟨(c, argument) :: options, rfl⟩
          | unknown c =>
              simp only [parseOption] at hitem
              split at hitem <;> cases hitem
          | missing c =>
              simp only [parseOption] at hitem
              split at hitem <;> cases hitem

end Options

section Names

theorem sameIgnoringCase_iff {str suf : List UInt8} (h : str.length = suf.length) :
    sameIgnoringCase str suf = true ↔ str.map tolower = suf.map tolower := by
  induction str generalizing suf with
  | nil =>
      cases suf with
      | nil => simp [sameIgnoringCase]
      | cons d suf => cases h
  | cons c str ih =>
      cases suf with
      | nil => cases h
      | cons d suf =>
          rw [List.length_cons, List.length_cons, Nat.add_right_cancel_iff] at h
          rw [sameIgnoringCase, List.map_cons, List.map_cons, List.cons.injEq, ← ih h]
          by_cases hc : tolower c = tolower d
          · rw [if_neg (not_not.mpr hc), and_iff_right hc]
          · rw [if_pos hc]
            simp only [Bool.false_eq_true, hc, false_and]

theorem strEndsWith_iff (str suf : List UInt8) :
    strEndsWith str suf = true ↔
      ∃ front back, str = front ++ back ∧ back.map tolower = suf.map tolower := by
  rw [strEndsWith]
  by_cases hlen : str.length < suf.length
  · rw [if_pos hlen]
    refine ⟨fun h => absurd h Bool.false_ne_true, ?_⟩
    rintro ⟨front, back, rfl, hback⟩
    have hsame := congrArg List.length hback
    rw [List.length_map, List.length_map] at hsame
    rw [List.length_append] at hlen
    omega
  · rw [if_neg hlen, sameIgnoringCase_iff (by rw [List.length_drop]; omega)]
    constructor
    · intro h
      exact ⟨_, _, (List.take_append_drop _ _).symm, h⟩
    · rintro ⟨front, back, rfl, hback⟩
      have hsame := congrArg List.length hback
      rw [List.length_map, List.length_map] at hsame
      rw [List.length_append, ← hsame, Nat.add_sub_cancel, List.drop_left]
      exact hback

theorem tarName_iff (name : List UInt8) :
    TarName name ↔
      strEndsWith name (chars ".tar") = true ∨ strEndsWith name (chars ".gtar") = true := by
  rw [strEndsWith_iff, strEndsWith_iff,
    show (chars ".tar").map tolower = chars ".tar" by decide,
    show (chars ".gtar").map tolower = chars ".gtar" by decide]
  constructor
  · rintro ⟨front, suffix, hname, htar | hgtar⟩
    · exact .inl ⟨front, suffix, hname, htar⟩
    · exact .inr ⟨front, suffix, hname, hgtar⟩
  · rintro (⟨front, suffix, hname, htar⟩ | ⟨front, suffix, hname, hgtar⟩)
    · exact ⟨front, suffix, hname, .inl htar⟩
    · exact ⟨front, suffix, hname, .inr hgtar⟩

theorem CString.ofBytes_bytes (s : CString) : CString.ofBytes s.bytes = s := by
  obtain ⟨bytes, no_nul⟩ := s
  rw [ofBytes, CString.mk.injEq]
  apply List.takeWhile_eq_self_iff.mpr
  intro c hc
  rw [bne_iff_ne]
  rintro rfl
  exact no_nul hc

end Names

/-- What the command line asks for. -/
structure Requests (w longBits : Nat) (options : List (Given UInt8)) (inv : Invocation w) :
    Prop where
  settings : Denotes w longBits options inv.settings
  /-- `-` is standard input. -/
  stdin : inv.stdinMode = true ↔ inv.inFilename.bytes = chars "-"
  /-- Raw mode, by `-r` or for a file that is not named as a tar archive. -/
  raw : inv.settings.rawMode = true ↔
    isGiven 'r' options = true ∨ (inv.stdinMode = false ∧ ¬ TarName inv.inFilename.bytes)

section Modes

variable {w longBits : Nat} {options : List (Given UInt8)} {s : Settings w}

theorem Settings.detectMode_eq (s : Settings w) (inFilename : CString) (stdinMode : Bool) :
    s.detectMode inFilename stdinMode = { s with
      rawMode := s.rawMode || (!stdinMode &&
        (!strEndsWith inFilename.bytes (chars ".tar") &&
          !strEndsWith inFilename.bytes (chars ".gtar"))) } := by
  rw [detectMode]
  cases hraw : s.rawMode <;> cases stdinMode <;> simp [Settings.ext_iff, hraw]

theorem Denotes.of_mode (h : Denotes w longBits options s) (rawMode : Bool) :
    Denotes w longBits options { s with rawMode := rawMode } :=
  ⟨h.goes, h.level, h.outFilename, h.minBlockSize, h.maxBlockSize, h.workers, h.verbose,
    h.skipSeekTable, h.overwrite⟩

theorem raw_iff (raw stdinMode : Bool) (name : List UInt8) :
    (raw || (!stdinMode && (!strEndsWith name (chars ".tar") &&
        !strEndsWith name (chars ".gtar")))) = true ↔
      raw = true ∨ (stdinMode = false ∧ ¬ TarName name) := by
  rw [tarName_iff]
  simp only [Bool.or_eq_true, Bool.and_eq_true, Bool.not_eq_true', not_or, Bool.not_eq_true]

end Modes

section Parsing

variable {w longBits : Nat} {permute : Bool} {argv : List CString} {inv : Invocation w}
  {options : List (Given UInt8)}

/-- What `parseArgs` returns was asked for. -/
theorem requests_of_parseArgs (hw : w = 32 ∨ w = 64)
    (h : parseArgs w longBits permute argv = .ok inv) :
    ∃ options, Spells optionGrammar permute (argv.map CString.bytes) options
        [inv.inFilename.bytes] ∧
      Requests w longBits options inv := by
  obtain ⟨items, operands, hscan⟩ :
      ∃ items operands, scan optionGrammar permute (argv.map CString.bytes) =
        (items, operands) := ⟨_, _, rfl⟩
  simp only [parseArgs, hscan] at h
  split at h
  case h_1 => cases h
  case h_2 s hloop =>
    split at h
    case h_1 => cases h
    case h_3 => cases h
    case h_2 operand =>
      split at h
      case isTrue => cases h
      case isFalse hordered =>
        cases h
        obtain ⟨options, rfl⟩ := items_given hloop
        have hspells := scan_eq_iff.mp hscan
        have hcollected := (loop_eq_ok_iff hw).mp hloop
        have hoperand : (CString.ofBytes operand).bytes = operand := by
          obtain ⟨arg, -, rfl⟩ := List.mem_map.mp (hspells.subset List.mem_cons_self)
          rw [CString.ofBytes_bytes]
        refine ⟨options, by rwa [hoperand], ?_, beq_iff_eq, ?_⟩
        · simp only [Settings.detectMode_eq]
          exact hcollected.1.of_mode _
        · simp only [Settings.detectMode_eq, ← hcollected.2]
          exact raw_iff _ _ _

/-- What is asked for is returned. -/
theorem parseArgs_of_requests (hw : w = 32 ∨ w = 64)
    (hspells : Spells optionGrammar permute (argv.map CString.bytes) options
      [inv.inFilename.bytes]) (hrequests : Requests w longBits options inv) :
    parseArgs w longBits permute argv = .ok inv := by
  have hcollected : Collected w longBits options
      { inv.settings with rawMode := isGiven 'r' options } :=
    ⟨hrequests.settings.of_mode _, rfl⟩
  have hstdin : isStdin inv.inFilename = inv.stdinMode := by
    rw [isStdin, Bool.eq_iff_iff, beq_iff_eq]
    exact hrequests.stdin.symm
  have hordered : ¬ (inv.settings.maxBlockSize.val ≠ 0 ∧
      inv.settings.maxBlockSize.val < inv.settings.minBlockSize.val) :=
    fun h => absurd (inv.ordered h.1) (Nat.not_le_of_lt h.2)
  simp only [parseArgs, scan_eq_iff.mpr hspells, (loop_eq_ok_iff hw).mpr hcollected]
  rw [dif_neg hordered]
  simp only [CString.ofBytes_bytes, hstdin]
  rw [Except.ok.injEq]
  refine Invocation.ext ?_ rfl rfl
  refine (Settings.detectMode_eq _ _ _).trans ?_
  refine Settings.ext rfl rfl rfl rfl rfl ?_ rfl rfl rfl
  rw [Bool.eq_iff_iff, raw_iff]
  exact hrequests.raw.symm

theorem argumentsOf_eq (letter : Char) (options : List (Given UInt8)) :
    argumentsOf letter options = (options.filter fun o => o.1 == letter.toUInt8).map
      fun o => .ofBytes (o.2.getD []) := by
  rw [argumentsOf, ← List.filterMap_eq_filter, List.map_filterMap]
  congr 1
  funext o
  by_cases hletter : o.1 = letter.toUInt8
  · simp [Option.guard, hletter]
  · simp [Option.guard, hletter]

theorem isGiven_eq (letter : Char) (options : List (Given UInt8)) :
    isGiven letter options = !(options.filter fun o => o.1 == letter.toUInt8).isEmpty := by
  rw [isGiven, Bool.eq_iff_iff, List.any_eq_true, Bool.not_eq_true', List.isEmpty_eq_false_iff]
  constructor
  · rintro ⟨o, ho, hletter⟩
    exact List.ne_nil_of_mem (List.mem_filter.mpr ⟨ho, hletter⟩)
  · intro hne
    obtain ⟨o, ho⟩ := List.exists_mem_of_ne_nil _ hne
    exact ⟨o, List.mem_filter.mp ho⟩

/-- Only the order among options of one letter counts. -/
theorem Requests.of_same {options' : List (Given UInt8)} (h : Requests w longBits options inv)
    (hsame : ∀ c : UInt8, (options.filter fun o => o.1 == c) = options'.filter fun o => o.1 == c) :
    Requests w longBits options' inv := by
  have harguments : ∀ letter, argumentsOf letter options = argumentsOf letter options' := by
    intro letter
    rw [argumentsOf_eq, argumentsOf_eq, hsame]
  have hgiven : ∀ letter, isGiven letter options = isGiven letter options' := by
    intro letter
    rw [isGiven_eq, isGiven_eq, hsame]
  obtain ⟨⟨goes, level, outFilename, minBlockSize, maxBlockSize, workers, verbose, skipSeekTable,
    overwrite⟩, stdin, raw⟩ := h
  simp only [harguments, hgiven] at *
  exact ⟨⟨goes, level, outFilename, minBlockSize, maxBlockSize, workers, verbose, skipSeekTable,
    overwrite⟩, stdin, raw⟩

end Parsing

/-- `parseArgs` returns exactly for the command lines that spell, in whatever way,
options that mean something and one operand, and returns what they ask for. -/
theorem parseArgs_eq_ok_iff {w : Nat} (hw : w = 32 ∨ w = 64) (longBits : Nat) (permute : Bool)
    (argv : List CString) (inv : Invocation w) :
    parseArgs w longBits permute argv = .ok inv ↔
      ∃ options, Spells optionGrammar permute (argv.map CString.bytes) options
          [inv.inFilename.bytes] ∧
        Requests w longBits options inv := by
  constructor
  · exact requests_of_parseArgs hw
  · rintro ⟨options, hspells, hrequests⟩
    exact parseArgs_of_requests hw hspells hrequests

/-- `-rs 1k -l +5 x.tar` -/
def clusteredLine : List CString :=
  [⟨chars "-rs", by decide⟩, ⟨chars "1k", by decide⟩, ⟨chars "-l", by decide⟩,
    ⟨chars "+5", by decide⟩, ⟨chars "x.tar", by decide⟩]

/-- Raw mode, blocks of 1024 bytes and level 5. -/
def clusteredInvocation : Invocation 64 where
  settings := { Settings.newContext 64 with
    level := 5
    minBlockSize := .ofNat 64 1024
    rawMode := true }
  inFilename := ⟨chars "x.tar", by decide⟩
  stdinMode := false
  ordered := fun h => absurd rfl h

theorem parseArgs_eq_ok_iff_clustered :
    ∃ options, Spells optionGrammar true (clusteredLine.map CString.bytes) options
        [clusteredInvocation.inFilename.bytes] ∧
      Requests 64 64 options clusteredInvocation :=
  (parseArgs_eq_ok_iff (.inr rfl) 64 true clusteredLine clusteredInvocation).mp
    (by decide +kernel)

/-- Options of different letters can be given in any order, in clusters or apart, and
on either side of the operand. -/
theorem parseArgs_reordered {w : Nat} (hw : w = 32 ∨ w = 64) {longBits : Nat}
    {permute permute' : Bool} {argv argv' : List CString} {options options' : List (Given UInt8)}
    {operands : List (List UInt8)}
    (hspells : Spells optionGrammar permute (argv.map CString.bytes) options operands)
    (hspells' : Spells optionGrammar permute' (argv'.map CString.bytes) options' operands)
    (hsame : ∀ c : UInt8, (options.filter fun o => o.1 == c) = options'.filter fun o => o.1 == c)
    (inv : Invocation w) :
    parseArgs w longBits permute argv = .ok inv ↔
      parseArgs w longBits permute' argv' = .ok inv := by
  constructor
  · intro h
    obtain ⟨given, hgiven, hrequests⟩ := requests_of_parseArgs hw h
    obtain ⟨rfl, rfl⟩ := hgiven.unique hspells
    exact parseArgs_of_requests hw hspells' (hrequests.of_same hsame)
  · intro h
    obtain ⟨given, hgiven, hrequests⟩ := requests_of_parseArgs hw h
    obtain ⟨rfl, rfl⟩ := hgiven.unique hspells'
    exact parseArgs_of_requests hw hspells (hrequests.of_same fun c => (hsame c).symm)

/-- No table, and messages. -/
def flagsInvocation : Invocation 64 where
  settings := { Settings.newContext 64 with
    skipSeekTable := true
    verbose := true }
  inFilename := ⟨chars "x.tar", by decide⟩
  stdinMode := false
  ordered := fun h => absurd rfl h

/-- `x.tar -j -v` and `-vj x.tar` -/
theorem parseArgs_reordered_flags :
    parseArgs 64 64 true [⟨chars "x.tar", by decide⟩, ⟨chars "-j", by decide⟩,
        ⟨chars "-v", by decide⟩] = .ok flagsInvocation ↔
      parseArgs 64 64 true [⟨chars "-vj", by decide⟩, ⟨chars "x.tar", by decide⟩] =
        .ok flagsInvocation :=
  @parseArgs_reordered 64 (.inr rfl) 64 true true _ _ [('j'.toUInt8, none), ('v'.toUInt8, none)]
    [('v'.toUInt8, none), ('j'.toUInt8, none)] [chars "x.tar"]
    (scan_eq_iff.mp (by decide +kernel)) (scan_eq_iff.mp (by decide +kernel))
    (by
      intro c
      by_cases hj : 'j'.toUInt8 = c
      · subst hj
        rfl
      · by_cases hv : 'v'.toUInt8 = c <;> simp [hj, hv]) flagsInvocation

end T2sz
