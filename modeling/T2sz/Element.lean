import T2sz.Header
import T2sz.Library.Blocking

/-!
The elements of a tar archive, as either parser recognises them.

An entry is its header block with its sparse extension blocks and its padded
payload, and says whether it joins the next entry; a null block joins the next
element when that is a null block too, so a run of null blocks is one group.
The exits are the messages with which a parser gives up.
-/

namespace T2sz

inductive Exit
  | truncatedArchive
  | invalidHeader
  | entryTooLarge
  | truncatedEntry
  | readError
  | truncatedHeader
  | unexpectedEof
  | noEntries
  | outOfMemory
  | writeFailed
  | zstdError
  deriving DecidableEq

inductive Element
  | null (offset : Nat)
  /-- `paxNextSize` is the size carried on behind the entry. -/
  | entry (offset length : Nat) (joinsNext : Bool) (paxNextSize : Nat)
  deriving DecidableEq

namespace Element

def offset : Element → Nat
  | null offset => offset
  | entry offset _ _ _ => offset

def length : Element → Nat
  | null _ => 512
  | entry _ length _ _ => length

def stop (e : Element) : Nat := e.offset + e.length

def isNull : Element → Bool
  | null _ => true
  | entry _ _ _ _ => false

/-- Whether the element belongs in the frame of the one after it. -/
def joins : Element → Option Element → Bool
  | null _, next => next.any isNull
  | entry _ _ joinsNext _, _ => joinsNext

/-- What `-v` shows of an element, and whether it joins: not the carried size. -/
def shape : Element → Element
  | null offset => null offset
  | entry offset length joinsNext _ => entry offset length joinsNext 0

/-- The size carried on behind an entry. -/
def carried : Element → Option Nat
  | null _ => none
  | entry _ _ _ paxNextSize => some paxNextSize

@[simp] theorem shape_length (e : Element) : e.shape.length = e.length := by
  cases e <;> rfl

@[simp] theorem shape_isNull (e : Element) : e.shape.isNull = e.isNull := by
  cases e <;> rfl

@[simp] theorem length_null (offset : Nat) : (null offset).length = 512 := rfl

@[simp] theorem length_entry (offset length : Nat) (j : Bool) (pax : Nat) :
    (entry offset length j pax).length = length := rfl

@[simp] theorem joins_entry (offset length : Nat) (j : Bool) (pax : Nat) (next : Option Element) :
    (entry offset length j pax).joins next = j := rfl

@[simp] theorem joins_null_none (offset : Nat) : (null offset).joins none = false := rfl

@[simp] theorem joins_null_some (offset : Nat) (next : Element) :
    (null offset).joins (some next) = next.isNull := rfl

end Element

/-- Sizes and joins of the elements, `last` standing for the join of the last one. -/
def openSpans : List Element → Bool → List (Nat × Bool)
  | [], _ => []
  | [e], last => [(e.length, last)]
  | e :: next :: rest, last => (e.length, e.joins (some next)) :: openSpans (next :: rest) last

/-- Whether the last element joins, when `next` comes after it. -/
def lastJoins (log : List Element) (next : Option Element) : Bool :=
  match log.getLast? with
  | some e => e.joins next
  | none => false

def spans (log : List Element) : List (Nat × Bool) := openSpans log (lastJoins log none)

theorem lastJoins_append (log : List Element) (e : Element) (next : Option Element) :
    lastJoins (log ++ [e]) next = e.joins next := by
  simp [lastJoins]

theorem openSpans_append (log : List Element) (e : Element) (last : Bool) :
    openSpans (log ++ [e]) last =
      openSpans log (lastJoins log (some e)) ++ [(e.length, last)] := by
  induction log with
  | nil => rfl
  | cons a log ih =>
      cases log with
      | nil => rfl
      | cons b log =>
          have hlast : lastJoins (a :: b :: log) (some e) = lastJoins (b :: log) (some e) := by
            simp [lastJoins]
          simp only [List.cons_append, openSpans, hlast]
          simpa using ih

theorem joins_shape (e : Element) (next : Option Element) :
    e.shape.joins (next.map Element.shape) = e.joins next := by
  cases e with
  | null offset =>
      cases next with
      | none => rfl
      | some next => exact next.shape_isNull
  | entry offset length joinsNext pax => rfl

/-- The spans do not depend on the carried sizes. -/
theorem spans_shape (log : List Element) : spans (log.map Element.shape) = spans log := by
  have hopen : ∀ (log : List Element) (last : Bool),
      openSpans (log.map Element.shape) last = openSpans log last := by
    intro log last
    induction log with
    | nil => rfl
    | cons a log ih =>
        cases log with
        | nil => simp [openSpans]
        | cons b log =>
            have hjoin := joins_shape a (some b)
            simp only [Option.map_some] at hjoin
            simp only [List.map_cons, openSpans, Element.shape_length, hjoin] at ih ⊢
            rw [ih]
  have hlast : lastJoins (log.map Element.shape) none = lastJoins log none := by
    simp only [lastJoins, List.getLast?_map]
    cases log.getLast? with
    | none => rfl
    | some e => exact joins_shape e none
  rw [spans, spans, hlast, hopen]

/-- The spans element by element. -/
theorem spans_cons (a : Element) (log : List Element) :
    spans (a :: log) = (a.length, a.joins log.head?) :: spans log := by
  cases log with
  | nil => rfl
  | cons b log =>
      have hlast : lastJoins (a :: b :: log) none = lastJoins (b :: log) none := by
        simp [lastJoins]
      simp only [spans, openSpans, hlast, List.head?_cons]

end T2sz
