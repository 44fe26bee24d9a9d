import Mathlib.Algebra.Group.Nat.Defs
import Mathlib.Algebra.GroupWithZero.Nat
import Mathlib.Data.List.Basic
import Mathlib.Tactic.Common

/-!
A buffered input stream with an end-of-file indicator, as C has it.

A read fills the empty buffer with what the descriptor returns for one call; an
empty answer is the end of the file, and sets the indicator. While it is set
nothing more is read, whatever the descriptor would return. A terminal answers
with at most one line a call.
-/

namespace Stdio

universe u

structure Input (β : Type u) where
  buffer : List β
  /-- What the calls of `read` will return. -/
  reads : List (List β)
  eof : Bool
  deriving DecidableEq

namespace Input

variable {β : Type u}

def ofReads (reads : List (List β)) : Input β := ⟨[], reads, false⟩

/-- What the stream still delivers. -/
def rest (s : Input β) : List β :=
  s.buffer ++ if s.eof then [] else (s.reads.takeWhile (!·.isEmpty)).flatten

/-- The descriptor is replaced, the stream is not. -/
def redirect (reads : List (List β)) (s : Input β) : Input β := { s with reads := reads }

def getchar (s : Input β) : Option β × Input β :=
  match s.buffer with
  | c :: buffer => (some c, { s with buffer := buffer })
  | [] =>
      if s.eof then (none, s)
      else
        match s.reads with
        | (c :: buffer) :: reads => (some c, ⟨buffer, reads, false⟩)
        | [] :: reads => (none, ⟨[], reads, true⟩)
        | [] => (none, ⟨[], [], true⟩)

/-- How many calls of `getchar` reach the end at most. -/
def size (s : Input β) : Nat := s.buffer.length + (s.reads.map fun r => r.length + 1).sum

/-- What a terminal returns: a line, or the end of the file. -/
def Line (newline : β) (read : List β) : Prop :=
  ∀ front back, read = front ++ newline :: back → back = []

section Getchar

variable {s t : Input β} {c : β}

theorem size_of_getchar (h : s.getchar = (some c, t)) : t.size < s.size := by
  unfold getchar at h
  split at h
  case h_1 d buffer hbuffer =>
    cases h
    simp only [size, hbuffer, List.length_cons]
    omega
  case h_2 hbuffer =>
    split at h
    case isTrue => cases h
    case isFalse heof =>
      split at h
      case h_1 d buffer reads hreads =>
        cases h
        simp only [size, hbuffer, hreads, List.length_nil, List.map_cons, List.sum_cons,
          List.length_cons]
        omega
      case h_2 => cases h
      case h_3 => cases h

end Getchar

variable [DecidableEq β]

/-- Characters are read, from `c` on, up to the end of the line or of the file. -/
def skipLine (newline : β) : Nat → Option β → Input β → Option β × Input β
  | 0, c, s => (c, s)
  | fuel + 1, c, s =>
      if c ≠ some newline ∧ c ≠ none then skipLine newline fuel s.getchar.1 s.getchar.2
      else (c, s)

/-- The first character of a line, and the stream behind the line. -/
def answer (newline : β) (s : Input β) : Option β × Input β :=
  (s.getchar.1, (skipLine newline (s.getchar.2.size + 1) s.getchar.1 s.getchar.2).2)

/-- Between two reads of a terminal: there is at most the rest of a line. -/
structure Typed (newline : β) (s : Input β) : Prop where
  buffer : Line newline s.buffer
  reads : ∀ read ∈ s.reads, Line newline read

/-- What a stream is like when it has delivered `c`: behind a newline the buffer is
empty, and behind the end of the file it is empty for good. -/
structure Delivered (newline : β) (c : Option β) (s : Input β) : Prop where
  typed : Typed newline s
  newline : c = some newline → s.buffer = []
  finished : c = none → s.buffer = [] ∧ s.eof = true
  goes : c ≠ none → s.eof = false

variable {newline : β} {s : Input β}

omit [DecidableEq β] in
theorem Line.tail {c : β} {read : List β} (h : Line newline (c :: read)) : Line newline read := by
  intro front back hread
  exact h (c :: front) back (by rw [hread, List.cons_append])

omit [DecidableEq β] in
theorem Typed.getchar (h : Typed newline s) (heof : s.eof = false) :
    Delivered newline s.getchar.1 s.getchar.2 := by
  unfold Input.getchar
  split
  case h_1 c buffer hbuffer =>
    have hline : Line newline (c :: buffer) := hbuffer ▸ h.buffer
    refine ⟨⟨hline.tail, h.reads⟩, ?_, fun hc => (nomatch hc), fun _ => heof⟩
    intro hc
    cases hc
    exact hline [] buffer rfl
  case h_2 hbuffer =>
    rw [if_neg (by rw [heof]; exact Bool.false_ne_true)]
    have hreads := h.reads
    split
    case h_1 c buffer reads hsome =>
      rw [hsome] at hreads
      have hline : Line newline (c :: buffer) := hreads _ List.mem_cons_self
      refine ⟨⟨hline.tail, fun read hread => hreads read (List.mem_cons_of_mem _ hread)⟩, ?_,
        fun hc => (nomatch hc), fun _ => rfl⟩
      intro hc
      cases hc
      exact hline [] buffer rfl
    case h_2 reads hend =>
      rw [hend] at hreads
      refine ⟨⟨?_, fun read hread => hreads read (List.mem_cons_of_mem _ hread)⟩,
        fun hc => (nomatch hc), fun _ => ⟨rfl, rfl⟩, fun hc => absurd rfl hc⟩
      intro front back hnil
      cases front <;> cases hnil
    case h_3 hend =>
      refine ⟨⟨?_, fun read hread => absurd hread List.not_mem_nil⟩, fun hc => (nomatch hc),
        fun _ => ⟨rfl, rfl⟩, fun hc => absurd rfl hc⟩
      intro front back hnil
      cases front <;> cases hnil

/-- The loop stops behind a newline or behind the end of the file. -/
theorem Delivered.skipLine (fuel : Nat) {c : Option β} (h : Delivered newline c s)
    (hfuel : s.size < fuel) :
    Delivered newline (Input.skipLine newline fuel c s).1 (Input.skipLine newline fuel c s).2 ∧
      ((Input.skipLine newline fuel c s).1 = some newline ∨
        (Input.skipLine newline fuel c s).1 = none) := by
  induction fuel generalizing c s with
  | zero => omega
  | succ fuel ih =>
      rw [Input.skipLine]
      by_cases hmore : c ≠ some newline ∧ c ≠ none
      · rw [if_pos hmore]
        have hnext := h.typed.getchar (h.goes hmore.2)
        cases hc : s.getchar.1 with
        | some d =>
            have hsize := size_of_getchar (show s.getchar = (some d, s.getchar.2) by rw [← hc])
            rw [hc] at hnext
            exact ih hnext (by omega)
        | none =>
            rw [hc] at hnext
            cases fuel with
            | zero => exact ⟨hnext, .inr rfl⟩
            | succ fuel =>
                rw [Input.skipLine, if_neg (fun hnone => hnone.2 rfl)]
                exact ⟨hnext, .inr rfl⟩
      · rw [if_neg hmore]
        refine ⟨h, ?_⟩
        by_contra hneither
        rw [not_or] at hneither
        exact hmore hneither

/-- Behind an answer typed on a terminal nothing is left in the buffer; what the
descriptor delivers from then on is delivered, unless the answer ended with the
file. -/
theorem answer_typed {reads : List (List β)} (h : ∀ read ∈ reads, Line newline read)
    (reads' : List (List β)) :
    (redirect reads' (answer newline (.ofReads reads)).2).rest =
      if (answer newline (.ofReads reads)).2.eof then []
      else (reads'.takeWhile (!·.isEmpty)).flatten := by
  have hstart : Typed newline (.ofReads reads) := by
    refine ⟨?_, h⟩
    intro front back hnil
    cases front <;> cases hnil
  have hfirst := hstart.getchar rfl
  obtain ⟨hend, hlast⟩ := hfirst.skipLine _ (Nat.lt_succ_self _)
  have hbuffer : (answer newline (.ofReads reads)).2.buffer = [] := by
    cases hlast with
    | inl hline => exact hend.newline hline
    | inr hnone => exact (hend.finished hnone).1
  rw [rest, redirect, hbuffer, List.nil_append]

end Input

end Stdio
