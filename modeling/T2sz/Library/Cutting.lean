import Mathlib.Data.List.Basic
import Mathlib.Tactic.Common

/-!
A sequence cut into pieces of one size, element by element.

An element goes into the open piece, which is closed when that fills it; without
an open piece it opens one, with the label `fresh`. Feeding a list is a fold, so it
does not matter in which parts the list comes, and a part that fits into the open
piece may be put there as a whole.
-/

namespace Cutting

universe u v
variable {π : Type u} {α : Type v}

@[ext]
structure Piece (π : Type u) (α : Type v) where
  label : π
  content : List α

@[ext]
structure Cuts (π : Type u) (α : Type v) where
  closed : List (Piece π α)
  opened : Option (Piece π α)

namespace Cuts

/-- The open piece, or the one that the next element opens. -/
def current (fresh : π) (s : Cuts π α) : Piece π α := s.opened.getD ⟨fresh, []⟩

/-- The open piece is replaced by this one, and closed if that is full. -/
def put (size : Nat) (s : Cuts π α) (piece : Piece π α) : Cuts π α :=
  if size ≤ piece.content.length then ⟨s.closed ++ [piece], none⟩ else ⟨s.closed, some piece⟩

def add (size : Nat) (fresh : π) (s : Cuts π α) (x : α) : Cuts π α :=
  s.put size ⟨(s.current fresh).label, (s.current fresh).content ++ [x]⟩

def feed (size : Nat) (fresh : π) (s : Cuts π α) (xs : List α) : Cuts π α :=
  xs.foldl (add size fresh) s

/-- What is in the pieces, in their order. -/
def content (s : Cuts π α) : List α :=
  s.closed.flatMap Piece.content ++ (s.opened.map Piece.content).getD []

/-- The open piece is not full. -/
def Roomy (size : Nat) (s : Cuts π α) : Prop :=
  ∀ piece, s.opened = some piece → piece.content.length < size

variable {size : Nat} {fresh : π} {s : Cuts π α}

@[simp] theorem feed_nil : s.feed size fresh [] = s := rfl

theorem feed_cons (x : α) (xs : List α) :
    s.feed size fresh (x :: xs) = (s.add size fresh x).feed size fresh xs := rfl

/-- The seam between two parts is invisible. -/
theorem feed_append (xs ys : List α) :
    s.feed size fresh (xs ++ ys) = (s.feed size fresh xs).feed size fresh ys :=
  List.foldl_append

theorem put_roomy (piece : Piece π α) : (s.put size piece).Roomy size := by
  intro p hp
  rw [put] at hp
  split at hp
  case isTrue => cases hp
  case isFalse hroom =>
    cases hp
    exact Nat.not_le.mp hroom

/-- A part that fits goes into the open piece as a whole. -/
theorem feed_fitting {piece : Piece π α} (hopen : s.opened = some piece) {xs : List α}
    (hne : xs ≠ []) (hfits : piece.content.length + xs.length ≤ size) :
    s.feed size fresh xs = s.put size ⟨piece.label, piece.content ++ xs⟩ := by
  induction xs generalizing s piece with
  | nil => exact absurd rfl hne
  | cons x xs ih =>
      have hcurrent : s.current fresh = piece := by rw [current, hopen, Option.getD_some]
      rw [List.length_cons] at hfits
      rw [feed_cons, add, hcurrent]
      cases xs with
      | nil => rfl
      | cons y ys =>
          have hroom : ¬ size ≤ (piece.content ++ [x]).length := by
            rw [List.length_append, List.length_singleton]
            rw [List.length_cons] at hfits
            omega
          have hput : s.put size ⟨piece.label, piece.content ++ [x]⟩ =
              ⟨s.closed, some ⟨piece.label, piece.content ++ [x]⟩⟩ := if_neg hroom
          rw [hput, @ih ⟨s.closed, some ⟨piece.label, piece.content ++ [x]⟩⟩ _ rfl
            (List.cons_ne_nil _ _) (by
              simp only [List.length_append, List.length_singleton]
              omega)]
          simp only [put, List.append_assoc, List.singleton_append]

/-- The first element opens the piece that it goes into. -/
theorem feed_opens (hnone : s.opened = none) {xs : List α} (hne : xs ≠ []) :
    s.feed size fresh xs = feed size fresh ⟨s.closed, some ⟨fresh, []⟩⟩ xs := by
  cases xs with
  | nil => exact absurd rfl hne
  | cons x xs =>
      have hcurrent : s.current fresh = ⟨fresh, []⟩ := by rw [current, hnone, Option.getD_none]
      rw [feed_cons, feed_cons, add, hcurrent]
      rfl

theorem content_put (piece : Piece π α) :
    (s.put size piece).content = s.closed.flatMap Piece.content ++ piece.content := by
  rw [put]
  split
  · simp [content]
  · rfl

theorem content_add (x : α) : (s.add size fresh x).content = s.content ++ [x] := by
  rw [add, content_put, content, List.append_assoc]
  cases hopen : s.opened with
  | none => simp [current, hopen]
  | some piece => simp [current, hopen]

/-- Everything that is fed is in the pieces. -/
theorem content_feed (xs : List α) : (s.feed size fresh xs).content = s.content ++ xs := by
  induction xs generalizing s with
  | nil => rw [feed_nil, List.append_nil]
  | cons x xs ih => rw [feed_cons, ih, content_add, List.append_assoc, List.singleton_append]

theorem closed_add (hsize : 0 < size) (h : s.Roomy size) (x : α) :
    ∃ full : List (Piece π α), (s.add size fresh x).closed = s.closed ++ full ∧
      ∀ piece ∈ full, piece.content.length = size := by
  have hcurrent : (s.current fresh).content.length < size := by
    cases hopen : s.opened with
    | none => simpa [current, hopen] using hsize
    | some piece => simpa [current, hopen] using h piece hopen
  rw [add, put]
  split
  case isTrue hfull =>
    refine ⟨[_], rfl, ?_⟩
    intro piece hpiece
    rw [List.mem_singleton] at hpiece
    subst hpiece
    rw [List.length_append, List.length_singleton] at hfull ⊢
    omega
  case isFalse => exact ⟨[], (List.append_nil _).symm, List.forall_mem_nil _⟩

/-- The pieces that are closed on the way are full. -/
theorem closed_feed (hsize : 0 < size) (h : s.Roomy size) (xs : List α) :
    ∃ full : List (Piece π α), (s.feed size fresh xs).closed = s.closed ++ full ∧
      ∀ piece ∈ full, piece.content.length = size := by
  induction xs generalizing s with
  | nil => exact ⟨[], (List.append_nil _).symm, List.forall_mem_nil _⟩
  | cons x xs ih =>
      obtain ⟨first, hfirst, hsizes⟩ := @closed_add π α size fresh s hsize h x
      obtain ⟨later, hlater, hrest⟩ := @ih (s.add size fresh x) (put_roomy _)
      refine ⟨first ++ later, ?_, ?_⟩
      · rw [feed_cons, hlater, hfirst, List.append_assoc]
      · intro piece hpiece
        rw [List.mem_append] at hpiece
        exact hpiece.elim (hsizes piece) (hrest piece)

end Cuts

end Cutting
