import Mathlib.Data.List.Basic
import Mathlib.Tactic.Common

/-!
The descriptors of a process.

Opening takes the lowest descriptor that is not in use, so what a descriptor
leads to depends on those that are closed. Each operation is given by what it
changes; the descriptors that it does not name are left alone.
-/

namespace Descriptors

universe u

/-- What the descriptors lead to. Those behind the end are not in use. -/
structure Table (α : Type u) where
  slots : List (Option α)

namespace Table

variable {α : Type u}

def get (t : Table α) (fd : Nat) : Option α := t.slots.getD fd none

/-- Descriptor `fd` leads to `x`, or nowhere. -/
def put (t : Table α) (fd : Nat) (x : Option α) : Table α :=
  ⟨(t.slots ++ List.replicate (fd + 1 - t.slots.length) none).set fd x⟩

/-- The lowest descriptor that is not in use. -/
def lowest (t : Table α) : Nat := t.slots.findIdx Option.isNone

/-- `open` -/
def openFd (t : Table α) (x : α) : Nat × Table α := (t.lowest, t.put t.lowest (some x))

/-- `close` -/
def close (t : Table α) (fd : Nat) : Table α := t.put fd none

/-- `dup2` -/
def dup2 (t : Table α) (fd fd' : Nat) : Table α := t.put fd' (t.get fd)

variable {t : Table α} {fd n : Nat}

theorem get_put (t : Table α) (fd n : Nat) (x : Option α) :
    (t.put fd x).get n = if n = fd then x else t.get n := by
  simp only [get, put, List.getD_eq_getElem?_getD]
  by_cases hn : n = fd
  · subst hn
    rw [if_pos rfl, List.getElem?_set_self]
    · rfl
    · rw [List.length_append, List.length_replicate]
      omega
  · rw [if_neg hn, List.getElem?_set_ne (Ne.symm hn), List.getElem?_append]
    split
    case isTrue => rfl
    case isFalse hout =>
      rw [List.getElem?_eq_none (Nat.le_of_not_lt hout), List.getElem?_replicate]
      split <;> rfl

theorem get_lowest (t : Table α) : t.get t.lowest = none := by
  rw [get, List.getD_eq_getElem?_getD]
  cases hslot : t.slots[t.lowest]? with
  | none => rfl
  | some x =>
      obtain ⟨hlt, rfl⟩ := List.getElem?_eq_some_iff.mp hslot
      have hfound := List.findIdx_getElem (w := hlt)
      exact Option.isNone_iff_eq_none.mp hfound

/-- A file that is opened, moved to another descriptor and closed at its own. -/
theorem get_moved (t : Table α) (fd n : Nat) (x : α) (hne : (t.openFd x).1 ≠ fd) :
    (((t.openFd x).2.dup2 (t.openFd x).1 fd).close (t.openFd x).1).get n =
      if n = fd then some x else t.get n := by
  simp only [openFd] at hne ⊢
  simp only [dup2, close, get_put]
  by_cases hlow : n = t.lowest
  · subst hlow
    rw [if_pos rfl, if_neg hne, get_lowest]
  · simp only [if_neg hlow, if_true]

/-- A file that is opened and closed. -/
theorem get_closed (t : Table α) (n : Nat) (x : α) :
    ((t.openFd x).2.close (t.openFd x).1).get n = t.get n := by
  simp only [openFd, close, get_put]
  by_cases hlow : n = t.lowest
  · subst hlow
    rw [if_pos rfl, get_lowest]
  · rw [if_neg hlow, if_neg hlow]

/-- A file that is opened. -/
theorem get_openFd (t : Table α) (n : Nat) (x : α) :
    (t.openFd x).2.get n = if n = (t.openFd x).1 then some x else t.get n :=
  get_put t t.lowest n (some x)

/-- A file that is to be at a descriptor that was not in use, and is moved there if
it is not. -/
theorem get_opened_at (t : Table α) (fd n : Nat) (x : α) :
    (if (t.openFd x).1 ≠ fd then
        ((t.openFd x).2.dup2 (t.openFd x).1 fd).close (t.openFd x).1
      else (t.openFd x).2).get n = if n = fd then some x else t.get n := by
  split
  case isTrue hne => exact get_moved t fd n x hne
  case isFalse heq => rw [get_openFd, not_not.mp heq]

end Table

end Descriptors
