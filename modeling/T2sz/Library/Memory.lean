import Mathlib.Algebra.Group.Nat.Defs
import Mathlib.Data.Nat.Basic
import Mathlib.Tactic.Common

/-!
Buffers with bounds, and differences and conversions that must be exact.

An operation gives `none` where the program would leave a buffer or wrap a
number. A program written with them has a result exactly when it does neither.
-/

namespace Memory

universe u
variable {α : Type u}

/-- The element at an index of the buffer. -/
def read (buffer : List α) (index : Nat) : Option α := buffer[index]?

/-- The `n` elements from an index on, all of them in the buffer. -/
def range (buffer : List α) (index n : Nat) : Option (List α) :=
  if index + n ≤ buffer.length then some ((buffer.drop index).take n) else none

/-- A write of `n` elements into an array of `size`. -/
def store (size index n : Nat) : Option Unit :=
  if index + n ≤ size then some () else none

/-- A difference that does not underflow. -/
def minus (a b : Nat) : Option Nat := if b ≤ a then some (a - b) else none

/-- A number that a word of `w` bits holds. -/
def narrow (w a : Nat) : Option Nat := if a < 2 ^ w then some a else none

theorem read_of_lt {buffer : List α} {index : Nat} (h : index < buffer.length) :
    read buffer index = some buffer[index] :=
  List.getElem?_eq_getElem h

theorem range_of_le {buffer : List α} {index n : Nat} (h : index + n ≤ buffer.length) :
    range buffer index n = some ((buffer.drop index).take n) := if_pos h

theorem store_of_le {size index n : Nat} (h : index + n ≤ size) : store size index n = some () :=
  if_pos h

theorem minus_of_le {a b : Nat} (h : b ≤ a) : minus a b = some (a - b) := if_pos h

theorem minus_of_lt {a b : Nat} (h : a < b) : minus a b = none := if_neg (Nat.not_le.mpr h)

theorem narrow_of_lt {w a : Nat} (h : a < 2 ^ w) : narrow w a = some a := if_pos h

end Memory
