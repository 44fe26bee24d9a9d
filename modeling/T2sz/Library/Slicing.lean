import Mathlib.Data.List.Basic
import Mathlib.Tactic.Common

/-!
The consecutive slices of a list.

A list of `n` elements has `(n + k - 1) / k` slices of `k` elements, the last of
which may be shorter. Lists of the same sizes that make the same list are the
same, so the sizes tell whether a list of pieces is that of the slices.
-/

namespace Slicing

universe u
variable {α : Type u}

def sliceAt (k : Nat) (l : List α) (i : Nat) : List α := (l.drop (k * i)).take k

/-- The first `m` slices. -/
def first (k : Nat) (l : List α) (m : Nat) : List (List α) := (List.range m).map (sliceAt k l)

def slices (k : Nat) (l : List α) : List (List α) := first k l ((l.length + k - 1) / k)

variable {k m : Nat} {l : List α}

theorem length_sliceAt (k : Nat) (l : List α) (i : Nat) :
    (sliceAt k l i).length = min k (l.length - k * i) := by
  rw [sliceAt, List.length_take, List.length_drop]

@[simp] theorem first_zero (k : Nat) (l : List α) : first k l 0 = [] := rfl

theorem first_succ (k : Nat) (l : List α) (m : Nat) :
    first k l (m + 1) = first k l m ++ [sliceAt k l m] := by
  rw [first, List.range_succ, List.map_append]
  rfl

@[simp] theorem length_first (k : Nat) (l : List α) (m : Nat) : (first k l m).length = m := by
  rw [first, List.length_map, List.length_range]

theorem flatten_first (k : Nat) (l : List α) (m : Nat) :
    (first k l m).flatten = l.take (k * m) := by
  induction m with
  | zero => rw [first_zero, List.flatten_nil, Nat.mul_zero, List.take_zero]
  | succ m ih =>
      rw [first_succ, List.flatten_append, ih, List.flatten_singleton, sliceAt, Nat.mul_succ,
        List.take_add]

/-- The slices are complete once they reach the end of the list. -/
theorem first_eq_slices (hk : 0 < k) (hend : l.length ≤ k * m) (hstart : k * m < l.length + k) :
    first k l m = slices k l := by
  have hcount : (l.length + k - 1) / k = m := by
    rw [Nat.div_eq_iff hk]
    rw [Nat.mul_comm] at hend hstart
    omega
  rw [slices, hcount]

theorem count_le (hk : 0 < k) (l : List α) :
    l.length ≤ k * ((l.length + k - 1) / k) ∧
      k * ((l.length + k - 1) / k) < l.length + k := by
  have hdiv := Nat.div_add_mod (l.length + k - 1) k
  have hmod := Nat.mod_lt (l.length + k - 1) hk
  omega

theorem flatten_slices (hk : 0 < k) (l : List α) : (slices k l).flatten = l := by
  rw [slices, flatten_first]
  exact List.take_of_length_le (count_le hk l).1

/-- All slices but the last have `k` elements, and none is empty. -/
theorem length_getElem_slices (hk : 0 < k) {i : Nat} (h : i < (slices k l).length) :
    (i + 1 < (slices k l).length → (slices k l)[i].length = k) ∧
      1 ≤ (slices k l)[i].length ∧ (slices k l)[i].length ≤ k := by
  have hcount := (count_le hk l).2
  have hget : (slices k l)[i].length = min k (l.length - k * i) := by
    simp only [slices, first, List.getElem_map, List.getElem_range, length_sliceAt]
  simp only [slices, length_first] at h
  rw [hget]
  simp only [slices, length_first]
  generalize (l.length + k - 1) / k = count at *
  have hhere : k * i + k ≤ k * count := by
    rw [← Nat.mul_succ]
    exact Nat.mul_le_mul_left k h
  refine ⟨?_, by omega, Nat.min_le_left _ _⟩
  intro hnext
  have hbehind : k * i + k + k ≤ k * count := by
    rw [← Nat.mul_succ, ← Nat.mul_succ]
    exact Nat.mul_le_mul_left k hnext
  omega

/-- The sizes of the slices. -/
theorem map_length_slices (hk : 0 < k) (l : List α) :
    (slices k l).map List.length = List.replicate (l.length / k) k ++
      if 0 < l.length % k then [l.length % k] else [] := by
  have hfull : ∀ m, k * m ≤ l.length → (first k l m).map List.length = List.replicate m k := by
    intro m
    induction m with
    | zero =>
        intro _
        rfl
    | succ m ih =>
        intro hm
        rw [Nat.mul_succ] at hm
        rw [first_succ, List.map_append, ih (by omega), List.map_singleton, length_sliceAt,
          Nat.min_eq_left (by omega), List.replicate_succ']
  have hdiv := Nat.div_add_mod l.length k
  have hmod := Nat.mod_lt l.length hk
  by_cases hrest : 0 < l.length % k
  · rw [← @first_eq_slices α k (l.length / k + 1) l hk (by rw [Nat.mul_succ]; omega)
      (by rw [Nat.mul_succ]; omega), if_pos hrest, first_succ, List.map_append,
      hfull _ (by omega), List.map_singleton, length_sliceAt]
    congr 2
    omega
  · rw [← @first_eq_slices α k (l.length / k) l hk (by omega) (by omega), if_neg hrest,
      hfull _ (by omega), List.append_nil]

/-- Pieces of these sizes that make the list are its slices. -/
theorem eq_slices (hk : 0 < k) {pieces : List (List α)} (hflatten : pieces.flatten = l)
    (hsizes : pieces.map List.length = List.replicate (l.length / k) k ++
      if 0 < l.length % k then [l.length % k] else []) : pieces = slices k l := by
  rw [List.eq_iff_flatten_eq]
  exact ⟨hflatten.trans (flatten_slices hk l).symm, hsizes.trans (map_length_slices hk l).symm⟩

end Slicing
