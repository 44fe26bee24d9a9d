import T2sz.Library.Blocking

/-!
Cutting as early as the bounds let one.

A cutting into blocks ends them at given places, or where they are as large as
they may be, and all but the last have a least size. One that never passes over
a place at which it could have ended a block is ahead of every other one, block
by block. So it has the most blocks, and there is no other one like it.
-/

namespace Blocking

/-- A cutting of `total`, wherever it cuts. -/
structure Cutting (low high : Nat) (ends : List Nat) (total : Nat) (sizes : List Nat) : Prop where
  sum : sizes.sum = total
  bounds : ∀ i, (hi : i < sizes.length) → 0 < sizes[i] ∧ sizes[i] ≤ high
  minimum : ∀ i, (hi : i + 1 < sizes.length) → low ≤ sizes[i]
  aligned : ∀ i, (hi : i < sizes.length) → sizes[i] = high ∨
    offset sizes i + sizes[i] ∈ ends ∨ offset sizes i + sizes[i] = total

/-- No place at which a block could have ended lies inside it. -/
def Earliest (low : Nat) (ends sizes : List Nat) : Prop :=
  ∀ i, (hi : i < sizes.length) → ∀ g ∈ ends, offset sizes i < g →
    g < offset sizes i + sizes[i] → g - offset sizes i < low

variable {low high total : Nat} {ends sizes other : List Nat}

theorem offset_succ {i : Nat} (hi : i < sizes.length) :
    offset sizes (i + 1) = offset sizes i + sizes[i] := by
  rw [offset, offset, List.sum_take_succ]

theorem offset_le_sum (sizes : List Nat) (i : Nat) : offset sizes i ≤ sizes.sum := by
  have hsum := congrArg List.sum (List.take_append_drop i sizes)
  rw [List.sum_append] at hsum
  rw [offset]
  omega

theorem offset_of_length_le {i : Nat} (hi : sizes.length ≤ i) : offset sizes i = sizes.sum := by
  rw [offset, List.take_of_length_le hi]

/-- A block that starts no later ends no later. -/
theorem Earliest.step (hfirst : Earliest low ends sizes) (h : Cutting low high ends total sizes)
    (h' : Cutting low high ends total other) {i j : Nat} (hi : i < sizes.length)
    (hj : j < other.length) (hle : offset sizes i ≤ offset other j) :
    offset sizes (i + 1) ≤ offset other (j + 1) := by
  by_contra hlt
  have hstop := offset_le_sum sizes (i + 1)
  have hpos := (h'.bounds j hj).1
  have hhigh := (h.bounds i hi).2
  rw [h.sum] at hstop
  rw [offset_succ hi] at hlt hstop
  rw [offset_succ hj] at hlt
  obtain hfull | hend | hlast := h'.aligned j hj
  · omega
  · have hnear := hfirst i hi _ hend (by omega) (by omega)
    by_cases hmore : j + 1 < other.length
    · have hlow := h'.minimum j hmore
      omega
    · have hlast := offset_of_length_le (Nat.le_of_not_lt hmore)
      rw [h'.sum, offset_succ hj] at hlast
      omega
  · omega

/-- Block by block, no other cutting is ahead. -/
theorem Earliest.offset_le (hfirst : Earliest low ends sizes)
    (h : Cutting low high ends total sizes) (h' : Cutting low high ends total other) {k : Nat}
    (hk : k ≤ other.length) : k ≤ sizes.length ∧ offset sizes k ≤ offset other k := by
  induction k with
  | zero => exact ⟨Nat.zero_le _, Nat.le_refl _⟩
  | succ k ih =>
      obtain ⟨hlen, hle⟩ := ih (Nat.le_of_succ_le hk)
      by_cases hmore : k < sizes.length
      · exact ⟨hmore, hfirst.step h h' hmore hk hle⟩
      · -- The other cutting would go on behind the end.
        have hend := offset_of_length_le (Nat.le_of_not_lt hmore)
        have hstop := offset_le_sum other (k + 1)
        have hpos := (h'.bounds k hk).1
        rw [h.sum] at hend
        rw [h'.sum, offset_succ hk] at hstop
        omega

/-- A larger least size allows less. -/
theorem Cutting.of_le {low' : Nat} (h : Cutting low' high ends total sizes) (hle : low ≤ low') :
    Cutting low high ends total sizes where
  sum := h.sum
  bounds := h.bounds
  minimum i hi := Nat.le_trans hle (h.minimum i hi)
  aligned := h.aligned

/-- It has the most blocks. -/
theorem Earliest.length_le (hfirst : Earliest low ends sizes)
    (h : Cutting low high ends total sizes) (h' : Cutting low high ends total other) :
    other.length ≤ sizes.length :=
  (hfirst.offset_le h h' (Nat.le_refl _)).1

/-- There is one such cutting. -/
theorem Earliest.unique (hfirst : Earliest low ends sizes) (hfirst' : Earliest low ends other)
    (h : Cutting low high ends total sizes) (h' : Cutting low high ends total other) :
    sizes = other := by
  have hlength : sizes.length = other.length :=
    Nat.le_antisymm (hfirst'.length_le h' h) (hfirst.length_le h h')
  have hoffset : ∀ k, k ≤ sizes.length → offset sizes k = offset other k := fun k hk =>
    Nat.le_antisymm (hfirst.offset_le h h' (hlength ▸ hk)).2 (hfirst'.offset_le h' h hk).2
  apply List.ext_getElem hlength
  intro i hi hi'
  have hstart := hoffset i (Nat.le_of_lt hi)
  have hstop := hoffset (i + 1) hi
  rw [offset_succ hi, offset_succ hi'] at hstop
  omega

end Blocking
