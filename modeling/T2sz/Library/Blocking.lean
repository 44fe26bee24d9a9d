import Mathlib.Algebra.BigOperators.Group.List.Basic
import Mathlib.Data.List.Induction
import Mathlib.Algebra.Group.Action.Defs
import Mathlib.Algebra.Group.Nat.Defs
import Mathlib.Data.Nat.ModEq
import Mathlib.Tactic.Common

/-!
Cutting a sequence of sized spans into blocks.

A span has a size and says whether it joins the next one. Spans are poured one
after the other into the current block; a block is cut the moment it holds
`high`, and is closed at the end of a span that does not join the next one once
it holds at least `low`. This is the rule alone, on sizes: no bytes, no buffers
and no order of reading. The results say which cuts the rule can make.
-/

namespace Blocking

/-- The sizes of the finished blocks and what the unfinished one holds. -/
structure Blocks where
  full : List Nat
  rest : Nat
  deriving DecidableEq

namespace Blocks

/-- Pour `size` into the current block, cutting it at `high`. -/
def fill (high : Nat) (b : Blocks) (size : Nat) : Blocks :=
  ⟨b.full ++ List.replicate ((b.rest + size) / high) high, (b.rest + size) % high⟩

def close (low : Nat) (b : Blocks) : Blocks :=
  if 0 < b.rest ∧ low ≤ b.rest then ⟨b.full ++ [b.rest], 0⟩ else b

/-- The end of a span. -/
def settle (low : Nat) (joins : Bool) (b : Blocks) : Blocks :=
  if joins then b else b.close low

def add (low high : Nat) (b : Blocks) (span : Nat × Bool) : Blocks :=
  (b.fill high span.1).settle low span.2

def finish (b : Blocks) : List Nat :=
  if 0 < b.rest then b.full ++ [b.rest] else b.full

def total (b : Blocks) : Nat := b.full.sum + b.rest

variable {low high : Nat}

@[simp] theorem settle_true (b : Blocks) : b.settle low true = b := rfl

@[simp] theorem settle_false (b : Blocks) : b.settle low false = b.close low := rfl

theorem fill_zero (b : Blocks) (h : b.rest < high) : b.fill high 0 = b := by
  simp [fill, Nat.div_eq_of_lt h, Nat.mod_eq_of_lt h]

theorem fill_rest_lt (hh : 0 < high) (b : Blocks) (size : Nat) :
    (b.fill high size).rest < high :=
  Nat.mod_lt _ hh

/-- Pouring twice is pouring once: where a span is interrupted does not matter. -/
theorem fill_fill (hh : 0 < high) (b : Blocks) (m n : Nat) :
    (b.fill high m).fill high n = b.fill high (m + n) := by
  have hsum : b.rest + (m + n) = high * ((b.rest + m) / high) + ((b.rest + m) % high + n) := by
    have := Nat.div_add_mod (b.rest + m) high
    omega
  have hdiv : (b.rest + (m + n)) / high =
      (b.rest + m) / high + ((b.rest + m) % high + n) / high := by
    rw [hsum, Nat.mul_add_div hh]
  have hmod : (b.rest + (m + n)) % high = ((b.rest + m) % high + n) % high := by
    rw [hsum, Nat.mul_add_mod]
  simp only [fill, hdiv, hmod, List.append_assoc, List.replicate_add]

theorem total_fill (b : Blocks) (size : Nat) :
    (b.fill high size).total = b.total + size := by
  have := Nat.div_add_mod (b.rest + size) high
  simp only [total, fill, List.sum_append, List.sum_replicate, smul_eq_mul]
  rw [Nat.mul_comm] at this
  omega

theorem total_settle (joins : Bool) (b : Blocks) :
    (b.settle low joins).total = b.total := by
  cases joins with
  | true => rfl
  | false =>
      simp only [settle_false, close]
      split <;> simp [total]

theorem settle_rest_lt (joins : Bool) (b : Blocks) (h : b.rest < high) :
    (b.settle low joins).rest < high := by
  cases joins with
  | true => exact h
  | false =>
      simp only [settle_false, close]
      split
      · exact Nat.lt_of_le_of_lt (Nat.zero_le _) h
      · exact h

theorem sum_finish (b : Blocks) : b.finish.sum = b.total := by
  unfold finish total
  split
  · simp
  · simp; omega

/-- Closing the last block changes nothing once everything is finished. -/
theorem finish_settle (joins : Bool) (b : Blocks) :
    (b.settle low joins).finish = b.finish := by
  cases joins with
  | true => rfl
  | false =>
      simp only [settle_false, close]
      split
      case isTrue h => simp [finish, h.1]
      case isFalse => rfl

/-- Pouring into an empty block what comes after a full one. -/
theorem fill_high_add (hh : 0 < high) (l : List Nat) (n : Nat) :
    (Blocks.mk l 0).fill high (high + n) = (Blocks.mk (l ++ [high]) 0).fill high n := by
  have hdiv : (high + n) / high = n / high + 1 := by
    rw [Nat.add_comm, Nat.add_div_right _ hh]
  simp [fill, hdiv, List.replicate_succ]

theorem fill_of_lt (l : List Nat) {n : Nat} (h : n < high) :
    (Blocks.mk l 0).fill high n = ⟨l, n⟩ := by
  simp [fill, Nat.div_eq_of_lt h, Nat.mod_eq_of_lt h]

/-- A block below `low` is not closed, nor is one whose last span joins. -/
theorem settle_fill_of_pending {joins : Bool} (l : List Nat) {n : Nat}
    (h : n = 0 ∨ n < low ∨ joins = true) :
    ((Blocks.mk l 0).fill high n).settle low joins = (Blocks.mk l 0).fill high n := by
  cases joins with
  | true => rfl
  | false =>
      have hle : n % high ≤ n := Nat.mod_le _ _
      simp only [Bool.false_eq_true, or_false] at h
      simp only [settle_false, close, fill, Nat.zero_add]
      rw [if_neg]
      omega

/-- Emitting a block that is full, or that the end of a group closes, leaves
what the rule makes of the rest. -/
theorem settle_fill_emit (hh : 0 < high) {joins : Bool} (l : List Nat) {b r : Nat}
    (h : b = high ∨ (0 < b ∧ b < high ∧ r = 0 ∧ joins = false ∧ low ≤ b)) :
    ((Blocks.mk l 0).fill high (b + r)).settle low joins =
      ((Blocks.mk (l ++ [b]) 0).fill high r).settle low joins := by
  cases h with
  | inl heq =>
      subst heq
      rw [fill_high_add hh]
  | inr hclosed =>
      obtain ⟨hpos, hlt, rfl, rfl, hlow⟩ := hclosed
      rw [Nat.add_zero, fill_of_lt l hlt, fill_of_lt _ hh]
      simp [close, hpos, hlow]

theorem finish_fill {l : List Nat} {b : Nat} (hpos : 0 < b) (hle : b ≤ high) :
    ((Blocks.mk l 0).fill high b).finish = l ++ [b] := by
  cases Nat.lt_or_eq_of_le hle with
  | inl hlt =>
      rw [fill_of_lt l hlt]
      simp [finish, hpos]
  | inr heq =>
      subst heq
      simp [fill, finish, Nat.div_self hpos]

end Blocks

open Blocks

/-- The blocks after the given spans, the last one still open. -/
def run (low high : Nat) (spans : List (Nat × Bool)) : Blocks :=
  spans.foldl (add low high) ⟨[], 0⟩

/-- The sizes of all the blocks of the given spans. -/
def sizes (low high : Nat) (spans : List (Nat × Bool)) : List Nat :=
  (run low high spans).finish

def total (spans : List (Nat × Bool)) : Nat := (spans.map Prod.fst).sum

/-- The positions at which a span that does not join the next one ends, the
first span starting at `start`. -/
def groupEnds : Nat → List (Nat × Bool) → List Nat
  | _, [] => []
  | start, (size, joins) :: rest =>
      if joins then groupEnds (start + size) rest
      else (start + size) :: groupEnds (start + size) rest

variable {low high : Nat}

theorem run_append (spans : List (Nat × Bool)) (span : Nat × Bool) :
    run low high (spans ++ [span]) = (run low high spans).add low high span := by
  simp [run]

theorem run_rest_lt (hh : 0 < high) (spans : List (Nat × Bool)) :
    (run low high spans).rest < high := by
  induction spans using List.reverseRecOn with
  | nil => exact hh
  | append_singleton spans span _ =>
      rw [run_append]
      exact settle_rest_lt _ _ (fill_rest_lt hh _ _)

theorem total_run (spans : List (Nat × Bool)) :
    (run low high spans).total = total spans := by
  induction spans using List.reverseRecOn with
  | nil => rfl
  | append_singleton spans span ih =>
      rw [run_append, add, total_settle, total_fill, ih]
      simp [total]

theorem sum_sizes (spans : List (Nat × Bool)) :
    (sizes low high spans).sum = total spans := by
  rw [sizes, sum_finish, total_run]

theorem groupEnds_append (start : Nat) (spans : List (Nat × Bool)) (size : Nat) (joins : Bool) :
    groupEnds start (spans ++ [(size, joins)]) =
      groupEnds start spans ++ (if joins then [] else [start + total spans + size]) := by
  induction spans generalizing start with
  | nil => cases joins <;> simp [groupEnds, total]
  | cons span spans ih =>
      obtain ⟨m, j⟩ := span
      cases j <;> cases joins <;>
        simp [groupEnds, ih, total, Nat.add_assoc]

/-- What the rule promises of a block that starts at `start`: it is not empty
and not too large, it ends at a group end or is full, and no group end inside it
comes when the block already holds `low`. -/
structure Fits (low high : Nat) (ends : List Nat) (start size : Nat) : Prop where
  pos : 0 < size
  le_high : size ≤ high
  aligned : start + size ∈ ends ∨ size = high
  minimal : ∀ g ∈ ends, start < g → g < start + size → g - start < low

/-- Consecutive finished blocks from `start` on. -/
def AllFit (low high : Nat) (ends : List Nat) : Nat → List Nat → Prop
  | _, [] => True
  | start, size :: rest =>
      (Fits low high ends start size ∧ low ≤ size) ∧ AllFit low high ends (start + size) rest

theorem allFit_append {ends : List Nat} (start : Nat) (l m : List Nat) :
    AllFit low high ends start (l ++ m) ↔
      AllFit low high ends start l ∧ AllFit low high ends (start + l.sum) m := by
  induction l generalizing start with
  | nil => simp [AllFit]
  | cons a l ih => simp [AllFit, ih, and_assoc, Nat.add_assoc]

/-- A later group end disturbs no block that ends before it. -/
theorem Fits.extend {ends : List Nat} {start size g : Nat} (h : Fits low high ends start size)
    (hg : start + size ≤ g) : Fits low high (ends ++ [g]) start size where
  pos := h.pos
  le_high := h.le_high
  aligned := h.aligned.imp_left fun ha => List.mem_append_left _ ha
  minimal := by
    intro g' hg' hstart hstop
    rw [List.mem_append, List.mem_singleton] at hg'
    cases hg' with
    | inl hold => exact h.minimal g' hold hstart hstop
    | inr hnew => omega

theorem AllFit.extend {ends : List Nat} {start : Nat} {l : List Nat} {g : Nat}
    (h : AllFit low high ends start l) (hg : start + l.sum ≤ g) :
    AllFit low high (ends ++ [g]) start l := by
  induction l generalizing start with
  | nil => trivial
  | cons a l ih =>
      simp only [List.sum_cons] at hg
      exact ⟨⟨h.1.1.extend (by omega), h.1.2⟩, ih h.2 (by omega)⟩

/-- Full blocks behind the last group end fit. -/
theorem allFit_replicate {ends : List Nat} (hh : 0 < high) (hl : low ≤ high) (start k : Nat)
    (first : ∀ g ∈ ends, start < g → g - start < low)
    (bound : ∀ g ∈ ends, g < start + high) :
    AllFit low high ends start (List.replicate k high) := by
  induction k generalizing start with
  | zero => trivial
  | succ k ih =>
      refine ⟨⟨⟨hh, Nat.le_refl _, .inr rfl, fun g hg h _ => first g hg h⟩, hl⟩, ih _ ?_ ?_⟩
      · intro g hg h
        have := bound g hg
        omega
      · intro g hg
        have := bound g hg
        omega

/-- The invariant of the rule: the finished blocks fit, and no group end in the
open one has left `low` in it. -/
structure Sound (low high : Nat) (ends : List Nat) (b : Blocks) : Prop where
  fits : AllFit low high ends 0 b.full
  rest_lt : b.rest < high
  ends_le : ∀ g ∈ ends, g ≤ b.total
  opened : ∀ g ∈ ends, b.full.sum < g → g - b.full.sum < low

theorem Sound.fill {ends : List Nat} {b : Blocks} (hh : 0 < high) (hl : low ≤ high)
    (h : Sound low high ends b) (size : Nat) : Sound low high ends (b.fill high size) := by
  have htotal : (b.fill high size).total = b.total + size := total_fill b size
  have hends := h.ends_le
  have hrest := h.rest_lt
  unfold Blocks.total at hends
  refine ⟨?_, fill_rest_lt hh _ _, ?_, ?_⟩
  · refine (allFit_append _ _ _).mpr ⟨h.fits, ?_⟩
    rw [Nat.zero_add]
    apply allFit_replicate hh hl
    · exact h.opened
    · intro g hg
      have := hends g hg
      omega
  · intro g hg
    have := h.ends_le g hg
    omega
  · intro g hg hlt
    simp only [Blocks.fill, List.sum_append, List.sum_replicate, smul_eq_mul] at hlt ⊢
    cases hk : (b.rest + size) / high with
    | zero =>
        rw [hk, Nat.zero_mul, Nat.add_zero] at hlt
        simpa using h.opened g hg hlt
    | succ k =>
        rw [hk, Nat.succ_mul] at hlt
        have := hends g hg
        omega

theorem Sound.close {ends : List Nat} {b : Blocks} (h : Sound low high ends b) :
    Sound low high (ends ++ [b.total]) (b.close low) := by
  have htotal : (b.close low).total = b.total := total_settle false b
  have hle : ∀ g ∈ ends ++ [b.total], g ≤ (b.close low).total := by
    intro g hg
    rw [htotal]
    rw [List.mem_append, List.mem_singleton] at hg
    exact hg.elim (h.ends_le g) (fun hn => Nat.le_of_eq hn)
  have hfits : AllFit low high (ends ++ [b.total]) 0 b.full :=
    h.fits.extend (by simp [Blocks.total])
  have hrest := h.rest_lt
  by_cases hc : 0 < b.rest ∧ low ≤ b.rest
  · have hclose : b.close low = ⟨b.full ++ [b.rest], 0⟩ := by simp [Blocks.close, hc]
    rw [hclose] at hle ⊢
    refine ⟨?_, Nat.lt_of_le_of_lt (Nat.zero_le _) hrest, hle, ?_⟩
    · refine (allFit_append _ _ _).mpr ⟨hfits, ⟨⟨hc.1, hrest.le, .inl ?_, ?_⟩, hc.2⟩, trivial⟩
      · simp [Blocks.total]
      · intro g hg h1 h2
        rw [List.mem_append, List.mem_singleton] at hg
        rw [Nat.zero_add] at h1 h2 ⊢
        cases hg with
        | inl ho => exact h.opened g ho h1
        | inr hn =>
            simp only [Blocks.total] at hn
            omega
    · intro g hg hlt
      have := hle g hg
      simp only [Blocks.total, List.sum_append, List.sum_singleton] at this hlt
      omega
  · have hclose : b.close low = b := by simp [Blocks.close, hc]
    rw [hclose] at hle ⊢
    refine ⟨hfits, hrest, hle, ?_⟩
    intro g hg hlt
    rw [List.mem_append, List.mem_singleton] at hg
    cases hg with
    | inl ho => exact h.opened g ho hlt
    | inr hn =>
        simp only [Blocks.total] at hn
        omega

theorem sound_run (hh : 0 < high) (hl : low ≤ high) (spans : List (Nat × Bool)) :
    Sound low high (groupEnds 0 spans) (run low high spans) := by
  induction spans using List.reverseRecOn with
  | nil => exact ⟨trivial, hh, by simp [groupEnds], by simp [groupEnds]⟩
  | append_singleton spans span ih =>
      obtain ⟨size, joins⟩ := span
      have hfill := ih.fill hh hl size
      rw [run_append, groupEnds_append]
      cases joins with
      | true => simpa [add] using hfill
      | false =>
          have hclose := hfill.close
          rw [total_fill, total_run] at hclose
          simpa [add] using hclose

/-- Where the block with index `i` starts. -/
def offset (l : List Nat) (i : Nat) : Nat := (l.take i).sum

theorem AllFit.get {ends : List Nat} {start : Nat} {l : List Nat}
    (h : AllFit low high ends start l) (i : Nat) (hi : i < l.length) :
    Fits low high ends (start + offset l i) l[i] ∧ low ≤ l[i] := by
  induction l generalizing start i with
  | nil => simp at hi
  | cons a l ih =>
      cases i with
      | zero => simpa [offset] using h.1
      | succ i =>
          have := ih h.2 i (by simpa using hi)
          simpa [offset, Nat.add_assoc] using this

/-- Every block but the last is one the rule finished. -/
theorem sizes_fit (hh : 0 < high) (hl : low ≤ high) (spans : List (Nat × Bool))
    (i : Nat) (hi : i + 1 < (sizes low high spans).length) :
    Fits low high (groupEnds 0 spans) (offset (sizes low high spans) i)
        ((sizes low high spans)[i]) ∧
      low ≤ (sizes low high spans)[i] := by
  have hs := sound_run hh hl spans
  have hlt : i < (run low high spans).full.length := by
    unfold sizes finish at hi
    split at hi
    · rw [List.length_append, List.length_singleton] at hi
      omega
    · omega
  have hget := hs.fits.get i hlt
  have htake : (sizes low high spans).take i = (run low high spans).full.take i := by
    simp only [sizes, finish]
    split
    · rw [List.take_append_of_le_length (by omega)]
    · rfl
  have helem : (sizes low high spans)[i] = (run low high spans).full[i] := by
    simp only [sizes, finish]
    split
    · rw [List.getElem_append_left hlt]
    · rfl
  rw [helem]
  simpa [offset, htake] using hget

/-- The last block may also end with the input, below `low`. -/
theorem sizes_fit_last (hh : 0 < high) (hl : low ≤ high) (spans : List (Nat × Bool))
    (i : Nat) (hi : i + 1 = (sizes low high spans).length) :
    Fits low high (groupEnds 0 spans ++ [total spans]) (offset (sizes low high spans) i)
      ((sizes low high spans)[i]) := by
  have hs := sound_run hh hl spans
  have htotal : (run low high spans).total = total spans := total_run spans
  by_cases hr : 0 < (run low high spans).rest
  · have hsizes : sizes low high spans =
        (run low high spans).full ++ [(run low high spans).rest] := by
      simp [sizes, finish, hr]
    have hil : i = (run low high spans).full.length := by
      rw [hsizes] at hi
      simpa using hi
    subst hil
    have hoff : offset (sizes low high spans) (run low high spans).full.length =
        (run low high spans).full.sum := by
      simp [offset, hsizes]
    have helem : (sizes low high spans)[(run low high spans).full.length] =
        (run low high spans).rest := by
      simp [hsizes]
    rw [hoff, helem]
    refine ⟨hr, hs.rest_lt.le, .inl ?_, ?_⟩
    · rw [← htotal]
      simp [Blocks.total]
    · intro g hg h1 h2
      rw [List.mem_append, List.mem_singleton] at hg
      cases hg with
      | inl ho => exact hs.opened g ho h1
      | inr hn =>
          rw [← htotal, Blocks.total] at hn
          omega
  · have hsizes : sizes low high spans = (run low high spans).full := by
      simp [sizes, finish, hr]
    have hfull : AllFit low high (groupEnds 0 spans ++ [total spans]) 0
        (run low high spans).full := by
      apply hs.fits.extend
      rw [← htotal, Blocks.total]
      omega
    have hget := hfull.get i (by rw [← hsizes]; omega)
    simpa [hsizes] using hget.1

theorem offset_add_le (l : List Nat) (i : Nat) (hi : i < l.length) : offset l i + l[i] ≤ l.sum := by
  induction l generalizing i with
  | nil => simp at hi
  | cons a l ih =>
      cases i with
      | zero => simp [offset]
      | succ i =>
          have := ih i (by simpa using hi)
          simp only [offset, List.take_succ_cons, List.sum_cons, List.getElem_cons_succ] at this ⊢
          omega

/-- Every block fits, the end of the input being a place to end. -/
theorem sizes_fit_total (hh : 0 < high) (hl : low ≤ high) (spans : List (Nat × Bool))
    (i : Nat) (hi : i < (sizes low high spans).length) :
    Fits low high (groupEnds 0 spans ++ [total spans]) (offset (sizes low high spans) i)
      ((sizes low high spans)[i]) := by
  cases Nat.lt_or_eq_of_le (Nat.succ_le_of_lt hi) with
  | inl hlt =>
      apply (sizes_fit hh hl spans i hlt).1.extend
      rw [← @sum_sizes low high spans]
      exact offset_add_le _ i hi
  | inr heq => exact sizes_fit_last hh hl spans i heq

theorem full_within_settle {b : Blocks} (joins : Bool) (hrest : b.rest < high)
    (h : ∀ size ∈ b.full, 0 < size ∧ size ≤ high) :
    ∀ size ∈ (b.settle low joins).full, 0 < size ∧ size ≤ high := by
  cases joins with
  | true => exact h
  | false =>
      intro size hsize
      simp only [settle_false, close] at hsize
      split at hsize
      case isTrue hclosed =>
        rw [List.mem_append, List.mem_singleton] at hsize
        cases hsize with
        | inl hold => exact h size hold
        | inr hnew =>
            subst hnew
            exact ⟨hclosed.1, Nat.le_of_lt hrest⟩
      case isFalse => exact h size hsize

theorem full_within_fill (hh : 0 < high) {b : Blocks} (n : Nat)
    (h : ∀ size ∈ b.full, 0 < size ∧ size ≤ high) :
    ∀ size ∈ (b.fill high n).full, 0 < size ∧ size ≤ high := by
  intro size hsize
  simp only [Blocks.fill, List.mem_append, List.mem_replicate] at hsize
  cases hsize with
  | inl hold => exact h size hold
  | inr hnew =>
      obtain ⟨_, rfl⟩ := hnew
      exact ⟨hh, Nat.le_refl _⟩

theorem full_within_run (hh : 0 < high) (spans : List (Nat × Bool)) :
    ∀ size ∈ (run low high spans).full, 0 < size ∧ size ≤ high := by
  induction spans using List.reverseRecOn with
  | nil => simp [run]
  | append_singleton spans span ih =>
      rw [run_append, add]
      exact full_within_settle span.2 (fill_rest_lt hh _ _) (full_within_fill hh span.1 ih)

/-- No block is empty, and none is over `high`, even where `low` is. -/
theorem sizes_within (hh : 0 < high) (spans : List (Nat × Bool)) {size : Nat}
    (h : size ∈ sizes low high spans) : 0 < size ∧ size ≤ high := by
  simp only [sizes, finish] at h
  split at h
  case isTrue hrest =>
    rw [List.mem_append, List.mem_singleton] at h
    cases h with
    | inl hold => exact full_within_run hh spans size hold
    | inr hnew =>
        subst hnew
        exact ⟨hrest, Nat.le_of_lt (run_rest_lt hh spans)⟩
  case isFalse => exact full_within_run hh spans size h

end Blocking
