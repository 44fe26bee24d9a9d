import Mathlib.Data.Nat.Digits.Lemmas
import Mathlib.Tactic.Ring

/-!
Numbers written in digits, as loops read them: one digit after the other, the
most significant first, into an accumulator that may be reduced on the way.
-/

namespace Numeral

/-- The accumulator `v` after the digits. -/
def accumulate (base v : Nat) (digits : List Nat) : Nat :=
  digits.foldl (fun v d => v * base + d) v

variable {base : Nat}

@[simp] theorem accumulate_nil (v : Nat) : accumulate base v [] = v := rfl

@[simp] theorem accumulate_cons (v d : Nat) (digits : List Nat) :
    accumulate base v (d :: digits) = accumulate base (v * base + d) digits := rfl

theorem accumulate_append (v : Nat) (digits more : List Nat) :
    accumulate base v (digits ++ more) = accumulate base (accumulate base v digits) more :=
  List.foldl_append

/-- The digits behind `v` shift it by as many places. -/
theorem accumulate_eq_add (v : Nat) (digits : List Nat) :
    accumulate base v digits = v * base ^ digits.length + accumulate base 0 digits := by
  induction digits generalizing v with
  | nil => simp
  | cons d digits ih =>
      rw [accumulate_cons, accumulate_cons, ih, ih (0 * base + d), List.length_cons, Nat.pow_succ]
      ring

/-- The accumulator only grows. -/
theorem le_accumulate (hb : 1 ≤ base) (v : Nat) (digits : List Nat) :
    v ≤ accumulate base v digits := by
  induction digits generalizing v with
  | nil => exact Nat.le_refl v
  | cons d digits ih =>
      have hstep : v ≤ v * base + d := by
        have := Nat.le_mul_of_pos_right v hb
        omega
      exact Nat.le_trans hstep (ih _)

/-- A word reduces the number once, however often the loop reduces it. -/
theorem accumulate_mod (m v : Nat) (digits : List Nat) :
    digits.foldl (fun v d => (v * base + d) % m) (v % m) = accumulate base v digits % m := by
  induction digits generalizing v with
  | nil => rfl
  | cons d digits ih =>
      have hstep : (v % m * base + d) % m = (v * base + d) % m := by
        rw [Nat.add_mod, Nat.mod_mul_mod, ← Nat.add_mod]
      rw [List.foldl_cons, hstep, ih, accumulate_cons]

theorem accumulate_eq_ofDigits (digits : List Nat) :
    accumulate base 0 digits = Nat.ofDigits base digits.reverse := by
  induction digits using List.reverseRecOn with
  | nil => rfl
  | append_singleton digits d ih =>
      rw [accumulate_append, ih, List.reverse_concat, Nat.ofDigits_cons]
      simp [Nat.mul_comm, Nat.add_comm]

/-- Digits of the base make a number of as many places. -/
theorem accumulate_lt (hb : 1 < base) {digits : List Nat} (h : ∀ d ∈ digits, d < base) :
    accumulate base 0 digits < base ^ digits.length := by
  rw [accumulate_eq_ofDigits, ← List.length_reverse]
  apply Nat.ofDigits_lt_base_pow_length hb
  intro d hd
  exact h d (List.mem_reverse.mp hd)

end Numeral
