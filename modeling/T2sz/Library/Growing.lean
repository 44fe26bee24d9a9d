import T2sz.Library.Blocking

/-!
What spans that come later leave alone.

Finished blocks stay as they are, and what the unfinished block holds goes into
the next one. So a block that ends before the last span ends does not depend on
the spans behind it.
-/

namespace Blocking

/-- The blocks `b`, with more behind them. -/
def Grows (b c : Blocks) : Prop :=
  ∃ new, c.full = b.full ++ new ∧ b.rest ≤ new.headD c.rest

variable {low high : Nat} {b c d : Blocks}

theorem Grows.refl (b : Blocks) : Grows b b := ⟨[], (List.append_nil _).symm, Nat.le_refl _⟩

theorem Grows.trans (h : Grows b c) (h' : Grows c d) : Grows b d := by
  obtain ⟨new, hnew, hrest⟩ := h
  obtain ⟨more, hmore, hrest'⟩ := h'
  refine ⟨new ++ more, by rw [hmore, hnew, List.append_assoc], ?_⟩
  cases new with
  | nil => exact Nat.le_trans hrest hrest'
  | cons size new => exact hrest

theorem grows_fill (hrest : b.rest < high) (size : Nat) : Grows b (b.fill high size) := by
  refine ⟨_, rfl, ?_⟩
  cases hcount : (b.rest + size) / high with
  | zero =>
      have hlt : b.rest + size < high :=
        (Nat.div_eq_zero_iff_lt (Nat.zero_lt_of_lt hrest)).mp hcount
      simp only [Blocks.fill, Nat.mod_eq_of_lt hlt, List.replicate_zero, List.headD_nil]
      omega
  | succ count => exact Nat.le_of_lt hrest

theorem grows_settle (joins : Bool) (b : Blocks) : Grows b (b.settle low joins) := by
  cases joins with
  | true => exact .refl b
  | false =>
      simp only [Blocks.settle_false, Blocks.close]
      split
      · exact ⟨[b.rest], rfl, Nat.le_refl _⟩
      · exact .refl b

theorem grows_foldl (hh : 0 < high) (hrest : b.rest < high) (spans : List (Nat × Bool)) :
    Grows b (spans.foldl (Blocks.add low high) b) := by
  induction spans generalizing b with
  | nil => exact .refl b
  | cons span spans ih =>
      have hfill := Blocks.fill_rest_lt hh b span.1
      exact (grows_fill hrest span.1).trans
        ((grows_settle span.2 _).trans (ih (Blocks.settle_rest_lt _ _ hfill)))

/-- What is left of `b` goes into the next block. -/
theorem Grows.finish (h : Grows b c) :
    ∃ tail, c.finish = b.full ++ tail ∧ b.rest ≤ tail.headD 0 := by
  obtain ⟨new, hnew, hrest⟩ := h
  rw [Blocks.finish, hnew]
  split
  case isTrue =>
    refine ⟨new ++ [c.rest], List.append_assoc _ _ _, ?_⟩
    cases new with
    | nil => exact hrest
    | cons size new => exact hrest
  case isFalse hempty =>
    refine ⟨new, rfl, ?_⟩
    cases new with
    | nil => exact Nat.le_trans hrest (Nat.le_of_not_lt hempty)
    | cons size new => exact hrest

theorem offset_mono (sizes : List Nat) {i j : Nat} (hij : i ≤ j) :
    offset sizes i ≤ offset sizes j := by
  obtain ⟨k, rfl⟩ := Nat.exists_eq_add_of_le hij
  rw [offset, offset, List.take_add, List.sum_append]
  exact Nat.le_add_right _ _

/-- The blocks that end before `b` does were finished in `b`. -/
theorem Grows.le_length (h : Grows b c) {k : Nat} (hend : offset c.finish k < b.total) :
    k ≤ b.full.length := by
  by_contra hk
  obtain ⟨tail, htail, hfirst⟩ := h.finish
  rw [htail] at hend
  have hnext := offset_mono (b.full ++ tail) (Nat.succ_le_of_lt (Nat.lt_of_not_le hk))
  have hblock : offset (b.full ++ tail) (b.full.length + 1) = b.full.sum + tail.headD 0 := by
    rw [offset, List.take_append, List.take_of_length_le (Nat.le_succ _), List.sum_append]
    cases tail <;> simp
  rw [Nat.succ_eq_add_one, hblock] at hnext
  rw [Blocks.total] at hend
  omega

theorem Grows.take (h : Grows b c) {k : Nat} (hk : k ≤ b.full.length) :
    c.finish.take k = b.full.take k := by
  obtain ⟨tail, htail, -⟩ := h.finish
  rw [htail, List.take_append_of_le_length hk]

/-- So they are blocks of everything that `b` grows to. -/
theorem Grows.common (h : Grows b c) (h' : Grows b d) {k : Nat}
    (hend : offset c.finish k < b.total) : d.finish.take k = c.finish.take k := by
  have hk := h.le_length hend
  rw [h.take hk, h'.take hk]

end Blocking
