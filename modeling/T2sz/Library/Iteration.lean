import Mathlib.Data.Nat.Basic
import Mathlib.Logic.Relation
import Mathlib.Tactic.Common

/-!
Loops that may leave early, as transition functions.

A loop body maps a state to the state of the next round, to the state in which
the loop ends, or to an early exit that keeps the state it left behind. `Runs`
is the meaning of the whole loop; `iterate` is its bounded evaluation. The rules
below are what the loops of a program need: a run is unique, an invariant of
one round holds where the run ends, a decreasing measure bounds the rounds, and
a simulation with stuttering carries one loop's outcome to another's.
-/

namespace Iteration

universe u v

/-- What one round of a loop body does. -/
inductive Step (σ : Type u) (ε : Type v)
  | next (s : σ)
  | done (s : σ)
  | exit (e : ε) (s : σ)

/-- The state that a round leaves, however it ends. -/
def Step.state {σ : Type u} {ε : Type v} : Step σ ε → σ
  | .next s => s
  | .done s => s
  | .exit _ s => s

/-- How a loop ended, with the state it left. -/
inductive Result (σ : Type u) (ε : Type v)
  | returned (s : σ)
  | exited (e : ε) (s : σ)
  deriving DecidableEq

namespace Result

variable {σ : Type u} {ε : Type v}

def state : Result σ ε → σ
  | .returned s => s
  | .exited _ s => s

def isReturned : Result σ ε → Bool
  | .returned _ => true
  | .exited _ _ => false

@[simp] theorem state_returned (s : σ) : (Result.returned s : Result σ ε).state = s := rfl

@[simp] theorem state_exited (e : ε) (s : σ) : (Result.exited e s).state = s := rfl

@[simp] theorem isReturned_returned (s : σ) :
    (Result.returned s : Result σ ε).isReturned = true := rfl

@[simp] theorem isReturned_exited (e : ε) (s : σ) :
    (Result.exited e s).isReturned = false := rfl

end Result

variable {σ : Type u} {ε : Type v}

/-- At most `fuel` rounds; `none` when the loop is still running after them. -/
def iterate (step : σ → Step σ ε) : Nat → σ → Option (Result σ ε)
  | 0, _ => none
  | fuel + 1, s =>
      match step s with
      | .next t => iterate step fuel t
      | .done t => some (.returned t)
      | .exit e t => some (.exited e t)

/-- The run of the loop from a state to its end. -/
inductive Runs (step : σ → Step σ ε) : σ → Result σ ε → Prop
  | done {s t : σ} (h : step s = .done t) : Runs step s (.returned t)
  | exit {s t : σ} {e : ε} (h : step s = .exit e t) : Runs step s (.exited e t)
  | next {s t : σ} {r : Result σ ε} (h : step s = .next t) (rest : Runs step t r) :
      Runs step s r

variable {step : σ → Step σ ε}

theorem runs_of_iterate {fuel : Nat} {s : σ} {r : Result σ ε}
    (h : iterate step fuel s = some r) : Runs step s r := by
  induction fuel generalizing s with
  | zero => simp [iterate] at h
  | succ fuel ih =>
      cases hs : step s with
      | next t =>
          simp only [iterate, hs] at h
          exact .next hs (ih h)
      | done t =>
          simp only [iterate, hs, Option.some.injEq] at h
          exact h ▸ .done hs
      | exit e t =>
          simp only [iterate, hs, Option.some.injEq] at h
          exact h ▸ .exit hs

theorem Runs.unique {s : σ} {r r' : Result σ ε}
    (h : Runs step s r) (h' : Runs step s r') : r = r' := by
  induction h with
  | done hs => cases h' <;> simp_all
  | exit hs => cases h' <;> simp_all
  | next hs _ ih =>
      cases h' with
      | done hs' => simp [hs] at hs'
      | exit hs' => simp [hs] at hs'
      | next hs' rest' =>
          rw [hs] at hs'
          cases hs'
          exact ih rest'

theorem Runs.of_next {s t : σ} {r : Result σ ε} (h : Runs step s r)
    (hs : step s = .next t) : Runs step t r := by
  cases h with
  | done hs' => simp [hs] at hs'
  | exit hs' => simp [hs] at hs'
  | next hs' rest =>
      rw [hs] at hs'
      cases hs'
      exact rest

/-- The result is the one the body gives in the state `s`. -/
def EndsAt (step : σ → Step σ ε) (s : σ) : Result σ ε → Prop
  | .returned t => step s = .done t
  | .exited e t => step s = .exit e t

theorem EndsAt.state_eq {s : σ} {r : Result σ ε} (h : EndsAt step s r) :
    r.state = (step s).state := by
  cases r with
  | returned t =>
      have hdone : step s = .done t := h
      rw [hdone]
      rfl
  | exited e t =>
      have hexit : step s = .exit e t := h
      rw [hexit]
      rfl

/-- The invariant rule: what every round keeps holds where the last one starts. -/
theorem Runs.invariant {I : σ → Prop}
    (keeps : ∀ s t, I s → step s = .next t → I t)
    {s : σ} {r : Result σ ε} (h : Runs step s r) (hs : I s) :
    ∃ t, I t ∧ EndsAt step t r := by
  induction h with
  | done hd => exact ⟨_, hs, hd⟩
  | exit he => exact ⟨_, hs, he⟩
  | next hn _ ih => exact ih (keeps _ _ hs hn)

/-- The growth rule: a transitive relation between a state and what one round makes
of it holds between the ends of a run. -/
theorem Runs.relates {I : σ → Prop} {R : σ → σ → Prop}
    (htrans : ∀ a b c, R a b → R b c → R a c)
    (keeps : ∀ s t, I s → step s = .next t → I t) (grows : ∀ s, I s → R s (step s).state)
    {s : σ} {r : Result σ ε} (h : Runs step s r) (hs : I s) : R s r.state := by
  induction h with
  | done hd =>
      have hround := grows _ hs
      rwa [hd] at hround
  | exit he =>
      have hround := grows _ hs
      rwa [he] at hround
  | next hn _ ih =>
      have hround := grows _ hs
      rw [hn] at hround
      exact htrans _ _ _ hround (ih (keeps _ _ hs hn))

/-- Some rounds lead from one state to the other. -/
def Reached (step : σ → Step σ ε) : σ → σ → Prop :=
  Relation.ReflTransGen fun s t => step s = .next t

theorem Reached.runs {s t : σ} (h : Reached step s t) {r : Result σ ε} (hr : Runs step t r) :
    Runs step s r := by
  induction h using Relation.ReflTransGen.head_induction_on with
  | refl => exact hr
  | head hnext _ ih => exact .next hnext ih

/-- The state after so many rounds, if none of them ends the run. -/
def follow (step : σ → Step σ ε) : Nat → σ → Option σ
  | 0, s => some s
  | n + 1, s =>
      match step s with
      | .next t => follow step n t
      | _ => none

theorem reached_of_follow {n : Nat} {s t : σ} (h : follow step n s = some t) :
    Reached step s t := by
  induction n generalizing s with
  | zero =>
      rw [follow, Option.some.injEq] at h
      rw [h]
      exact .refl
  | succ n ih =>
      rw [follow] at h
      split at h
      case h_1 u hu => exact .head hu (ih h)
      case h_2 => cases h

/-- The rest of a run starts at every state on the way. -/
theorem Reached.runs_from {s t : σ} (h : Reached step s t) {r : Result σ ε} (hr : Runs step s r) :
    Runs step t r := by
  induction h with
  | refl => exact hr
  | tail _ hnext ih => exact ih.of_next hnext

/-- What every round keeps holds of every state on the way. -/
theorem Reached.invariant {I : σ → Prop} (keeps : ∀ s t, I s → step s = .next t → I t)
    {s t : σ} (h : Reached step s t) (hs : I s) : I t := by
  induction h with
  | refl => exact hs
  | tail _ hnext ih => exact keeps _ _ ih hnext

/-- The measure rule: a measure that every round lowers bounds their number. -/
theorem exists_iterate_of_measure (I : σ → Prop) (m : σ → Nat)
    (keeps : ∀ s t, I s → step s = .next t → I t)
    (lowers : ∀ s t, I s → step s = .next t → m t < m s)
    {fuel : Nat} {s : σ} (hs : I s) (hf : m s < fuel) :
    ∃ r, iterate step fuel s = some r := by
  induction fuel generalizing s with
  | zero => omega
  | succ fuel ih =>
      cases h : step s with
      | next t =>
          have hm := lowers s t hs h
          obtain ⟨r, hr⟩ := ih (keeps s t hs h) (by omega)
          exact ⟨r, by simp [iterate, h, hr]⟩
      | done t => exact ⟨.returned t, by simp [iterate, h]⟩
      | exit e t => exact ⟨.exited e t, by simp [iterate, h]⟩

/-- Both rules at once: the loop ends, and the invariant holds where its last round
starts. -/
theorem exists_endsAt_of_measure (I : σ → Prop) (m : σ → Nat)
    (round : ∀ s t, I s → step s = .next t → I t ∧ m t < m s)
    {fuel : Nat} {s : σ} (hs : I s) (hf : m s < fuel) :
    ∃ r t, iterate step fuel s = some r ∧ I t ∧ EndsAt step t r := by
  have keeps : ∀ s t, I s → step s = .next t → I t := fun s t hs h => (round s t hs h).1
  have lowers : ∀ s t, I s → step s = .next t → m t < m s := fun s t hs h => (round s t hs h).2
  obtain ⟨r, hr⟩ := exists_iterate_of_measure I m keeps lowers hs hf
  obtain ⟨t, ht, hend⟩ := (runs_of_iterate hr).invariant keeps hs
  exact ⟨r, t, hr, ht, hend⟩

/-- The congruence rule: bodies that do the same in the states of an invariant make
the same loop. -/
theorem iterate_congr {other : σ → Step σ ε} {I : σ → Prop}
    (same : ∀ s, I s → other s = step s) (keeps : ∀ s t, I s → step s = .next t → I t)
    (fuel : Nat) {s : σ} (hs : I s) : iterate other fuel s = iterate step fuel s := by
  induction fuel generalizing s with
  | zero => rfl
  | succ fuel ih =>
      simp only [iterate, same s hs]
      cases h : step s with
      | next t => exact ih (keeps s t hs h)
      | done t => rfl
      | exit e t => rfl

section Simulation

universe w x
variable {τ : Type w} {δ : Type x} {astep : τ → Step τ δ}
  {R : σ → τ → Prop} {Q : Result σ ε → Result τ δ → Prop}

/-- What a round of the concrete loop owes to the abstract one: it stutters, or
both take a round, or the abstract loop ends as the concrete one does. -/
def Matches (astep : τ → Step τ δ) (R : σ → τ → Prop)
    (Q : Result σ ε → Result τ δ → Prop) (a : τ) : Step σ ε → Prop
  | .next t => R t a ∨ ∃ b, astep a = .next b ∧ R t b
  | .done t => ∃ r, Runs astep a r ∧ Q (.returned t) r
  | .exit e t => ∃ r, Runs astep a r ∧ Q (.exited e t) r

/-- The same without stuttering. -/
def InStep (astep : τ → Step τ δ) (R : σ → τ → Prop)
    (Q : Result σ ε → Result τ δ → Prop) (a : τ) : Step σ ε → Prop
  | .next t => ∃ b, astep a = .next b ∧ R t b
  | .done t => ∃ r, Runs astep a r ∧ Q (.returned t) r
  | .exit e t => ∃ r, Runs astep a r ∧ Q (.exited e t) r

theorem InStep.matches {a : τ} {s : Step σ ε} (h : InStep astep R Q a s) :
    Matches astep R Q a s := by
  cases s with
  | next t => exact .inr h
  | done t => exact h
  | exit e t => exact h

/-- The simulation rule. -/
theorem Runs.simulates (sim : ∀ s a, R s a → Matches astep R Q a (step s))
    {s : σ} {r : Result σ ε} (h : Runs step s r) {a : τ} (hR : R s a) :
    ∃ r', Runs astep a r' ∧ Q r r' := by
  induction h generalizing a with
  | @done s t hd =>
      have hm := sim s a hR
      rw [hd] at hm
      exact hm
  | @exit s t e he =>
      have hm := sim s a hR
      rw [he] at hm
      exact hm
  | @next s t r hn _ ih =>
      have hm := sim s a hR
      rw [hn] at hm
      cases hm with
      | inl hstay => exact ih hstay
      | inr hmove =>
          obtain ⟨b, hb, hRb⟩ := hmove
          obtain ⟨r', hr', hQ⟩ := ih hRb
          exact ⟨r', .next hb hr', hQ⟩

/-- Under a simulation a run ends in a round that starts where the abstract loop
gets to. -/
theorem Runs.tracks (sim : ∀ s a, R s a → Matches astep R Q a (step s))
    {s : σ} {r : Result σ ε} (h : Runs step s r) {a : τ} (hR : R s a) :
    ∃ t b, Reached astep a b ∧ R t b ∧ EndsAt step t r := by
  induction h generalizing a with
  | @done s t hd => exact ⟨s, a, .refl, hR, hd⟩
  | @exit s t e he => exact ⟨s, a, .refl, hR, he⟩
  | @next s t r hn _ ih =>
      have hm := sim s a hR
      rw [hn] at hm
      cases hm with
      | inl hstay => exact ih hstay
      | inr hmove =>
          obtain ⟨b, hb, hRb⟩ := hmove
          obtain ⟨u, c, hc, hRc, hend⟩ := ih hRb
          exact ⟨u, c, .head hb hc, hRc, hend⟩

end Simulation

end Iteration
