import Mathlib.Data.List.Basic

/-!
Files made of frames that tell their own end.

A reader takes one frame after the other. A frame stands for some content, a
skippable one for none. If no frame can be mistaken for another one, or for the
beginning of one, then a file has at most one content.
-/

namespace Multiframe

universe u v w

variable {β : Type u} {γ : Type v} {σ : Type w}

/-- The content of a file, frame by frame. -/
inductive Decodes (IsFrame : List β → List γ → Prop) (Skips : List β → Prop) :
    List β → List γ → Prop
  | nil : Decodes IsFrame Skips [] []
  | frame {c rest : List β} {x y : List γ} (head : IsFrame c x)
      (tail : Decodes IsFrame Skips rest y) : Decodes IsFrame Skips (c ++ rest) (x ++ y)
  | skip {c rest : List β} {y : List γ} (head : Skips c) (tail : Decodes IsFrame Skips rest y) :
      Decodes IsFrame Skips (c ++ rest) y

/-- What comes next in a file is one frame at most, and of one kind. -/
structure Delimited (IsFrame : List β → List γ → Prop) (Skips : List β → Prop) : Prop where
  frame_ne : ∀ c x, IsFrame c x → c ≠ []
  skip_ne : ∀ c, Skips c → c ≠ []
  frame : ∀ c x c' x' rest rest', IsFrame c x → IsFrame c' x' → c ++ rest = c' ++ rest' →
    c = c' ∧ x = x'
  skip : ∀ c c' rest rest', Skips c → Skips c' → c ++ rest = c' ++ rest' → c = c'
  apart : ∀ c x c' rest rest', IsFrame c x → Skips c' → c ++ rest ≠ c' ++ rest'

variable {IsFrame : List β → List γ → Prop} {Skips : List β → Prop} {file file' : List β}
  {x y : List γ}

theorem Decodes.append (h : Decodes IsFrame Skips file x) (h' : Decodes IsFrame Skips file' y) :
    Decodes IsFrame Skips (file ++ file') (x ++ y) := by
  induction h with
  | nil => exact h'
  | frame head _ ih =>
      rw [List.append_assoc, List.append_assoc]
      exact .frame head ih
  | skip head _ ih =>
      rw [List.append_assoc]
      exact .skip head ih

theorem Decodes.of_skip (h : Skips file) : Decodes IsFrame Skips file [] := by
  rw [← List.append_nil file]
  exact .skip h .nil

/-- A file of frames has the contents of the frames. -/
theorem decodes_flatMap {f : σ → List β} {g : σ → List γ} {l : List σ}
    (h : ∀ s ∈ l, IsFrame (f s) (g s)) :
    Decodes IsFrame Skips (l.flatMap f) (l.flatMap g) := by
  induction l with
  | nil => exact .nil
  | cons s l ih =>
      rw [List.flatMap_cons, List.flatMap_cons]
      exact .frame (h s List.mem_cons_self) (ih fun t ht => h t (List.mem_cons_of_mem _ ht))

theorem Delimited.decodes_nil (h : Delimited IsFrame Skips) (hd : Decodes IsFrame Skips file x)
    (hfile : file = []) : x = [] := by
  cases hd with
  | nil => rfl
  | frame head _ => exact absurd (List.append_eq_nil_iff.mp hfile).1 (h.frame_ne _ _ head)
  | skip head _ => exact absurd (List.append_eq_nil_iff.mp hfile).1 (h.skip_ne _ head)

/-- There is one way to read a file. -/
theorem Decodes.unique (h : Delimited IsFrame Skips) (hx : Decodes IsFrame Skips file x)
    (hy : Decodes IsFrame Skips file y) : x = y := by
  induction hx generalizing y with
  | nil => exact (h.decodes_nil hy rfl).symm
  | @frame c rest x x' head _ ih =>
      generalize hfile : c ++ rest = file at hy
      cases hy with
      | nil => exact absurd (List.append_eq_nil_iff.mp hfile).1 (h.frame_ne _ _ head)
      | frame head' tail' =>
          obtain ⟨rfl, rfl⟩ := h.frame _ _ _ _ _ _ head head' hfile
          rw [ih (List.append_cancel_left hfile ▸ tail')]
      | skip head' _ => exact absurd hfile (h.apart _ _ _ _ _ head head')
  | @skip c rest x head _ ih =>
      generalize hfile : c ++ rest = file at hy
      cases hy with
      | nil => exact absurd (List.append_eq_nil_iff.mp hfile).1 (h.skip_ne _ head)
      | frame head' _ => exact absurd hfile.symm (h.apart _ _ _ _ _ head' head)
      | skip head' tail' =>
          obtain rfl := h.skip _ _ _ _ head head' hfile
          exact ih (List.append_cancel_left hfile ▸ tail')

/-- A reader of files, made of one that takes what comes next off a file. -/
def read (next : List β → Option (List γ × List β)) : Nat → List β → Option (List γ)
  | _, [] => some []
  | 0, _ :: _ => none
  | fuel + 1, b :: file =>
      match next (b :: file) with
      | none => none
      | some (x, rest) => (read next fuel rest).map (x ++ ·)

section Reader

variable {next : List β → Option (List γ × List β)} {c rest : List β}

theorem read_cons {fuel : Nat} (hc : c ≠ []) (hnext : next (c ++ rest) = some (x, rest)) :
    read next (fuel + 1) (c ++ rest) = (read next fuel rest).map (x ++ ·) := by
  obtain ⟨b, c, rfl⟩ := List.exists_cons_of_ne_nil hc
  rw [List.cons_append] at hnext ⊢
  rw [read, hnext]

/-- It reads every file, if it knows the frames. -/
theorem Decodes.read (hd : Delimited IsFrame Skips)
    (hframe : ∀ c x rest, IsFrame c x → next (c ++ rest) = some (x, rest))
    (hskip : ∀ c rest, Skips c → next (c ++ rest) = some ([], rest))
    (h : Decodes IsFrame Skips file x) {fuel : Nat} (hfuel : file.length ≤ fuel) :
    Multiframe.read next fuel file = some x := by
  induction h generalizing fuel with
  | nil => cases fuel <;> rfl
  | @frame c rest x y head _ ih =>
      have hne := hd.frame_ne c x head
      have hpos := List.length_pos_iff.mpr hne
      rw [List.length_append] at hfuel
      obtain ⟨fuel, rfl⟩ := Nat.exists_eq_succ_of_ne_zero (show fuel ≠ 0 by omega)
      rw [read_cons hne (hframe c x rest head), ih (by omega)]
      rfl
  | @skip c rest y head _ ih =>
      have hne := hd.skip_ne c head
      have hpos := List.length_pos_iff.mpr hne
      rw [List.length_append] at hfuel
      obtain ⟨fuel, rfl⟩ := Nat.exists_eq_succ_of_ne_zero (show fuel ≠ 0 by omega)
      rw [read_cons hne (hskip c rest head), ih (by omega)]
      rfl

end Reader

end Multiframe
