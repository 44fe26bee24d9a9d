import Mathlib.Data.List.Basic
import Mathlib.Tactic.Common

/-!
The option syntax of command lines, as `getopt` reads it.

A word that starts with a dash and is not a dash alone is a cluster of options.
An option that takes an argument takes what is left of its cluster, or the next
word when nothing is left. Two dashes end the options. Any other word is an
operand: some implementations go on behind it and move it behind the options,
the others stop in front of it.

`scan` is what the calls of `getopt` return one after the other, with the
operands they leave. `Spells` is the syntax itself, which the errors are not
part of.
-/

namespace Getopt

universe u

/-- The options of a program. -/
structure Grammar (χ : Type u) where
  dash : χ
  /-- Whether an option takes an argument; `none` is no option. -/
  takes : χ → Option Bool
  dash_takes : takes dash = none

/-- What a call of `getopt` returns. -/
inductive Item (χ : Type u)
  | given (c : χ) (argument : Option (List χ))
  /-- No such option. -/
  | unknown (c : χ)
  /-- The option takes an argument, and there is none. -/
  | missing (c : χ)
  deriving DecidableEq

/-- An option that was given, with its argument. -/
abbrev Given (χ : Type u) := χ × Option (List χ)

def Given.item {χ : Type u} (o : Given χ) : Item χ := .given o.1 o.2

variable {χ : Type u} (g : Grammar χ)

/-- The options of a cluster, and the last one when it waits for its argument. -/
def cluster : List χ → List (Item χ) × Option χ
  | [] => ([], none)
  | c :: cs =>
      match g.takes c with
      | none => (.unknown c :: (cluster cs).1, (cluster cs).2)
      | some false => (.given c none :: (cluster cs).1, (cluster cs).2)
      | some true => if cs = [] then ([], some c) else ([.given c (some cs)], none)

section Scanning

variable [DecidableEq χ] (permute : Bool)

/-- A dash and something behind it. -/
def isCluster : List χ → Bool
  | d :: _ :: _ => d == g.dash
  | _ => false

/-- What is read of the words while `waiting` waits for its argument. -/
def scanFrom : Option χ → List (List χ) → List (Item χ) × List (List χ)
  | none, [] => ([], [])
  | some c, [] => ([.missing c], [])
  | some c, w :: ws => (.given c (some w) :: (scanFrom none ws).1, (scanFrom none ws).2)
  | none, w :: ws =>
      if w = [g.dash, g.dash] then ([], ws)
      else if isCluster g w then
        ((cluster g w.tail).1 ++ (scanFrom (cluster g w.tail).2 ws).1,
          (scanFrom (cluster g w.tail).2 ws).2)
      else if permute then ((scanFrom none ws).1, w :: (scanFrom none ws).2)
      else ([], w :: ws)

def scan (words : List (List χ)) : List (Item χ) × List (List χ) := scanFrom g permute none words

end Scanning

/-- A cluster in front of the words `ws` spells options, and leaves `rest` of the words. -/
inductive Cluster : List χ → List (List χ) → List (Given χ) → List (List χ) → Prop
  | nil (ws : List (List χ)) : Cluster [] ws [] ws
  | flag {c : χ} {cs : List χ} {ws rest : List (List χ)} {options : List (Given χ)}
      (takes : g.takes c = some false) (more : Cluster cs ws options rest) :
      Cluster (c :: cs) ws ((c, none) :: options) rest
  | attached {c : χ} {cs : List χ} (ws : List (List χ)) (takes : g.takes c = some true)
      (nonempty : cs ≠ []) : Cluster (c :: cs) ws [(c, some cs)] ws
  | separate {c : χ} (w : List χ) (ws : List (List χ)) (takes : g.takes c = some true) :
      Cluster [c] (w :: ws) [(c, some w)] ws

section Spelling

variable [DecidableEq χ] (permute : Bool)

/-- The words spell these options and these operands. -/
inductive Spells : List (List χ) → List (Given χ) → List (List χ) → Prop
  | nil : Spells [] [] []
  | dashes (ws : List (List χ)) : Spells ([g.dash, g.dash] :: ws) [] ws
  | options {c : χ} {cs : List χ} {ws rest operands : List (List χ)}
      {options more : List (Given χ)} (cluster : Cluster g (c :: cs) ws options rest)
      (spells : Spells rest more operands) :
      Spells ((g.dash :: c :: cs) :: ws) (options ++ more) operands
  | operand {w : List χ} {ws operands : List (List χ)} {options : List (Given χ)}
      (goes : permute = true) (plain : isCluster g w = false)
      (spells : Spells ws options operands) : Spells (w :: ws) options (w :: operands)
  | operands {w : List χ} (ws : List (List χ)) (stops : permute = false)
      (plain : isCluster g w = false) : Spells (w :: ws) [] (w :: ws)

end Spelling

variable {g}

/-- Where an option of a cluster waits, it takes the next word. -/
def TakesWaiting (waiting : Option χ) (ws : List (List χ)) (options : List (Given χ))
    (rest : List (List χ)) : Prop :=
  match waiting with
  | none => options = [] ∧ rest = ws
  | some c => ∃ w, ws = w :: rest ∧ options = [(c, some w)]

theorem cluster_complete {cs : List χ} {ws rest : List (List χ)} {options : List (Given χ)}
    (h : Cluster g cs ws options rest) :
    ∃ own last, (cluster g cs).1 = own.map Given.item ∧ options = own ++ last ∧
      TakesWaiting (cluster g cs).2 ws last rest := by
  induction h with
  | nil ws => exact ⟨[], [], rfl, rfl, rfl, rfl⟩
  | @flag c cs ws rest options takes more ih =>
      obtain ⟨own, last, hitems, rfl, hlast⟩ := ih
      refine ⟨(c, none) :: own, last, ?_, rfl, ?_⟩
      · simp only [cluster, takes, hitems, List.map_cons, Given.item]
      · simpa only [cluster, takes] using hlast
  | @attached c cs ws takes nonempty =>
      refine ⟨[(c, some cs)], [], ?_, rfl, ?_⟩
      · simp only [cluster, takes, if_neg nonempty, List.map_cons, Given.item, List.map_nil]
      · simp only [cluster, takes, if_neg nonempty]
        exact ⟨rfl, rfl⟩
  | @separate c w ws takes =>
      refine ⟨[], [(c, some w)], ?_, rfl, ?_⟩
      · simp only [cluster, takes, if_true, List.map_nil]
      · simp only [cluster, takes, if_true]
        exact ⟨w, rfl, rfl⟩

theorem cluster_sound {cs : List χ} {ws rest : List (List χ)} {own last : List (Given χ)}
    (hitems : (cluster g cs).1 = own.map Given.item)
    (hlast : TakesWaiting (cluster g cs).2 ws last rest) :
    Cluster g cs ws (own ++ last) rest := by
  induction cs generalizing own with
  | nil =>
      obtain ⟨rfl, rfl⟩ := hlast
      obtain rfl := List.map_eq_nil_iff.mp hitems.symm
      exact .nil _
  | cons c cs ih =>
      cases htakes : g.takes c with
      | none =>
          simp only [cluster, htakes] at hitems
          cases own with
          | nil => cases hitems
          | cons o own => cases hitems
      | some argument =>
          cases argument with
          | false =>
              simp only [cluster, htakes] at hitems hlast
              cases own with
              | nil => cases hitems
              | cons o own =>
                  rw [List.map_cons, List.cons.injEq] at hitems
                  obtain ⟨hc, hrest⟩ := hitems
                  obtain ⟨d, argument⟩ := o
                  cases hc
                  exact .flag htakes (ih hrest hlast)
          | true =>
              by_cases hcs : cs = []
              · simp only [cluster, htakes, if_pos hcs] at hitems hlast
                obtain rfl := List.map_eq_nil_iff.mp hitems.symm
                obtain ⟨w, rfl, rfl⟩ := hlast
                subst hcs
                exact .separate w rest htakes
              · simp only [cluster, htakes, if_neg hcs] at hitems hlast
                obtain ⟨rfl, rfl⟩ := hlast
                cases own with
                | nil => cases hitems
                | cons o own =>
                    rw [List.map_cons, List.cons.injEq] at hitems
                    obtain ⟨hc, hnone⟩ := hitems
                    obtain rfl := List.map_eq_nil_iff.mp hnone.symm
                    obtain ⟨d, argument⟩ := o
                    cases hc
                    exact .attached _ htakes hcs

theorem Cluster.head_ne {c : χ} {cs : List χ} {ws rest : List (List χ)}
    {options : List (Given χ)} (h : Cluster g (c :: cs) ws options rest) : c ≠ g.dash := by
  rintro rfl
  have hnone := g.dash_takes
  cases h with
  | flag takes more =>
      rw [hnone] at takes
      cases takes
  | attached ws takes nonempty =>
      rw [hnone] at takes
      cases takes
  | separate w ws takes =>
      rw [hnone] at takes
      cases takes

theorem Cluster.subset {cs : List χ} {ws rest : List (List χ)} {options : List (Given χ)}
    (h : Cluster g cs ws options rest) : rest ⊆ ws := by
  induction h with
  | nil ws => exact List.Subset.refl ws
  | flag takes more ih => exact ih
  | attached ws takes nonempty => exact List.Subset.refl ws
  | separate w ws takes => exact List.subset_cons_self w ws

variable [DecidableEq χ] {permute : Bool} {ws rest operands : List (List χ)}
  {options more : List (Given χ)} {waiting : Option χ}

theorem exists_of_isCluster {w : List χ} (h : isCluster g w = true) :
    ∃ c cs, w = g.dash :: c :: cs := by
  match w, h with
  | d :: c :: cs, h =>
      rw [isCluster, beq_iff_eq] at h
      exact ⟨c, cs, by rw [h]⟩

theorem scanFrom_of_takesWaiting (h : TakesWaiting waiting ws options rest) :
    scanFrom g permute waiting ws =
      (options.map Given.item ++ (scan g permute rest).1, (scan g permute rest).2) := by
  cases waiting with
  | none =>
      obtain ⟨rfl, rfl⟩ := h
      rfl
  | some c =>
      obtain ⟨w, rfl, rfl⟩ := h
      rw [scanFrom]
      rfl

theorem scan_complete (h : Spells g permute ws options operands) :
    scan g permute ws = (options.map Given.item, operands) := by
  induction h with
  | nil => rfl
  | dashes ws => rw [scan, scanFrom, if_pos rfl, List.map_nil]
  | @options c cs ws rest operands options more hcluster spells ih =>
      obtain ⟨own, last, hitems, rfl, hlast⟩ := cluster_complete hcluster
      have hdashes : g.dash :: c :: cs ≠ [g.dash, g.dash] := by
        intro heq
        rw [List.cons.injEq, List.cons.injEq] at heq
        exact hcluster.head_ne heq.2.1
      rw [scan, scanFrom, if_neg hdashes, if_pos (by rw [isCluster, beq_self_eq_true])]
      simp only [List.tail_cons, scanFrom_of_takesWaiting hlast, ih, hitems, List.map_append,
        List.append_assoc]
  | operand goes plain spells ih =>
      rename_i w ws operands options
      have hdashes : w ≠ [g.dash, g.dash] := by
        rintro rfl
        rw [isCluster, beq_self_eq_true] at plain
        cases plain
      rw [scan] at ih
      rw [scan, scanFrom, if_neg hdashes, if_neg (by rw [plain]; exact Bool.false_ne_true),
        if_pos goes, ih]
  | operands ws stops plain =>
      rename_i w
      have hdashes : w ≠ [g.dash, g.dash] := by
        rintro rfl
        rw [isCluster, beq_self_eq_true] at plain
        cases plain
      rw [scan, scanFrom, if_neg hdashes, if_neg (by rw [plain]; exact Bool.false_ne_true),
        if_neg (by rw [stops]; exact Bool.false_ne_true), List.map_nil]

/-- What is read without an error was spelled. -/
theorem scanFrom_sound (h : scanFrom g permute waiting ws = (options.map Given.item, operands)) :
    ∃ last more rest, options = last ++ more ∧ TakesWaiting waiting ws last rest ∧
      Spells g permute rest more operands := by
  induction waiting, ws using scanFrom.induct g permute generalizing options operands with
  | case1 =>
      rw [scanFrom, Prod.mk.injEq] at h
      obtain ⟨hnil, rfl⟩ := h
      obtain rfl := List.map_eq_nil_iff.mp hnil.symm
      exact ⟨[], [], [], rfl, ⟨rfl, rfl⟩, .nil⟩
  | case2 c =>
      rw [scanFrom, Prod.mk.injEq] at h
      cases options with
      | nil => cases h.1
      | cons o options => cases h.1
  | case3 c w ws ih =>
      rw [scanFrom, Prod.mk.injEq] at h
      cases options with
      | nil => cases h.1
      | cons o options =>
          rw [List.map_cons, List.cons.injEq] at h
          obtain ⟨⟨hc, hrest⟩, hoperands⟩ := h
          obtain ⟨last, more, rest, rfl, ⟨rfl, rfl⟩, hspells⟩ := ih (Prod.ext hrest hoperands)
          obtain ⟨d, argument⟩ := o
          cases hc
          exact ⟨[_], more, _, rfl, ⟨w, rfl, rfl⟩, hspells⟩
  | case4 ws =>
      rw [scanFrom, if_pos rfl, Prod.mk.injEq] at h
      obtain ⟨hnil, rfl⟩ := h
      obtain rfl := List.map_eq_nil_iff.mp hnil.symm
      exact ⟨[], [], _, rfl, ⟨rfl, rfl⟩, .dashes _⟩
  | case5 w ws hdashes hcluster ih =>
      rw [scanFrom, if_neg hdashes, if_pos hcluster, Prod.mk.injEq] at h
      obtain ⟨hitems, hoperands⟩ := h
      obtain ⟨own, options', rfl, hown, hrest⟩ := List.map_eq_append_iff.mp hitems.symm
      obtain ⟨last, more, rest, rfl, hwaiting, hspells⟩ := ih (Prod.ext hrest.symm hoperands)
      obtain ⟨c, cs, rfl⟩ := exists_of_isCluster hcluster
      have hspelled := Spells.options (cluster_sound hown.symm hwaiting) hspells
      rw [List.append_assoc] at hspelled
      exact ⟨[], _, _, rfl, ⟨rfl, rfl⟩, hspelled⟩
  | case6 w ws hdashes hplain hgoes ih =>
      rw [scanFrom, if_neg hdashes, if_neg hplain, if_pos hgoes, Prod.mk.injEq] at h
      obtain ⟨hitems, rfl⟩ := h
      obtain ⟨last, more, rest, rfl, ⟨rfl, rfl⟩, hspells⟩ := ih (Prod.ext hitems rfl)
      exact ⟨[], more, _, rfl, ⟨rfl, rfl⟩, .operand hgoes (by simpa using hplain) hspells⟩
  | case7 w ws hdashes hplain hstops =>
      rw [scanFrom, if_neg hdashes, if_neg hplain, if_neg hstops, Prod.mk.injEq] at h
      obtain ⟨hnil, rfl⟩ := h
      obtain rfl := List.map_eq_nil_iff.mp hnil.symm
      exact ⟨[], [], _, rfl, ⟨rfl, rfl⟩,
        .operands _ (by simpa using hstops) (by simpa using hplain)⟩

/-- The operands are words. -/
theorem Spells.subset (h : Spells g permute ws options operands) : operands ⊆ ws := by
  induction h with
  | nil => exact List.Subset.refl _
  | dashes ws => exact List.subset_cons_self _ ws
  | options cluster spells ih =>
      exact List.Subset.trans ih (List.subset_cons_of_subset _ cluster.subset)
  | operand goes plain spells ih => exact List.cons_subset_cons _ ih
  | operands ws stops plain => exact List.Subset.refl _

/-- `getopt` reads the words without an error exactly when they spell the options it
returns and the operands it leaves. -/
theorem scan_eq_iff :
    scan g permute ws = (options.map Given.item, operands) ↔
      Spells g permute ws options operands := by
  constructor
  · intro h
    obtain ⟨last, more, rest, rfl, ⟨rfl, rfl⟩, hspells⟩ := scanFrom_sound h
    exact hspells
  · exact scan_complete

theorem Spells.unique {options' : List (Given χ)} {operands' : List (List χ)}
    (h : Spells g permute ws options operands) (h' : Spells g permute ws options' operands') :
    options = options' ∧ operands = operands' := by
  have heq := (scan_complete h).symm.trans (scan_complete h')
  rw [Prod.mk.injEq] at heq
  have hinj : Function.Injective (@Given.item χ) := by
    rintro ⟨c, argument⟩ ⟨d, argument'⟩ hitem
    cases hitem
    rfl
  exact ⟨hinj.list_map heq.1, heq.2⟩

end Getopt
