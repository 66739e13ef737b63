import Mathlib.Data.List.Forall2
import Mathlib.Logic.Relation
import Mathlib.Tactic.Common

/-!
# Runs of a deterministic machine

`step a s` is the state after action `a`; nondeterminism sits in the actions.
One rule carries an invariant of a step to every run, one does the same for a
reflexive and transitive relation between the first and the last state. The two
rules stand a second time for sequences of the steps of a relation. A third one
compares the outputs of two machines.
-/
namespace HyperDex.General.Machine

variable {σ α : Type*} (step : α → σ → σ)

def run (s : σ) (as : List α) : σ := as.foldl (fun s a => step a s) s

@[simp] theorem run_nil (s : σ) : run step s [] = s := rfl

@[simp] theorem run_cons (s : σ) (a : α) (as : List α) :
    run step s (a :: as) = run step (step a s) as := rfl

theorem run_append (s : σ) (as bs : List α) :
    run step s (as ++ bs) = run step (run step s as) bs :=
  List.foldl_append

/-- What the steps of some actions preserve holds after every run of such actions. -/
theorem run_invariant_of_forall {I : σ → Prop} {P : α → Prop}
    (hstep : ∀ a s, P a → I s → I (step a s)) {s : σ} (hs : I s) (as : List α)
    (has : ∀ a ∈ as, P a) : I (run step s as) := by
  induction as generalizing s with
  | nil => exact hs
  | cons a as ih =>
    exact ih (hstep a s (has a List.mem_cons_self) hs) fun b hb => has b (List.mem_cons_of_mem a hb)

/-- What every step preserves holds after every run. -/
theorem run_invariant {I : σ → Prop} (hstep : ∀ a s, I s → I (step a s)) {s : σ} (hs : I s)
    (as : List α) : I (run step s as) :=
  run_invariant_of_forall step (P := fun _ => True) (fun a s _ => hstep a s) hs as (by simp)

/-- What every step relates, a run relates, under an invariant of the steps. -/
theorem run_related {I : σ → Prop} {R : σ → σ → Prop} (hrefl : ∀ s, R s s)
    (htrans : ∀ s t u, R s t → R t u → R s u) (hinv : ∀ a s, I s → I (step a s))
    (hstep : ∀ a s, I s → R s (step a s)) {s : σ} (hs : I s) (as : List α) :
    R s (run step s as) := by
  induction as generalizing s with
  | nil => exact hrefl s
  | cons a as ih => exact htrans s _ _ (hstep a s hs) (ih (hinv a s hs))

section Steps
variable {r : σ → σ → Prop} {s t : σ}

/-- What every step preserves, a sequence of steps preserves. -/
theorem steps_invariant {I : σ → Prop} (hstep : ∀ s t, r s t → I s → I t)
    (h : Relation.ReflTransGen r s t) (hs : I s) : I t := by
  induction h with
  | refl => exact hs
  | tail _ hlast ih => exact hstep _ _ hlast ih

/-- What every step relates, a sequence relates, under an invariant of the steps. -/
theorem steps_related {I : σ → Prop} {R : σ → σ → Prop} (hrefl : ∀ s, R s s)
    (htrans : ∀ s t u, R s t → R t u → R s u) (hinv : ∀ s t, r s t → I s → I t)
    (hstep : ∀ s t, r s t → I s → R s t) (h : Relation.ReflTransGen r s t) (hs : I s) :
    R s t := by
  induction h with
  | refl => exact hrefl s
  | tail hsteps hlast ih => exact htrans s _ _ ih (hstep _ _ hlast (steps_invariant hinv hsteps hs))

end Steps

section Outputs
variable {τ β γ : Type*} (out : α → σ → β)

def outputs (s : σ) : List α → List β
  | [] => []
  | a :: as => out a s :: outputs (step a s) as

variable {step' : α → τ → τ} {out' : α → τ → γ}

/-- Two machines that keep a relation with every common action keep it in a run, and their
outputs are matched one by one. -/
theorem outputs_forall₂ {R : σ → τ → Prop} {Q : α → β → γ → Prop}
    (hstep : ∀ a s t, R s t → Q a (out a s) (out' a t) ∧ R (step a s) (step' a t)) {s : σ} {t : τ}
    (hst : R s t) (as : List α) :
    List.Forall₂ (fun a o => Q a o.1 o.2) as
        ((outputs step out s as).zip (outputs step' out' t as)) ∧
      R (run step s as) (run step' t as) := by
  induction as generalizing s t with
  | nil => exact ⟨.nil, hst⟩
  | cons a as ih =>
    rcases hstep a s t hst with ⟨hout, hnext⟩
    rcases ih hnext with ⟨hrest, hrun⟩
    exact ⟨.cons hout hrest, hrun⟩

/-- A machine that commutes with an abstraction function has the outputs and, up to that function,
the runs of the abstract machine. -/
theorem outputs_eq_of_abstraction {out' : α → τ → β} {I : σ → Prop} (abs : σ → τ)
    (hinv : ∀ a s, I s → I (step a s))
    (hstep : ∀ a s, I s → out a s = out' a (abs s) ∧ abs (step a s) = step' a (abs s)) {s : σ}
    (hs : I s) (as : List α) :
    outputs step out s as = outputs step' out' (abs s) as ∧
      abs (run step s as) = run step' (abs s) as := by
  induction as generalizing s with
  | nil => exact ⟨rfl, rfl⟩
  | cons a as ih =>
    rcases hstep a s hs with ⟨hout, hnext⟩
    rcases ih (hinv a s hs) with ⟨hrest, hrun⟩
    rw [hnext] at hrest hrun
    exact ⟨congrArg₂ List.cons hout hrest, hrun⟩

end Outputs

end HyperDex.General.Machine
