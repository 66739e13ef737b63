import Mathlib.Logic.Function.Basic
import Mathlib.Tactic.Common

/-!
# Ledgers of requests and answers

A party opens requests under identifiers, each on behalf of a fresh reference,
and the other party answers them under the same identifiers, in any order. An
identifier is outstanding from its opening to its closing answer and may then
be used again. The ledger is the chronological list of both kinds of entries;
a valid ledger opens only free identifiers and answers only outstanding ones.
-/
namespace HyperDex.General

variable {ι ρ γ : Type*}

namespace Ledger

/-- `closes` marks the answer after which the identifier is free again. -/
inductive Entry (ι ρ γ : Type*) where
  | opened (id : ι) (r : ρ)
  | answered (id : ι) (r : ρ) (answer : γ) (closes : Bool)

def Entry.ref : Entry ι ρ γ → ρ
  | .opened _ r => r
  | .answered _ r _ _ => r

section References
variable [DecidableEq ρ]

def answers (r : ρ) (es : List (Entry ι ρ γ)) : List γ :=
  es.filterMap fun
    | .opened _ _ => none
    | .answered _ r' answer _ => if r' = r then some answer else none

def closings (r : ρ) (es : List (Entry ι ρ γ)) : ℕ :=
  es.countP fun
    | .opened _ _ => false
    | .answered _ r' _ closes => r' = r ∧ closes

@[simp] theorem closings_opened (r : ρ) (es : List (Entry ι ρ γ)) (id : ι) (r' : ρ) :
    closings r (es ++ [.opened id r']) = closings r es := by
  simp [closings]

@[simp] theorem closings_answered (r : ρ) (es : List (Entry ι ρ γ)) (id : ι) (r' : ρ) (a : γ)
    (closes : Bool) : closings r (es ++ [.answered id r' a closes]) =
      closings r es + if r' = r ∧ closes = true then 1 else 0 := by
  simp [closings, List.countP_append, List.countP_cons]

@[simp] theorem answers_opened (r : ρ) (es : List (Entry ι ρ γ)) (id : ι) (r' : ρ) :
    answers r (es ++ [.opened id r']) = answers r es := by
  simp [answers]

@[simp] theorem answers_answered (r : ρ) (es : List (Entry ι ρ γ)) (id : ι) (r' : ρ) (a : γ)
    (closes : Bool) : answers r (es ++ [.answered id r' a closes]) =
      answers r es ++ if r' = r then [a] else [] := by
  by_cases h : r' = r <;> simp [answers, h]

theorem closings_of_not_mem (r : ρ) (es : List (Entry ι ρ γ)) (h : ∀ e ∈ es, e.ref ≠ r) :
    closings r es = 0 := by
  rw [closings, List.countP_eq_zero]
  rintro (⟨_, _⟩ | ⟨_, r', _, _⟩) he
  · simp
  · have hr : r' ≠ r := h _ he
    simp [hr]

theorem answers_of_not_mem (r : ρ) (es : List (Entry ι ρ γ)) (h : ∀ e ∈ es, e.ref ≠ r) :
    answers r es = [] := by
  rw [answers, List.filterMap_eq_nil_iff]
  rintro (⟨_, _⟩ | ⟨_, r', _, _⟩) he
  · rfl
  · have hr : r' ≠ r := h _ he
    simp [hr]

theorem mem_answers {r : ρ} {es : List (Entry ι ρ γ)} {a : γ} :
    a ∈ answers r es ↔ ∃ id closes, .answered id r a closes ∈ es := by
  rw [answers, List.mem_filterMap]
  constructor
  · rintro ⟨⟨id, r'⟩ | ⟨id, r', a', closes⟩, he, ha⟩
    · simp at ha
    · obtain ⟨rfl, rfl⟩ : r' = r ∧ a' = a := by simpa using ha
      exact ⟨id, closes, he⟩
  · rintro ⟨id, closes, he⟩
    exact ⟨_, he, by simp⟩

end References

variable [DecidableEq ι]

def apply (table : ι → Option ρ) : Entry ι ρ γ → ι → Option ρ
  | .opened id r => Function.update table id (some r)
  | .answered id _ _ closes => if closes then Function.update table id none else table

def outstanding (es : List (Entry ι ρ γ)) : ι → Option ρ := es.foldl apply (fun _ => none)

@[simp] theorem outstanding_nil : outstanding ([] : List (Entry ι ρ γ)) = fun _ => none := rfl

@[simp] theorem outstanding_snoc (es : List (Entry ι ρ γ)) (e : Entry ι ρ γ) :
    outstanding (es ++ [e]) = apply (outstanding es) e := by
  simp [outstanding, List.foldl_append]

inductive Valid : List (Entry ι ρ γ) → Prop where
  | nil : Valid []
  | opened {es : List (Entry ι ρ γ)} {id : ι} {r : ρ} : Valid es → outstanding es id = none →
      (∀ e ∈ es, e.ref ≠ r) → Valid (es ++ [.opened id r])
  | answered {es : List (Entry ι ρ γ)} {id : ι} {r : ρ} (answer : γ) (closes : Bool) : Valid es →
      outstanding es id = some r → Valid (es ++ [.answered id r answer closes])

theorem Valid.opened_mem {es : List (Entry ι ρ γ)} (h : Valid es) {id : ι} {r : ρ}
    (ho : outstanding es id = some r) : .opened id r ∈ es := by
  induction h with
  | nil => simp at ho
  | @opened es id' r' _ _ _ ih =>
    rw [outstanding_snoc, apply, Function.update_apply] at ho
    split_ifs at ho with hid
    · simp [hid, Option.some.inj ho]
    · exact List.mem_append_left _ (ih ho)
  | @answered es id' r' _ closes _ _ ih =>
    rw [outstanding_snoc, apply] at ho
    apply List.mem_append_left
    cases closes with
    | false => exact ih ho
    | true =>
      rw [if_pos rfl, Function.update_apply] at ho
      split_ifs at ho
      exact ih ho

/-- A reference is outstanding under one identifier only. -/
theorem Valid.outstanding_injective {es : List (Entry ι ρ γ)} (h : Valid es) {i j : ι} {r : ρ}
    (hi : outstanding es i = some r) (hj : outstanding es j = some r) : i = j := by
  induction h with
  | nil => simp at hi
  | @opened es id' r' hes _ hfresh ih =>
    have hold {k : ι} (hk : outstanding es k = some r) : r ≠ r' :=
      fun h => hfresh _ (hes.opened_mem hk) h
    simp only [outstanding_snoc, apply, Function.update_apply] at hi hj
    split_ifs at hi hj with h₁ h₂ h₂
    · exact h₁.trans h₂.symm
    · exact absurd (Option.some.inj hi).symm (hold hj)
    · exact absurd (Option.some.inj hj).symm (hold hi)
    · exact ih hi hj
  | @answered es id' r' _ closes _ _ ih =>
    cases closes with
    | false => exact ih (by simpa [apply] using hi) (by simpa [apply] using hj)
    | true =>
      simp only [outstanding_snoc, apply, if_pos, Function.update_apply] at hi hj
      split_ifs at hi hj
      exact ih hi hj

/-- An answer is given under an identifier that was opened for its reference. -/
theorem Valid.opened_of_answered {es : List (Entry ι ρ γ)} (h : Valid es) {id : ι} {r : ρ} {a : γ}
    {closes : Bool} (hr : .answered id r a closes ∈ es) : .opened id r ∈ es := by
  induction h with
  | nil => simp at hr
  | opened hes _ _ ih => exact List.mem_append_left _ (ih (by simpa using hr))
  | @answered es id' r' a' closes' hes hopen ih =>
    rcases List.mem_append.mp hr with hr | hr
    · exact List.mem_append_left _ (ih hr)
    · obtain ⟨rfl, rfl, -, -⟩ : id = id' ∧ r = r' ∧ a = a' ∧ closes = closes' := by simpa using hr
      exact List.mem_append_left _ (hes.opened_mem hopen)

theorem Valid.opened_unique {es : List (Entry ι ρ γ)} (h : Valid es) {i j : ι} {r : ρ}
    (hi : .opened i r ∈ es) (hj : .opened j r ∈ es) : i = j := by
  induction h with
  | nil => simp at hi
  | @opened es id r' hes _ hfresh ih =>
    simp only [List.mem_append, List.mem_singleton, Entry.opened.injEq] at hi hj
    rcases hi with hi | ⟨rfl, rfl⟩
    · rcases hj with hj | ⟨-, rfl⟩
      · exact ih hi hj
      · exact absurd rfl (hfresh _ hi)
    · rcases hj with hj | ⟨rfl, -⟩
      · exact absurd rfl (hfresh _ hj)
      · rfl
  | answered a closes hes _ ih => exact ih (by simpa using hi) (by simpa using hj)

variable [DecidableEq ρ]

/-- Between its opening and its closing a reference is outstanding, and never else. -/
theorem Valid.closings_eq {es : List (Entry ι ρ γ)} (h : Valid es) {id : ι} {r : ρ}
    (hr : .opened id r ∈ es) :
    (closings r es = 0 ∧ outstanding es id = some r) ∨
      (closings r es = 1 ∧ ∀ j, outstanding es j ≠ some r) := by
  induction h with
  | nil => simp at hr
  | @opened es id' r' hes hfree hfresh ih =>
    rcases List.mem_append.mp hr with hr | hr
    · -- an older reference: the fresh identifier was free and belongs to another one
      have hne : r ≠ r' := fun h => hfresh _ hr h
      have hkeep (j : ι) : outstanding (es ++ [.opened id' r']) j = some r ↔
          outstanding es j = some r := by
        rw [outstanding_snoc, apply, Function.update_apply]
        split_ifs with hj
        · simp [hj, hfree, Ne.symm hne]
        · rfl
      rw [closings_opened, hkeep]
      simpa only [ne_eq, hkeep] using ih hr
    · obtain ⟨rfl, rfl⟩ : id = id' ∧ r = r' := by simpa using hr
      left
      rw [closings_opened, closings_of_not_mem r es hfresh]
      simp [apply]
  | @answered es id' r' a closes hes hopen ih =>
    have hr' : .opened id r ∈ es := by simpa using hr
    cases closes with
    | false => simpa [apply] using ih hr'
    | true =>
      rcases ih hr' with ⟨hc, ho⟩ | ⟨hc, ho⟩
      · by_cases heq : r' = r
        · -- the closing answer of `r` itself
          right
          subst heq
          refine ⟨by simp [hc], fun j hj => ?_⟩
          rw [outstanding_snoc, apply, if_pos rfl, Function.update_apply] at hj
          split_ifs at hj with hid
          exact hid (hes.outstanding_injective hj hopen)
        · left
          have hid : id ≠ id' := fun h => heq (Option.some.inj (hopen.symm.trans (h ▸ ho)))
          simp [hc, heq, apply, hid, ho]
      · right
        have heq : r' ≠ r := fun h => ho id' (h ▸ hopen)
        refine ⟨by simp [hc, heq], fun j hj => ?_⟩
        rw [outstanding_snoc, apply, if_pos rfl, Function.update_apply] at hj
        split_ifs at hj
        exact ho j hj

end Ledger
end HyperDex.General
