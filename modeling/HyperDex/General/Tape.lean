import Mathlib.Tactic.Common

/-!
# Tapes of call results

An iterator call returns an integer and fills a cell. A positive result says
that the cell holds the next element, zero that there is none left, a negative
result that the data is malformed. A tape lists the results of the successive
calls; past its end every call returns zero.
-/
namespace HyperDex.General

variable {α β ε : Type*}

abbrev Tape (α : Type*) := List (Int × α)

namespace Tape

def produced : Tape α → List α
  | [] => []
  | (result, a) :: tape => if 0 < result then a :: produced tape else []

def ending : Tape α → Int
  | [] => 0
  | (result, _) :: tape => if 0 < result then ending tape else result

/-- The tape stores exactly `xs` and then reports the end of the data. -/
def Delivers (tape : Tape α) (xs : List α) : Prop :=
  tape.produced = xs ∧ tape.ending = 0

theorem Delivers.map (f : α → β) {tape : Tape α} {xs : List α} (h : tape.Delivers xs) :
    Delivers (tape.map fun r => (r.1, f r.2)) (xs.map f) := by
  have hboth : produced (tape.map fun r => (r.1, f r.2)) = tape.produced.map f ∧
      ending (tape.map fun r => (r.1, f r.2)) = tape.ending := by
    clear h
    induction tape with
    | nil => exact ⟨rfl, rfl⟩
    | cons r tape ih =>
      by_cases hr : 0 < r.1
      · simpa [produced, ending, hr] using ih
      · simp [produced, ending, hr]
  exact ⟨by rw [hboth.1, h.1], by rw [hboth.2, h.2]⟩

theorem ending_nonpos (tape : Tape α) : tape.ending ≤ 0 := by
  induction tape with
  | nil => exact Int.le_refl 0
  | cons r tape ih =>
    rw [ending]
    split
    · exact ih
    · omega

/-- `while (result = next()) > 0`: the body sees the result and the filled cell. -/
def whilePositive (body : β → Int → α → Except ε β) : Tape α → β → Except ε β
  | [], b => .ok b
  | (result, a) :: tape, b =>
    if 0 < result then body b result a >>= whilePositive body tape else .ok b

/-- A body that cannot fail on a positive result folds the produced elements,
whatever the result that ended the loop. -/
theorem whilePositive_eq_foldl (body : β → Int → α → Except ε β) (f : β → α → β)
    (hbody : ∀ b result a, 0 < result → body b result a = .ok (f b a)) (tape : Tape α) (b : β) :
    whilePositive body tape b = .ok (tape.produced.foldl f b) := by
  induction tape generalizing b with
  | nil => rfl
  | cons r tape ih =>
    rcases r with ⟨result, a⟩
    by_cases h : 0 < result
    · rw [whilePositive, if_pos h, hbody b result a h, produced, if_pos h]
      exact ih (f b a)
    · rw [whilePositive, if_neg h, produced, if_neg h, List.foldl_nil]

end Tape
end HyperDex.General
