import Mathlib.Data.List.DropRight

/-!
# Splitting at a separator without the empty pieces at the end

Splitting a text at a separator and joining the pieces are inverse to each other.
A splitter that drops the empty pieces at the end forgets how many separators the
text ends with, and nothing else.
-/
namespace HyperDex.General.Lines

variable {α : Type*} {sep : α}

/-- The text is the pieces, joined by one separator each, before any number of separators. The
pieces have no separator in them, and the last of them is not empty. -/
structure Joins (sep : α) (pieces : List (List α)) (text : List α) : Prop where
  text_eq : ∃ k, text = [sep].intercalate pieces ++ List.replicate k sep
  free : ∀ l ∈ pieces, sep ∉ l
  last : ∀ h : pieces ≠ [], pieces.getLast h ≠ []

theorem intercalate_concat_nil {pieces : List (List α)} (h : pieces ≠ []) :
    [sep].intercalate (pieces ++ [[]]) = [sep].intercalate pieces ++ [sep] := by
  induction pieces with
  | nil => exact absurd rfl h
  | cons l pieces ih =>
    cases pieces with
    | nil => simp
    | cons m pieces =>
      rw [List.cons_append, List.intercalate_cons_of_ne_nil (by simp), ih (by simp),
        List.intercalate_cons_cons]
      simp

theorem intercalate_append_replicate_nil {pieces : List (List α)} (h : pieces ≠ []) (k : ℕ) :
    [sep].intercalate (pieces ++ List.replicate k []) =
      [sep].intercalate pieces ++ List.replicate k sep := by
  induction k with
  | zero => simp
  | succ k ih =>
    rw [List.replicate_succ', List.replicate_succ', ← List.append_assoc, ← List.append_assoc,
      ← ih, intercalate_concat_nil (by simp [h])]

theorem intercalate_replicate_nil (k : ℕ) :
    [sep].intercalate (List.replicate (k + 1) []) = List.replicate k sep := by
  rw [Nat.add_comm, List.replicate_add]
  exact (intercalate_append_replicate_nil (by simp) k).trans (by simp)

/-- The pieces before the empty ones at the end, and how many these are. -/
theorem exists_eq_rdropWhile_append (pieces : List (List α)) :
    ∃ k, pieces = pieces.rdropWhile (· = []) ++ List.replicate k [] := by
  have hempty : ∀ l ∈ pieces.rtakeWhile (· = []), l = [] := by
    intro l hl
    simpa using List.mem_rtakeWhile_imp hl
  refine ⟨(pieces.rtakeWhile (· = [])).length, ?_⟩
  rw [← List.eq_replicate_of_mem hempty, List.rdropWhile_append_rtakeWhile]

theorem rdropWhile_append_replicate_nil {pieces : List (List α)}
    (hlast : ∀ h : pieces ≠ [], pieces.getLast h ≠ []) (k : ℕ) :
    (pieces ++ List.replicate k []).rdropWhile (· = []) = pieces := by
  induction k with
  | zero => simpa using hlast
  | succ k ih =>
    rw [List.replicate_succ', ← List.append_assoc, List.rdropWhile_concat_pos _ _ _ (by simp), ih]

variable [DecidableEq α]

/-- The pieces between the separators, without the empty ones at the end. -/
def split (sep : α) (text : List α) : List (List α) := (text.splitOn sep).rdropWhile (· = [])

theorem sep_not_mem_splitOn (text : List α) : ∀ l ∈ text.splitOn sep, sep ∉ l := by
  induction text with
  | nil => simp
  | cons x text ih =>
    rw [List.splitOn_cons_eq_if_modifyHead]
    cases hpieces : text.splitOn sep with
    | nil => exact absurd hpieces (List.splitOn_ne_nil _ _)
    | cons l pieces =>
      rw [hpieces] at ih
      by_cases hx : x = sep
      · simpa [hx] using ih
      · simpa [hx, Ne.symm hx] using ih

theorem joins_split (text : List α) : Joins sep (split sep text) text := by
  rcases exists_eq_rdropWhile_append (text.splitOn sep) with ⟨k, hk⟩
  rw [← split] at hk
  have hjoin : [sep].intercalate (text.splitOn sep) = text := List.intercalate_splitOn sep
  rw [hk] at hjoin
  refine ⟨?_, fun l hl => ?_, fun h => ?_⟩
  · by_cases hempty : split sep text = []
    · rw [hempty, List.nil_append] at hk hjoin
      cases k with
      | zero => exact absurd hk (List.splitOn_ne_nil _ _)
      | succ k => exact ⟨k, by rw [hempty, ← hjoin, intercalate_replicate_nil]; rfl⟩
    · exact ⟨k, by rw [← intercalate_append_replicate_nil hempty, hjoin]⟩
  · exact sep_not_mem_splitOn text l (hk ▸ List.mem_append_left _ hl)
  · have hlast := List.rdropWhile_last_not _ _ h
    rwa [decide_eq_true_iff] at hlast

/-- Splitting and joining are inverse to each other, up to the separators at the end. -/
theorem split_eq_iff (text : List α) (pieces : List (List α)) :
    split sep text = pieces ↔ Joins sep pieces text := by
  refine ⟨fun h => h ▸ joins_split text, fun h => ?_⟩
  -- The pieces with the empty ones behind them are what splitting alone gives.
  have hsplit : ∃ k, text.splitOn sep = pieces ++ List.replicate k [] := by
    rcases h.text_eq with ⟨k, hk⟩
    have hfree (k : ℕ) : ∀ l ∈ pieces ++ List.replicate k [], sep ∉ l := by
      intro l hl
      rcases List.mem_append.mp hl with hl | hl
      · exact h.free l hl
      · simp [List.eq_of_mem_replicate hl]
    by_cases hempty : pieces = []
    · refine ⟨k + 1, ?_⟩
      rw [hk, ← List.splitOn_intercalate sep (hfree (k + 1)) (by simp), hempty, List.nil_append,
        intercalate_replicate_nil]
      rfl
    · refine ⟨k, ?_⟩
      rw [hk, ← intercalate_append_replicate_nil hempty,
        List.splitOn_intercalate sep (hfree k) (by simp [hempty])]
  rcases hsplit with ⟨k, hk⟩
  rw [split, hk, rdropWhile_append_replicate_nil h.last]

end HyperDex.General.Lines
