import HyperDex.General.Machine

/-!
# Reordering of independent actions

The actions of a machine are sorted by a key, and actions with different keys
commute, up to a relation that all steps keep. What a run leads to then depends
only on the actions of each key in their order, not on how the keys interleave.
-/
namespace HyperDex.General.Machine

variable {σ α κ : Type*} (step : α → σ → σ)

/-- The laws that a reordering needs, on the states that an invariant allows. -/
structure Independent (key : α → κ) (I : σ → Prop) (R : σ → σ → Prop) : Prop where
  invariant : ∀ a s, I s → I (step a s)
  refl : ∀ s, R s s
  trans : ∀ s t u, R s t → R t u → R s u
  congr : ∀ a s t, R s t → R (step a s) (step a t)
  commute : ∀ a b s, I s → key a ≠ key b → R (step b (step a s)) (step a (step b s))

variable {step} {key : α → κ} {I : σ → Prop} {R : σ → σ → Prop}

theorem Independent.run_congr (h : Independent step key I R) {s t : σ} (hst : R s t)
    (as : List α) : R (run step s as) (run step t as) := by
  induction as generalizing s t with
  | nil => exact hst
  | cons a as ih => exact ih (h.congr a s t hst)

/-- An action moves behind actions with other keys. -/
theorem Independent.run_bubble (h : Independent step key I R) {s : σ} (hs : I s) (a : α)
    (pre post : List α) (hpre : ∀ b ∈ pre, key b ≠ key a) :
    R (run step s (a :: (pre ++ post))) (run step s (pre ++ a :: post)) := by
  induction pre generalizing s with
  | nil => exact h.refl _
  | cons b pre ih =>
    have hswap := h.commute a b s hs (Ne.symm (hpre b List.mem_cons_self))
    have hrest := ih (h.invariant b s hs) fun c hc => hpre c (List.mem_cons_of_mem b hc)
    exact h.trans _ _ _ (h.run_congr hswap (pre ++ post)) hrest

/-- Runs with the same actions for every key lead to related states. -/
theorem Independent.run_of_filter_eq [DecidableEq κ] (h : Independent step key I R) {s : σ}
    (hs : I s) {as bs : List α}
    (hkeys : ∀ k, as.filter (fun a => key a = k) = bs.filter (fun b => key b = k)) :
    R (run step s as) (run step s bs) := by
  induction as generalizing s bs with
  | nil =>
    cases bs with
    | nil => exact h.refl s
    | cons b bs => simpa using hkeys (key b)
  | cons a as ih =>
    have hfilter := hkeys (key a)
    rw [List.filter_cons_of_pos (by simp)] at hfilter
    -- the first action of the key comes behind actions of other keys
    obtain ⟨pre, post, rfl, hpre, -, hpost⟩ := List.filter_eq_cons_iff.mp hfilter.symm
    have hother : ∀ b ∈ pre, key b ≠ key a := by simpa using hpre
    have hrest (k : κ) : as.filter (fun a => key a = k) =
        (pre ++ post).filter (fun b => key b = k) := by
      by_cases hk : key a = k
      · subst hk
        have hnone : pre.filter (fun b => key b = key a) = [] := by
          simpa [List.filter_eq_nil_iff] using hother
        rw [List.filter_append, hnone, List.nil_append, hpost]
      · have hthis := hkeys k
        rw [List.filter_cons_of_neg (by simpa using hk), List.filter_append,
          List.filter_cons_of_neg (by simpa using hk)] at hthis
        rw [hthis, List.filter_append]
    have hfirst := ih (h.invariant a s hs) hrest
    exact h.trans _ _ _ hfirst (h.run_bubble hs a pre post hother)

end HyperDex.General.Machine
