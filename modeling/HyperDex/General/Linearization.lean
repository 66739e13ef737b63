import HyperDex.General.Machine
import Mathlib.Data.List.Nodup

/-!
# Linearizable histories

Operations on an object are called and return at different times, and several of them
may be open at once. A history of calls and results is linearizable when the object could
have executed the operations one after the other: every operation that returned has its
turn, with the answer that was shown, one that did not return may have it, and an
operation that returned before another one was called has its turn before it. A system
that executes every operation at one moment between its call and its results has only such
histories.
-/
namespace HyperDex.General.Linearization

/-- What is seen of the operations; an operation may return more than once. -/
inductive Moment (ι μ ν : Type*) where
  | called (i : ι) (m : μ)
  | returned (i : ι) (v : ν)

variable {ι μ ν σ ρ : Type*} (serve : μ → σ → ρ × σ) (shows : ρ → ν → Prop) (s : σ)

def after (order : List (ι × μ)) : σ := Machine.run (fun q s => (serve q.2 s).2) s order

/-- The operation has its turn, and the object gives it this answer. -/
def Answers (order : List (ι × μ)) (i : ι) (reply : ρ) : Prop :=
  ∃ before m rest, order = before ++ (i, m) :: rest ∧ (serve m (after serve s before)).1 = reply

/-- An order of operations that explains a history. -/
structure Linearizes (history : List (Moment ι μ ν)) (order : List (ι × μ)) : Prop where
  distinct : (order.map Prod.fst).Nodup
  called : ∀ q ∈ order, .called q.1 q.2 ∈ history
  returned : ∀ i v, .returned i v ∈ history → ∃ reply, Answers serve s order i reply ∧ shows reply v
  realTime : ∀ i v j m, [.returned i v, .called j m].Sublist history → j ∈ order.map Prod.fst →
    [i, j].Sublist (order.map Prod.fst)

/-- The histories of a system that executes operations, with the order in which it does. -/
inductive Executes : List (Moment ι μ ν) → List (ι × μ) → Prop where
  | start : Executes [] []
  | called {history : List (Moment ι μ ν)} {order : List (ι × μ)} {i : ι} (m : μ) :
      Executes history order → (∀ m', .called i m' ∉ history) →
      Executes (history ++ [.called i m]) order
  | executed {history : List (Moment ι μ ν)} {order : List (ι × μ)} {i : ι} {m : μ} :
      Executes history order → .called i m ∈ history → i ∉ order.map Prod.fst →
      Executes history (order ++ [(i, m)])
  | returned {history : List (Moment ι μ ν)} {order : List (ι × μ)} {i : ι} {reply : ρ} {v : ν} :
      Executes history order → Answers serve s order i reply → shows reply v →
      Executes (history ++ [.returned i v]) order

variable {serve shows s}

theorem after_snoc (order : List (ι × μ)) (q : ι × μ) :
    after serve s (order ++ [q]) = (serve q.2 (after serve s order)).2 :=
  Machine.run_append _ s order [q]

theorem Answers.append {order : List (ι × μ)} {i : ι} {reply : ρ} (h : Answers serve s order i reply)
    (more : List (ι × μ)) : Answers serve s (order ++ more) i reply := by
  rcases h with ⟨before, m, rest, rfl, hreply⟩
  exact ⟨before, m, rest ++ more, by simp, hreply⟩

theorem Answers.last (order : List (ι × μ)) (i : ι) (m : μ) :
    Answers serve s (order ++ [(i, m)]) i (serve m (after serve s order)).1 :=
  ⟨order, m, [], rfl, rfl⟩

theorem Answers.mem {order : List (ι × μ)} {i : ι} {reply : ρ}
    (h : Answers serve s order i reply) : i ∈ order.map Prod.fst := by
  rcases h with ⟨before, m, rest, rfl, -⟩
  simp

theorem sublist_pair_snoc {α : Type*} {a b c : α} {l : List α} (h : [a, b].Sublist (l ++ [c]))
    (hne : b ≠ c) : [a, b].Sublist l := by
  rcases List.sublist_append_iff.mp h with ⟨l₁, l₂, hsplit, hleft, hright⟩
  rcases List.sublist_singleton.mp hright with rfl | rfl
  · rwa [hsplit, List.append_nil]
  · have hlast : b = c := by
      have hlasts := congrArg List.getLast? hsplit
      simpa using hlasts
    exact absurd hlast hne

/-- A system that executes an operation between its call and its results has linearizable
histories. -/
theorem Executes.linearizes {history : List (Moment ι μ ν)} {order : List (ι × μ)}
    (h : Executes serve shows s history order) : Linearizes serve shows s history order := by
  induction h with
  | start => exact ⟨by simp, by simp, by simp, by simp⟩
  | @called history order i m _ hnew ih =>
    refine ⟨ih.distinct, fun q hq => List.mem_append_left _ (ih.called q hq), ?_, ?_⟩
    · intro j v hj
      exact ih.returned j v (by simpa using hj)
    · intro j v i' m' hsub hi'
      apply ih.realTime j v i' m' (sublist_pair_snoc hsub ?_) hi'
      -- an operation that is in the order was called before
      rintro ⟨⟩
      rcases List.mem_map.mp hi' with ⟨q, hq, rfl⟩
      exact hnew q.2 (ih.called q hq)
  | @executed history order i m _ hcalled hnew ih =>
    have hids : (order ++ [(i, m)]).map Prod.fst = order.map Prod.fst ++ [i] := by simp
    refine ⟨?_, ?_, ?_, ?_⟩
    · rw [hids, List.nodup_append]
      refine ⟨ih.distinct, by simp, ?_⟩
      rintro a ha b hb rfl
      exact hnew (List.mem_singleton.mp hb ▸ ha)
    · intro q hq
      rcases List.mem_append.mp hq with hq | hq
      · exact ih.called q hq
      · rwa [List.mem_singleton.mp hq]
    · intro j v hj
      rcases ih.returned j v hj with ⟨reply, hanswers, hshows⟩
      exact ⟨reply, hanswers.append _, hshows⟩
    · intro j v i' m' hsub hi'
      rw [hids] at hi' ⊢
      rcases List.mem_append.mp hi' with hi' | hi'
      · exact (ih.realTime j v i' m' hsub hi').trans (List.sublist_append_left _ _)
      · obtain rfl := List.mem_singleton.mp hi'
        rcases ih.returned j v (hsub.subset (by simp)) with ⟨reply, hanswers, -⟩
        exact (List.singleton_sublist.mpr hanswers.mem).append_right [i']
  | @returned history order i reply v _ hanswers hshows ih =>
    refine ⟨ih.distinct, fun q hq => List.mem_append_left _ (ih.called q hq), ?_, ?_⟩
    · intro j v' hj
      rcases List.mem_append.mp hj with hj | hj
      · exact ih.returned j v' hj
      · obtain ⟨rfl, rfl⟩ : j = i ∧ v' = v := by simpa using hj
        exact ⟨reply, hanswers, hshows⟩
    · intro j v' i' m' hsub hi'
      exact ih.realTime j v' i' m' (sublist_pair_snoc hsub (by simp)) hi'

section Requests
variable {σ' ρ' : Type*}

/-- A server has requests, each with its operation and, when it has been executed, with its reply.
State and replies are those of the object up to relations. -/
structure Handles (serve : μ → σ → ρ × σ) (shows : ρ → ν → Prop) (s : σ) (Same : σ' → σ → Prop)
    (Alike : μ → ρ' → ρ → Prop) (requests : ι → Option (μ × Option ρ')) (state : σ')
    (history : List (Moment ι μ ν)) (order : List (ι × μ)) : Prop where
  called : ∀ i m reply, requests i = some (m, reply) → .called i m ∈ history
  replied : ∀ i m reply, requests i = some (m, some reply) →
    ∃ answer, Answers serve s order i answer ∧ Alike m reply answer
  waiting : ∀ i m, requests i = some (m, none) → i ∉ order.map Prod.fst
  state : Same state (after serve s order)
  executes : Executes serve shows s history order

variable {Same : σ' → σ → Prop} {Alike : μ → ρ' → ρ → Prop} {requests : ι → Option (μ × Option ρ')}
  {state : σ'} {history : List (Moment ι μ ν)} {order : List (ι × μ)}

theorem handles_start (hstate : Same state s) :
    Handles serve shows s Same Alike (fun _ : ι => none) state [] [] where
  called i m reply h := by simp at h
  replied i m reply h := by simp at h
  waiting i m h := by simp at h
  state := hstate
  executes := .start

theorem Handles.fresh (h : Handles serve shows s Same Alike requests state history order) {i : ι}
    (hnew : ∀ m, .called i m ∉ history) : i ∉ order.map Prod.fst := by
  intro hmem
  rcases List.mem_map.mp hmem with ⟨q, hq, rfl⟩
  exact hnew q.2 (h.executes.linearizes.called q hq)

variable [DecidableEq ι]

theorem Handles.call (h : Handles serve shows s Same Alike requests state history order) {i : ι}
    (m : μ) (hnew : ∀ m', .called i m' ∉ history) :
    Handles serve shows s Same Alike (Function.update requests i (some (m, none))) state
      (history ++ [.called i m]) order := by
  refine ⟨?_, ?_, ?_, h.state, h.executes.called m hnew⟩
  · intro j m' reply hj
    by_cases hij : j = i
    · subst hij
      rw [Function.update_self] at hj
      obtain ⟨rfl, -⟩ := Prod.mk.inj (Option.some.inj hj)
      simp
    · rw [Function.update_of_ne hij] at hj
      exact List.mem_append_left _ (h.called j m' reply hj)
  · intro j m' reply hj
    by_cases hij : j = i
    · subst hij
      simp at hj
    · rw [Function.update_of_ne hij] at hj
      exact h.replied j m' reply hj
  · intro j m' hj
    by_cases hij : j = i
    · exact hij ▸ h.fresh hnew
    · rw [Function.update_of_ne hij] at hj
      exact h.waiting j m' hj

theorem Handles.execute (h : Handles serve shows s Same Alike requests state history order) {i : ι}
    {m : μ} (hi : requests i = some (m, none)) {reply : ρ'} {state' : σ'}
    (hreply : Alike m reply (serve m (after serve s order)).1)
    (hstate : Same state' (serve m (after serve s order)).2) :
    Handles serve shows s Same Alike (Function.update requests i (some (m, some reply))) state'
      history (order ++ [(i, m)]) := by
  have hcalled := h.called i m none hi
  refine ⟨?_, ?_, ?_, ?_, h.executes.executed hcalled (h.waiting i m hi)⟩
  · intro j m' reply' hj
    by_cases hij : j = i
    · subst hij
      rw [Function.update_self] at hj
      obtain ⟨rfl, -⟩ := Prod.mk.inj (Option.some.inj hj)
      exact hcalled
    · rw [Function.update_of_ne hij] at hj
      exact h.called j m' reply' hj
  · intro j m' reply' hj
    by_cases hij : j = i
    · subst hij
      rw [Function.update_self] at hj
      obtain ⟨rfl, hsome⟩ := Prod.mk.inj (Option.some.inj hj)
      obtain rfl := Option.some.inj hsome
      exact ⟨_, .last order j m, hreply⟩
    · rw [Function.update_of_ne hij] at hj
      rcases h.replied j m' reply' hj with ⟨answer, hanswers, halike⟩
      exact ⟨answer, hanswers.append _, halike⟩
  · intro j m' hj
    by_cases hij : j = i
    · subst hij
      simp at hj
    · rw [Function.update_of_ne hij] at hj
      simpa [hij] using h.waiting j m' hj
  · rw [after_snoc]
    exact hstate

omit [DecidableEq ι] in
theorem Handles.returned (h : Handles serve shows s Same Alike requests state history order) {i : ι}
    {m : μ} {reply : ρ'} (hi : requests i = some (m, some reply)) {v : ν}
    (hshows : ∀ answer, Alike m reply answer → shows answer v) :
    Handles serve shows s Same Alike requests state (history ++ [.returned i v]) order := by
  rcases h.replied i m reply hi with ⟨answer, hanswers, halike⟩
  exact ⟨fun j m' reply' hj => List.mem_append_left _ (h.called j m' reply' hj), h.replied,
    h.waiting, h.state, h.executes.returned hanswers (hshows answer halike)⟩

end Requests

end HyperDex.General.Linearization
