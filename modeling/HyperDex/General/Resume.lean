import HyperDex.General.Outcome

/-!
# Calls that are made again

A reader takes the elements of a row one after the other, and some of them are
faults, which end the call that takes them with an exception. A caller who
rescues the exception and makes the call again goes on behind the fault: it
comes to the state, and ends in the way, in which a single call without faults
would, and has rescued each fault once.
-/
namespace HyperDex.General

variable {σ α β γ ε : Type*}

/-- `begin; call; rescue => e; errors << e; retry unless done; raise; end`, for a number of
calls. -/
def retry (done : σ → Bool) (call : σ → List α → Outcome ε β × σ × List α) :
    ℕ → σ → List α → Outcome ε β × List ε × σ × List α
  | 0, s, as => (.pending, [], s, as)
  | n + 1, s, as =>
    let x := call s as
    match x.1 with
    | .raised e =>
      if done x.2.1 then (.raised e, [], x.2)
      else
        let y := retry done call n x.2.1 x.2.2
        (y.1, e :: y.2.1, y.2.2)
    | y => (y, [], x.2)

variable {done : σ → Bool} {call : σ → List α → Outcome ε β × σ × List α}

theorem retry_of_raised {n : ℕ} {s t : σ} {as rest : List α} {e : ε}
    (hcall : call s as = (.raised e, t, rest)) (hdone : done t = false) :
    retry done call (n + 1) s as =
      ((retry done call n t rest).1, e :: (retry done call n t rest).2.1,
        (retry done call n t rest).2.2) := by
  simp only [retry, hcall, hdone, Bool.false_eq_true, if_false]

theorem retry_of_ends {n : ℕ} {s : σ} {as : List α}
    (hraised : ∀ e t, call s as = (.raised e, t) → done t.1 = true) :
    retry done call (n + 1) s as = ((call s as).1, [], (call s as).2) := by
  simp only [retry]
  generalize call s as = x at hraised
  rcases x with ⟨x, t⟩
  cases x with
  | raised e => simp only [hraised e t rfl, if_true]
  | _ => rfl

/-- What an element does to the state, and the exception that it raises. -/
structure Reader (σ α ε : Type*) where
  take : σ → α → σ
  fault : σ → α → Option ε

namespace Reader

variable (R : Reader σ α ε)

def after (s : σ) (as : List α) : σ := as.foldl R.take s

def faults : σ → List α → List ε
  | _, [] => []
  | s, a :: as => (R.fault s a).toList ++ faults (R.take s a) as

def Open (done : σ → Bool) : σ → List α → Prop
  | _, [] => True
  | s, a :: as => done s = false ∧ Open done (R.take s a) as

@[simp] theorem after_nil (s : σ) : R.after s [] = s := rfl

@[simp] theorem after_cons (s : σ) (a : α) (as : List α) :
    R.after s (a :: as) = R.after (R.take s a) as := rfl

theorem after_append (s : σ) (as bs : List α) :
    R.after s (as ++ bs) = R.after (R.after s as) bs := List.foldl_append

theorem faults_append (s : σ) (as bs : List α) :
    R.faults s (as ++ bs) = R.faults s as ++ R.faults (R.after s as) bs := by
  induction as generalizing s with
  | nil => rfl
  | cons a as ih => rw [List.cons_append, faults, faults, ih, after_cons, List.append_assoc]

theorem length_faults_le (s : σ) (as : List α) : (R.faults s as).length ≤ as.length := by
  induction as generalizing s with
  | nil => exact Nat.le_refl 0
  | cons a as ih =>
    have hone : (R.fault s a).toList.length ≤ 1 := by cases R.fault s a <;> simp
    have hrest := ih (R.take s a)
    rw [faults, List.length_append, List.length_cons]
    omega

/-- The call reads elements until it is done, from the states and rows that an invariant allows. -/
structure Reads (I : σ → List α → Prop) (done : σ → Bool)
    (call : σ → List α → Outcome ε β × σ × List α) : Prop where
  keeps : ∀ s a as, I s (a :: as) → I (R.take s a) as
  goes_on : ∀ s a as, I s (a :: as) → done s = false → R.fault s a = none →
    call s (a :: as) = call (R.take s a) as
  raises : ∀ s a as e, I s (a :: as) → done s = false → R.fault s a = some e →
    call s (a :: as) = (.raised e, R.take s a, as) ∧ done (R.take s a) = false

variable {R} {I : σ → List α → Prop}

theorem Reads.congr (h : R.Reads I done call) {done' : σ → Bool}
    (hsame : ∀ s as, I s as → done' s = done s) : R.Reads I done' call where
  keeps := h.keeps
  goes_on s a as hs hopen := h.goes_on s a as hs ((hsame s _ hs).symm.trans hopen)
  raises s a as e hs hopen hfault := by
    rcases h.raises s a as e hs ((hsame s _ hs).symm.trans hopen) hfault with ⟨hcall, hstill⟩
    exact ⟨hcall, (hsame _ as (h.keeps s a as hs)).trans hstill⟩

/-- What a call does behind the last element that it takes does not matter. -/
theorem Reads.andThen (h : R.Reads I done call)
    (f : β → σ × List α → Outcome ε γ × σ × List α) :
    R.Reads I done fun s as => Outcome.andThen (call s as) f where
  keeps := h.keeps
  goes_on s a as hs hopen hfault := by rw [h.goes_on s a as hs hopen hfault]
  raises s a as e hs hopen hfault := by
    rcases h.raises s a as e hs hopen hfault with ⟨hcall, hstill⟩
    exact ⟨by rw [hcall]; rfl, hstill⟩

theorem Reads.after (h : R.Reads I done call) {s : σ} (pre : List α) {rest : List α}
    (hs : I s (pre ++ rest)) : I (R.after s pre) rest := by
  induction pre generalizing s with
  | nil => exact hs
  | cons a pre ih => exact ih (h.keeps s a _ hs)

/-- Calls that are made again come to where the call is done, behind all faults on the way, and
end as a call ends there. -/
theorem Reads.retry_eq (h : R.Reads I done call) {n : ℕ} {s : σ} {pre rest : List α}
    (hs : I s (pre ++ rest)) (hopen : R.Open done s pre)
    (hraised : ∀ e t, call (R.after s pre) rest = (.raised e, t) → done t.1 = true)
    (hn : (R.faults s pre).length < n) :
    retry done call n s (pre ++ rest) =
      ((call (R.after s pre) rest).1, R.faults s pre, (call (R.after s pre) rest).2) := by
  induction pre generalizing s n with
  | nil =>
    rcases Nat.exists_eq_succ_of_ne_zero (Nat.ne_of_gt hn) with ⟨n, rfl⟩
    exact retry_of_ends hraised
  | cons a pre ih =>
    rw [List.cons_append] at hs ⊢
    have hnext := h.keeps s a _ hs
    rw [after_cons] at hraised ⊢
    cases hfault : R.fault s a with
    | none =>
      have hsame : retry done call n s (a :: (pre ++ rest)) =
          retry done call n (R.take s a) (pre ++ rest) := by
        cases n with
        | zero => exact absurd hn (Nat.not_lt_zero _)
        | succ n => rw [retry, retry, h.goes_on s a _ hs hopen.1 hfault]
      have hfaults : R.faults s (a :: pre) = R.faults (R.take s a) pre := by simp [faults, hfault]
      rw [hfaults] at hn ⊢
      rw [hsame]
      exact ih hnext hopen.2 hraised hn
    | some e =>
      have hfaults : R.faults s (a :: pre) = e :: R.faults (R.take s a) pre := by
        simp [faults, hfault]
      rw [hfaults] at hn ⊢
      rcases Nat.exists_eq_succ_of_ne_zero (Nat.ne_of_gt (Nat.zero_lt_of_lt hn)) with ⟨n, rfl⟩
      rcases h.raises s a _ e hs hopen.1 hfault with ⟨hcall, hstill⟩
      rw [retry_of_raised hcall hstill, ih hnext hopen.2 hraised (Nat.lt_of_succ_lt_succ hn)]

end Reader

end HyperDex.General
