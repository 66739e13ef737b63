import Mathlib.Algebra.GroupWithZero.Nat
import Mathlib.Tactic.Common

/-!
# How a call can end

A call returns a value, raises an exception, has not returned yet, or leaves
the meaning of the language behind (an access to freed memory, an accessor
applied to an object of another type). Sequencing stops at the first part that
does not return.
-/
namespace HyperDex.General

inductive Outcome (ε α : Type*) where
  | returned (value : α)
  | raised (exception : ε)
  | pending
  | undefined
  deriving DecidableEq, Repr

namespace Outcome

variable {ε : Type*} {α β : Type*}

protected def bind (x : Outcome ε α) (f : α → Outcome ε β) : Outcome ε β :=
  match x with
  | .returned a => f a
  | .raised e => .raised e
  | .pending => .pending
  | .undefined => .undefined

instance {ε : Type*} : Monad (Outcome ε) where
  pure := .returned
  bind := Outcome.bind

@[simp] theorem pure_eq (a : α) : (pure a : Outcome ε α) = .returned a := rfl

@[simp] theorem returned_bind {α β : Type _} (a : α) (f : α → Outcome ε β) :
    (Outcome.returned a >>= f) = f a := rfl

@[simp] theorem raised_bind {α β : Type _} (e : ε) (f : α → Outcome ε β) :
    (Outcome.raised e >>= f) = .raised e := rfl

@[simp] theorem pending_bind {α β : Type _} (f : α → Outcome ε β) :
    ((Outcome.pending : Outcome ε α) >>= f) = .pending := rfl

@[simp] theorem undefined_bind {α β : Type _} (f : α → Outcome ε β) :
    ((Outcome.undefined : Outcome ε α) >>= f) = .undefined := rfl

instance {ε : Type*} : LawfulMonad (Outcome ε) := LawfulMonad.mk' (Outcome ε)
  (fun x => by cases x <;> rfl) (fun _ _ => rfl) (fun x _ _ => by cases x <;> rfl)

theorem bind_eq_returned {α β : Type _} {x : Outcome ε α} {f : α → Outcome ε β} {b : β} :
    x >>= f = .returned b ↔ ∃ a, x = .returned a ∧ f a = .returned b := by
  cases x with
  | returned a => simp
  | raised e => simp
  | pending => simp
  | undefined => simp

/-- Sequencing of calls that change a state, which stays as the first call left it when that
call does not return. -/
def andThen {σ : Type*} (x : Outcome ε α × σ) (f : α → σ → Outcome ε β × σ) : Outcome ε β × σ :=
  match x with
  | (.returned a, s) => f a s
  | (.raised e, s) => (.raised e, s)
  | (.pending, s) => (.pending, s)
  | (.undefined, s) => (.undefined, s)

/-- What the first call leads to and the second keeps, the sequence leads to. -/
theorem andThen_state {σ : Type*} {I : σ → Prop} {x : Outcome ε α × σ}
    {f : α → σ → Outcome ε β × σ} (hx : I x.2) (hf : ∀ a s, I s → I (f a s).2) :
    I (andThen x f).2 := by
  rcases x with ⟨x, s⟩
  cases x with
  | returned a => exact hf a s hx
  | raised e => exact hx
  | pending => exact hx
  | undefined => exact hx

/-- Sequences whose first calls end alike, in related states, are related if what follows is. -/
theorem andThen_related {σ τ : Type*} {Q : Outcome ε β → Outcome ε β → Prop} {R : σ → τ → Prop}
    {x : Outcome ε α × σ} {y : Outcome ε α × τ} {f : α → σ → Outcome ε β × σ}
    {g : α → τ → Outcome ε β × τ} (hrefl : ∀ z, Q z z) (hx : x.1 = y.1) (hs : R x.2 y.2)
    (hf : ∀ a s t, R s t → Q (f a s).1 (g a t).1 ∧ R (f a s).2 (g a t).2) :
    Q (andThen x f).1 (andThen y g).1 ∧ R (andThen x f).2 (andThen y g).2 := by
  rcases x with ⟨x, s⟩
  rcases y with ⟨y, t⟩
  obtain rfl : x = y := hx
  cases x with
  | returned a => exact hf a s t hs
  | raised e => exact ⟨hrefl _, hs⟩
  | pending => exact ⟨hrefl _, hs⟩
  | undefined => exact ⟨hrefl _, hs⟩

def ofExcept : Except ε α → Outcome ε α
  | .ok a => .returned a
  | .error e => .raised e

section Loops
variable {ε : Type*} {σ α : Type _}

/-- `for (i = start; count > 0; ++i, --count) body` -/
def forLoop (body : σ → ℕ → Outcome ε σ) : (count start : ℕ) → σ → Outcome ε σ
  | 0, _, s => .returned s
  | n + 1, i, s => body s i >>= forLoop body n (i + 1)

/-- A loop over the indices of a list, reading one entry per round, folds the list. -/
theorem forLoop_getD_eq_foldlM (body : σ → α → Outcome ε σ) (d : α) (xs : List α) (pre : List α)
    (s : σ) : forLoop (fun s i => body s ((pre ++ xs).getD i d)) xs.length pre.length s =
      xs.foldlM body s := by
  induction xs generalizing pre s with
  | nil => rfl
  | cons x xs ih =>
    have hx : (pre ++ x :: xs).getD pre.length d = x := by simp
    rw [List.length_cons, forLoop, hx, List.foldlM_cons]
    congr 1
    funext t
    simpa using ih (pre ++ [x]) t

theorem foldlM_sum {count : α → Outcome ε ℕ} {f : α → ℕ} (xs : List α)
    (hcount : ∀ x ∈ xs, count x = .returned (f x)) (n : ℕ) :
    xs.foldlM (fun sum x => do
      let k ← count x
      return sum + k) n = .returned (n + (xs.map f).sum) := by
  induction xs generalizing n with
  | nil => rfl
  | cons x xs ih =>
    have hrest := ih (fun y hy => hcount y (List.mem_cons_of_mem x hy)) (n + f x)
    rw [List.foldlM_cons]
    simp only [hcount x List.mem_cons_self, returned_bind, pure_eq] at hrest ⊢
    rw [hrest, List.map_cons, List.sum_cons, Nat.add_assoc]

/-- A loop whose entries go on or end in one exception ends in it, if one entry does. -/
theorem foldlM_raised {body : σ → α → Outcome ε σ} {e : ε} (xs : List α)
    (hbody : ∀ x ∈ xs, ∀ s, (∃ t, body s x = .returned t) ∨ body s x = .raised e)
    (hraised : ∃ x ∈ xs, ∀ s, body s x = .raised e) (s : σ) :
    xs.foldlM body s = .raised e := by
  induction xs generalizing s with
  | nil => simp at hraised
  | cons x xs ih =>
    rw [List.foldlM_cons]
    rcases hbody x List.mem_cons_self s with ⟨t, ht⟩ | hx
    · rw [ht, returned_bind]
      apply ih fun y hy => hbody y (List.mem_cons_of_mem x hy)
      rcases hraised with ⟨y, hy, hye⟩
      rcases List.mem_cons.mp hy with rfl | hy
      · cases ht.symm.trans (hye s)
      · exact ⟨y, hy, hye⟩
    · rw [hx, raised_bind]

/-- `for (i = start; cond; ++i) body`, observed for a number of rounds. -/
def forWhile (cond : ℕ → Outcome ε Bool) (body : σ → ℕ → Outcome ε σ) :
    (rounds start : ℕ) → σ → Outcome ε σ
  | 0, _, _ => .pending
  | n + 1, i, s => cond i >>= fun more =>
    if more then body s i >>= forWhile cond body n (i + 1) else .returned s

theorem forWhile_of_false (cond : ℕ → Outcome ε Bool) (body : σ → ℕ → Outcome ε σ)
    (rounds i : ℕ) (s : σ) (h : cond i = .returned false) :
    forWhile cond body (rounds + 1) i s = .returned s := by
  simp [forWhile, h]

/-- A loop whose condition never fails does not return. -/
theorem forWhile_ne_returned (cond : ℕ → Outcome ε Bool) (body : σ → ℕ → Outcome ε σ)
    (hcond : ∀ i, cond i = .returned true) (rounds i : ℕ) (s t : σ) :
    forWhile cond body rounds i s ≠ .returned t := by
  induction rounds generalizing i s with
  | zero => simp [forWhile]
  | succ n ih =>
    rw [forWhile, hcond i, returned_bind, if_pos rfl]
    intro h
    rcases bind_eq_returned.mp h with ⟨u, -, hu⟩
    exact ih (i + 1) u hu

end Loops

section Endings
variable {ε σ α β : Type}

def Completes (x : Outcome ε α) : Prop := (∃ a, x = .returned a) ∨ ∃ e, x = .raised e

theorem completes_returned (a : α) : (returned a : Outcome ε α).Completes := .inl ⟨a, rfl⟩

theorem completes_raised (e : ε) : (raised e : Outcome ε α).Completes := .inr ⟨e, rfl⟩

theorem Completes.bind {x : Outcome ε α} {f : α → Outcome ε β} (hx : x.Completes)
    (hf : ∀ a, (f a).Completes) : (x >>= f).Completes := by
  rcases hx with ⟨a, rfl⟩ | ⟨e, rfl⟩
  · exact hf a
  · exact completes_raised e

theorem completes_foldlM {body : σ → α → Outcome ε σ} (hbody : ∀ s x, (body s x).Completes)
    (xs : List α) (s : σ) : (xs.foldlM body s).Completes := by
  induction xs generalizing s with
  | nil => exact completes_returned s
  | cons x xs ih => exact (hbody s x).bind ih

/-- How a call ends, its value apart. -/
def ending : Outcome ε α → Outcome ε Unit
  | .returned _ => .returned ()
  | .raised e => .raised e
  | .pending => .pending
  | .undefined => .undefined

@[simp] theorem ending_returned (a : α) : (returned a : Outcome ε α).ending = .returned () := rfl

@[simp] theorem ending_raised (e : ε) : (raised e : Outcome ε α).ending = .raised e := rfl

theorem ending_eq_returned {x : Outcome ε α} : x.ending = .returned () ↔ ∃ a, x = .returned a := by
  cases x <;> simp [ending]

theorem completes_ending {x : Outcome ε α} : x.ending.Completes ↔ x.Completes := by
  cases x <;> simp [ending, Completes]

theorem ending_bind {x : Outcome ε α} {f : α → Outcome ε β} {y : Outcome ε Unit}
    (hf : ∀ a, x = .returned a → (f a).ending = y) :
    (x >>= f).ending = x.ending >>= fun _ => y := by
  cases x with
  | returned a => exact hf a rfl
  | _ => rfl

theorem bind_unit (x : Outcome ε Unit) : (x >>= fun _ => .returned ()) = x := by
  cases x <;> rfl

/-- A row of steps, each taken if those before it return. -/
def sequence : List (Outcome ε Unit) → Outcome ε Unit
  | [] => .returned ()
  | x :: xs => x >>= fun _ => sequence xs

theorem sequence_append (xs ys : List (Outcome ε Unit)) :
    sequence (xs ++ ys) = sequence xs >>= fun _ => sequence ys := by
  induction xs with
  | nil => rfl
  | cons x xs ih =>
    rw [List.cons_append, sequence, sequence, ih]
    cases x <;> rfl

theorem ending_foldlM {body : σ → α → Outcome ε σ} {steps : α → List (Outcome ε Unit)}
    (xs : List α) (hbody : ∀ x ∈ xs, ∀ s, (body s x).ending = sequence (steps x)) (s : σ) :
    (xs.foldlM body s).ending = sequence (xs.flatMap steps) := by
  induction xs generalizing s with
  | nil => rfl
  | cons x xs ih =>
    have hrest (t : σ) := ih (fun y hy => hbody y (List.mem_cons_of_mem x hy)) t
    rw [List.foldlM_cons, List.flatMap_cons, sequence_append, ← hbody x List.mem_cons_self s]
    exact ending_bind fun t _ => hrest t

theorem sequence_eq_returned {xs : List (Outcome ε Unit)} :
    sequence xs = .returned () ↔ ∀ x ∈ xs, x = .returned () := by
  induction xs with
  | nil => simp [sequence]
  | cons x xs ih =>
    rw [sequence, List.forall_mem_cons, ← ih]
    cases x <;> simp

theorem sequence_reached {pre post : List (Outcome ε Unit)} {x : Outcome ε Unit}
    (hpre : ∀ y ∈ pre, y = .returned ()) (hx : x ≠ .returned ()) :
    sequence (pre ++ x :: post) = x := by
  rw [sequence_append, sequence_eq_returned.mpr hpre, returned_bind, sequence]
  cases x with
  | returned u => exact absurd rfl hx
  | _ => rfl

theorem completes_sequence {xs : List (Outcome ε Unit)}
    (h : ∀ pre x post, xs = pre ++ x :: post → (∀ y ∈ pre, y = .returned ()) → x.Completes) :
    (sequence xs).Completes := by
  induction xs with
  | nil => exact completes_returned ()
  | cons x xs ih =>
    rcases h [] x xs rfl (by simp) with ⟨u, rfl⟩ | ⟨e, rfl⟩
    · apply ih
      intro pre y post hxs hpre
      apply h (.returned u :: pre) y post
      · rw [hxs, List.cons_append]
      · exact List.forall_mem_cons.mpr ⟨rfl, hpre⟩
    · exact completes_raised e

end Endings

end Outcome
end HyperDex.General
