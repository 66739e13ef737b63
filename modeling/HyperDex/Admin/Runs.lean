import HyperDex.Admin.Client
import HyperDex.General.Machine
import Mathlib.Data.List.Pairwise

/-!
# Runs of the admin client

One client makes request after request. A loop call that fails leaves the
operation pending, and a later loop call may complete any pending operation.
Every request makes one loop call, so it can end on the completion of an
operation that an earlier request left behind.
-/
namespace HyperDex.Admin
open General Ruby

structure Call where
  request : Request
  answers : Answers
  outcome : Except Exn Result

/-- The operations that are pending, the identifiers given out so far and the calls made so
far, oldest first. -/
structure World where
  pending : List Int
  used : List Int
  calls : List Call

def World.initial : World := ⟨[], [], []⟩

/-- What the library may do: give a fresh identifier, and complete a pending operation. -/
def World.Admits (w : World) (a : Answers) : Prop :=
  a.reqid < 0 ∨ (a.reqid ∉ w.used ∧ (a.loopId < 0 ∨ a.loopId ∈ a.reqid :: w.pending))

instance (w : World) (a : Answers) : Decidable (w.Admits a) :=
  inferInstanceAs (Decidable (_ ∨ _))

/-- What a call of the library does to the operations, if it does not fail: a submission starts
one, and a loop call completes one. -/
def World.execute (w : World) : LibraryCall → World
  | .submission reqid =>
    if reqid < 0 then w else { w with pending := reqid :: w.pending, used := reqid :: w.used }
  | .loop id => if id < 0 then w else { w with pending := w.pending.erase id }

def World.record (w : World) (c : Call) : World := { w with calls := w.calls ++ [c] }

variable (codes : ReturnCodes)

/-- A request with the answers of the library; answers it cannot give do not occur. -/
def step (s : Request × Answers) (w : World) : World :=
  if w.Admits s.2 then
    ((perform codes s.1 s.2).made.foldl World.execute w).record ⟨s.1, s.2, call codes s.1 s.2⟩
  else w

theorem step_of_rejected {request : Request} {a : Answers} {w : World} (h : a.reqid < 0) :
    step codes (request, a) w = w.record ⟨request, a, call codes request a⟩ := by
  rw [step, if_pos (.inl h), perform_made, if_pos h, List.foldl_cons, List.foldl_nil,
    World.execute, if_pos h]

theorem step_of_accepted {request : Request} {a : Answers} {w : World} (hadmits : w.Admits a)
    (h : 0 ≤ a.reqid) : step codes (request, a) w =
      ⟨if a.loopId < 0 then a.reqid :: w.pending else (a.reqid :: w.pending).erase a.loopId,
        a.reqid :: w.used, w.calls ++ [⟨request, a, call codes request a⟩]⟩ := by
  rw [step, if_pos hadmits, perform_made, if_neg (Int.not_lt.mpr h), List.foldl_cons,
    List.foldl_cons, List.foldl_nil, World.execute, if_neg (Int.not_lt.mpr h), World.execute]
  split <;> rfl

/-- The call was accepted and the loop call of `d` completed it. -/
def Completes (d c : Call) : Prop :=
  0 ≤ c.answers.reqid ∧ 0 ≤ d.answers.reqid ∧ d.answers.loopId = c.answers.reqid

/-- No call ends on the completion of an earlier one, and a call whose operation is completed
with success, at any time, returns. -/
structure Independent (w : World) : Prop where
  own : ∀ c ∈ w.calls, 0 ≤ c.answers.reqid → 0 ≤ c.answers.loopId →
    c.answers.loopId = c.answers.reqid
  returns : ∀ c ∈ w.calls, ∀ d ∈ w.calls, Completes d c → d.answers.finalCode = .success →
    ∃ r, c.outcome = .ok r

/-- Nothing is pending between the calls, and an accepted call ended on its own completion. -/
structure Settled (w : World) : Prop where
  pending : w.pending = []
  used : ∀ c ∈ w.calls, 0 ≤ c.answers.reqid → c.answers.reqid ∈ w.used
  own : ∀ c ∈ w.calls, 0 ≤ c.answers.reqid → c.answers.loopId = c.answers.reqid
  distinct : w.calls.Pairwise fun c d =>
    0 ≤ c.answers.reqid → 0 ≤ d.answers.reqid → c.answers.reqid ≠ d.answers.reqid
  outcome : ∀ c ∈ w.calls, c.outcome = call codes c.request c.answers

theorem settled_initial : Settled codes .initial := by
  constructor <;> simp [World.initial]

/-- A request whose loop call does not fail leaves nothing pending behind. -/
theorem settled_step (s : Request × Answers) (w : World) (hloop : 0 ≤ s.2.reqid → 0 ≤ s.2.loopId)
    (hw : Settled codes w) : Settled codes (step codes s w) := by
  rcases s with ⟨request, a⟩
  simp only at hloop
  by_cases hadmits : w.Admits a
  · by_cases hreqid : a.reqid < 0
    · rw [step_of_rejected codes hreqid, World.record]
      have hnot : ¬ 0 ≤ a.reqid := by omega
      refine ⟨hw.pending, ?_, ?_, ?_, ?_⟩
      · simpa [or_imp, forall_and, hnot] using hw.used
      · simpa [or_imp, forall_and, hnot] using hw.own
      · simpa [List.pairwise_append, hnot] using hw.distinct
      · simpa [or_imp, forall_and] using hw.outcome
    · rcases hadmits.resolve_left hreqid with ⟨hfresh, hid⟩
      have hpos : 0 ≤ a.reqid := by omega
      have hloopPos : ¬ a.loopId < 0 := by
        have hnonneg := hloop hpos
        omega
      have hown : a.loopId = a.reqid := by
        have hmem := hid.resolve_left hloopPos
        rwa [hw.pending, List.mem_singleton] at hmem
      rw [step_of_accepted codes hadmits hpos]
      constructor
      · rw [if_neg hloopPos, hown, hw.pending]
        simp
      · intro c hc hcpos
        rcases List.mem_append.mp hc with hc | hc
        · exact List.mem_cons_of_mem _ (hw.used c hc hcpos)
        · rw [List.mem_singleton.mp hc]
          exact List.mem_cons_self
      · simpa [or_imp, forall_and, hown] using hw.own
      · rw [List.pairwise_append]
        refine ⟨hw.distinct, List.pairwise_singleton _ _, fun c hc d hd hcpos _ heq => ?_⟩
        rw [List.mem_singleton.mp hd] at heq
        exact hfresh (heq ▸ hw.used c hc hcpos)
      · simpa [or_imp, forall_and] using hw.outcome
  · rw [step, if_neg hadmits]
    exact hw

theorem Settled.independent {w : World} (hw : Settled codes w) : Independent w := by
  refine ⟨fun c hc hpos _ => hw.own c hc hpos, ?_⟩
  rintro c hc d hd ⟨hcpos, hdpos, hid⟩ hfinal
  have heq : d.answers.reqid = c.answers.reqid := by rw [← hw.own d hd hdpos, hid]
  have hdc : d = c := by
    have hsymm : Std.Symm fun c d : Call =>
        0 ≤ c.answers.reqid → 0 ≤ d.answers.reqid → c.answers.reqid ≠ d.answers.reqid :=
      ⟨fun _ _ h hd hc => (h hc hd).symm⟩
    by_contra hne
    exact hw.distinct.forall hd hc hne hdpos hcpos heq
  subst hdc
  rw [hw.outcome d hd, call_ok_iff]
  exact ⟨⟨hcpos, hid⟩, fun _ => d.answers.listing_of_success hfinal⟩

/-- As long as no loop call fails behind an accepted submission, requests are independent. -/
theorem run_independent (steps : List (Request × Answers))
    (hloop : ∀ s ∈ steps, 0 ≤ s.2.reqid → 0 ≤ s.2.loopId) :
    Independent (Machine.run (step codes) .initial steps) :=
  (Machine.run_invariant_of_forall (step codes) (settled_step codes) (settled_initial codes)
    steps hloop).independent codes

def completing (reqid loopId : Int) : Answers where
  reqid := reqid
  submissionCode := .garbage
  loopId := loopId
  loopCode := .success
  finalCode := .success
  listing := some []
  listing_of_success _ := rfl

def interrupting (reqid : Int) : Answers where
  reqid := reqid
  submissionCode := .garbage
  loopId := -1
  loopCode := .interrupted
  finalCode := .garbage
  listing := none
  listing_of_success := by simp

theorem run_independent_two_requests :
    Independent (Machine.run (step plainCodes) .initial
      [(.addSpace [97], completing 1 1), (.listSpaces, completing 2 2)]) :=
  run_independent plainCodes [(.addSpace [97], completing 1 1), (.listSpaces, completing 2 2)]
    (by decide)

/-- After an interrupted loop call the next request ends on the completion of the first, and
the one after it on the completion of the second. -/
theorem interrupted_run_not_independent :
    ¬ Independent (Machine.run (step plainCodes) .initial
      [(.addSpace [97], interrupting 1), (.addSpace [98], completing 2 1),
        (.listSpaces, completing 3 2)]) := by
  intro h
  have hown := h.own ⟨.addSpace [98], completing 2 1, _⟩
    (List.mem_cons_of_mem _ List.mem_cons_self) (by decide) (by decide)
  exact absurd hown (by decide)

end HyperDex.Admin
