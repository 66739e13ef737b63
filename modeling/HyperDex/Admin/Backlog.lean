import HyperDex.Admin.Runs

/-!
# What failed loop calls leave behind

Every accepted request starts one operation and makes one loop call, and a loop call
completes one operation at most. The operations that a client leaves pending are
therefore as many as its loop calls that failed, and no later request makes them fewer.
Where the library completes the oldest operation first, the calls behind the first
failure all end on the completion of an earlier request, and all of them raise.
-/
namespace HyperDex.Admin
open General Ruby

def accepted (calls : List Call) : List Int :=
  calls.filterMap fun c => if 0 ≤ c.answers.reqid then some c.answers.reqid else none

/-- The loop call behind an accepted submission failed. -/
def Call.LoopFailed (c : Call) : Prop := 0 ≤ c.answers.reqid ∧ c.answers.loopId < 0

instance (c : Call) : Decidable c.LoopFailed := inferInstanceAs (Decidable (_ ∧ _))

def completed (calls : List Call) : List Int :=
  calls.filterMap fun c =>
    if 0 ≤ c.answers.reqid ∧ 0 ≤ c.answers.loopId then some c.answers.loopId else none

def loopFailures (calls : List Call) : ℕ := calls.countP (·.LoopFailed)

@[simp] theorem accepted_snoc (calls : List Call) (c : Call) :
    accepted (calls ++ [c]) =
      accepted calls ++ if 0 ≤ c.answers.reqid then [c.answers.reqid] else [] := by
  by_cases h : 0 ≤ c.answers.reqid <;> simp [accepted, h]

@[simp] theorem completed_snoc (calls : List Call) (c : Call) :
    completed (calls ++ [c]) = completed calls ++
      if 0 ≤ c.answers.reqid ∧ 0 ≤ c.answers.loopId then [c.answers.loopId] else [] := by
  by_cases h : 0 ≤ c.answers.reqid ∧ 0 ≤ c.answers.loopId <;> simp [completed, h]

@[simp] theorem loopFailures_snoc (calls : List Call) (c : Call) :
    loopFailures (calls ++ [c]) = loopFailures calls + if c.LoopFailed then 1 else 0 := by
  simp [loopFailures, List.countP_append, List.countP_cons]

variable (codes : ReturnCodes)

/-- What a call that is made does to the client and the library. -/
inductive Makes (w : World) (c : Call) : World → Prop where
  | refused : c.answers.reqid < 0 → Makes w c { w with calls := w.calls ++ [c] }
  | failed : 0 ≤ c.answers.reqid → c.answers.reqid ∉ w.used → c.answers.loopId < 0 →
      Makes w c ⟨c.answers.reqid :: w.pending, c.answers.reqid :: w.used, w.calls ++ [c]⟩
  | ended : 0 ≤ c.answers.reqid → c.answers.reqid ∉ w.used → 0 ≤ c.answers.loopId →
      c.answers.loopId ∈ c.answers.reqid :: w.pending →
      Makes w c ⟨(c.answers.reqid :: w.pending).erase c.answers.loopId,
        c.answers.reqid :: w.used, w.calls ++ [c]⟩

theorem step_makes (s : Request × Answers) (w : World) :
    step codes s w = w ∨ Makes w ⟨s.1, s.2, call codes s.1 s.2⟩ (step codes s w) := by
  rcases s with ⟨request, a⟩
  by_cases hadmits : w.Admits a
  · right
    by_cases hreqid : a.reqid < 0
    · rw [step_of_rejected codes hreqid]
      exact .refused hreqid
    · rw [step_of_accepted codes hadmits (Int.not_lt.mp hreqid)]
      rcases hadmits.resolve_left hreqid with ⟨hfresh, hid⟩
      by_cases hloop : a.loopId < 0
      · rw [if_pos hloop]
        exact .failed (Int.not_lt.mp hreqid) hfresh hloop
      · rw [if_neg hloop]
        exact .ended (Int.not_lt.mp hreqid) hfresh (Int.not_lt.mp hloop) (hid.resolve_left hloop)
  · exact Or.inl (if_neg hadmits)

theorem Makes.calls_eq {w w' : World} {c : Call} (h : Makes w c w') :
    w'.calls = w.calls ++ [c] := by
  cases h <;> rfl

/-- What was started and what is pending or completed agree, and pending is one operation for
every loop call that failed. -/
structure Accounted (w : World) : Prop where
  used : w.used = (accepted w.calls).reverse
  distinct : (accepted w.calls).Nodup
  settled : (accepted w.calls).Perm (w.pending ++ completed w.calls)
  backlog : w.pending.length = loopFailures w.calls

theorem accounted_initial : Accounted .initial := by
  constructor <;> simp [World.initial, accepted, completed, loopFailures]

theorem Accounted.distinct_concat {w : World} (hw : Accounted w) {id : Int} (hid : id ∉ w.used) :
    (accepted w.calls ++ [id]).Nodup := by
  have hnew : id ∉ accepted w.calls := by simpa [hw.used] using hid
  rw [List.nodup_append]
  refine ⟨hw.distinct, List.nodup_singleton id, fun old hold new hnew' heq => ?_⟩
  rw [List.mem_singleton.mp hnew'] at heq
  exact hnew (heq ▸ hold)

theorem Makes.accounted {w w' : World} {c : Call} (h : Makes w c w') (hw : Accounted w) :
    Accounted w' := by
  cases h with
  | refused hreqid =>
    have hnot : ¬ 0 ≤ c.answers.reqid := Int.not_le.mpr hreqid
    constructor
    · simpa [hnot] using hw.used
    · simpa [hnot] using hw.distinct
    · simpa [hnot] using hw.settled
    · simpa [hnot, Call.LoopFailed] using hw.backlog
  | failed hpos hfresh hloop =>
    have hnot : ¬ 0 ≤ c.answers.loopId := Int.not_le.mpr hloop
    constructor
    · simp [hpos, hw.used]
    · simpa [hpos] using hw.distinct_concat hfresh
    · simp only [accepted_snoc, completed_snoc, hpos, hnot, if_pos, and_false, if_false,
        List.append_nil]
      exact (List.perm_append_singleton _ _).trans (hw.settled.cons _)
    · simp [Call.LoopFailed, hpos, hloop, hw.backlog]
  | ended hpos hfresh hloop hmem =>
    constructor
    · simp [hpos, hw.used]
    · simpa [hpos] using hw.distinct_concat hfresh
    · simp only [accepted_snoc, completed_snoc, hpos, hloop, if_pos, and_self]
      have hstarted : (accepted w.calls ++ [c.answers.reqid]).Perm
          ((c.answers.reqid :: w.pending) ++ completed w.calls) :=
        (List.perm_append_singleton _ _).trans (hw.settled.cons _)
      have hended : ((c.answers.reqid :: w.pending) ++ completed w.calls).Perm
          (c.answers.loopId ::
            ((c.answers.reqid :: w.pending).erase c.answers.loopId ++ completed w.calls)) :=
        (List.perm_cons_erase hmem).append_right _
      rw [← List.append_assoc]
      exact (hstarted.trans hended).trans (List.perm_append_singleton _ _).symm
    · have hlength := List.length_erase_of_mem hmem
      simp [Call.LoopFailed, hpos, Int.not_lt.mpr hloop, hw.backlog, hlength]

/-- Behind every sequence of requests, whatever the library completes and when: no operation was
lost or completed twice, and as many are pending as loop calls have failed. -/
theorem run_backlog (steps : List (Request × Answers)) :
    Accounted (Machine.run (step codes) .initial steps) := by
  refine Machine.run_invariant (step codes) (fun s w hw => ?_) accounted_initial steps
  rcases step_makes codes s w with hstep | hmakes
  · rwa [hstep]
  · exact hmakes.accounted hw

theorem Accounted.pending_nil_iff {w : World} (hw : Accounted w) :
    w.pending = [] ↔ ∀ d ∈ w.calls, ¬ d.LoopFailed := by
  rw [← List.length_eq_zero_iff, hw.backlog, loopFailures, List.countP_eq_zero]
  simp

theorem Accounted.pending_used {w : World} (hw : Accounted w) : ∀ id ∈ w.pending, id ∈ w.used := by
  intro id hid
  rw [hw.used, List.mem_reverse]
  exact hw.settled.mem_iff.mpr (List.mem_append_left _ hid)

theorem Accounted.pending_nodup {w : World} (hw : Accounted w) : w.pending.Nodup :=
  (hw.settled.nodup hw.distinct).of_append_left

/-- A loop call that does not fail completes the operation that was started first of all those
pending. -/
def World.CompletesOldest (w : World) (a : Answers) : Prop :=
  a.reqid < 0 ∨ a.loopId < 0 ∨ (a.reqid :: w.pending).getLast? = some a.loopId

instance (w : World) (a : Answers) : Decidable (w.CompletesOldest a) :=
  inferInstanceAs (Decidable (_ ∨ _))

theorem World.CompletesOldest.last {w : World} {a : Answers} (h : w.CompletesOldest a)
    (hreqid : 0 ≤ a.reqid) (hloop : 0 ≤ a.loopId) :
    (a.reqid :: w.pending).getLast? = some a.loopId :=
  (h.resolve_left (Int.not_lt.mpr hreqid)).resolve_left (Int.not_lt.mpr hloop)

def inOrderStep (s : Request × Answers) (w : World) : World :=
  if w.CompletesOldest s.2 then step codes s w else w

/-- What an accepted call comes to behind the calls before it. Nothing but a failed loop call,
its own or an earlier one, keeps it from its result, and any of them does. -/
structure Verdict (before : List Call) (c : Call) : Prop where
  returns_iff : (∃ r, c.outcome = .ok r) ↔ (∀ d ∈ before ++ [c], ¬ d.LoopFailed) ∧
    (c.request = .listSpaces → c.answers.listing.isSome)
  raises : ∀ d ∈ before ++ [c], d.LoopFailed → ∃ message, c.outcome = .error (.nameError message)

/-- The operations were completed in the order in which they were started. -/
structure Queued (w : World) : Prop where
  accounted : Accounted w
  queue : accepted w.calls = completed w.calls ++ w.pending.reverse
  verdict : ∀ before c after, w.calls = before ++ c :: after → 0 ≤ c.answers.reqid →
    Verdict before c

theorem queued_initial : Queued .initial := by
  refine ⟨accounted_initial, ?_, ?_⟩
  · simp [World.initial, accepted, completed]
  · simp [World.initial]

theorem forall_places_concat {α : Type*} {P : List α → α → Prop} {l : List α} {new : α}
    (hl : ∀ before x after, l = before ++ x :: after → P before x) (hnew : P l new) :
    ∀ before x after, l ++ [new] = before ++ x :: after → P before x := by
  intro before x after heq
  rcases List.eq_nil_or_concat after with rfl | ⟨after', last, rfl⟩
  · obtain ⟨rfl, hx⟩ := List.append_inj' heq rfl
    obtain rfl : new = x := by simpa using hx
    exact hnew
  · rw [List.concat_eq_append, ← List.cons_append, ← List.append_assoc] at heq
    exact hl before x after' (List.append_inj' heq rfl).1

/-- A call that ends on its own completion exactly if no loop call has failed. -/
theorem Verdict.of_own {before : List Call} {c : Call}
    (houtcome : c.outcome = call codes c.request c.answers) (hpos : 0 ≤ c.answers.reqid)
    (hown : c.answers.loopId = c.answers.reqid ↔ ∀ d ∈ before ++ [c], ¬ d.LoopFailed) :
    Verdict before c := by
  constructor
  · rw [houtcome, call_ok_iff, ← hown, and_iff_right hpos]
  · intro d hd hfailed
    rw [houtcome]
    exact call_of_other_id codes c.request c.answers hpos fun hid => hown.mp hid d hd hfailed

/-- With nothing pending before it, a call ends on its own completion, and only then. -/
theorem loopId_eq_reqid_iff {w : World} {a : Answers} (hpending : ∀ id ∈ w.pending, id ∈ w.used)
    (hfresh : a.reqid ∉ w.used) (holdest : (a.reqid :: w.pending).getLast? = some a.loopId) :
    a.loopId = a.reqid ↔ w.pending = [] := by
  constructor
  · intro hid
    by_contra hne
    rw [List.getLast?_cons, List.getLast?_eq_some_getLast hne, Option.getD_some,
      Option.some.injEq, hid] at holdest
    exact hfresh (hpending _ (holdest ▸ List.getLast_mem hne))
  · intro hnil
    simpa [hnil, eq_comm] using holdest

theorem Makes.verdict {w w' : World} {c : Call} (h : Makes w c w') (hw : Accounted w)
    (holdest : w.CompletesOldest c.answers) (hpos : 0 ≤ c.answers.reqid)
    (houtcome : c.outcome = call codes c.request c.answers) : Verdict w.calls c := by
  refine .of_own codes houtcome hpos ?_
  cases h with
  | refused hreqid => omega
  | failed _ _ hloop =>
    constructor
    · intro hid
      omega
    · intro hnone
      exact absurd ⟨hpos, hloop⟩ (hnone c (by simp))
  | ended _ hfresh hloop _ =>
    have hlast := holdest.last hpos hloop
    have hself : ¬ c.LoopFailed := fun h => Int.not_lt.mpr hloop h.2
    rw [loopId_eq_reqid_iff hw.pending_used hfresh hlast, hw.pending_nil_iff]
    simp [or_imp, forall_and, hself]

theorem erase_oldest {pending : List Int} (h : pending.Nodup) {id : Int}
    (hlast : pending.getLast? = some id) : pending = pending.erase id ++ [id] := by
  rcases List.getLast?_eq_some_iff.mp hlast with ⟨newer, rfl⟩
  have hnew : id ∉ newer := fun hid =>
    (List.nodup_append.mp h).2.2 id hid id (List.mem_singleton_self id) rfl
  rw [List.erase_append_right _ hnew, List.erase_cons_head, List.append_nil]

theorem Makes.queue {w w' : World} {c : Call} (h : Makes w c w') (hw : Queued w)
    (holdest : w.CompletesOldest c.answers) :
    accepted w'.calls = completed w'.calls ++ w'.pending.reverse := by
  cases h with
  | refused hreqid => simpa [Int.not_le.mpr hreqid] using hw.queue
  | failed hpos _ hloop => simp [hpos, Int.not_le.mpr hloop, hw.queue]
  | ended hpos hfresh hloop _ =>
    have hlast := holdest.last hpos hloop
    have hnodup : (c.answers.reqid :: w.pending).Nodup :=
      List.nodup_cons.mpr ⟨fun hid => hfresh (hw.accounted.pending_used _ hid),
        hw.accounted.pending_nodup⟩
    have hqueue := congrArg List.reverse (erase_oldest hnodup hlast)
    simp only [List.reverse_cons, List.reverse_append, List.reverse_nil, List.nil_append] at hqueue
    simp [hpos, hloop, hw.queue, hqueue]

/-- Where the library completes the operations in their order, a client hears of every one of
them in time until its first loop call fails, and of none after that. -/
theorem run_queued (steps : List (Request × Answers)) :
    Queued (Machine.run (inOrderStep codes) .initial steps) := by
  refine Machine.run_invariant (inOrderStep codes) (fun s w hw => ?_) queued_initial steps
  by_cases holdest : w.CompletesOldest s.2
  · rw [inOrderStep, if_pos holdest]
    rcases step_makes codes s w with hstep | hmakes
    · rwa [hstep]
    · refine ⟨hmakes.accounted hw.accounted, hmakes.queue hw holdest, ?_⟩
      have hcalls := forall_places_concat hw.verdict fun hpos =>
        hmakes.verdict codes hw.accounted holdest hpos rfl
      rwa [hmakes.calls_eq]
  · rwa [inOrderStep, if_neg holdest]

end HyperDex.Admin
