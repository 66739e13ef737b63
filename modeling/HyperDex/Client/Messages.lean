import HyperDex.Client.Faults

/-!
# Messages of errors

The status of a request is kept in its own cell, its error message only in the
one slot of the library, which the next call of the library overwrites. A wait
reads the slot when it reads the cells, so it finds the message of its own
request if that request has just been completed by the wait itself, or if the
library was not called in between.
-/
namespace HyperDex.Client
open General Ruby Conversion Decoding

def ReturnCode.IsError (status : ReturnCode) : Prop :=
  status ≠ .success ∧ status ≠ .notfound ∧ status ≠ .cmpfail

variable {Obj : Type} (env : Env Obj)

/-- A wait on a Deferred gets to its cells, which hold the answer. -/
structure EndsOn (w : World) (r : Ref) (script : Script) (y : Yield) : Prop where
  crashed : w.crashed = false
  kind : w.kindOf r = some .deferred
  returned : (waitLoop env r script w).1 = .returned ()
  answer : (waitLoop env r script w).2.1.events r = [y]

/-- A wait of the run ends on a request that was completed with an error status. -/
structure ErrorWait (as pre : List Action) (r : Ref) (script : Script) (y : Yield) : Prop where
  occurs : ∃ post, as = pre ++ .wait r script :: post
  ends : EndsOn env (run env pre) r script y
  error : y.status.IsError

/-- Such a wait raises an exception with the status and the message of its own request. -/
def Attributed (as : List Action) : Prop :=
  ∀ pre r script y, ErrorWait env as pre r script y →
    ∃ e, (perform env (.wait r script) (run env pre)).1 = .raised e ∧
      e.status = some y.status ∧ e.message = y.message

/-- What such a wait raises depends on the answer to its own request alone. -/
def OwnMessages (as : List Action) : Prop :=
  ∀ pre r script y, ErrorWait env as pre r script y →
    (perform env (.wait r script) (run env pre)).1 =
      .raised (exception env.objectSpace y.status y.message)

variable {env} {w : World} {r : Ref} {script : Script} {y : Yield}

theorem value_of_error (herror : y.status.IsError) (message : String) :
    y.value env message = .raised (exception env.objectSpace y.status message) := by
  rcases herror with ⟨hsuccess, hnotfound, hcmpfail⟩
  rw [Yield.value]
  split
  · contradiction
  · contradiction
  · contradiction
  · rfl

theorem EndsOn.perform_eq (h : EndsOn env w r script y) (hw : Consistent env w)
    (herror : y.status.IsError) : (perform env (.wait r script) w).1 =
      .raised (exception env.objectSpace y.status (waitLoop env r script w).2.1.lib.message) := by
  rcases kindOf_eq_some h.kind with ⟨resp, hresp, hdeferred⟩
  have hreturned := h.returned
  have hanswer := h.answer
  have hloop := waitLoop_loopedUntil r script hw
  simp only [perform, h.crashed, Bool.false_eq_true, if_false, act, h.kind, wait]
  generalize waitLoop env r script w = x at hloop hreturned hanswer
  cases hloop with
  | @returned w' rest huntil hend =>
    have hw' := LoopSteps.consistent huntil.steps hw
    rcases LoopSteps.extends huntil.steps hw hresp with ⟨resp', hresp', hext⟩
    have hfin : resp'.finished = true := (waitDone_eq hw' hresp').symm.trans hend
    obtain ⟨y', outputs, hy', hcells, hmarks, hfits⟩ :=
      hw'.answered hresp' (hext.kind.trans hdeferred) hfin
    obtain rfl : y' = y := by simpa using hy'.symm.trans hanswer
    have houtput : ∀ attrs, y'.output ≠ .attributes attrs :=
      fun attrs houtput => herror.1 (hfits.success houtput)
    have hread : encodeReturn env resp' (w'.log (.read r)) = _ :=
      encodeReturn_cells hmarks hfits hcells houtput
    simp only [Outcome.andThen, hresp', hread, value_of_error herror]
    rfl
  | pending rest _ _ => simp at hreturned
  | failed rc message rest _ _ _ _ => simp at hreturned
  | undecodable c rest _ _ _ _ _ => simp at hreturned

theorem EndsOn.message_of_done (hdone : w.Done r) : (waitLoop env r script w).2.1 = w := by
  rcases hdone with ⟨resp, hresp, -, hfin⟩
  have hend : waitDone r w = true := by simp [waitDone, hresp, hfin]
  simp [waitLoop, loopUntil, hend]

/-- A wait that completes its request itself finds the message of that request. -/
theorem EndsOn.message_of_not_done (h : EndsOn env w r script y) (hw : Consistent env w)
    (hdone : ¬ w.Done r) : (waitLoop env r script w).2.1.lib.message = y.message := by
  rcases kindOf_eq_some h.kind with ⟨resp, hresp, hdeferred⟩
  have hopen : waitDone r w = false := by
    rw [waitDone_eq hw hresp]
    by_contra hfin
    exact hdone ⟨resp, hresp, hdeferred, by simpa using hfin⟩
  have hreturned := h.returned
  have hanswer := h.answer
  have hloop := waitLoop_loopedUntil r script hw
  generalize waitLoop env r script w = x at hloop hreturned hanswer
  cases hloop with
  | @returned w' rest huntil hend =>
    rcases huntil with rfl | ⟨w₁, hsteps, hopen₁, hlast⟩
    · exact absurd (hopen.symm.trans hend) (by decide)
    · cases hlast with
      | heard message => exact absurd (hopen₁.symm.trans hend) (by decide)
      | @delivered reqid p c hp hfits =>
        -- the last event changed the condition, so it belongs to the request
        have href : p.ref = r := by
          by_contra hne
          have hsame : (w₁.delivered env reqid p (c.place w₁.lib.arrays.length)).responses[r]? =
              w₁.responses[r]? := by
            simp [World.delivered, List.getElem?_modify_ne _ _ hne]
          rw [waitDone, hsame] at hend
          exact absurd (hopen₁.symm.trans hend) (by decide)
        subst href
        have hmem : c.place w₁.lib.arrays.length ∈
            (w₁.delivered env reqid p (c.place w₁.lib.arrays.length)).events p.ref :=
          mem_answers_history.mpr ⟨reqid, p.kind.closes c.status, by
            simp [World.delivered, Completion.place]⟩
        rw [hanswer, List.mem_singleton] at hmem
        exact congrArg (fun y : Yield => y.message) hmem
  | pending rest _ _ => simp at hreturned
  | failed rc message rest _ _ _ _ => simp at hreturned
  | undecodable c rest _ _ _ _ _ => simp at hreturned

theorem exception_inj {objectSpace : List ClassObject} {status : ReturnCode} {m m' : String} :
    exception objectSpace status m = exception objectSpace status m' ↔ m = m' := by
  simp [exception_eq]

variable (env)

/-- The slot still holds the message of a request that was completed before the wait. -/
def MessagesKept (as : List Action) : Prop :=
  ∀ pre r script y, ErrorWait env as pre r script y → (run env pre).Done r →
    (run env pre).lib.message = y.message

theorem ownMessages_iff (as : List Action) : OwnMessages env as ↔ MessagesKept env as := by
  have hraised {pre : List Action} {r : Ref} {script : Script} {y : Yield}
      (h : ErrorWait env as pre r script y) :=
    h.ends.perform_eq (run_consistent env pre) h.error
  constructor
  · intro hown pre r script y h hdone
    have heq := (hraised h).symm.trans (hown pre r script y h)
    rw [EndsOn.message_of_done hdone] at heq
    exact exception_inj.mp (Outcome.raised.inj heq)
  · intro hkept pre r script y h
    rw [hraised h]
    congr 2
    by_cases hdone : (run env pre).Done r
    · rw [EndsOn.message_of_done hdone]
      exact hkept pre r script y h hdone
    · exact h.ends.message_of_not_done (run_consistent env pre) hdone

/-- No exception has a status, so only runs without such waits attribute their errors fully;
messages are attributed exactly in the runs in which the slot is kept. -/
theorem run_attributed_iff (as : List Action) :
    (Attributed env as ↔ ∀ pre r script y, ¬ ErrorWait env as pre r script y) ∧
      (OwnMessages env as ↔ MessagesKept env as) := by
  refine ⟨⟨fun h pre r script y herror => ?_, fun h pre r script y herror => ?_⟩,
    ownMessages_iff env as⟩
  · rcases h pre r script y herror with ⟨e, -, hstatus, -⟩
    rw [status_eq_none] at hstatus
    exact nomatch hstatus
  · exact absurd herror (h pre r script y)

def bothFailed : List Action :=
  [.submit getCall 0 (accepting 1), .submit getCall 0 (accepting 2),
    .loop [.yielded 1 ⟨.unknownspace, "no such space", .none⟩],
    .loop [.yielded 2 ⟨.timeout, "timed out", .none⟩]]

/-- A wait on the first request raises an exception without a status and with the message of the
second one. -/
theorem bothFailed_not_attributed : ¬ Attributed packedEnv (bothFailed ++ [.wait 0 []]) ∧
    ¬ OwnMessages packedEnv (bothFailed ++ [.wait 0 []]) := by
  have hwait : ErrorWait packedEnv (bothFailed ++ [.wait 0 []]) bothFailed 0 []
      ⟨⟨.unknownspace, "no such space", .none⟩, 0⟩ :=
    ⟨⟨[], rfl⟩, ⟨rfl, rfl, rfl, rfl⟩, ⟨by decide, by decide, by decide⟩⟩
  constructor
  · intro h
    rcases h _ _ _ _ hwait with ⟨e, -, hstatus, -⟩
    rw [status_eq_none] at hstatus
    exact nomatch hstatus
  · intro h
    have hown := h _ _ _ _ hwait
    have hother : (perform packedEnv (.wait 0 []) (run packedEnv bothFailed)).1 =
        .raised (exception packedEnv.objectSpace .unknownspace "timed out") := rfl
    rw [hother, Outcome.raised.injEq, exception_inj] at hown
    exact absurd hown (by decide)

end HyperDex.Client
