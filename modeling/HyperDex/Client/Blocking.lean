import HyperDex.Client.Progress

/-!
# Blocking calls

A blocking method waits on the Deferred of its own request at once and does not
give it away. It comes to the answer of that request, with the message of that
answer, or leaves the request to the table of operations. A program that has
only such methods and searches reads no cells twice, so it decodes no array
that was destroyed before.
-/
namespace HyperDex.Client
open General Ruby Conversion Decoding

variable {Obj : Type} (env : Env Obj)

/-- `hyperdex_ruby_client_wait_*`: the asynchronous method, and `wait` on its Deferred. -/
def waitCall (call : Call) (rounds : ℕ) (answer : SubmissionAnswer) (script : Script) (w : World) :
    Outcome Exn Value × World :=
  Outcome.andThen (submit env call rounds answer w) fun r w => wait env r script w

/-- What ends a loop early: the library gives nothing more or reports a failure, or a search
cannot decode its record. -/
inductive Interrupted (script : Script) (w : World) : Outcome Exn Value → Prop where
  | pending : Interrupted script w .pending
  | failed {e : Exn} : ClientFailure env script e → Interrupted script w (.raised e)
  | undecodable {r : Ref} {y : Yield} {e : Exn} : w.kindOf r = some .iterator → y ∈ w.events r →
      decodingError env y = some e → Interrupted script w (.raised e)

/-- How a wait on an outstanding request ends. -/
inductive OpenWait (w : World) (id : Int) (p : Pending) (script : Script) :
    Outcome Exn Value × World → Prop where
  | answered {w' : World} {y : Yield} : w'.events p.ref = [y] →
      (∀ j, w'.ops.lookup j ≠ some p.ref) → w'.crashed = false →
      (∀ r, reads r w'.trace = reads r w.trace + if p.ref = r then 1 else 0) →
      OpenWait w id p script (y.value env y.message, w')
  | abandoned {w' : World} {x : Outcome Exn Value} : Interrupted env script w' x →
      w'.ops.lookup id = some p.ref → w'.crashed = false →
      (∀ r, reads r w'.trace = reads r w.trace) → OpenWait w id p script (x, w')

/-- How a blocking call ends. -/
inductive CallEnds (w : World) (call : Call) (answer : SubmissionAnswer) (script : Script) :
    Outcome Exn Value × World → Prop where
  /-- no request is made -/
  | rejected (x : Outcome Exn Value) (message : String) : (∀ v, x ≠ .returned v) →
      CallEnds w call answer script (x, w.hear message)
  | accepted {x : Outcome Exn Value × World} : 0 ≤ answer.reqid →
      w.lib.outstanding.lookup answer.reqid = none →
      OpenWait env ((w.hear answer.message).register call answer.reqid) answer.reqid
        ⟨w.responses.length, call.kind, call.outputs, call.outputs_of_iterator⟩ script x →
      CallEnds w call answer script x

section Ends
variable {env} {w : World} {id : Int} {p : Pending} {script : Script}

theorem Sound.first_read (hw : Sound env w) {r : Ref} {resp : Response}
    (hresp : w.responses[r]? = some resp) (hkind : resp.kind = .deferred)
    (hfin : resp.finished = true) (hreads : reads r w.trace = 0) {y : Yield}
    (hy : w.events r = [y]) (hcrashed : w.crashed = false) :
    (encodeReturn env resp (w.log (.read r))).1 = y.value env w.lib.message ∧
      (encodeReturn env resp (w.log (.read r))).2.crashed = false := by
  refine ⟨hw.accounted.first_read hw.consistent hresp hkind hfin hreads hy, ?_⟩
  have hredeem := redeem_service hw.consistent hw.accounted hresp hkind hfin hy
  have hstate := congrArg (fun x => x.2.crashed) hredeem
  simpa [Service.redeem, hreads, World.service, hcrashed] using hstate.symm

/-- An unfinished response object is in the table under its own identifier. -/
theorem Consistent.lookup_of_unfinished (hw : Consistent env w) {r : Ref} {resp : Response}
    (hresp : w.responses[r]? = some resp) (hreqid : resp.reqid = some id)
    (hfin : resp.finished = false) : w.ops.lookup id = some r := by
  rcases (hw.in_table_iff hresp).mpr hfin with ⟨j, hj⟩
  rcases Option.map_eq_some_iff.mp ((hw.ops j).symm.trans hj) with ⟨p, hp, rfl⟩
  rcases hw.bound j p hp with ⟨resp', hresp', hbound⟩
  obtain rfl : resp' = resp := Option.some.inj (hresp'.symm.trans hresp)
  obtain rfl : j = id := Option.some.inj (hbound.reqid.symm.trans hreqid)
  exact hj

theorem Consistent.still_open (hw : Consistent env w) {resp : Response}
    (hresp : w.responses[p.ref]? = some resp) (hbound : p.Bound id resp) {w' w'' : World}
    (hsteps : LoopSteps env w w') (hend : waitDone p.ref w' = false) (hlast : LoopStep env w' w'')
    (hsame : w''.responses[p.ref]? = w'.responses[p.ref]?) : w''.ops.lookup id = some p.ref := by
  rcases LoopSteps.extends hsteps hw hresp with ⟨resp', hresp', hext⟩
  have hw' := LoopSteps.consistent hsteps hw
  rw [waitDone_eq hw' hresp'] at hend
  exact (hlast.consistent hw').lookup_of_unfinished (hsame.trans hresp')
    (hext.reqid.trans hbound.reqid) hend

/-- A record that cannot be decoded belongs to a search, which is shown its event. -/
theorem Consistent.undecodable (hw : Consistent env w) {reqid : Int} {q : Pending} {e : Exn}
    {y : Yield} (hq : w.lib.outstanding.lookup reqid = some q)
    (herror : q.kind.decodingError env y = some e) (script : Script) :
    w.kindOf q.ref = some .iterator ∧
      Interrupted env script (w.delivered env reqid q y) (.raised e) := by
  have hiterator : q.kind = .iterator := by
    cases hkind : q.kind with
    | iterator => rfl
    | deferred => simp [Kind.decodingError, hkind] at herror
  rcases hw.bound reqid q hq with ⟨resp, hresp, hbound⟩
  have hkindOf := kindOf_of_response hresp (hbound.kind.trans hiterator)
  have hevent : y ∈ (w.delivered env reqid q y).events q.ref := by
    rw [events_delivered, if_pos rfl]
    exact List.mem_append_right _ (List.mem_singleton_self y)
  refine ⟨hkindOf, .undecodable ((kindOf_delivered w reqid q y q.ref).trans hkindOf) hevent ?_⟩
  simpa [Kind.decodingError, hiterator] using herror

/-- A wait on a request that is still open reads its cells once, with the message of its answer,
or does not come to read them. -/
theorem Sound.open_wait (hw : Sound env w) (hp : w.lib.outstanding.lookup id = some p)
    (hkind : p.kind = .deferred) (hcrashed : w.crashed = false) (script : Script) :
    OpenWait env w id p script (wait env p.ref script w) := by
  rcases hw.consistent.bound id p hp with ⟨resp, hresp, hbound⟩
  have hdeferred : resp.kind = .deferred := hbound.kind.trans hkind
  have hmessage (hreturned : (waitLoop env p.ref script w).1 = .returned ()) (y : Yield) :=
    hw.consistent.message_of_open hp hkind hcrashed hreturned (y := y)
  have habandoned {x : Outcome Exn Value} {w' w'' : World} (hsteps : LoopSteps env w w')
      (hend : waitDone p.ref w' = false) (hlast : LoopStep env w' w'')
      (hsame : w''.responses[p.ref]? = w'.responses[p.ref]?)
      (hx : Interrupted env script w'' x) : OpenWait env w id p script (x, w'') :=
    have hall : LoopSteps env w w'' := .tail hsteps hlast
    .abandoned hx (hw.consistent.still_open hresp hbound hsteps hend hlast hsame)
      ((LoopSteps.crashed hall).trans hcrashed) (LoopSteps.reads_eq hall)
  have hloop := waitLoop_loopedUntil p.ref script hw.consistent
  rw [wait]
  generalize waitLoop env p.ref script w = x at hloop hmessage
  cases hloop with
  | @returned w' rest huntil hend =>
    have hsteps := huntil.steps
    have hw' := LoopSteps.sound hsteps hw
    rcases LoopSteps.extends hsteps hw.consistent hresp with ⟨resp', hresp', hext⟩
    have hkind' : resp'.kind = .deferred := hext.kind.trans hdeferred
    have hfin : resp'.finished = true := (waitDone_eq hw'.consistent hresp').symm.trans hend
    rcases hw'.consistent.answered hresp' hkind' hfin with ⟨y, outputs, hy, -⟩
    have hzero : reads p.ref w'.trace = 0 := by
      rw [LoopSteps.reads_eq hsteps]
      exact hw.accounted.reads_eq_zero hresp hbound.unfinished
    have hread := hw'.first_read hresp' hkind' hfin hzero hy
      ((LoopSteps.crashed hsteps).trans hcrashed)
    have hops := (encodeReturn_memoryOnly env resp' (w'.log (.read p.ref))).ops
    have hevents := encodeReturn_events env resp' w' p.ref p.ref
    have hreads := encodeReturn_reads env resp' w' p.ref
    simp only [Outcome.andThen, hresp']
    rw [hmessage rfl y hy] at hread
    generalize encodeReturn env resp' (w'.log (.read p.ref)) = x at hread hops hevents hreads
    rcases x with ⟨x, w''⟩
    obtain ⟨rfl, hsafe⟩ := hread
    refine .answered (hevents.trans hy) (fun j hj => ?_) hsafe fun r => ?_
    · have hclosed := (hw'.consistent.in_table_iff hresp').mp ⟨j, hops ▸ hj⟩
      exact absurd (hfin.symm.trans hclosed) (by decide)
    · rw [hreads, LoopSteps.reads_eq hsteps]
  | @pending w' rest hsteps hend =>
    exact habandoned hsteps hend (.heard w' w'.lib.message) rfl .pending
  | @failed w' rc message rest hsteps hend hmem hne =>
    exact habandoned hsteps hend (.heard w' message) rfl (.failed ⟨rc, message, hmem, hne, rfl⟩)
  | @undecodable w' reqid q e c rest hsteps hend hq hfits herror =>
    rcases (LoopSteps.consistent hsteps hw.consistent).undecodable hq herror script with
      ⟨hsearch, hinterrupted⟩
    refine habandoned hsteps hend (.delivered c hq hfits) ?_ hinterrupted
    -- the request that is waited for is no search
    have hne : q.ref ≠ p.ref := by
      intro href
      rcases LoopSteps.extends hsteps hw.consistent hresp with ⟨resp', hresp', hext⟩
      have hkind' := kindOf_of_response hresp' (hext.kind.trans hdeferred)
      simp [← href, hsearch] at hkind'
    simp [World.delivered, List.getElem?_modify_ne _ _ hne]

theorem SmallSteps.sound {w' : World} (h : SmallSteps env w w') (hw : Sound env w) :
    Sound env w' :=
  ⟨SmallSteps.consistent h hw.consistent, SmallSteps.accounted h hw.consistent hw.accounted⟩

theorem Sound.waitCall_ends (hw : Sound env w) (hcrashed : w.crashed = false) {call : Call}
    (hkind : call.kind = .deferred) (rounds : ℕ) (answer : SubmissionAnswer) (script : Script) :
    CallEnds env w call answer script (waitCall env call rounds answer script w) := by
  have hsubmitted : Submitted env call rounds answer w _ := submit_submitted call rounds answer w
  rw [waitCall]
  generalize submit env call rounds answer w = x at hsubmitted
  have hsteps := hsubmitted.steps
  cases hsubmitted with
  | accepted hconvert hpos hfree =>
    have hp : ((w.hear answer.message).register call answer.reqid).lib.outstanding.lookup
        answer.reqid = some ⟨w.responses.length, call.kind, call.outputs,
          call.outputs_of_iterator⟩ := by simp [World.register, World.hear]
    exact .accepted hpos hfree ((SmallSteps.sound hsteps hw).open_wait hp hkind hcrashed script)
  | rejected x message hx =>
    cases x with
    | returned r => exact absurd rfl (hx r)
    | _ => exact .rejected _ message (by simp)

theorem CallEnds.safe {call : Call} {answer : SubmissionAnswer} {x : Outcome Exn Value × World}
    (h : CallEnds env w call answer script x) (hcrashed : w.crashed = false) :
    x.2.crashed = false := by
  cases h with
  | rejected _ _ _ => exact hcrashed
  | accepted _ _ hends =>
    cases hends with
    | answered _ _ hsafe _ => exact hsafe
    | abandoned _ _ hsafe _ => exact hsafe

theorem submit_accepted {call : Call} {rounds : ℕ} {args : List Argument}
    (hconvert : call.convert env.ds rounds = .returned args) {answer : SubmissionAnswer}
    (hpos : 0 ≤ answer.reqid) (hfree : w.lib.outstanding.lookup answer.reqid = none) :
    submit env call rounds answer w = (.returned w.responses.length,
      (w.hear answer.message).register call answer.reqid) := by
  simp [submit, hconvert, Outcome.andThen, Int.not_lt.mpr hpos, hfree, World.hear]

theorem step_submit_accepted (hcrashed : w.crashed = false) {call : Call} {rounds : ℕ}
    {args : List Argument} (hconvert : call.convert env.ds rounds = .returned args)
    {answer : SubmissionAnswer} (hpos : 0 ≤ answer.reqid)
    (hfree : w.lib.outstanding.lookup answer.reqid = none) :
    step env (.submit call rounds answer) w =
      (w.hear answer.message).register call answer.reqid := by
  simp [step, perform, hcrashed, act, submit_accepted hconvert hpos hfree, Outcome.andThen]

theorem Sound.waitCall_value (hw : Sound env w) (hcrashed : w.crashed = false) {call : Call}
    (hkind : call.kind = .deferred) {rounds : ℕ} {args : List Argument}
    (hconvert : call.convert env.ds rounds = .returned args) {answer : SubmissionAnswer}
    (hpos : 0 ≤ answer.reqid) (hfree : w.lib.outstanding.lookup answer.reqid = none)
    (hserves : Serves env (w.register call answer.reqid).lib.outstanding script) {c : Completion}
    (hc : (eventsOf answer.reqid script).head? = some c) :
    (waitCall env call rounds answer script w).1 = c.value env c.message := by
  have hsubmitted : Submitted env call rounds answer w (.returned w.responses.length,
      (w.hear answer.message).register call answer.reqid) := .accepted hconvert hpos hfree
  have hp : ((w.hear answer.message).register call answer.reqid).lib.outstanding.lookup
      answer.reqid = some ⟨w.responses.length, call.kind, call.outputs,
        call.outputs_of_iterator⟩ := by simp [World.register, World.hear]
  rw [waitCall, submit_accepted hconvert hpos hfree]
  exact (SmallSteps.sound hsubmitted.steps hw).wait_value hp hkind hcrashed hserves hc

end Ends

/-- In every reachable state, a blocking call makes no request, or comes to the one answer of its
request and returns or raises what that answer stands for with its own message, or leaves the
request in the table. -/
theorem run_waitCall_ends (as : List Action) (hcrashed : (run env as).crashed = false)
    {call : Call} (hkind : call.kind = .deferred) (rounds : ℕ) (answer : SubmissionAnswer)
    (script : Script) : CallEnds env (run env as) call answer script
      (waitCall env call rounds answer script (run env as)) :=
  (run_sound env as).waitCall_ends hcrashed hkind rounds answer script

/-- A blocking `get` of a client that has a search open. -/
theorem run_waitCall_ends_beside_search :
    CallEnds packedEnv (run packedEnv [.submit searchCall 0 (accepting 1)]) getCall (accepting 2)
      [.yielded 1 ⟨.success, "", .attributes (recordOf 7)⟩, .yielded 2 ⟨.timeout, "late", .none⟩]
      (waitCall packedEnv getCall 0 (accepting 2)
        [.yielded 1 ⟨.success, "", .attributes (recordOf 7)⟩, .yielded 2 ⟨.timeout, "late", .none⟩]
        (run packedEnv [.submit searchCall 0 (accepting 1)])) :=
  run_waitCall_ends packedEnv [.submit searchCall 0 (accepting 1)] rfl rfl 0 (accepting 2) _

/-- The methods of a program without Deferreds. -/
inductive Blocking where
  | request (call : Call) (deferred : call.kind = .deferred) (rounds : ℕ)
    (answer : SubmissionAnswer) (script : Script)
  | search (call : Call) (iterator : call.kind = .iterator) (rounds : ℕ)
    (answer : SubmissionAnswer)
  | hasNext (r : Ref) (script : Script)
  | next (r : Ref)

namespace Blocking

def perform : Blocking → World → Outcome Exn Result × World
  | .request call _ rounds answer script, w =>
    if w.crashed then (.undefined, w)
    else Outcome.andThen (waitCall env call rounds answer script w) fun v w =>
      (.returned (.value v), w)
  | .search call _ rounds answer, w => Client.perform env (.submit call rounds answer) w
  | .hasNext r script, w => Client.perform env (.hasNext r script) w
  | .next r, w => Client.perform env (.next r) w

def step (b : Blocking) (w : World) : World := (b.perform env w).2

def run (bs : List Blocking) : World := Machine.run (step env) .initial bs

end Blocking

/-- A state of the client in which no memory was used after it was freed, and no cells were read
twice. -/
structure Frugal (w : World) : Prop where
  reachable : ∃ as, w = Client.run env as
  safe : w.crashed = false
  once : ∀ r, reads r w.trace ≤ 1

section Programs
variable {env} {w : World}

theorem Frugal.sound (hw : Frugal env w) : Sound env w := by
  rcases hw.reachable with ⟨as, rfl⟩
  exact run_sound env as

theorem Frugal.reachable_run (hw : Frugal env w) (as : List Action) :
    ∃ as', Machine.run (step env) w as = run env as' := by
  rcases hw.reachable with ⟨as', rfl⟩
  exact ⟨as' ++ as, (run_append env as' as).symm⟩

/-- No cells were read in between, and no freed memory was used. -/
def Unread (w w' : World) : Prop :=
  w'.crashed = w.crashed ∧ ∀ r, reads r w'.trace = reads r w.trace

theorem Unread.refl (w : World) : Unread w w := ⟨rfl, fun _ => rfl⟩

theorem LoopSteps.unread {w' : World} (h : LoopSteps env w w') : Unread w w' :=
  ⟨LoopSteps.crashed h, LoopSteps.reads_eq h⟩

theorem submit_unread (call : Call) (rounds : ℕ) (answer : SubmissionAnswer) (w : World) :
    Unread w (submit env call rounds answer w).2 := by
  have hsubmitted : Submitted env call rounds answer w _ := submit_submitted call rounds answer w
  generalize submit env call rounds answer w = x at hsubmitted
  cases hsubmitted with
  | accepted _ _ _ =>
    exact ⟨rfl, fun r => by simp [World.register, World.hear, reads, Event.isRead]⟩
  | rejected x message _ => exact ⟨rfl, fun _ => rfl⟩

theorem next_unread (r : Ref) (w : World) : Unread w (next r w).2 := by
  rw [next]
  cases hresp : w.responses[r]? with
  | none => exact .refl w
  | some resp =>
    cases hbacklog : resp.backlog with
    | nil => simpa [hbacklog] using Unread.refl w
    | cons e rest =>
      simp only [hbacklog]
      exact ⟨rfl, fun r' => by simp [World.log, World.modify, reads, Event.isRead]⟩

theorem step_unread (hw : Consistent env w) (a : Action) (ha : ∀ r script, a ≠ .wait r script) :
    Unread w (step env a w) := by
  cases a with
  | wait r script => exact absurd rfl (ha r script)
  | hasNext r script => exact LoopSteps.unread (step_hasNext hw script)
  | loop script =>
    rw [step, perform]
    split
    · exact .refl w
    · exact Outcome.andThen_state (I := Unread w)
        (x := ((clientLoop env script w).1, (clientLoop env script w).2.1))
        (LoopSteps.unread (clientLoop_looped script w hw).steps) fun _ _ h => h
  | submit call rounds answer =>
    rw [step, perform]
    split
    · exact .refl w
    · exact Outcome.andThen_state (I := Unread w) (submit_unread call rounds answer w)
        fun _ _ h => h
  | next r =>
    rw [step, perform]
    split
    · exact .refl w
    · rw [act]
      split
      · exact next_unread r w
      · exact .refl w

theorem Frugal.step (hw : Frugal env w) (a : Action) (ha : ∀ r script, a ≠ .wait r script) :
    Frugal env (step env a w) := by
  have ⟨hcrashed, hreads⟩ := step_unread hw.sound.consistent a ha
  exact ⟨hw.reachable_run [a], hcrashed.trans hw.safe, fun r => (hreads r).trans_le (hw.once r)⟩

/-- A blocking call is a submission and, when it is accepted, a wait. -/
theorem waitCall_run (hcrashed : w.crashed = false) {call : Call} (hkind : call.kind = .deferred)
    (rounds : ℕ) (answer : SubmissionAnswer) (script : Script) :
    ∃ as, (waitCall env call rounds answer script w).2 = Machine.run (step env) w as := by
  have hlast {α β : Type} (x : Outcome Exn α × World) (f : α → Outcome Exn β) :
      (Outcome.andThen x fun a w => (f a, w)).2 = x.2 := by
    rcases x with ⟨x, w'⟩
    cases x <;> rfl
  have hsubmit : step env (.submit call rounds answer) w =
      (submit env call rounds answer w).2 := by
    rw [step, perform, if_neg (by simp [hcrashed]), act, hlast]
  have hsubmitted : Submitted env call rounds answer w _ := submit_submitted call rounds answer w
  rw [waitCall]
  generalize submit env call rounds answer w = x at hsubmit hsubmitted
  cases hsubmitted with
  | accepted _ _ _ =>
    refine ⟨[.submit call rounds answer, .wait w.responses.length script], ?_⟩
    have hkindOf : ((w.hear answer.message).register call answer.reqid).kindOf
        w.responses.length = some .deferred := by
      simp [World.kindOf, World.register, World.hear, Response.accept, Response.new, hkind]
    have hsafe : ((w.hear answer.message).register call answer.reqid).crashed = false := hcrashed
    rw [Machine.run_cons, hsubmit, Machine.run_cons, Machine.run_nil, step, perform,
      if_neg (by simp [hsafe]), act]
    simp only [hkindOf, hlast]
    rfl
  | rejected x message hx =>
    refine ⟨[.submit call rounds answer], ?_⟩
    rw [Machine.run_cons, hsubmit, Machine.run_nil]
    cases x with
    | returned r => exact absurd rfl (hx r)
    | _ => rfl

theorem OpenWait.once {id : Int} {p : Pending} {script : Script} {x : Outcome Exn Value × World}
    (h : OpenWait env w id p script x) (hw : ∀ r, reads r w.trace ≤ 1)
    (hp : reads p.ref w.trace = 0) : x.2.crashed = false ∧ ∀ r, reads r x.2.trace ≤ 1 := by
  cases h with
  | answered _ _ hsafe hreads =>
    refine ⟨hsafe, fun r => ?_⟩
    rw [hreads]
    split_ifs with hr
    · rw [← hr, hp]
    · exact hw r
  | abandoned _ _ hsafe hreads => exact ⟨hsafe, fun r => (hreads r).trans_le (hw r)⟩

theorem Frugal.waitCall (hw : Frugal env w) {call : Call} (hkind : call.kind = .deferred)
    (rounds : ℕ) (answer : SubmissionAnswer) (script : Script) :
    Frugal env (waitCall env call rounds answer script w).2 := by
  have hreachable : ∃ as, (Client.waitCall env call rounds answer script w).2 = run env as := by
    rcases waitCall_run hw.safe hkind rounds answer script with ⟨as, has⟩
    rw [has]
    exact hw.reachable_run as
  have hends := hw.sound.waitCall_ends hw.safe hkind rounds answer script
  generalize Client.waitCall env call rounds answer script w = x at hreachable hends
  cases hends with
  | rejected x message _ => exact ⟨hreachable, hw.safe, hw.once⟩
  | accepted _ _ hwait =>
    have hunread (r : Ref) : reads r ((w.hear answer.message).register call answer.reqid).trace =
        reads r w.trace := by simp [World.register, World.hear, reads, Event.isRead]
    have hfresh : reads w.responses.length w.trace = 0 := by
      by_contra hread
      rcases hw.sound.accounted.readers _ hread with ⟨resp, hresp, -⟩
      simp at hresp
    rcases hwait.once (fun r => (hunread r).trans_le (hw.once r)) ((hunread _).trans hfresh) with
      ⟨hsafe, honce⟩
    exact ⟨hreachable, hsafe, honce⟩

theorem Frugal.blocking (hw : Frugal env w) (b : Blocking) : Frugal env (b.step env w) := by
  cases b with
  | request call hkind rounds answer script =>
    rw [Blocking.step, Blocking.perform, if_neg (by simp [hw.safe])]
    exact Outcome.andThen_state (I := Frugal env) (hw.waitCall hkind rounds answer script)
      fun _ _ h => h
  | search call _ rounds answer => exact hw.step (.submit call rounds answer) nofun
  | hasNext r script => exact hw.step (.hasNext r script) nofun
  | next r => exact hw.step (.next r) nofun

end Programs

theorem Blocking.run_frugal (bs : List Blocking) : Frugal env (Blocking.run env bs) :=
  Machine.run_invariant (Blocking.step env) (fun b _ hw => hw.blocking b)
    ⟨⟨[], rfl⟩, rfl, fun _ => Nat.zero_le 1⟩ bs

theorem lifecycle_of_le_one (attrs : List Attribute) {n : ℕ} (hn : n ≤ 1) :
    (lifecycle env attrs n).count .destroy = (if Decodable env attrs ∧ n = 1 then 1 else 0) ∧
      ¬ [Touch.destroy, .decode].Sublist (lifecycle env attrs n) := by
  by_cases hgood : Decodable env attrs ∧ n = 1
  · rw [if_pos hgood]
    exact (lifecycle_owned_iff env attrs n).mpr hgood
  · rw [if_neg hgood]
    rcases Nat.le_one_iff_eq_zero_or_eq_one.mp hn with rfl | rfl
    · simp [lifecycle]
    · have hbad : ¬ Decodable env attrs := fun h => hgood ⟨h, rfl⟩
      simp [lifecycle, use, hbad]

/-- A program of blocking calls and searches never uses freed memory. It hands back every
decodable array that it came to use exactly once and no other array, and does not decode it
afterwards. -/
theorem Blocking.run_owned (bs : List Blocking) :
    (Blocking.run env bs).crashed = false ∧
      ∀ r a attrs, (Blocking.run env bs).Handed r a attrs →
        (touches a (Blocking.run env bs).trace).count .destroy =
            (if Decodable env attrs ∧ (Blocking.run env bs).uses r = 1 then 1 else 0) ∧
          ¬ [Touch.destroy, .decode].Sublist (touches a (Blocking.run env bs).trace) := by
  have hw := Blocking.run_frugal env bs
  refine ⟨hw.safe, fun r a attrs h => ?_⟩
  rw [hw.sound.accounted.touched r a attrs h]
  have hle : (Blocking.run env bs).uses r ≤ 1 := by
    rw [World.uses]
    split
    · exact hw.once r
    · exact Nat.le_refl 1
  exact lifecycle_of_le_one env attrs hle

end HyperDex.Client
