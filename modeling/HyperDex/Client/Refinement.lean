import HyperDex.Client.Polling
import HyperDex.Client.Service

/-!
# The client refines promises and streams

Every state of the client stands for a state of promises and streams, and every
method call commutes with this abstraction and has the same result. So in every
run the cells, the table of operations and the arrays of the client cannot be
told from the promises and streams they implement.
-/
namespace HyperDex.Client
open General Ruby Conversion Decoding

/-- A Deferred is what its one answer was and whether it was read, an Iterator what is left of
its entries. -/
def World.handle (w : World) (r : Ref) (resp : Response) : Handle :=
  match resp.kind with
  | .deferred =>
    .promise ((w.events r).head?.map Yield.toCompletion) (decide (reads r w.trace ≠ 0))
  | .iterator => .stream resp.backlog resp.finished

def World.service (w : World) : Service where
  handles := w.responses.mapIdx w.handle
  outstanding := w.lib.outstanding
  message := w.lib.message
  crashed := w.crashed

variable {Obj : Type} {env : Env Obj} {w : World} {r : Ref} {resp : Response}

theorem service_handles (w : World) (r : Ref) :
    w.service.handles[r]? = w.responses[r]?.map (w.handle r) := by
  simp [World.service]

theorem service_deferred (hresp : w.responses[r]? = some resp) (hkind : resp.kind = .deferred) :
    w.service.handles[r]? = some (.promise ((w.events r).head?.map Yield.toCompletion)
      (decide (reads r w.trace ≠ 0))) := by
  rw [service_handles, hresp, Option.map_some, World.handle, hkind]

theorem service_iterator (hresp : w.responses[r]? = some resp) (hkind : resp.kind = .iterator) :
    w.service.handles[r]? = some (.stream resp.backlog resp.finished) := by
  rw [service_handles, hresp, Option.map_some, World.handle, hkind]

/-- Two handles are the same where the class, the events, the reads and the response agree. -/
theorem handle_congr {w' : World} {resp' : Response} (hkind : resp'.kind = resp.kind)
    (hevents : w'.events r = w.events r) (hreads : reads r w'.trace = reads r w.trace)
    (hbacklog : resp'.backlog = resp.backlog) (hfinished : resp'.finished = resp.finished) :
    w'.handle r resp' = w.handle r resp := by
  simp only [World.handle, hkind, hevents, hreads, hbacklog, hfinished]

theorem admits_service (w : World) (reqid : Int) (c : Completion) :
    w.service.admits reqid c = w.lib.admits reqid c := by
  simp only [Service.admits, Library.admits, World.service]
  cases w.lib.outstanding.lookup reqid with
  | none => rfl
  | some p => by_cases hfits : c.Fits p.outputs <;> simp [Option.filter, hfits]

theorem Consistent.head_isSome (hw : Consistent env w) (hresp : w.responses[r]? = some resp)
    (hkind : resp.kind = .deferred) : (w.events r).head?.isSome = resp.finished := by
  have htracked := hw.tracked r resp hresp
  have hlength : (w.events r).length = if resp.finished then 1 else 0 :=
    (htracked.single hkind).trans htracked.finished
  cases hfin : resp.finished with
  | false =>
    rw [hfin] at hlength
    rw [List.length_eq_zero_iff.mp hlength]
    rfl
  | true =>
    rw [hfin] at hlength
    rcases List.length_eq_one_iff.mp hlength with ⟨y, hy⟩
    rw [hy]
    rfl

theorem resolved_service (hw : Consistent env w) (r : Ref) :
    w.service.resolved r = waitDone r w := by
  rw [Service.resolved]
  cases hresp : w.responses[r]? with
  | none => simp [service_handles, waitDone, hresp]
  | some resp =>
    rw [waitDone_eq hw hresp]
    cases hkind : resp.kind with
    | deferred =>
      rw [service_deferred hresp hkind, ← hw.head_isSome hresp hkind]
      exact Option.isSome_map
    | iterator => rw [service_iterator hresp hkind]

theorem ready_service (hw : Consistent env w) (r : Ref) :
    w.service.ready r = hasNextDone r w := by
  rw [Service.ready]
  cases hresp : w.responses[r]? with
  | none => simp [service_handles, hasNextDone, hresp]
  | some resp =>
    rw [hasNextDone_eq hresp]
    cases hkind : resp.kind with
    | deferred =>
      rw [service_deferred hresp hkind, hw.backlog_of_deferred hresp hkind,
        ← hw.head_isSome hresp hkind]
      simp
    | iterator => rw [service_iterator hresp hkind]

section Events
variable (env)

theorem entryOf_place (c : Completion) (a : Address) :
    (entryOf env (c.place a)).toList = (c.items env).toOption.getD [] := by
  rcases c with ⟨status, message, output⟩
  cases status with
  | success =>
    cases output with
    | attributes attrs =>
      simp only [entryOf, Completion.items, Completion.place]
      cases encodeAttributes env attrs <;> rfl
    | _ => rfl
  | _ => rfl

theorem decodingError_place (c : Completion) (a : Address) :
    decodingError env (c.place a) =
      match c.items env with
      | .ok _ => none
      | .error e => some e := by
  rcases c with ⟨status, message, output⟩
  cases status with
  | success =>
    cases output with
    | attributes attrs =>
      simp only [decodingError, Completion.items, Completion.place]
      cases encodeAttributes env attrs <;> rfl
    | _ => rfl
  | _ => cases output <;> rfl

theorem outcome_place (p : Pending) (c : Completion) (a : Address) :
    p.outcome env (c.place a) =
      match p.kind with
      | .deferred => .returned p.ref
      | .iterator => Outcome.ofExcept ((c.items env).map fun _ => p.ref) := by
  rw [Pending.outcome]
  cases p.kind with
  | deferred => rfl
  | iterator =>
    rw [Kind.decodingError, decodingError_place]
    cases c.items env <;> rfl

end Events

theorem events_delivered (w : World) (reqid : Int) (p : Pending) (y : Yield) (r : Ref) :
    (w.delivered env reqid p y).events r =
      if p.ref = r then w.events r ++ [y] else w.events r := by
  rw [World.events, World.delivered, history_yielded]
  split_ifs <;> rfl

theorem handle_delivered (hw : Consistent env w) {reqid : Int} {p : Pending}
    (hp : w.lib.outstanding.lookup reqid = some p) (c : Completion) (hfits : c.Fits p.outputs)
    (a : Address) (r : Ref) :
    (w.delivered env reqid p (c.place a)).service.handles[r]? =
      (w.service.handles.modify p.ref (Handle.receive env c))[r]? := by
  have hreads : reads r (w.delivered env reqid p (c.place a)).trace = reads r w.trace :=
    reads_delivered w reqid hfits r
  rw [service_handles]
  by_cases hr : p.ref = r
  · subst hr
    rw [List.getElem?_modify_eq, service_handles]
    rcases hw.bound reqid p hp with ⟨resp, hresp, hbound⟩
    have hself : (w.delivered env reqid p (c.place a)).responses[p.ref]? =
        some (p.receive env (c.place a) resp) := by simp [World.delivered, hresp]
    rw [hself, hresp]
    simp only [Option.map_some, Option.map_eq_map, Option.some.injEq]
    have hkind : (p.receive env (c.place a) resp).kind = resp.kind := rfl
    cases hk : resp.kind with
    | deferred =>
      have hempty : w.events p.ref = [] := by
        have hnone := hw.head_isSome hresp hk
        rw [hbound.unfinished] at hnone
        simpa using hnone
      simp only [World.handle, hkind, hk, Handle.receive, events_delivered, hempty, hreads]
      rfl
    | iterator =>
      have hkindp : p.kind = .iterator := hbound.kind.symm.trans hk
      simp only [World.handle, hk, Handle.receive, Pending.receive, hkindp, Kind.entry,
        entryOf_place, Kind.closes]
      rfl
  · have hother : (w.delivered env reqid p (c.place a)).responses[r]? = w.responses[r]? := by
      simp [World.delivered, List.getElem?_modify_ne _ _ hr]
    rw [hother, List.getElem?_modify_ne _ _ hr, service_handles]
    cases hresp : w.responses[r]? with
    | none => rfl
    | some resp =>
      rw [Option.map_some, Option.map_some, Option.some.injEq]
      apply handle_congr rfl _ hreads rfl rfl
      rw [events_delivered, if_neg hr]

theorem deliver_service (hw : Consistent env w) {reqid : Int} {p : Pending}
    (hp : w.lib.outstanding.lookup reqid = some p) (c : Completion) (hfits : c.Fits p.outputs) :
    w.service.deliver env reqid p c = (p.outcome env (c.place w.lib.arrays.length),
      (w.delivered env reqid p (c.place w.lib.arrays.length)).service) := by
  have hhandles : (w.delivered env reqid p (c.place w.lib.arrays.length)).service.handles =
      w.service.handles.modify p.ref (Handle.receive env c) :=
    List.ext_getElem? (handle_delivered hw hp c hfits _)
  rw [outcome_place, Service.deliver, ← hhandles]
  rfl

/-- The loop of the client, with the state that it leaves abstracted. -/
theorem loop_service (script : Script) (hw : Consistent env w) :
    w.service.loop env script =
      ((clientLoop env script w).1, (clientLoop env script w).2.1.service) := by
  induction script generalizing w with
  | nil => rfl
  | cons answer script ih =>
    cases answer with
    | failed rc message =>
      rw [Service.loop, clientLoop]
      by_cases hrc : rc = .interrupted
      · rw [if_pos hrc, if_neg (not_not.mpr hrc)]
        exact ih (hw.hear message)
      · rw [if_neg hrc, if_pos hrc]
        rfl
    | yielded reqid c =>
      rw [Service.loop, clientLoop, admits_service]
      cases hadmits : w.lib.admits reqid c with
      | none => rfl
      | some p =>
        rcases Library.admits_eq_some hadmits with ⟨hp, hfits⟩
        rcases hw.bound reqid p hp with ⟨resp, hresp, hbound⟩
        have hops : w.ops.lookup reqid = some p.ref := by rw [hw.ops, hp]; rfl
        simp only [deliver_eq env hops hresp hbound hfits]
        exact deliver_service hw hp c hfits

theorem drive_service (env : Env Obj) {done : World → Bool} {done' : Service → Bool}
    (hdone : ∀ w, Consistent env w → done' w.service = done w)
    (hhear : ∀ w message, done (World.hear w message) = done w) (n : ℕ) (script : Script)
    (hw : Consistent env w) (hn : script.length < n) :
    w.service.drive env done' script =
      ((loopUntil env done n w script).1, (loopUntil env done n w script).2.1.service) := by
  induction script generalizing w n with
  | nil =>
    cases n with
    | zero => exact absurd hn (Nat.not_lt_zero _)
    | succ n =>
      rw [Service.drive, hdone w hw, loopUntil]
      by_cases hend : done w = true <;> simp [hend, clientLoop, Outcome.andThen]
  | cons answer script ih =>
    cases n with
    | zero => exact absurd hn (Nat.not_lt_zero _)
    | succ n =>
      rw [loopUntil]
      by_cases hend : done w = true
      · cases answer <;> simp [Service.drive, hdone w hw, hend]
      · rw [if_neg hend]
        cases answer with
        | failed rc message =>
          rw [Service.drive, hdone w hw, if_neg hend, clientLoop]
          by_cases hrc : rc = .interrupted
          · rw [if_pos hrc, if_neg (not_not.mpr hrc)]
            -- an interruption is taken in the same round
            have hround := ih (n + 1) (hw.hear message) (by simp at hn; omega)
            rw [loopUntil, hhear, if_neg hend] at hround
            exact hround
          · rw [if_neg hrc, if_pos hrc]
            rfl
        | yielded reqid c =>
          rw [Service.drive, hdone w hw, if_neg hend, clientLoop, admits_service]
          cases hadmits : w.lib.admits reqid c with
          | none => rfl
          | some p =>
            rcases Library.admits_eq_some hadmits with ⟨hp, hfits⟩
            rcases hw.bound reqid p hp with ⟨resp, hresp, hbound⟩
            have hops : w.ops.lookup reqid = some p.ref := by rw [hw.ops, hp]; rfl
            simp only [deliver_eq env hops hresp hbound hfits, deliver_service hw hp c hfits]
            cases p.outcome env (c.place w.lib.arrays.length) with
            | returned r' => exact ih n (hw.delivered hp _ hfits) (by simp at hn; omega)
            | _ => rfl

theorem reads_of_ref_none {es : List Event} (hes : ∀ e ∈ es, e.ref? = none) (r : Ref) :
    reads r es = 0 := by
  rw [reads, List.countP_eq_zero]
  intro e he hread
  have href := hes e he
  cases e <;> simp_all [Event.isRead, Event.ref?]

theorem reads_read (r r' : Ref) (t : List Event) :
    reads r' (t ++ [.read r]) = reads r' t + if r = r' then 1 else 0 := by
  rw [reads_append]
  by_cases hr : r = r' <;> simp [reads, Event.isRead, hr]

theorem encodeReturn_events (env : Env Obj) (resp : Response) (w : World) (r r' : Ref) :
    (encodeReturn env resp (w.log (.read r))).2.events r' = w.events r' := by
  have hmemory := encodeReturn_memoryOnly env resp (w.log (.read r))
  rcases hmemory.trace with ⟨es, hes, hsilent⟩
  have hread : history r' (w.log (.read r)).trace = history r' w.trace :=
    history_silent r' _ (by simp [Event.Silent])
  rw [World.events, hes, history_silent r' _ fun e he => (hsilent e he).1, hread, World.events]

theorem encodeReturn_reads (env : Env Obj) (resp : Response) (w : World) (r r' : Ref) :
    reads r' (encodeReturn env resp (w.log (.read r))).2.trace =
      reads r' w.trace + if r = r' then 1 else 0 := by
  have hmemory := encodeReturn_memoryOnly env resp (w.log (.read r))
  rcases hmemory.trace with ⟨es, hes, hsilent⟩
  rw [hes, reads_append, reads_of_ref_none fun e he => (hsilent e he).2, World.log, reads_read]
  rfl

/-- A read marks its promise as redeemed and leaves all other handles alone. -/
theorem encodeReturn_service (hresp : w.responses[r]? = some resp) (hkind : resp.kind = .deferred)
    {y : Yield} (hy : w.events r = [y]) :
    (encodeReturn env resp (w.log (.read r))).2.service =
      { w.service with
        handles := w.service.handles.set r (.promise (some y.toCompletion) true)
        crashed := (encodeReturn env resp (w.log (.read r))).2.crashed } := by
  have hmemory := encodeReturn_memoryOnly env resp (w.log (.read r))
  have hevents := encodeReturn_events env resp w r
  have hreads := encodeReturn_reads env resp w r
  generalize (encodeReturn env resp (w.log (.read r))).2 = w' at hmemory hevents hreads ⊢
  have hhandles : w'.service.handles =
      w.service.handles.set r (.promise (some y.toCompletion) true) := by
    apply List.ext_getElem?
    intro r'
    rw [service_handles, hmemory.responses]
    by_cases hr : r = r'
    · subst hr
      have hlt : r < w.service.handles.length := by
        simpa [World.service] using (List.getElem?_eq_some_iff.mp hresp).1
      have hlog : (w.log (.read r)).responses[r]? = some resp := hresp
      rw [List.getElem?_set_self hlt, hlog, Option.map_some, World.handle, hkind]
      simp [hevents, hy, hreads]
    · have hlog : (w.log (.read r)).responses[r']? = w.responses[r']? := rfl
      rw [List.getElem?_set_ne hr, service_handles, hlog]
      cases w.responses[r']? with
      | none => rfl
      | some resp' =>
        rw [Option.map_some, Option.map_some, Option.some.injEq]
        exact handle_congr rfl (hevents r') (by simp [hreads, hr]) rfl rfl
  rw [← hhandles]
  simp only [World.service, hmemory.outstanding, hmemory.message]
  rfl

/-- What the cells of a finished Deferred are read as is what its promise is redeemed for. -/
theorem redeem_service (hc : Consistent env w) (hw : Accounted env w)
    (hresp : w.responses[r]? = some resp) (hkind : resp.kind = .deferred)
    (hfin : resp.finished = true) {y : Yield} (hy : w.events r = [y]) :
    w.service.redeem env r y.toCompletion (decide (reads r w.trace ≠ 0)) =
      ((encodeReturn env resp (w.log (.read r))).1,
        (encodeReturn env resp (w.log (.read r))).2.service) := by
  rw [encodeReturn_service hresp hkind hy]
  obtain ⟨y', hy', hreading⟩ := hw.reading hc hresp hkind hfin
  obtain rfl : y = y' := by simpa using hy.symm.trans hy'
  have hfits : ∃ outputs, y.Fits outputs := by
    rcases (hc.tracked r resp hresp).outputs with ⟨outputs, -, -, hall⟩
    exact ⟨outputs, hall y (by rw [hy']; exact List.mem_singleton_self y)⟩
  rcases hfits with ⟨outputs, hfits⟩
  have halive {attrs : List Attribute} (houtput : y.output = .attributes attrs)
      (hgood : Decodable env attrs) :=
    hw.alive_iff ((World.handed_iff hy).mpr ⟨houtput, rfl⟩) (kindOf_of_response hresp hkind) hgood
  have hmessage : w.service.message = w.lib.message := rfl
  have hvalue (message : String) : y.toCompletion.value env message = y.value env message := rfl
  rw [Service.redeem]
  generalize encodeReturn env resp (w.log (.read r)) = x at hreading
  cases hreading with
  | cells houtput =>
    have hlinear : ¬ y.toCompletion.IsLinear env := fun ⟨attrs, h, _⟩ => houtput attrs h
    rw [if_neg fun h => hlinear h.2]
    rfl
  | @undecodable attrs e houtput hencode _ =>
    have hlinear : ¬ y.toCompletion.IsLinear env := by
      rintro ⟨attrs', h, m, hm⟩
      obtain rfl : attrs = attrs' := Output.attributes.inj (houtput.symm.trans h)
      exact nomatch hencode.symm.trans hm
    rw [if_neg fun h => hlinear h.2]
    have hraised : y.value env w.lib.message = .raised e := by
      simp [Yield.value, hfits.success houtput, houtput, hencode]
    rw [hmessage, hvalue, hraised]
    rfl
  | @decoded attrs h houtput hencode hthere =>
    have hunread := (halive houtput ⟨h, hencode⟩).mp hthere
    rw [if_neg fun hagain => by simp [hunread] at hagain]
    have hreturned : y.value env w.lib.message = .returned (hashOf h) := by
      simp [Yield.value, hfits.success houtput, houtput, hencode]
    rw [hmessage, hvalue, hreturned]
    rfl
  | @freed attrs h houtput hencode hgone =>
    have hread : reads r w.trace ≠ 0 := fun hzero =>
      absurd (hgone.symm.trans ((halive houtput ⟨h, hencode⟩).mpr hzero)) (by simp)
    have hmisuse : ((w.log (.read r)).misuse y.address attrs).crashed = true := by
      rw [World.misuse]
      split <;> rfl
    rw [if_pos ⟨by simpa using hread, attrs, houtput, h, hencode⟩, hmisuse]

theorem wait_service (hc : Consistent env w) (hw : Accounted env w) (script : Script)
    (hresp : w.responses[r]? = some resp) (hkind : resp.kind = .deferred) :
    w.service.wait env r script =
      ((wait env r script w).1, (wait env r script w).2.service) := by
  have hdrive := drive_service env (fun w hw => resolved_service hw r) (fun _ _ => rfl)
    (script.length + 1) script hc (Nat.lt_succ_self _)
  have hloop : LoopedUntil env (waitDone r) w script _ := waitLoop_loopedUntil r script hc
  rw [Service.wait, wait, hdrive, ← waitLoop]
  generalize waitLoop env r script w = x at hloop
  cases hloop with
  | @returned w' rest huntil hend =>
    have hc' := LoopSteps.consistent huntil.steps hc
    have hw' := SmallSteps.accounted (LoopSteps.small huntil.steps) hc hw
    rcases LoopSteps.extends huntil.steps hc hresp with ⟨resp', hresp', hext⟩
    have hkind' : resp'.kind = .deferred := hext.kind.trans hkind
    have hfin : resp'.finished = true := (waitDone_eq hc' hresp').symm.trans hend
    rcases hc'.answered hresp' hkind' hfin with ⟨y, outputs, hy, -⟩
    have hevents : w'.events r = [y] := hy
    have hhandle := service_deferred hresp' hkind'
    rw [hevents] at hhandle
    simp only [Outcome.andThen, hresp', hhandle]
    exact redeem_service hc' hw' hresp' hkind' hfin hevents
  | pending rest _ _ => rfl
  | failed rc message rest _ _ _ _ => rfl
  | undecodable c rest _ _ _ _ _ => rfl

theorem hasNext_service (hc : Consistent env w) (script : Script)
    (hresp : w.responses[r]? = some resp) (hkind : resp.kind = .iterator) :
    w.service.hasNext env r script =
      ((hasNext env r script w).1, (hasNext env r script w).2.service) := by
  have hdrive := drive_service env (fun w hw => ready_service hw r) (fun _ _ => rfl)
    (script.length + 1) script hc (Nat.lt_succ_self _)
  have hloop := loopUntil_loopedUntil env (hasNextDone r) (fun _ _ => rfl)
    (script.length + 1) script w hc (Nat.lt_succ_self _)
  rw [Service.hasNext, hasNext, hdrive]
  generalize loopUntil env (hasNextDone r) (script.length + 1) w script = x at hloop
  cases hloop with
  | @returned w' rest huntil hend =>
    rcases LoopSteps.extends huntil.steps hc hresp with ⟨resp', hresp', hext⟩
    have hhandle := service_iterator hresp' (hext.kind.trans hkind)
    simp only [Outcome.andThen, hresp', hhandle]
  | pending rest _ _ => rfl
  | failed rc message rest _ _ _ _ => rfl
  | undecodable c rest _ _ _ _ _ => rfl

theorem next_service (hresp : w.responses[r]? = some resp) (hkind : resp.kind = .iterator) :
    w.service.next r = ((next r w).1, (next r w).2.service) := by
  rw [Service.next, service_iterator hresp hkind]
  cases hbacklog : resp.backlog with
  | nil => simp [next, hresp, hbacklog]
  | cons e rest =>
    have hnext : next r w =
        (some e, (w.modify r fun resp => { resp with backlog := rest }).log (.taken r e)) := by
      simp [next, hresp, hbacklog]
    have hhandles : ((w.modify r fun resp => { resp with backlog := rest }).log
        (.taken r e)).service.handles =
          w.service.handles.set r (.stream rest resp.finished) := by
      apply List.ext_getElem?
      intro r'
      rw [service_handles]
      by_cases hr : r = r'
      · subst hr
        have hlt : r < w.service.handles.length := by
          simpa [World.service] using (List.getElem?_eq_some_iff.mp hresp).1
        rw [List.getElem?_set_self hlt]
        simp [World.log, World.modify, hresp, World.handle, hkind]
      · have hother : ((w.modify r fun resp => { resp with backlog := rest }).log
            (.taken r e)).responses[r']? = w.responses[r']? := by
          simp [World.log, World.modify, List.getElem?_modify_ne _ _ hr]
        rw [List.getElem?_set_ne hr, hother, service_handles]
        cases w.responses[r']? with
        | none => rfl
        | some resp' =>
          rw [Option.map_some, Option.map_some, Option.some.injEq]
          refine handle_congr rfl ?_ ?_ rfl rfl
          · simp [World.events, World.log, World.modify, history_taken, hr]
          · simp [World.log, World.modify, reads, Event.isRead]
    simp only [hnext, ← hhandles]
    rfl

theorem register_service (hc : Consistent env w) (hw : Accounted env w) (call : Call)
    (reqid : Int) : (w.register call reqid).service = w.service.register call reqid := by
  have hevents (r : Ref) : (w.register call reqid).events r = w.events r :=
    congrArg History.answers (history_submitted r _ w.trace reqid)
  have hreads (r : Ref) : reads r (w.register call reqid).trace = reads r w.trace := by
    simp [World.register, reads, Event.isRead]
  have hfresh : w.events w.responses.length = [] ∧ reads w.responses.length w.trace = 0 := by
    constructor
    · exact congrArg History.answers (history_fresh hc.ref_ne)
    · by_contra hread
      rcases hw.readers _ hread with ⟨resp, hresp, -⟩
      simp at hresp
  have hself : (w.register call reqid).handle w.responses.length
      ((Response.new call.kind).accept call.outputs reqid) =
        match call.kind with
        | .deferred => .promise none false
        | .iterator => .stream [] false := by
    simp only [World.handle, Response.accept, Response.new, hevents, hreads, hfresh]
    rfl
  have hhandles : (w.register call reqid).service.handles =
      (w.service.register call reqid).handles := by
    have hlength : w.service.handles.length = w.responses.length := by simp [World.service]
    apply List.ext_getElem?
    intro r
    rw [service_handles]
    rcases Nat.lt_or_ge r w.responses.length with hr | hr
    · rw [Service.register, List.getElem?_append_left (hlength ▸ hr), service_handles,
        World.register, List.getElem?_append_left hr]
      cases w.responses[r]? with
      | none => rfl
      | some resp =>
        rw [Option.map_some, Option.map_some, Option.some.injEq]
        exact handle_congr rfl (hevents r) (hreads r) rfl rfl
    · rw [Service.register, List.getElem?_append_right (hlength ▸ hr), hlength, World.register,
        List.getElem?_append_right hr]
      cases hindex : r - w.responses.length with
      | succ n => rfl
      | zero =>
        obtain rfl : r = w.responses.length := by omega
        exact congrArg some hself
  have hlength : w.service.handles.length = w.responses.length := by simp [World.service]
  rw [Service.register] at hhandles ⊢
  simp only [World.service] at hhandles hlength ⊢
  rw [hhandles, hlength]
  rfl

theorem submit_service (hc : Consistent env w) (hw : Accounted env w) (call : Call) (rounds : ℕ)
    (answer : SubmissionAnswer) :
    w.service.submit env call rounds answer =
      ((submit env call rounds answer w).1, (submit env call rounds answer w).2.service) := by
  rw [Service.submit, submit]
  cases call.convert env.ds rounds with
  | returned args =>
    have houtstanding : (w.service.hear answer.message).outstanding =
        (w.hear answer.message).lib.outstanding := rfl
    simp only [Outcome.andThen, houtstanding]
    by_cases hneg : answer.reqid < 0
    · rw [if_pos hneg, if_pos hneg]
      rfl
    · rw [if_neg hneg, if_neg hneg]
      split
      · rfl
      · have haccounted : Accounted env (w.hear answer.message) :=
          (LoopStep.heard w answer.message).accounted hc hw
        have hregister := register_service (hc.hear answer.message) haccounted call answer.reqid
        rw [hregister]
        have hlength : (w.service.hear answer.message).handles.length =
            (w.hear answer.message).responses.length := by
          simp [Service.hear, World.service, World.hear]
        rw [hlength]
        rfl
  | _ => rfl

/-- Every method call of the client is one of promises and streams. -/
theorem act_service (hc : Consistent env w) (hw : Accounted env w) (a : Action) :
    w.service.act env a = ((act env a w).1, (act env a w).2.service) := by
  have hthen {α β : Type} (x : Outcome Exn α × World) (f : α → Outcome Exn β) :
      Outcome.andThen (x.1, x.2.service) (fun a s => (f a, s)) =
        ((Outcome.andThen x fun a w => (f a, w)).1,
          (Outcome.andThen x fun a w => (f a, w)).2.service) := by
    rcases x with ⟨x, w'⟩
    cases x <;> rfl
  cases a with
  | submit call rounds answer =>
    rw [Service.act, submit_service hc hw, hthen]
    rfl
  | loop script =>
    rw [Service.act, loop_service script hc]
    exact hthen ((clientLoop env script w).1, (clientLoop env script w).2.1) _
  | wait r script =>
    rw [Service.act, act, World.kindOf]
    cases hresp : w.responses[r]? with
    | none => simp [service_handles, hresp]
    | some resp =>
      cases hkind : resp.kind with
      | deferred =>
        simp only [service_deferred hresp hkind, Option.map_some, hkind,
          wait_service hc hw script hresp hkind]
        exact hthen _ _
      | iterator => simp [service_iterator hresp hkind, hkind]
  | hasNext r script =>
    rw [Service.act, act, World.kindOf]
    cases hresp : w.responses[r]? with
    | none => simp [service_handles, hresp]
    | some resp =>
      cases hkind : resp.kind with
      | deferred => simp [service_deferred hresp hkind, hkind]
      | iterator =>
        simp only [service_iterator hresp hkind, Option.map_some, hkind,
          hasNext_service hc script hresp hkind]
        exact hthen _ _
  | next r =>
    rw [Service.act, act, World.kindOf]
    cases hresp : w.responses[r]? with
    | none => simp [service_handles, hresp]
    | some resp =>
      cases hkind : resp.kind with
      | deferred => simp [service_deferred hresp hkind, hkind]
      | iterator =>
        simp only [service_iterator hresp hkind, Option.map_some, hkind, next_service hresp hkind]

theorem perform_service (hc : Consistent env w) (hw : Accounted env w) (a : Action) :
    w.service.perform env a = ((perform env a w).1, (perform env a w).2.service) := by
  have hcrashed : w.service.crashed = w.crashed := rfl
  rw [Service.perform, perform, hcrashed]
  split
  · rfl
  · exact act_service hc hw a

theorem outcomes_eq_outputs (env : Env Obj) (w : World) (as : List Action) :
    outcomes env w as = Machine.outputs (step env) (fun a w => (perform env a w).1) w as := by
  induction as generalizing w with
  | nil => rfl
  | cons a as ih => rw [outcomes, Machine.outputs, ih]

/-- The states a step lemma may assume. -/
structure Sound (env : Env Obj) (w : World) : Prop where
  consistent : Consistent env w
  accounted : Accounted env w

theorem Sound.step (hw : Sound env w) (a : Action) : Sound env (step env a w) :=
  have hsteps := step_steps a hw.consistent
  ⟨SmallSteps.consistent hsteps hw.consistent,
    SmallSteps.accounted hsteps hw.consistent hw.accounted⟩

theorem run_sound (env : Env Obj) (as : List Action) : Sound env (run env as) :=
  ⟨run_consistent env as, run_accounted env as⟩

theorem Sound.refines (hw : Sound env w) (as : List Action) :
    outcomes env w as = w.service.outcomes env as ∧
      (Machine.run (Client.step env) w as).service =
        Machine.run (Service.step env) w.service as := by
  rw [outcomes_eq_outputs]
  apply Machine.outputs_eq_of_abstraction (I := Sound env) (Client.step env) _ World.service _ _ hw
  · exact fun a w hw => hw.step a
  · intro a w hw
    have hperform := perform_service hw.consistent hw.accounted a
    exact ⟨(congrArg Prod.fst hperform).symm, (congrArg Prod.snd hperform).symm⟩

/-- In every run all results are those of promises and streams, and so is the state at its
end. -/
theorem run_refines (env : Env Obj) (as : List Action) :
    outcomes env .initial as = Service.initial.outcomes env as ∧
      (run env as).service = Service.run env as :=
  (run_sound env []).refines as

end HyperDex.Client
