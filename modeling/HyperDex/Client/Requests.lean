import HyperDex.Client.Arrays

/-!
# Requests and their response objects

The table of operations is a copy of the library's outstanding requests, in
every reachable state and whatever the order of the calls. So every event finds
its response object, and a wait reads the cells of its own request, whichever
call took the event from the library.
-/
namespace HyperDex.Client
open General Ruby Conversion Decoding

variable {Obj : Type} (env : Env Obj)

/-- What a wait makes of the end of its loop. -/
def WaitEnds (r : Ref) (result : Outcome Exn Value × World) :
    Outcome Exn Unit × World × Script → Prop
  | (.returned _, w, _) =>
    ∃ resp id y closes, w.responses[r]? = some resp ∧ resp.reqid = some id ∧
      .yielded id r y closes ∈ w.trace ∧ (history r w.trace).answers = [y] ∧
      resp.cells = Cells.initial.fill y ∧ result = encodeReturn env resp (w.log (.read r)) ∧
      (reads r w.trace = 0 → result.1 = y.value env w.lib.message)
  | (.raised e, w, _) => result = (.raised e, w)
  | (.pending, w, _) => result = (.pending, w) ∧ ∃ id, w.ops.lookup id = some r
  | (.undefined, _, _) => False

/-- The table of operations agrees with the library, and every call keeps to it. -/
structure Synchronized (w : World) : Prop where
  keys : ∀ id, id ∈ w.ops.keys ↔ id ∈ w.lib.outstanding.keys
  outstanding : ∀ id, w.ops.lookup id = Ledger.outstanding (ledger w.trace) id
  bound : ∀ id r, w.ops.lookup id = some r → .submitted id r ∈ w.trace ∧
    ∃ resp, w.responses[r]? = some resp ∧ resp.reqid = some id ∧ resp.finished = false
  /-- a submission that converts no arguments or gets no identifier changes neither side -/
  rejected : ∀ call rounds answer,
    (∀ args, call.convert env.ds rounds ≠ .returned args) ∨ answer.reqid < 0 →
    (∀ r, (submit env call rounds answer w).1 ≠ .returned r) ∧
      (submit env call rounds answer w).2.ops = w.ops ∧
      (submit env call rounds answer w).2.lib.outstanding = w.lib.outstanding
  /-- an interrupted call of the library is only repeated -/
  interrupted : ∀ message script, clientLoop env (.failed .interrupted message :: script) w =
    clientLoop env script { w with lib := { w.lib with message } }
  found : ∀ id c p, w.lib.admits id c = some p → w.ops.lookup id = some p.ref
  once : ∀ (r : Ref) resp, w.responses[r]? = some resp → resp.kind = .deferred →
    (∃ id, w.ops.lookup id = some r) ∧ w.trace.countP (Event.isCallback r) = 0 ∨
      (∀ id, w.ops.lookup id ≠ some r) ∧ w.trace.countP (Event.isCallback r) = 1
  waits : ∀ (r : Ref) resp script, w.responses[r]? = some resp → resp.kind = .deferred →
    WaitEnds env r (wait env r script w) (waitLoop env r script w)

variable {env} {w : World} {r : Ref} {resp : Response}

/-- A response object is in the table until it is finished. -/
theorem Consistent.in_table_iff (hc : Consistent env w) (hresp : w.responses[r]? = some resp) :
    (∃ id, w.ops.lookup id = some r) ↔ resp.finished = false := by
  rcases hc.opened r resp hresp with ⟨id, -, -, hopened⟩
  have hfinished : Ledger.closings r (ledger w.trace) = if resp.finished then 1 else 0 :=
    (hc.tracked r resp hresp).finished
  have htable (j : Int) : w.ops.lookup j = Ledger.outstanding (ledger w.trace) j := by
    rw [hc.ops, hc.outstanding]
  simp only [htable]
  rcases hc.valid.closings_eq hopened with ⟨hzero, hopen⟩ | ⟨hone, hclosed⟩
  · have hfin : resp.finished = false := by
      by_contra h
      simp [h, hzero] at hfinished
    exact ⟨fun _ => hfin, fun _ => ⟨id, hopen⟩⟩
  · constructor
    · rintro ⟨j, hj⟩
      exact absurd hj (hclosed j)
    · intro hfin
      simp [hfin, hone] at hfinished

theorem Consistent.yielded_reqid (hc : Consistent env w) (hresp : w.responses[r]? = some resp)
    {id : Int} {y : Yield} {closes : Bool} (hy : .yielded id r y closes ∈ w.trace) :
    resp.reqid = some id := by
  rcases hc.opened r resp hresp with ⟨id', hid', -, hopened⟩
  have hanswered := hc.valid.opened_of_answered (answered_mem_ledger.mpr hy)
  rw [hid', hc.valid.opened_unique hopened hanswered]

/-- The first wait that gets to the cells returns or raises what the answer stands for. -/
theorem Accounted.first_read (hw : Accounted env w) (hc : Consistent env w)
    (hresp : w.responses[r]? = some resp) (hkind : resp.kind = .deferred)
    (hfin : resp.finished = true) (hreads : reads r w.trace = 0) {y : Yield}
    (hy : (history r w.trace).answers = [y]) :
    (encodeReturn env resp (w.log (.read r))).1 = y.value env w.lib.message := by
  rcases hw.reading hc hresp hkind hfin with ⟨y', hy', hreading⟩
  obtain rfl : y = y' := by simpa [hy'] using hy.symm
  rcases (hc.tracked r resp hresp).outputs with ⟨outputs, -, -, hfits⟩
  have hstatus {attrs : List Attribute} (houtput : y.output = .attributes attrs) :=
    (hfits y (by simp [hy])).success houtput
  generalize encodeReturn env resp (w.log (.read r)) = x at hreading
  cases hreading with
  | cells _ => rfl
  | undecodable houtput hencode _ => simp [Yield.value, houtput, hstatus houtput, hencode]
  | decoded houtput hencode _ => simp [Yield.value, houtput, hstatus houtput, hencode]
  | freed houtput hencode hgone =>
    have halive := (hw.alive_iff ((World.handed_iff hy).mpr ⟨houtput, rfl⟩)
      (kindOf_of_response hresp hkind) ⟨_, hencode⟩).mpr hreads
    exact absurd (hgone.symm.trans halive) (by simp)

theorem wait_ends (hc : Consistent env w) (hw : Accounted env w)
    (hresp : w.responses[r]? = some resp) (hkind : resp.kind = .deferred) (script : Script) :
    WaitEnds env r (wait env r script w) (waitLoop env r script w) := by
  have hloop := waitLoop_loopedUntil r script hc
  rw [wait]
  generalize waitLoop env r script w = x at hloop
  cases hloop with
  | @returned w' rest huntil hend =>
    have hsteps := huntil.steps
    have hc' := LoopSteps.consistent hsteps hc
    have hw' := SmallSteps.accounted (LoopSteps.small hsteps) hc hw
    rcases LoopSteps.extends hsteps hc hresp with ⟨resp', hresp', hext⟩
    have hkind' : resp'.kind = .deferred := hext.kind.trans hkind
    have hfin : resp'.finished = true := (waitDone_eq hc' hresp').symm.trans hend
    rcases hc'.answered hresp' hkind' hfin with ⟨y, outputs, hy, hcells, -⟩
    obtain ⟨id, closes, hmem⟩ :=
      mem_answers_history.mp (by rw [hy]; exact List.mem_singleton_self y)
    simp only [Outcome.andThen, hresp']
    exact ⟨resp', id, y, closes, hresp', hc'.yielded_reqid hresp' hmem, hmem, hy, hcells, rfl,
      fun hreads => hw'.first_read hc' hresp' hkind' hfin hreads hy⟩
  | pending rest hsteps hend =>
    have hc' := LoopSteps.consistent hsteps hc
    rcases LoopSteps.extends hsteps hc hresp with ⟨resp', hresp', -⟩
    exact ⟨rfl, (hc'.in_table_iff hresp').mpr ((waitDone_eq hc' hresp').symm.trans hend)⟩
  | failed rc message rest _ _ _ _ => rfl
  | undecodable c rest _ _ _ _ _ => rfl

theorem synchronized_of_consistent (hc : Consistent env w) (hw : Accounted env w) :
    Synchronized env w where
  keys id := by
    rw [OrderedMap.mem_keys_iff, OrderedMap.mem_keys_iff, hc.ops, Option.isSome_map]
  outstanding id := by rw [hc.ops, hc.outstanding]
  bound id r hr := by
    rcases Option.map_eq_some_iff.mp ((hc.ops id).symm.trans hr) with ⟨p, hp, rfl⟩
    rcases hc.bound id p hp with ⟨resp, hresp, hbound⟩
    have hopen : Ledger.outstanding (ledger w.trace) id = some p.ref := by
      rw [hc.outstanding, hp]
      rfl
    exact ⟨opened_mem_ledger.mp (hc.valid.opened_mem hopen), resp, hresp, hbound.reqid,
      hbound.unfinished⟩
  rejected call rounds answer hrejected := by
    have hsubmitted : Submitted env call rounds answer w _ := submit_submitted call rounds answer w
    generalize submit env call rounds answer w = x at hsubmitted
    cases hsubmitted with
    | @accepted args hconvert hpos _ =>
      rcases hrejected with hconversion | hneg
      · exact absurd hconvert (hconversion args)
      · exact absurd hneg (Int.not_lt.mpr hpos)
    | rejected x message hx => exact ⟨hx, rfl, rfl⟩
  interrupted message script := rfl
  found id c p hp := by rw [hc.ops, (Library.admits_eq_some hp).1]; rfl
  once r resp hresp hkind := by
    have htracked := hc.tracked r resp hresp
    have hcallbacks : w.trace.countP (Event.isCallback r) = if resp.finished then 1 else 0 := by
      rw [← htracked.finished, ← htracked.single hkind]
      exact htracked.callbacks
    cases hfin : resp.finished with
    | false => exact .inl ⟨(hc.in_table_iff hresp).mpr hfin, by rw [hcallbacks, hfin]; rfl⟩
    | true =>
      refine .inr ⟨fun id hid => ?_, by rw [hcallbacks, hfin]; rfl⟩
      have hopen := (hc.in_table_iff hresp).mp ⟨id, hid⟩
      rw [hfin] at hopen
      exact absurd hopen (by decide)
  waits r resp script hresp hkind := wait_ends hc hw hresp hkind script

/-- In every reachable state the table of operations agrees with the library. -/
theorem run_synchronized (env : Env Obj) (as : List Action) : Synchronized env (run env as) :=
  synchronized_of_consistent (run_consistent env as) (run_accounted env as)

/-- The response object is as it was, but for the entries that were taken since, which stood first
in its backlog, and the library has answered its request no further. -/
def Final (r : Ref) (resp : Response) (past : History) (w : World) : Prop :=
  ∃ taken backlog, history r w.trace = { past with taken := past.taken ++ taken } ∧
    resp.backlog = taken ++ backlog ∧ w.responses[r]? = some { resp with backlog }

section Final
variable {past : History} {w' : World}

theorem LoopStep.final (h : LoopStep env w w') (hw : Consistent env w)
    (hfin : resp.finished = true) (hfinal : Final r resp past w) : Final r resp past w' := by
  rcases hfinal with ⟨taken, backlog, hhistory, hbacklog, hresp⟩
  rcases h.extends hw hresp with ⟨resp', hresp', hext⟩
  obtain rfl := hext.finished hfin
  refine ⟨taken, backlog, ?_, hbacklog, hresp'⟩
  cases h with
  | heard message => exact hhistory
  | @delivered reqid p c hp hfits =>
    have hne : p.ref ≠ r := by
      rintro rfl
      rcases hw.bound reqid p hp with ⟨resp', hresp', hbound⟩
      obtain rfl := Option.some.inj (hresp'.symm.trans hresp)
      exact absurd (hfin.symm.trans hbound.unfinished) (by decide)
    rw [World.delivered, history_yielded, if_neg hne]
    exact hhistory

theorem SmallStep.final (h : SmallStep env w w') (hw : Consistent env w)
    (hfin : resp.finished = true) (hfinal : Final r resp past w) : Final r resp past w' := by
  cases h with
  | loop h => exact h.final hw hfin hfinal
  | register call hpos hfree =>
    rcases hfinal with ⟨taken, backlog, hhistory, hbacklog, hresp⟩
    have hr : r < w.responses.length := (List.getElem?_eq_some_iff.mp hresp).1
    refine ⟨taken, backlog, (history_submitted _ _ _ _).trans hhistory, hbacklog, ?_⟩
    rw [World.register, List.getElem?_append_left hr, hresp]
  | @read r' resp' _ _ _ =>
    rcases hfinal with ⟨taken, backlog, hhistory, hbacklog, hresp⟩
    have hmemory := encodeReturn_memoryOnly env resp' (w.log (.read r'))
    rcases hmemory.trace with ⟨es, hes, hsilent⟩
    have hread : history r (w.log (.read r')).trace = history r w.trace :=
      history_silent r _ (by simp [Event.Silent])
    refine ⟨taken, backlog, ?_, hbacklog, hmemory.responses ▸ hresp⟩
    rw [hes, history_silent r _ fun e he => (hsilent e he).1, hread]
    exact hhistory
  | @take r' resp' e rest hresp' hfirst =>
    rcases hfinal with ⟨taken, backlog, hhistory, hbacklog, hresp⟩
    by_cases hr : r' = r
    · subst hr
      obtain rfl := Option.some.inj (hresp'.symm.trans hresp)
      obtain rfl : backlog = e :: rest := hfirst
      refine ⟨taken ++ [e], rest, ?_, ?_, by simp [World.log, World.modify, hresp]⟩
      · rw [World.log, World.modify, history_taken, if_pos rfl, hhistory]
        simp only [List.append_assoc]
      · rw [hbacklog, List.append_assoc, List.singleton_append]
    · refine ⟨taken, backlog, ?_, hbacklog, ?_⟩
      · rw [World.log, World.modify, history_taken, if_neg hr]
        exact hhistory
      · simp [World.log, World.modify, List.getElem?_modify_ne _ _ hr, hresp]

end Final

/-- Once a request is finished nothing changes what it was answered, whatever happens later, also
when the library gives its identifier to another request. -/
theorem run_final (as bs : List Action) (hresp : (run env as).responses[r]? = some resp)
    (hfin : resp.finished = true) :
    Final r resp (history r (run env as).trace) (run env (as ++ bs)) := by
  have hkept := Machine.run_invariant (step env) (I := fun w => Consistent env w ∧
    Final r resp (history r (run env as).trace) w) ?_
    ⟨run_consistent env as, [], resp.backlog, by simp, rfl, hresp⟩ bs
  · rw [run_append]
    exact hkept.2
  · rintro a w ⟨hw, hfinal⟩
    exact Machine.steps_invariant (I := fun w => Consistent env w ∧ Final r resp _ w)
      (fun _ _ hstep ⟨hw, hfinal⟩ => ⟨hstep.consistent hw, hstep.final hw hfin hfinal⟩)
      (step_steps a hw) ⟨hw, hfinal⟩

/-- A `get` is answered, and its identifier is given to another one that fails. -/
theorem run_final_with_identifier_reused :
    ∃ resp, (run packedEnv [.submit getCall 0 (accepting 1),
        .loop [.yielded 1 ⟨.success, "", .attributes (recordOf 7)⟩]]).responses[0]? = some resp ∧
      Final 0 resp ⟨[⟨⟨.success, "", .attributes (recordOf 7)⟩, 0⟩], 1, 1, []⟩
        (run packedEnv ([.submit getCall 0 (accepting 1),
          .loop [.yielded 1 ⟨.success, "", .attributes (recordOf 7)⟩]] ++
          [.submit getCall 0 (accepting 1), .loop [.yielded 1 ⟨.timeout, "late", .none⟩]])) :=
  ⟨_, rfl, run_final _ _ rfl rfl⟩

end HyperDex.Client
