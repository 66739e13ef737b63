import HyperDex.Client.Recovery
import HyperDex.Client.Session

/-!
# Many requests at once

A program that has made several requests finishes them one after the other: it waits
on each Deferred and reads each Iterator to its end, in an order of its own. The library
answers in an order of its own too, and whichever call is running takes what comes. Each
request still comes to what its own events say.
-/
namespace HyperDex.Client
open General Ruby Conversion Decoding

variable {Obj : Type} (env : Env Obj)

/-- `d.wait`, or `entries << it.next while it.has_next?`. -/
def gatherOne (r : Ref) (w : World) (script : Script) : Returns × World × Script :=
  match w.kindOf r with
  | some .iterator =>
    let x := collect env r w script
    (.entries x.1, x.2)
  | _ =>
    let x := waitRest env r w script
    (.value x.1, x.2)

def gather : List Ref → World → Script → List Returns
  | [], _, _ => []
  | r :: rs, w, script =>
    let x := gatherOne env r w script
    x.1 :: gather rs x.2.1 x.2.2

/-- Nothing is different but what the response object has and what was read of it. -/
structure Near (r : Ref) (w w' : World) : Prop where
  crashed : w'.crashed = w.crashed
  outstanding : w'.lib.outstanding = w.lib.outstanding
  events : ∀ r', w'.events r' = w.events r'
  reads : ∀ r' ≠ r, reads r' w'.trace = reads r' w.trace
  responses : ∀ r' ≠ r, w'.responses[r']? = w.responses[r']?

/-- Results are taken, or the response object is read. -/
inductive GatherStep (r : Ref) : World × Script → World × Script → Prop where
  | served (w : World) (pre rest : Script) :
      GatherStep r (w, pre ++ rest) (w.serve env pre, rest)
  | own {w w' : World} (script : Script) : SmallSteps env w w' → Near r w w' →
      GatherStep r (w, script) (w', script)

abbrev GatherSteps (r : Ref) : World × Script → World × Script → Prop :=
  Relation.ReflTransGen (GatherStep env r)

/-- A state of a run, and good results of the library. -/
structure Good (s : World × Script) : Prop where
  sound : Sound env s.1
  crashed : s.1.crashed = false
  serves : Serves env s.1.lib.outstanding s.2

/-- A Deferred that has its answer, or gets it. -/
structure WaitsFor (r : Ref) (id : Int) (c : Completion) (s : World × Script) : Prop where
  kind : s.1.kindOf r = some .deferred
  owns : s.1.Owns id r
  unread : reads r s.1.trace = 0
  answer : ((s.1.events r).map Yield.toCompletion ++ eventsOf id s.2).head? = some c

/-- A search with these entries still to read. -/
structure Collects (r : Ref) (id : Int) (es : List Entry) (s : World × Script) : Prop where
  response : ∃ resp, s.1.responses[r]? = some resp ∧ resp.kind = .iterator ∧
    (resp.finished = true ∨ ∃ c ∈ eventsOf id s.2, c.status = .searchdone)
  owns : s.1.Owns id r
  entries : s.1.backlog r ++ itemsOf env (eventsOf id s.2) = es

section Frame
variable {env} {r r' : Ref} {id : Int} {s t : World × Script}

theorem GatherStep.good (h : GatherStep env r s t) (hs : Good env s) : Good env t := by
  cases h with
  | served w pre rest =>
    have hsteps := hs.serves.of_append.feeds.steps env
    exact ⟨LoopSteps.sound hsteps hs.sound, (LoopSteps.crashed hsteps).trans hs.crashed,
      hs.serves.after⟩
  | own script hsteps hnear =>
    refine ⟨SmallSteps.sound hsteps hs.sound, hnear.crashed.trans hs.crashed, ?_⟩
    rw [hnear.outstanding]
    exact hs.serves

theorem Near.owns {w w' : World} (h : Near r w w') (hown : w.Owns id r') : w'.Owns id r' := by
  intro id' p hp
  rw [h.outstanding] at hp
  exact hown id' p hp

/-- Taking results moves the events of a request from what is to come to what was there. -/
theorem Good.events_serve {w : World} {pre rest : Script} (h : Good env (w, pre ++ rest))
    (hown : w.Owns id r) :
    ((w.serve env pre).events r).map Yield.toCompletion ++ eventsOf id rest =
      (w.events r).map Yield.toCompletion ++ eventsOf id (pre ++ rest) := by
  rw [h.serves.of_append.feeds.events env hown, eventsOf_append, List.append_assoc]

theorem WaitsFor.served {c : Completion} {w : World} {pre rest : Script}
    (hs : Good env (w, pre ++ rest)) (hr : WaitsFor r id c (w, pre ++ rest)) :
    WaitsFor r id c (w.serve env pre, rest) := by
  have hsteps := hs.serves.of_append.feeds.steps env
  refine ⟨?_, hr.owns.serve pre, (LoopSteps.reads_eq hsteps r).trans hr.unread, ?_⟩
  · rcases kindOf_eq_some hr.kind with ⟨resp, hresp, hkind⟩
    rcases LoopSteps.extends hsteps hs.sound.consistent hresp with ⟨resp', hresp', hext⟩
    exact kindOf_of_response hresp' (hext.kind.trans hkind)
  · rw [hs.events_serve hr.owns]
    exact hr.answer

theorem WaitsFor.step {c : Completion} (h : GatherStep env r s t) (hs : Good env s) (hne : r' ≠ r)
    (hr : WaitsFor r' id c s) : WaitsFor r' id c t := by
  cases h with
  | served w pre rest => exact hr.served hs
  | @own w w' script hsteps hnear =>
    refine ⟨?_, hnear.owns hr.owns, (hnear.reads r' hne).trans hr.unread, ?_⟩
    · rw [World.kindOf, hnear.responses r' hne]
      exact hr.kind
    · rw [hnear.events r']
      exact hr.answer

theorem Collects.step {es : List Entry} (h : GatherStep env r s t) (hs : Good env s) (hne : r' ≠ r)
    (hr : Collects env r' id es s) : Collects env r' id es t := by
  rcases hr.response with ⟨resp, hresp, hkind, hend⟩
  cases h with
  | served w pre rest =>
    have hserves := hs.serves.of_append
    rcases hs.sound.consistent.search_served hresp hkind hr.owns hserves.feeds with
      ⟨resp', hresp', hkind', hbacklog, hfin⟩
    refine ⟨⟨resp', hresp', hkind', ?_⟩, hr.owns.serve pre, ?_⟩
    · rw [hfin, or_assoc, ← exists_or]
      simpa only [eventsOf_append, List.mem_append, or_and_right] using hend
    · have hentries := hr.entries
      rw [backlog_eq hresp, eventsOf_append, itemsOf, List.flatMap_append, ← List.append_assoc]
        at hentries
      rw [backlog_eq hresp', hbacklog]
      exact hentries
  | @own w w' script hsteps hnear =>
    refine ⟨⟨resp, (hnear.responses r' hne).trans hresp, hkind, hend⟩, hnear.owns hr.owns, ?_⟩
    rw [World.backlog, hnear.responses r' hne]
    exact hr.entries

theorem GatherSteps.good (h : GatherSteps env r s t) (hs : Good env s) : Good env t :=
  Machine.steps_invariant (fun _ _ => GatherStep.good) h hs

theorem WaitsFor.steps {c : Completion} (h : GatherSteps env r s t) (hs : Good env s)
    (hne : r' ≠ r) (hr : WaitsFor r' id c s) : WaitsFor r' id c t :=
  (Machine.steps_invariant (I := fun s => Good env s ∧ WaitsFor r' id c s)
    (fun _ _ hstep hs => ⟨hstep.good hs.1, hs.2.step hstep hs.1 hne⟩) h ⟨hs, hr⟩).2

theorem Collects.steps {es : List Entry} (h : GatherSteps env r s t) (hs : Good env s)
    (hne : r' ≠ r) (hr : Collects env r' id es s) : Collects env r' id es t :=
  (Machine.steps_invariant (I := fun s => Good env s ∧ Collects env r' id es s)
    (fun _ _ hstep hs => ⟨hstep.good hs.1, hs.2.step hstep hs.1 hne⟩) h ⟨hs, hr⟩).2

end Frame

section One
variable {env} {r : Ref} {id : Int} {w : World} {script : Script}

theorem near_read {resp : Response}
    (hcrashed : (encodeReturn env resp (w.log (.read r))).2.crashed = w.crashed) :
    Near r w (encodeReturn env resp (w.log (.read r))).2 := by
  have hmemory := encodeReturn_memoryOnly env resp (w.log (.read r))
  refine ⟨hcrashed, hmemory.outstanding, encodeReturn_events env resp w r, fun r' hr' => ?_,
    fun r' _ => ?_⟩
  · rw [encodeReturn_reads, if_neg (Ne.symm hr'), Nat.add_zero]
  · rw [hmemory.responses]
    rfl

theorem near_next (r : Ref) (w : World) : Near r w (next r w).2 := by
  have hunread := next_unread r w
  refine ⟨hunread.1, ?_, fun r' => next_events r r' w, fun r' _ => hunread.2 r', fun r' hr' => ?_⟩
  · rw [next]
    split
    · rfl
    · split <;> rfl
  · rw [next]
    split
    · rfl
    · split
      · rfl
      · simp [World.log, World.modify, Ne.symm hr']

theorem WaitsFor.done {c : Completion} {s : World × Script} (hs : Good env s)
    (hr : WaitsFor r id c s) : waitDone r s.1 = (s.1.events r).head?.isSome := by
  rcases kindOf_eq_some hr.kind with ⟨resp, hresp, hkind⟩
  rw [waitDone_eq hs.sound.consistent hresp, ← hs.sound.consistent.head_isSome hresp hkind]

theorem WaitsFor.waitRest {c : Completion} (hs : Good env (w, script))
    (hr : WaitsFor r id c (w, script)) : ∃ message t,
      waitRest env r w script = (c.value env message, t) ∧ GatherSteps env r (w, script) t := by
  have hdrained : Drained env (waitDone r) w script _ := loopUntil_drained (fun _ _ => rfl)
    (script.length + 1) script hs.sound.consistent hs.serves (Nat.lt_succ_self _)
  rw [Client.waitRest]
  generalize loopUntil env (waitDone r) (script.length + 1) w script = x at hdrained
  cases hdrained with
  | pending hopen =>
    rw [← List.append_nil script] at hs hr
    have hr' := hr.served hs
    have hs' := (GatherStep.served w script [] : GatherStep env r _ _).good hs
    have hanswer := hr'.answer
    rw [hr'.done hs'] at hopen
    simp only [eventsOf, List.filterMap_nil, List.append_nil, List.head?_map] at hanswer
    cases hhead : ((w.serve env script).events r).head? with
    | none => simp [hhead] at hanswer
    | some y => simp [hhead] at hopen
  | @returned pre rest hsplit hdone =>
    subst hsplit
    have hr' := hr.served hs
    have hs' := (GatherStep.served w pre rest : GatherStep env r _ _).good hs
    rcases kindOf_eq_some hr'.kind with ⟨resp, hresp, hkind⟩
    rw [waitDone_eq hs'.sound.consistent hresp] at hdone
    rcases hs'.sound.consistent.answered hresp hkind hdone with ⟨y, -, hy, -⟩
    have hanswer : y.toCompletion = c := by
      have hanswer := hr'.answer
      rw [World.events, hy] at hanswer
      simpa using hanswer
    rcases hs'.sound.first_read hresp hkind hdone hr'.unread hy hs'.crashed with ⟨hvalue, hsafe⟩
    refine ⟨(w.serve env pre).lib.message,
      ((encodeReturn env resp ((w.serve env pre).log (.read r))).2, rest), ?_, ?_⟩
    · simp only [Outcome.andThen, hresp, hvalue, ← hanswer]
      rfl
    · exact .head (.served w pre rest) (.single (.own rest (.single (.read hresp hkind hdone))
        (near_read (hsafe.trans hs'.crashed.symm))))

theorem Good.collectRounds (n : ℕ) (hs : Good env (w, script)) :
    GatherSteps env r (w, script) (collectRounds env r n w script).2 := by
  induction n generalizing w script with
  | zero => exact .refl
  | succ n ih =>
    have hdrained : Drained env (hasNextDone r) w script _ := loopUntil_drained (fun _ _ => rfl)
      (script.length + 1) script hs.sound.consistent hs.serves (Nat.lt_succ_self _)
    rw [Client.collectRounds, hasNextRest]
    generalize loopUntil env (hasNextDone r) (script.length + 1) w script = x at hdrained
    cases hdrained with
    | pending _ =>
      have hstep : GatherStep env r (w, script ++ []) _ := .served w script []
      rw [List.append_nil] at hstep
      exact .single hstep
    | @returned pre rest hsplit _ =>
      subst hsplit
      have hstep : GatherStep env r (w, pre ++ rest) _ := .served w pre rest
      have hs' := hstep.good hs
      simp only [Outcome.andThen]
      split
      · have hnext : GatherStep env r (w.serve env pre, rest) ((next r (w.serve env pre)).2, rest) :=
          .own rest (next_steps r _) (near_next r _)
        have hrest := ih (hnext.good hs')
        refine (Relation.ReflTransGen.head hstep (.head hnext ?_))
        exact Outcome.andThen_state (I := fun s => GatherSteps env r _ s) hrest fun _ _ h => h
      · exact .single hstep

theorem Collects.collect {es : List Entry} (hs : Good env (w, script))
    (hr : Collects env r id es (w, script)) : ∃ t,
      collect env r w script = (.returned es, t) ∧ GatherSteps env r (w, script) t := by
  rcases hr.response with ⟨resp, hresp, hkind, hend⟩
  have hvalue := hs.sound.collectRounds ((w.backlog r).length + script.length + 1) hresp hkind
    hr.owns hs.serves hend (by rw [backlog_eq hresp]; exact Nat.lt_succ_self _)
  rw [← backlog_eq hresp, hr.entries] at hvalue
  exact ⟨_, Prod.ext hvalue rfl, hs.collectRounds _⟩

end One

inductive Due where
  | answer (id : Int) (c : Completion)
  | entries (id : Int) (es : List Entry)

def Due.Holds (r : Ref) (s : World × Script) : Due → Prop
  | .answer id c => WaitsFor r id c s
  | .entries id es => Collects env r id es s

/-- The message of an exception is whatever the library said last. -/
def Due.Comes (x : Returns) : Due → Prop
  | .answer _ c => ∃ message, x = .value (c.value env message)
  | .entries _ es => x = .entries (.returned es)

section All
variable {env} {w : World} {script : Script}

theorem Due.Holds.one {r : Ref} {due : Due} (hs : Good env (w, script))
    (h : due.Holds env r (w, script)) : due.Comes env (gatherOne env r w script).1 ∧
      GatherSteps env r (w, script) (gatherOne env r w script).2 := by
  cases due with
  | answer id c =>
    have hkind : w.kindOf r = some .deferred := h.kind
    rcases WaitsFor.waitRest hs h with ⟨message, t, hwait, hsteps⟩
    simp only [gatherOne, hkind, hwait]
    exact ⟨⟨message, rfl⟩, hsteps⟩
  | entries id es =>
    rcases h.response with ⟨resp, hresp, hkind, -⟩
    have hkindOf : w.kindOf r = some .iterator := kindOf_of_response hresp hkind
    rcases Collects.collect hs h with ⟨t, hcollect, hsteps⟩
    simp only [gatherOne, hkindOf, hcollect]
    exact ⟨rfl, hsteps⟩

theorem Due.Holds.steps {r r' : Ref} {due : Due} {s t : World × Script}
    (h : GatherSteps env r s t) (hs : Good env s) (hne : r' ≠ r) (hdue : due.Holds env r' s) :
    due.Holds env r' t := by
  cases due with
  | answer id c => exact WaitsFor.steps h hs hne hdue
  | entries id es => exact Collects.steps h hs hne hdue

/-- Each request comes to what it is due, whichever are finished before it. -/
theorem Good.gather {α : Type} (ref : α → Ref) {qs : List α} {Q : α → Returns → Prop}
    (hs : Good env (w, script)) (hrefs : (qs.map ref).Nodup)
    (h : ∀ q ∈ qs, ∃ due : Due, due.Holds env (ref q) (w, script) ∧
      ∀ x, due.Comes env x → Q q x) :
    List.Forall₂ Q qs (gather env (qs.map ref) w script) := by
  induction qs generalizing w script with
  | nil => exact .nil
  | cons q qs ih =>
    rw [List.map_cons, List.nodup_cons] at hrefs
    rw [List.forall_mem_cons] at h
    rcases h.1 with ⟨due, hdue, hcomes⟩
    rcases hdue.one hs with ⟨hone, hsteps⟩
    refine .cons (hcomes _ hone) (ih (GatherSteps.good hsteps hs) hrefs.2 fun q' hq' => ?_)
    rcases h.2 q' hq' with ⟨due', hdue', hcomes'⟩
    have hne : ref q' ≠ ref q := fun heq => hrefs.1 (heq ▸ List.mem_map_of_mem hq')
    exact ⟨due', hdue'.steps hsteps hs hne, hcomes'⟩

end All

def Kind.Ended : Kind → List Completion → Prop
  | .deferred, cs => cs ≠ []
  | .iterator, cs => ∃ c ∈ cs, c.status = .searchdone

/-- What an outstanding request comes to, given its further events. The message of an exception is
what the library said last. -/
def Pending.ComesTo (p : Pending) (w : World) (cs : List Completion) (x : Returns) : Prop :=
  match p.kind with
  | .deferred => ∃ c message, cs.head? = some c ∧ x = .value (c.value env message)
  | .iterator => x = .entries (.returned (w.backlog p.ref ++ itemsOf env cs))

variable {env}

theorem Good.due {w : World} {script : Script} (hs : Good env (w, script)) {id : Int} {p : Pending}
    (hp : w.lib.outstanding.lookup id = some p) (hended : p.kind.Ended (eventsOf id script)) :
    ∃ due : Due, due.Holds env p.ref (w, script) ∧
      ∀ x, due.Comes env x → p.ComesTo env w (eventsOf id script) x := by
  rcases hs.sound.consistent.bound id p hp with ⟨resp, hresp, hbound⟩
  have hown := hs.sound.consistent.owns hp
  cases hkind : p.kind with
  | deferred =>
    rw [hkind] at hended
    rcases List.exists_cons_of_ne_nil hended with ⟨c, cs, hcs⟩
    have hdeferred : resp.kind = .deferred := hbound.kind.trans hkind
    have hwaits : WaitsFor p.ref id c (w, script) := by
      refine ⟨kindOf_of_response hresp hdeferred, hown,
        hs.sound.accounted.reads_eq_zero hresp hbound.unfinished, ?_⟩
      rw [hs.sound.consistent.events_of_pending hp hkind, hcs]
      rfl
    refine ⟨.answer id c, hwaits, ?_⟩
    rintro x ⟨message, rfl⟩
    rw [Pending.ComesTo, hkind]
    exact ⟨c, message, by rw [hcs]; rfl, rfl⟩
  | iterator =>
    rw [hkind] at hended
    have hcollects : Collects env p.ref id (w.backlog p.ref ++ itemsOf env (eventsOf id script))
        (w, script) := ⟨⟨resp, hresp, hbound.kind.trans hkind, .inr hended⟩, hown, rfl⟩
    refine ⟨.entries id _, hcollects, ?_⟩
    rintro x rfl
    rw [Pending.ComesTo, hkind]

/-- From every reachable state on, a program that finishes outstanding requests one after the other,
in any order, while the library answers in any order, gets from each Deferred what its own answer
stands for and from each Iterator its backlog and an entry for each of its own further events. -/
theorem gather_answered (as : List Action) (hcrashed : (run env as).crashed = false)
    {script : Script} (hserves : Serves env (run env as).lib.outstanding script)
    {ps : List (Int × Pending)} (hids : (ps.map Prod.fst).Nodup)
    (hps : ∀ q ∈ ps, (run env as).lib.outstanding.lookup q.1 = some q.2 ∧
      q.2.kind.Ended (eventsOf q.1 script)) :
    List.Forall₂ (fun q => q.2.ComesTo env (run env as) (eventsOf q.1 script)) ps
      (gather env (ps.map fun q => q.2.ref) (run env as) script) := by
  have hs : Good env (run env as, script) := ⟨run_sound env as, hcrashed, hserves⟩
  have hrefs : (ps.map fun q => q.2.ref).Nodup := by
    rw [List.Nodup, List.pairwise_map] at hids ⊢
    refine hids.imp_of_mem fun {q q'} hq hq' hne href => hne ?_
    exact hs.sound.consistent.separate q.1 q'.1 q.2 q'.2 (hps q hq).1 (hps q' hq').1 href
  exact hs.gather (fun q => q.2.ref) hrefs fun q hq => hs.due (hps q hq).1 (hps q hq).2

def threeRequests : List Action :=
  [.submit searchCall 0 (accepting 1), .submit getCall 0 (accepting 2),
    .submit getCall 0 (accepting 3)]

def threeAnswers : Script :=
  [.yielded 3 ⟨.notfound, "", .none⟩, .yielded 1 ⟨.success, "", .attributes (recordOf 7)⟩,
    .yielded 2 ⟨.timeout, "late", .none⟩, .yielded 1 ⟨.searchdone, "", .none⟩]

def getPending (r : Ref) : Pending := ⟨r, .deferred, .attributes, fun h => by cases h⟩

def searchPending : Pending := ⟨0, .iterator, .attributes, fun _ => rfl⟩

theorem threeAnswers_serves :
    Serves packedEnv (run packedEnv threeRequests).lib.outstanding threeAnswers := by
  have hget (r : Ref) (c : Completion) (h : (getPending r).kind = .iterator) :
      ∃ es, c.items packedEnv = .ok es := by cases h
  exact ⟨getPending 2, rfl, by decide, hget 2 _, searchPending, rfl, by decide,
    fun _ => ⟨_, rfl⟩, getPending 1, rfl, by decide, hget 1 _, searchPending, rfl, by decide,
    fun _ => ⟨_, rfl⟩, trivial⟩

theorem gather_answered_threeRequests :
    List.Forall₂ (fun q => q.2.ComesTo packedEnv (run packedEnv threeRequests)
        (eventsOf q.1 threeAnswers))
      [(2, getPending 1), (1, searchPending), (3, getPending 2)]
      (gather packedEnv [1, 0, 2] (run packedEnv threeRequests) threeAnswers) := by
  refine gather_answered threeRequests rfl threeAnswers_serves (by decide) ?_
  simp only [List.forall_mem_cons, List.not_mem_nil, false_imp_iff, implies_true, and_true]
  exact ⟨⟨rfl, by simp [threeAnswers, Kind.Ended, getPending]⟩,
    ⟨rfl, ⟨.searchdone, "", .none⟩, by simp [threeAnswers], rfl⟩,
    ⟨rfl, by simp [threeAnswers, Kind.Ended, getPending]⟩⟩

end HyperDex.Client
