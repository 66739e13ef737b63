import HyperDex.Client.Talk
import HyperDex.General.Linearization

/-!
# Clients that share a store

Several clients have requests open at the store at once. The store executes a request at
some moment between the call of its method and the answer of the library, and the answer
reaches the Deferred through whichever call takes it from the library. What the waits
return is what a store of Ruby hashes answers to the methods in one common order, which
keeps to the order of methods that do not overlap.
-/
namespace HyperDex.Client
open General Ruby Conversion Decoding ObjectStore Linearization

variable {Obj V : Type} {env : Env Obj}

/-- The results of the library that a method call takes. -/
def Action.script : Action → Script
  | .loop script | .wait _ script | .hasNext _ script => script
  | .submit .. | .next _ => []

/-- Further events are results of the library for requests that were outstanding. -/
structure AnsweredFrom (w : World) (script : Script) (w' : World) : Prop where
  outstanding : ∀ id p, w'.lib.outstanding.lookup id = some p →
    w.lib.outstanding.lookup id = some p
  events : ∀ r y, y ∈ w'.events r → y ∈ w.events r ∨ ∃ id p,
    w.lib.outstanding.lookup id = some p ∧ p.ref = r ∧ .yielded id y.toCompletion ∈ script

section Answered
variable {w w' : World} {script rest : Script}

theorem AnsweredFrom.refl (w : World) (script : Script) : AnsweredFrom w script w :=
  ⟨fun _ _ h => h, fun _ _ h => .inl h⟩

theorem AnsweredFrom.hear (w : World) (script : Script) (message : String) :
    AnsweredFrom w script (w.hear message) :=
  ⟨fun _ _ h => h, fun _ _ h => .inl h⟩

theorem AnsweredFrom.trans {w'' : World} (h : AnsweredFrom w script w')
    (h' : AnsweredFrom w' rest w'') (hsub : rest ⊆ script) : AnsweredFrom w script w'' := by
  refine ⟨fun id p hp => h.outstanding id p (h'.outstanding id p hp), fun r y hy => ?_⟩
  rcases h'.events r y hy with hold | ⟨id, p, hp, href, hmem⟩
  · exact h.events r y hold
  · exact .inr ⟨id, p, h.outstanding id p hp, href, hsub hmem⟩

theorem AnsweredFrom.delivered {reqid : Int} {p : Pending} {c : Completion}
    (hp : w.lib.outstanding.lookup reqid = some p) (hmem : .yielded reqid c ∈ script) :
    AnsweredFrom w script (w.delivered env reqid p (c.place w.lib.arrays.length)) := by
  constructor
  · intro id q hq
    simp only [World.delivered] at hq
    split_ifs at hq
    · rw [OrderedMap.lookup_erase] at hq
      split_ifs at hq
      exact hq
    · exact hq
  · intro r y hy
    rw [events_delivered] at hy
    split_ifs at hy with href
    · rcases List.mem_append.mp hy with hy | hy
      · exact .inl hy
      · obtain rfl := List.mem_singleton.mp hy
        exact .inr ⟨reqid, p, hp, href, hmem⟩
    · exact .inl hy

theorem Looped.answeredFrom {x : Outcome Exn Ref × World × Script}
    (h : Looped env w script x) : AnsweredFrom w script x.2.1 := by
  cases h with
  | pending message rest => exact .hear w script message
  | failed rc message rest _ _ => exact .hear w script message
  | delivered c rest hmem hp _ _ _ => exact .delivered hp hmem

theorem loopUntil_answeredFrom (done : World → Bool) (n : ℕ) (hw : Consistent env w) :
    AnsweredFrom w script (loopUntil env done n w script).2.1 := by
  induction n generalizing w script with
  | zero => exact .refl w script
  | succ n ih =>
    rw [loopUntil]
    split
    · exact .refl w script
    · have hlooped := clientLoop_looped script w hw
      have hanswered := hlooped.answeredFrom
      have hw' := LoopSteps.consistent hlooped.steps hw
      generalize clientLoop env script w = x at hlooped hanswered hw'
      cases hlooped with
      | pending message rest => exact hanswered
      | failed rc message rest _ _ => exact hanswered
      | @delivered reqid p c rest _ _ _ hsub _ =>
        rw [Pending.outcome]
        cases p.kind.decodingError env (c.place w.lib.arrays.length) with
        | some e => exact hanswered
        | none => exact hanswered.trans (ih hw') hsub

theorem wait_answeredFrom (r : Ref) (hw : Consistent env w) :
    AnsweredFrom w script (wait env r script w).2 := by
  have hloop : AnsweredFrom w script (waitLoop env r script w).2.1 := loopUntil_answeredFrom _ _ hw
  rw [wait]
  refine Outcome.andThen_state (I := AnsweredFrom w script) hloop fun _ w' hw' => ?_
  split
  · exact hw'
  · next resp _ =>
    have hmemory := encodeReturn_memoryOnly env resp (w'.log (.read r))
    refine ⟨fun id p hp => hw'.outstanding id p ?_, fun r' y hy => hw'.events r' y ?_⟩
    · rwa [hmemory.outstanding] at hp
    · rwa [encodeReturn_events] at hy

theorem hasNext_answeredFrom (r : Ref) (hw : Consistent env w) :
    AnsweredFrom w script (hasNext env r script w).2 := by
  have hloop : AnsweredFrom w script
      (loopUntil env (hasNextDone r) (script.length + 1) w script).2.1 :=
    loopUntil_answeredFrom _ _ hw
  rw [hasNext]
  refine Outcome.andThen_state (I := AnsweredFrom w script) hloop fun _ w' hw' => ?_
  split <;> exact hw'

theorem submit_events (call : Call) (rounds : ℕ) (answer : SubmissionAnswer) (w : World) (r : Ref) :
    (submit env call rounds answer w).2.events r = w.events r := by
  have hsubmitted : Submitted env call rounds answer w _ := submit_submitted call rounds answer w
  generalize submit env call rounds answer w = x at hsubmitted
  cases hsubmitted with
  | accepted _ _ _ =>
    simp only [World.events, World.register, history_submitted]
    rfl
  | rejected x message _ => rfl

/-- Every event that a method call adds is a result that the library gave it. -/
theorem act_events (a : Action) (hw : Consistent env w) {r : Ref} {y : Yield}
    (hy : y ∈ (act env a w).2.events r) : y ∈ w.events r ∨ ∃ id p,
      w.lib.outstanding.lookup id = some p ∧ p.ref = r ∧ .yielded id y.toCompletion ∈ a.script := by
  cases a with
  | submit call rounds answer =>
    have hact : (act env (.submit call rounds answer) w).2.events r = w.events r :=
      Outcome.andThen_state (I := fun s : World => s.events r = w.events r)
        (submit_events call rounds answer w r) fun _ _ h => h
    exact .inl (hact ▸ hy)
  | loop script =>
    exact (Outcome.andThen_state (I := AnsweredFrom w script)
      (x := ((clientLoop env script w).1, (clientLoop env script w).2.1))
      (clientLoop_looped script w hw).answeredFrom fun _ _ h => h).events r y hy
  | wait r' script =>
    rw [act] at hy
    split at hy
    · exact (Outcome.andThen_state (I := AnsweredFrom w script) (wait_answeredFrom r' hw)
        fun _ _ h => h).events r y hy
    · exact .inl hy
  | hasNext r' script =>
    rw [act] at hy
    split at hy
    · exact (Outcome.andThen_state (I := AnsweredFrom w script) (hasNext_answeredFrom r' hw)
        fun _ _ h => h).events r y hy
    · exact .inl hy
  | next r' =>
    rw [act] at hy
    split at hy
    · rw [next_events] at hy
      exact .inl hy
    · exact .inl hy

theorem step_events (a : Action) (hw : Consistent env w) {r : Ref} {y : Yield}
    (hy : y ∈ (step env a w).events r) : y ∈ w.events r ∨ ∃ id p,
      w.lib.outstanding.lookup id = some p ∧ p.ref = r ∧ .yielded id y.toCompletion ∈ a.script := by
  rw [step, perform] at hy
  split at hy
  · exact .inl hy
  · exact act_events a hw hy

/-- A wait that returns a value returns what the one answer of its request stands for. -/
theorem Sound.wait_returned (hw : Sound env w) {r : Ref} {resp : Response}
    (hresp : w.responses[r]? = some resp) (hkind : resp.kind = .deferred) {v : Value}
    (hv : (wait env r script w).1 = .returned v) :
    ∃ y message, y ∈ (wait env r script w).2.events r ∧ y.value env message = .returned v := by
  have hwaited := wait_waited script hw.consistent hresp
  generalize wait env r script w = x at hwaited hv
  cases hwaited with
  | @read w' resp' hsteps hresp' hfin =>
    have hw' := LoopSteps.sound hsteps hw
    have hext := LoopSteps.extends_of_response hsteps hw.consistent hresp hresp'
    rcases hw'.accounted.reading hw'.consistent hresp' (hext.kind.trans hkind) hfin with
      ⟨y, hy, hreading⟩
    rcases (hw'.consistent.tracked r resp' hresp').outputs with ⟨outputs, -, -, hfits⟩
    have hstatus {attrs : List Attribute} (houtput : y.output = .attributes attrs) :=
      (hfits y (by simp [hy])).success houtput
    refine ⟨y, (w'.log (.read r)).lib.message, ?_, ?_⟩
    · rw [encodeReturn_events, World.events, hy]
      exact List.mem_singleton_self y
    · generalize encodeReturn env resp' (w'.log (.read r)) = x at hreading hv
      cases hreading with
      | cells _ => exact hv
      | undecodable _ _ _ => simp at hv
      | decoded houtput hencode _ => simpa [Yield.value, houtput, hstatus houtput, hencode] using hv
      | freed _ _ _ => simp at hv
  | pending _ _ _ => simp at hv
  | failed _ _ _ _ _ => simp at hv
  | undecodable _ _ _ _ _ => simp at hv

theorem perform_wait_returned (hw : Sound env w) {r : Ref} {v : Value}
    (hv : (perform env (.wait r script) w).1 = .returned (.value v)) :
    ∃ y message, y ∈ (step env (.wait r script) w).events r ∧ y.value env message = .returned v := by
  rw [step]
  rw [perform] at hv ⊢
  split at hv
  · simp at hv
  · rw [if_neg ‹_›]
    rw [act] at hv ⊢
    split at hv
    · next hkind =>
      rcases kindOf_eq_some hkind with ⟨resp, hresp, hdeferred⟩
      have hreturned (h : (wait env r script w).1 = .returned v) :=
        hw.wait_returned hresp hdeferred h
      generalize wait env r script w = x at hv hreturned ⊢
      rcases x with ⟨x, w'⟩
      cases x with
      | returned v' =>
        obtain rfl : v' = v := by simpa [Outcome.andThen] using hv
        exact hreturned rfl
      | _ => simp [Outcome.andThen] at hv
    · simp at hv

/-- The value of a reported answer does not depend on the error message. -/
theorem Reported.value_of_returned {reply : Reply Record} {y : Yield}
    (h : Reported reply y.toCompletion) {message : String} {v : Value}
    (hv : y.value env message = .returned v) :
    y.toCompletion.value env y.message = .returned v := by
  rcases y with ⟨⟨status, message', output⟩, address⟩
  cases h with
  | refused _ herror =>
    rw [value_of_error herror] at hv
    exact nomatch hv
  | _ => exact hv

end Answered

/-- A request for a method, as the store gets it. -/
structure Request where
  method : Method
  op : Op Modification (List Bytes) (List Attribute) (List AttributeCheck)
  place : Bytes × Bytes
  /-- the answer of the store, when it has executed the request -/
  reply : Option (Reply Record)

/-- The clients, the requests of their response objects, and the records. -/
structure Shared (κ : Type) where
  worlds : κ → World
  requests : κ × Ref → Option Request
  records : Records

variable {κ : Type} [DecidableEq κ]

omit [DecidableEq κ] in
def Shared.initial (records : Records) : Shared κ := ⟨fun _ => .initial, fun _ => none, records⟩

def Shared.setWorld (s : Shared κ) (k : κ) (w : World) : Shared κ :=
  { s with worlds := Function.update s.worlds k w }

def Shared.setRequest (s : Shared κ) (i : κ × Ref) (req : Request) : Shared κ :=
  { s with requests := Function.update s.requests i (some req) }

/-- To a request of a method the library reports the answer that the store has given, or an
error. -/
def Shared.Reports (s : Shared κ) (k : κ) (script : Script) : Prop :=
  ∀ id c p req, .yielded id c ∈ script → (s.worlds k).lib.outstanding.lookup id = some p →
    s.requests (k, p.ref) = some req →
    c.status.IsError ∨ ∃ reply, req.reply = some reply ∧ Reported reply c

variable (env) in
/-- The value that a wait on a request of a method returns is seen. -/
def Shared.seen (s : Shared κ) (k : κ) : Action → List (Moment (κ × Ref) Method Value)
  | .wait r script =>
    match (perform env (.wait r script) (s.worlds k)).1 with
    | .returned (.value v) => if (s.requests (k, r)).isSome then [.returned (k, r) v] else []
    | _ => []
  | _ => []

@[simp] theorem Shared.setWorld_self (s : Shared κ) (k : κ) (w : World) :
    (s.setWorld k w).worlds k = w := by
  simp [Shared.setWorld]

@[simp] theorem Shared.setWorld_of_ne (s : Shared κ) {k k' : κ} (h : k' ≠ k) (w : World) :
    (s.setWorld k w).worlds k' = s.worlds k' := by
  simp [Shared.setWorld, h]

@[simp] theorem Shared.setRequest_self (s : Shared κ) (i : κ × Ref) (req : Request) :
    (s.setRequest i req).requests i = some req := Function.update_self i _ s.requests

@[simp] theorem Shared.setRequest_of_ne (s : Shared κ) {i j : κ × Ref} (h : j ≠ i) (req : Request) :
    (s.setRequest i req).requests j = s.requests j := Function.update_of_ne h _ s.requests

omit [DecidableEq κ] in
theorem Shared.seen_cases (s : Shared κ) (k : κ) (a : Action) (hw : Sound env (s.worlds k)) :
    s.seen env k a = [] ∨ ∃ r v req y message, s.seen env k a = [.returned (k, r) v] ∧
      s.requests (k, r) = some req ∧ y ∈ (step env a (s.worlds k)).events r ∧
      y.value env message = .returned v := by
  cases a with
  | wait r script =>
    rw [Shared.seen]
    split
    · next v hv =>
      split
      · next hreq =>
        rcases Option.isSome_iff_exists.mp hreq with ⟨req, hreq⟩
        rcases perform_wait_returned hw hv with ⟨y, message, hy, hvalue⟩
        exact .inr ⟨r, v, req, y, message, rfl, hreq, hy, hvalue⟩
      · exact .inl rfl
    · exact .inl rfl
  | _ => exact .inl rfl

/-- A client calls a method and gets a Deferred, the store executes a request, or a client does
anything else; what it asks for besides the methods leaves the records as they are. -/
inductive SharedStep (schema : Schema env V) (s : Shared κ) :
    List (Moment (κ × Ref) Method Value) → Shared κ → Prop where
  | call (k : κ) {m : Method} {args : List Argument}
      {op : Op Modification (List Bytes) (List Attribute) (List AttributeCheck)}
      {place : Bytes × Bytes} {answer : SubmissionAnswer} : (s.worlds k).crashed = false →
      m.call.convert env.ds 0 = .returned args → m.received args = some (op, place) →
      0 ≤ answer.reqid → (s.worlds k).lib.outstanding.lookup answer.reqid = none →
      SharedStep schema s [.called (k, (s.worlds k).responses.length) m]
        ((s.setWorld k (step env (.submit m.call 0 answer) (s.worlds k))).setRequest
          (k, (s.worlds k).responses.length) ⟨m, op, place, none⟩)
  | execute {i : κ × Ref} {req : Request} : s.requests i = some req → req.reply = none →
      SharedStep schema s []
        { s.setRequest i
            { req with reply := some (schema.records.serve req.op req.place s.records).1 } with
          records := (schema.records.serve req.op req.place s.records).2 }
  | act (k : κ) {a : Action} : s.Reports k a.script →
      SharedStep schema s (s.seen env k a) (s.setWorld k (step env a (s.worlds k)))

/-- A run of new clients over some records, with what is seen of it. -/
inductive SharedRun (schema : Schema env V) (records : Records) :
    List (Moment (κ × Ref) Method Value) → Shared κ → Prop where
  | start : SharedRun schema records [] (.initial records)
  | step {history seen : List (Moment (κ × Ref) Method Value)} {s s' : Shared κ} :
      SharedRun schema records history s → SharedStep schema s seen s' →
      SharedRun schema records (history ++ seen) s'

/-- The requests with their methods, and the answers of the store. -/
def Shared.handled {κ : Type} (s : Shared κ) (i : κ × Ref) :
    Option (Method × Option (Reply Record)) :=
  (s.requests i).map fun req => (req.method, req.reply)

theorem Shared.handled_setRequest (s : Shared κ) (i : κ × Ref) (req : Request) :
    (s.setRequest i req).handled = Function.update s.handled i (some (req.method, req.reply)) := by
  funext j
  rw [Shared.handled]
  by_cases hj : j = i
  · subst hj
    rw [Shared.setRequest_self, Function.update_self]
    rfl
  · rw [Shared.setRequest_of_ne s hj, Function.update_of_ne hj]
    rfl

omit [DecidableEq κ] in
theorem Shared.handled_of_request {s : Shared κ} {i : κ × Ref} {req : Request}
    (h : s.requests i = some req) : s.handled i = some (req.method, req.reply) := by
  rw [Shared.handled, h]
  rfl

/-- The requests of the clients, the records and what was seen go with an order in which the store
has executed the methods. -/
structure Coherent (schema : Schema env V) (os : Objects) (s : Shared κ)
    (history : List (Moment (κ × Ref) Method Value)) (order : List ((κ × Ref) × Method)) :
    Prop where
  sound : ∀ k, Sound env (s.worlds k)
  deferred : ∀ i m, .called i m ∈ history → (s.worlds i.1).kindOf i.2 = some .deferred
  received : ∀ i req, s.requests i = some req → ∃ args,
    req.method.call.convert env.ds 0 = .returned args ∧
      req.method.received args = some (req.op, req.place)
  reported : ∀ i req y, s.requests i = some req → y ∈ (s.worlds i.1).events i.2 →
    y.status.IsError ∨ ∃ reply, req.reply = some reply ∧ Reported reply y.toCompletion
  handles : Handles schema.serveObjects (fun reply v => Shows env reply (.returned v)) os
    (Agree (SamePlace schema) (Keeps env)) (fun _ reply answer => reply.Related (Keeps env) answer)
    s.handled s.records history order

section Invariant
variable {schema : Schema env V} {records : Records} {os : Objects} {s : Shared κ}
  {history : List (Moment (κ × Ref) Method Value)} {order : List ((κ × Ref) × Method)}

omit [DecidableEq κ] in
theorem coherent_initial (hagree : Agree (SamePlace schema) (Keeps env) records os) :
    Coherent schema os (Shared.initial records : Shared κ) [] [] where
  sound _ := run_sound env []
  deferred i m h := by simp at h
  received i req h := by simp [Shared.initial] at h
  reported i req y h := by simp [Shared.initial] at h
  handles := handles_start hagree

theorem Coherent.kindOf (h : Coherent schema os s history order) (k : κ) {w : World}
    (hw : (s.worlds k).Continues w) {i : κ × Ref} {m : Method} (hi : .called i m ∈ history) :
    ((s.setWorld k w).worlds i.1).kindOf i.2 = some .deferred := by
  have hkind := h.deferred i m hi
  by_cases hk : i.1 = k
  · subst hk
    rw [Shared.setWorld_self]
    exact hw.kindOf _ _ hkind
  · rwa [Shared.setWorld_of_ne s hk]

omit [DecidableEq κ] in
theorem Coherent.fresh (h : Coherent schema os s history order) (k : κ) (m : Method) :
    .called (k, (s.worlds k).responses.length) m ∉ history := by
  intro hcalled
  have hkind := h.deferred _ m hcalled
  simp [World.kindOf] at hkind

theorem Coherent.sound_setWorld (h : Coherent schema os s history order) {k : κ} {w : World}
    (hw : Sound env w) (k' : κ) : Sound env ((s.setWorld k w).worlds k') := by
  by_cases hk : k' = k
  · subst hk
    rwa [Shared.setWorld_self]
  · rw [Shared.setWorld_of_ne s hk]
    exact h.sound k'

theorem Coherent.call (h : Coherent schema os s history order) (k : κ) {m : Method}
    {args : List Argument} {op : Op Modification (List Bytes) (List Attribute) (List AttributeCheck)}
    {place : Bytes × Bytes} {answer : SubmissionAnswer} (hcrashed : (s.worlds k).crashed = false)
    (hconvert : m.call.convert env.ds 0 = .returned args)
    (hreceived : m.received args = some (op, place)) (hpos : 0 ≤ answer.reqid)
    (hfree : (s.worlds k).lib.outstanding.lookup answer.reqid = none) :
    Coherent schema os
      ((s.setWorld k (step env (.submit m.call 0 answer) (s.worlds k))).setRequest
        (k, (s.worlds k).responses.length) ⟨m, op, place, none⟩)
      (history ++ [.called (k, (s.worlds k).responses.length) m]) order := by
  have hstep := step_submit_accepted hcrashed hconvert hpos hfree
  have hcontinues : (s.worlds k).Continues (step env (.submit m.call 0 answer) (s.worlds k)) :=
    SmallSteps.continues (step_steps _ (h.sound k).consistent) (h.sound k).consistent
  have hsame (k' : κ) (r : Ref) : ((s.setWorld k (step env (.submit m.call 0 answer)
      (s.worlds k))).worlds k').events r = (s.worlds k').events r := by
    by_cases hk : k' = k
    · subst hk
      rw [Shared.setWorld_self, hstep, ← submit_events m.call 0 answer (s.worlds k') r,
        submit_accepted hconvert hpos hfree]
    · rw [Shared.setWorld_of_ne s hk]
  have hnone : (s.worlds k).events (s.worlds k).responses.length = [] := by
    rw [World.events, history_fresh (h.sound k).consistent.ref_ne]
  refine ⟨?_, ?_, ?_, ?_, ?_⟩
  · exact h.sound_setWorld ((h.sound k).step _)
  · intro i m' hi
    rcases List.mem_append.mp hi with hi | hi
    · exact h.kindOf k hcontinues hi
    · obtain ⟨rfl, rfl⟩ : i = (k, (s.worlds k).responses.length) ∧ m' = m := by simpa using hi
      simp [Shared.setRequest, hstep, World.kindOf, World.register, World.hear, Response.accept,
        Response.new, m'.call_kind]
  · intro i req hreq
    by_cases hi : i = (k, (s.worlds k).responses.length)
    · subst hi
      obtain rfl := Option.some.inj ((Shared.setRequest_self _ _ _).symm.trans hreq)
      exact ⟨args, hconvert, hreceived⟩
    · rw [Shared.setRequest_of_ne _ hi] at hreq
      exact h.received i req hreq
  · intro i req y hreq hy
    change y ∈ ((s.setWorld k _).worlds i.1).events i.2 at hy
    rw [hsame] at hy
    by_cases hi : i = (k, (s.worlds k).responses.length)
    · subst hi
      simp [hnone] at hy
    · rw [Shared.setRequest_of_ne _ hi] at hreq
      exact h.reported i req y hreq hy
  · rw [Shared.handled_setRequest]
    exact h.handles.call m (h.fresh k)

theorem Coherent.execute (h : Coherent schema os s history order) (hds : env.ds.Lawful)
    (hm : ∀ i m, .called i m ∈ history → m.WellTyped schema) {i : κ × Ref} {req : Request}
    (hreq : s.requests i = some req) (hwaiting : req.reply = none) :
    Coherent schema os
      { s.setRequest i
          { req with reply := some (schema.records.serve req.op req.place s.records).1 } with
        records := (schema.records.serve req.op req.place s.records).2 }
      history (order ++ [(i, req.method)]) := by
  have hhandled : s.handled i = some (req.method, none) :=
    hwaiting ▸ Shared.handled_of_request hreq
  rcases h.received i req hreq with ⟨args, hconvert, hreceived⟩
  obtain ⟨args', op, place, hconvert', hreceived', hplace, hop⟩ :=
    (hm i req.method (h.handles.called i req.method none hhandled)).converted hds
  obtain rfl := Outcome.returned.inj (hconvert.symm.trans hconvert')
  obtain ⟨rfl, rfl⟩ := Prod.mk.inj (Option.some.inj (hreceived.symm.trans hreceived'))
  have hserved := schema.stores_related.serve (samePlace_oneToOne hds schema) hop hplace
    h.handles.state
  refine ⟨h.sound, h.deferred, ?_, ?_, ?_⟩
  · intro j req' hreq'
    by_cases hj : j = i
    · subst hj
      obtain rfl := Option.some.inj ((Shared.setRequest_self _ _ _).symm.trans hreq')
      exact ⟨args, hconvert, hreceived⟩
    · exact h.received j req' ((Shared.setRequest_of_ne s hj _).symm.trans hreq')
  · intro j req' y hreq' hy
    by_cases hj : j = i
    · subst hj
      rcases h.reported j req y hreq hy with herror | ⟨reply, hreply, -⟩
      · exact .inl herror
      · simp [hwaiting] at hreply
    · exact h.reported j req' y ((Shared.setRequest_of_ne s hj _).symm.trans hreq') hy
  · have hexecuted := h.handles.execute hhandled hserved.1 hserved.2
    rw [← Shared.handled_setRequest s i { req with reply := some _ }] at hexecuted
    exact hexecuted

theorem Coherent.act (h : Coherent schema os s history order) (k : κ) {a : Action}
    (hreports : s.Reports k a.script) :
    Coherent schema os (s.setWorld k (step env a (s.worlds k))) (history ++ s.seen env k a)
      order := by
  have hw := h.sound k
  have hcontinues : (s.worlds k).Continues (step env a (s.worlds k)) :=
    SmallSteps.continues (step_steps a hw.consistent) hw.consistent
  have hreported (i : κ × Ref) (req : Request) (y : Yield) (hreq : s.requests i = some req)
      (hy : y ∈ ((s.setWorld k (step env a (s.worlds k))).worlds i.1).events i.2) :
      y.status.IsError ∨ ∃ reply, req.reply = some reply ∧ Reported reply y.toCompletion := by
    by_cases hk : i.1 = k
    · subst hk
      rw [Shared.setWorld_self] at hy
      rcases step_events a hw.consistent hy with hold | ⟨id, p, hp, href, hmem⟩
      · exact h.reported i req y hreq hold
      · exact hreports id y.toCompletion p req hmem hp (href ▸ hreq)
    · rw [Shared.setWorld_of_ne s hk] at hy
      exact h.reported i req y hreq hy
  have hcalled {i : κ × Ref} {m : Method} (hi : .called i m ∈ history ++ s.seen env k a) :
      .called i m ∈ history := by
    rcases s.seen_cases k a hw with hseen | ⟨r, v, req, y, message, hseen, -⟩
    · simpa [hseen] using hi
    · simpa [hseen] using hi
  refine ⟨h.sound_setWorld (hw.step a), fun i m hi => h.kindOf k hcontinues (hcalled hi),
    h.received, hreported, ?_⟩
  rcases s.seen_cases k a hw with hseen | ⟨r, v, req, y, message, hseen, hreq, hy, hvalue⟩
  · rw [hseen, List.append_nil]
    exact h.handles
  · rw [hseen]
    rcases hreported (k, r) req y hreq (by simpa using hy) with herror | ⟨reply, hreply, hreported⟩
    · rw [value_of_error herror] at hvalue
      cases hvalue
    · have hhandled : s.handled (k, r) = some (req.method, some reply) :=
        hreply ▸ Shared.handled_of_request hreq
      refine h.handles.returned hhandled fun answer hrelated => ?_
      have hshows := hreported.shows hrelated
      rwa [hreported.value_of_returned hvalue] at hshows

end Invariant

/-- Whatever the clients do, and whenever the store executes their requests and the library reports
its answers, there is one order of the methods in which a store of Ruby hashes gives the values that
the waits return, and in which a method that returned before another one was called comes first. -/
theorem shared_linearizable (hds : env.ds.Lawful) {schema : Schema env V} {records : Records}
    {os : Objects} (hagree : Agree (SamePlace schema) (Keeps env) records os)
    {history : List (Moment (κ × Ref) Method Value)} {s : Shared κ}
    (hrun : SharedRun schema records history s)
    (hm : ∀ i m, .called i m ∈ history → m.WellTyped schema) :
    ∃ order, Linearizes schema.serveObjects (fun reply v => Shows env reply (.returned v)) os history
      order := by
  have hcoherent : ∃ order, Coherent schema os s history order := by
    induction hrun with
    | start => exact ⟨[], coherent_initial hagree⟩
    | @step history seen s s' _ hstep ih =>
      have hm' : ∀ i m, .called i m ∈ history → m.WellTyped schema :=
        fun i m hmem => hm i m (List.mem_append_left _ hmem)
      rcases ih hm' with ⟨order, h⟩
      cases hstep with
      | call k hcrashed hconvert hreceived hpos hfree =>
        exact ⟨order, h.call k hcrashed hconvert hreceived hpos hfree⟩
      | execute hreq hwaiting =>
        rw [List.append_nil]
        exact ⟨_, h.execute hds hm' hreq hwaiting⟩
      | act k hreports => exact ⟨order, h.act k hreports⟩
  rcases hcoherent with ⟨order, h⟩
  exact ⟨order, h.handles.executes.linearizes⟩

/-- The requests of the sample, before and after the store has executed them. -/
def putRequest (reply : Option (Reply Record)) : Request :=
  ⟨samplePut.method, .write .put (integerRecord 7).attributes, ([115], [107]), reply⟩

def condPutRequest (reply : Option (Reply Record)) : Request :=
  ⟨(sampleCondPut 1 .success).method,
    .condWrite .put atLeastFiveChecks (integerRecord 3).attributes, ([115], [107]), reply⟩

/-- One client calls `put`, another one `cond_put`, each with the first identifier of its library. -/
def sampleCalled : Shared Bool :=
  (((Shared.initial fun _ => none).setWorld false
    (step packedEnv (.submit samplePut.method.call 0 (accepting 1)) .initial)).setRequest (false, 0)
      (putRequest none)).setWorld true (step packedEnv
        (.submit (sampleCondPut 1 .success).method.call 0 (accepting 1)) .initial) |>.setRequest
      (true, 0) (condPutRequest none)

theorem sampleCalled_run : SharedRun plainSchema (fun _ => none)
    [.called (false, 0) samplePut.method, .called (true, 0) (sampleCondPut 1 .success).method]
    sampleCalled :=
  .step (.step .start (.call false rfl rfl rfl (by decide) rfl))
    (.call true rfl rfl rfl (by decide) rfl)

/-- The store executes the `put` first. -/
def sampleExecuted : Shared Bool :=
  { (sampleCalled.setRequest (false, 0) (putRequest (some .true))).setRequest (true, 0)
      (condPutRequest (some .true)) with
    records := sampleRecords 3 }

theorem put_none : plainSchema.records.serve (.write .put (integerRecord 7).attributes)
    ([115], [107]) (fun _ => none) = (.true, sampleRecords 7) := by
  have hwrite : plainSchema.records.write .put (plainSchema.records.new ([115], [107]))
      (integerRecord 7).attributes = some (integerRecord 7) := rfl
  have hcreates : plainSchema.records.creates .put = true := rfl
  simp only [Store.serve, Store.writeOn, hcreates, if_true, hwrite, sampleRecords]

theorem sampleExecuted_run : SharedRun plainSchema (fun _ => none)
    [.called (false, 0) samplePut.method, .called (true, 0) (sampleCondPut 1 .success).method]
    sampleExecuted := by
  have hput : SharedStep plainSchema sampleCalled [] _ :=
    .execute (show sampleCalled.requests (false, 0) = some (putRequest none) from rfl) rfl
  have hserve := put_none
  change plainSchema.records.serve (putRequest none).op (putRequest none).place
    sampleCalled.records = _ at hserve
  rw [hserve] at hput
  have hcondPut : SharedStep plainSchema _ [] _ :=
    .execute (show ({ sampleCalled.setRequest (false, 0) (putRequest (some .true)) with
      records := sampleRecords 7 } : Shared Bool).requests (true, 0) = some (condPutRequest none)
      from rfl) rfl
  have hserve := condPut_seven
  change plainSchema.records.serve (condPutRequest none).op (condPutRequest none).place
    (sampleRecords 7) = _ at hserve
  simp only at hcondPut
  rw [hserve] at hcondPut
  exact .step (.step sampleCalled_run hput) hcondPut

/-- The library reports a success of the first request. -/
def succeeds : Script := [.yielded 1 ⟨.success, "", .none⟩]

theorem reports_true {s : Shared Bool} {k : Bool} {req : Request}
    (hids : ∀ p, (s.worlds k).lib.outstanding.lookup 1 = some p → p.ref = 0)
    (hreq : s.requests (k, 0) = some req) (hreply : req.reply = some .true) :
    s.Reports k succeeds := by
  intro id c p req' hmem hp hreq'
  obtain ⟨rfl, rfl⟩ : id = 1 ∧ c = ⟨.success, "", .none⟩ := by simpa [succeeds] using hmem
  rw [hids p hp] at hreq'
  obtain rfl := Option.some.inj (hreq.symm.trans hreq')
  exact .inr ⟨.true, hreply, .true ""⟩

/-- The `cond_put` returns before the `put` on which it depends. -/
theorem shared_linearizable_two_clients :
    ∃ order, Linearizes plainSchema.serveObjects
      (fun reply v => Shows packedEnv reply (.returned v)) (fun _ => none)
      [.called (false, 0) samplePut.method, .called (true, 0) (sampleCondPut 1 .success).method,
        .returned (true, 0) .true, .returned (false, 0) .true] order :=
  have hrun : SharedRun plainSchema (fun _ => none)
      [.called (false, 0) samplePut.method, .called (true, 0) (sampleCondPut 1 .success).method,
        .returned (true, 0) .true, .returned (false, 0) .true] _ :=
    .step (.step sampleExecuted_run (.act true (a := .wait 0 succeeds)
      (reports_true (fun p hp => Option.some.inj hp ▸ rfl) rfl rfl)))
      (.act false (a := .wait 0 succeeds)
        (reports_true (fun p hp => Option.some.inj hp ▸ rfl) rfl rfl))
  shared_linearizable packedFormat_lawful agree_empty hrun fun i m hm => by
    simp only [List.mem_cons, Moment.called.injEq, reduceCtorEq, List.not_mem_nil, or_false] at hm
    rcases hm with ⟨-, rfl⟩ | ⟨-, rfl⟩
    · exact sampleTalk_wellTyped samplePut (by simp [sampleTalk])
    · exact sampleTalk_wellTyped (sampleCondPut 2 .success) (by simp [sampleTalk])

end HyperDex.Client
