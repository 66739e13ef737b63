import HyperDex.Client.Requests
import Mathlib.Data.Finset.Basic

/-!
# Garbage collection

The library writes to cells that belong to response objects, and the collector may
free a response object whenever the program has let go of it. A request keeps its
response object reachable through the table of operations until its last event, so
the library never writes to memory that is gone; and only a request without its last
event keeps an object alive that the program does not hold.
-/
namespace HyperDex.Client
open General Ruby Conversion Decoding

def Action.receiver : Action → Option Ref
  | .submit _ _ _ | .loop _ => none
  | .wait r _ | .hasNext r _ | .next r => some r

/-- A client beside a garbage collector: the response objects that the program or a running method
holds, and those that are freed. -/
structure Heap where
  world : World
  held : Finset Ref
  freed : Finset Ref

namespace Heap

def initial : Heap := ⟨.initial, ∅, ∅⟩

/-- Neither held nor bound in `@ops`. -/
structure Garbage (h : Heap) (r : Ref) : Prop where
  exists_response : r < h.world.responses.length
  not_held : r ∉ h.held
  not_bound : ∀ id, h.world.ops.lookup id ≠ some r

variable {Obj : Type} (env : Env Obj)

/-- The steps of the methods, and what the program and the collector do between any two of
them. -/
inductive Step : Heap → Heap → Prop where
  | heard (h : Heap) (message : String) : Step h { h with world := h.world.hear message }
  /-- the loop returns the operation that it called back -/
  | delivered {h : Heap} {reqid : Int} {p : Pending} (c : Completion) :
      h.world.lib.outstanding.lookup reqid = some p → c.Fits p.outputs →
      Step h { h with
        world := h.world.delivered env reqid p (c.place h.world.lib.arrays.length)
        held := insert p.ref h.held }
  | register {h : Heap} (call : Call) {reqid : Int} : 0 ≤ reqid →
      h.world.lib.outstanding.lookup reqid = none →
      Step h { h with
        world := h.world.register call reqid
        held := insert h.world.responses.length h.held }
  | read {h : Heap} {r : Ref} {resp : Response} : r ∈ h.held →
      h.world.responses[r]? = some resp → resp.kind = .deferred → resp.finished = true →
      Step h { h with world := (encodeReturn env resp (h.world.log (.read r))).2 }
  | next {h : Heap} {r : Ref} {resp : Response} {e : Entry} {rest : List Entry} : r ∈ h.held →
      h.world.responses[r]? = some resp → resp.backlog = e :: rest →
      Step h { h with
        world := (h.world.modify r fun resp => { resp with backlog := rest }).log (.taken r e) }
  | drop (h : Heap) (r : Ref) : Step h { h with held := h.held.erase r }
  | collect {h : Heap} {r : Ref} : h.Garbage r → Step h { h with freed := insert r h.freed }

abbrev Steps : Heap → Heap → Prop := Relation.ReflTransGen (Step env)

/-- A method works in such steps, and the object that it returns is held. -/
def Performs (h : Heap) (x : Outcome Exn Result × World) : Prop :=
  ∃ held, h.held ⊆ held ∧ Steps env h ⟨x.2, held, h.freed⟩ ∧
    ∀ r, x.1 = .returned (.response r) → r ∈ held

/-- What is freed stays garbage. -/
structure Safe (h : Heap) : Prop where
  consistent : Consistent env h.world
  garbage : ∀ r ∈ h.freed, h.Garbage r

end Heap

def World.Untouched (r : Ref) (w w' : World) : Prop :=
  w'.responses[r]? = w.responses[r]? ∧
    ∃ es, w'.trace = w.trace ++ es ∧ ∀ e ∈ es, e.ref? ≠ some r

theorem World.Untouched.refl (r : Ref) (w : World) : w.Untouched r w :=
  ⟨rfl, [], (List.append_nil _).symm, by simp⟩

theorem World.Untouched.trans {r : Ref} {w₁ w₂ w₃ : World} (h : World.Untouched r w₁ w₂)
    (h' : World.Untouched r w₂ w₃) : World.Untouched r w₁ w₃ := by
  rcases h with ⟨hresp, es, hes, hother⟩
  rcases h' with ⟨hresp', es', hes', hother'⟩
  refine ⟨hresp'.trans hresp, es ++ es', by rw [hes', hes, List.append_assoc], fun e he => ?_⟩
  rcases List.mem_append.mp he with he | he
  · exact hother e he
  · exact hother' e he

namespace Heap

section Step
variable {Obj : Type} {env : Env Obj} {h h' : Heap} {r : Ref}

/-- The work of a step on the client, apart from the program and the collector. -/
theorem Step.small (hstep : Step env h h') :
    SmallStep env h.world h'.world ∨ h'.world = h.world := by
  cases hstep with
  | heard message => exact .inl (.loop (.heard h.world message))
  | delivered c hp hfits => exact .inl (.loop (.delivered c hp hfits))
  | register call hpos hfree => exact .inl (.register call hpos hfree)
  | read _ hresp hkind hfin => exact .inl (.read hresp hkind hfin)
  | next _ hresp hbacklog => exact .inl (.take hresp hbacklog)
  | drop r => exact .inr rfl
  | collect _ => exact .inr rfl

theorem not_bound_erase {ops : OrderedMap Int Ref} (h : ∀ id, ops.lookup id ≠ some r) (id₀ : Int)
    (closes : Bool) (id : Int) : (if closes then ops.erase id₀ else ops).lookup id ≠ some r := by
  split_ifs
  · rw [OrderedMap.lookup_erase]
    split_ifs
    · simp
    · exact h id
  · exact h id

/-- No step touches garbage, nor does garbage come back. -/
theorem Step.garbage (hstep : Step env h h') (hw : Consistent env h.world) (hr : h.Garbage r) :
    h'.Garbage r ∧ h.world.Untouched r h'.world := by
  have hheld {r' : Ref} (hr' : r' ∈ h.held) : r' ≠ r := by
    rintro rfl
    exact hr.not_held hr'
  cases hstep with
  | heard message => exact ⟨⟨hr.exists_response, hr.not_held, hr.not_bound⟩, .refl r _⟩
  | @delivered reqid p c hp hfits =>
    have hne : p.ref ≠ r := by
      rintro rfl
      exact hr.not_bound reqid (by rw [hw.ops, hp]; rfl)
    refine ⟨⟨?_, ?_, ?_⟩, ?_, _, rfl, ?_⟩
    · simpa [World.delivered] using hr.exists_response
    · simp [hne.symm, hr.not_held]
    · exact not_bound_erase hr.not_bound reqid _
    · simp [World.delivered, List.getElem?_modify_ne _ _ hne]
    · intro e he
      rcases List.mem_cons.mp he with rfl | he
      · simpa [Event.ref?] using hne
      · rcases List.mem_cons.mp he with rfl | he
        · simpa [Event.ref?] using hne
        · exact consumption_ref env p.kind _ e he r
  | @register call reqid hpos hfree =>
    have hne : h.world.responses.length ≠ r := (Nat.ne_of_lt hr.exists_response).symm
    refine ⟨⟨?_, ?_, ?_⟩, ?_, _, rfl, ?_⟩
    · simpa [World.register] using Nat.lt_succ_of_lt hr.exists_response
    · simp [hne.symm, hr.not_held]
    · intro id
      simp only [World.register, OrderedMap.lookup_insert]
      split_ifs
      · simpa using hne
      · exact hr.not_bound id
    · simp [World.register, List.getElem?_append_left hr.exists_response]
    · simpa [Event.ref?] using hne
  | @read r' resp hr' hresp _ _ =>
    have hmemory := encodeReturn_memoryOnly env resp (h.world.log (.read r'))
    rcases hmemory.trace with ⟨es, hes, hsilent⟩
    refine ⟨⟨?_, hr.not_held, ?_⟩, ?_, .read r' :: es, ?_, ?_⟩
    · rw [hmemory.responses]
      exact hr.exists_response
    · rw [hmemory.ops]
      exact hr.not_bound
    · rw [hmemory.responses]
      rfl
    · exact hes.trans (List.append_assoc _ _ _)
    · intro e he
      rcases List.mem_cons.mp he with rfl | he
      · simpa [Event.ref?] using hheld hr'
      · simp [(hsilent e he).2]
  | @next r' resp e rest hr' hresp _ =>
    refine ⟨⟨?_, hr.not_held, hr.not_bound⟩, ?_, _, rfl, ?_⟩
    · simpa [World.modify, World.log] using hr.exists_response
    · simp [World.modify, World.log, List.getElem?_modify_ne _ _ (hheld hr')]
    · simpa [Event.ref?] using hheld hr'
  | drop r' =>
    exact ⟨⟨hr.exists_response, fun hmem => hr.not_held (Finset.mem_of_mem_erase hmem),
      hr.not_bound⟩, .refl r _⟩
  | collect _ => exact ⟨⟨hr.exists_response, hr.not_held, hr.not_bound⟩, .refl r _⟩

theorem Step.consistent (hstep : Step env h h') (hw : Consistent env h.world) :
    Consistent env h'.world := by
  rcases hstep.small with hsmall | hsame
  · exact hsmall.consistent hw
  · rw [hsame]
    exact hw

theorem Step.safe (hstep : Step env h h') (hsafe : h.Safe env) : h'.Safe env := by
  refine ⟨hstep.consistent hsafe.consistent, fun r hr => ?_⟩
  have hkept (hfreed : r ∈ h.freed) : h'.Garbage r :=
    (hstep.garbage hsafe.consistent (hsafe.garbage r hfreed)).1
  cases hstep with
  | @collect r' hgarbage =>
    rcases Finset.mem_insert.mp hr with rfl | hr
    · exact ⟨hgarbage.exists_response, hgarbage.not_held, hgarbage.not_bound⟩
    · exact hkept hr
  | _ => exact hkept hr

theorem safe_initial : initial.Safe env := ⟨consistent_initial env, by simp [initial]⟩

theorem Steps.safe (hsteps : Steps env h h') (hsafe : h.Safe env) : h'.Safe env :=
  Machine.steps_invariant (fun _ _ => Step.safe) hsteps hsafe

theorem Steps.garbage (hsteps : Steps env h h') (hw : Consistent env h.world)
    (hr : h.Garbage r) : h'.Garbage r ∧ h.world.Untouched r h'.world := by
  have hboth : (Consistent env h'.world ∧ h'.Garbage r) ∧ h.world.Untouched r h'.world := by
    induction hsteps with
    | refl => exact ⟨⟨hw, hr⟩, .refl r _⟩
    | tail _ hlast ih =>
      rcases hlast.garbage ih.1.1 ih.1.2 with ⟨hgarbage, huntouched⟩
      exact ⟨⟨hlast.consistent ih.1.1, hgarbage⟩, ih.2.trans huntouched⟩
  exact ⟨hboth.1.2, hboth.2⟩

/-- An object is garbage exactly when the program does not hold it and it is finished. -/
theorem Safe.garbage_iff (hsafe : h.Safe env) {resp : Response}
    (hresp : h.world.responses[r]? = some resp) :
    h.Garbage r ↔ r ∉ h.held ∧ resp.finished = true := by
  have hbound := hsafe.consistent.in_table_iff hresp
  constructor
  · intro hgarbage
    refine ⟨hgarbage.not_held, ?_⟩
    by_contra hopen
    rcases hbound.mpr (by simpa using hopen) with ⟨id, hid⟩
    exact hgarbage.not_bound id hid
  · rintro ⟨hheld, hfin⟩
    refine ⟨(List.getElem?_eq_some_iff.mp hresp).1, hheld, fun id hid => ?_⟩
    exact absurd (hfin.symm.trans (hbound.mp ⟨id, hid⟩)) (by decide)

theorem Steps.loop {w w' : World} (hsteps : LoopSteps env w w') (held freed : Finset Ref) :
    ∃ held', held ⊆ held' ∧ Steps env ⟨w, held, freed⟩ ⟨w', held', freed⟩ := by
  induction hsteps with
  | refl => exact ⟨held, Finset.Subset.refl held, .refl⟩
  | tail _ hlast ih =>
    rcases ih with ⟨held', hsub, hrest⟩
    cases hlast with
    | heard message => exact ⟨held', hsub, hrest.tail (.heard _ message)⟩
    | @delivered reqid p c hp hfits =>
      exact ⟨insert p.ref held', hsub.trans (Finset.subset_insert _ _),
        hrest.tail (.delivered (h := ⟨_, held', freed⟩) c hp hfits)⟩

theorem Performs.of_steps {w' : World} {held : Finset Ref} {x : Outcome Exn Result}
    (hsub : h.held ⊆ held) (hsteps : Steps env h ⟨w', held, h.freed⟩)
    (hx : ∀ r, x ≠ .returned (.response r)) : h.Performs env (x, w') :=
  ⟨held, hsub, hsteps, fun r hr => absurd hr (hx r)⟩

theorem Performs.of_loop {w' : World} {x : Outcome Exn Result} (hsteps : LoopSteps env h.world w')
    (hx : ∀ r, x ≠ .returned (.response r)) : h.Performs env (x, w') := by
  rcases Steps.loop hsteps h.held h.freed with ⟨held, hsub, hrest⟩
  exact .of_steps hsub hrest hx

theorem performs_submit (call : Call) (rounds : ℕ) (answer : SubmissionAnswer) :
    h.Performs env (act env (.submit call rounds answer) h.world) := by
  have hsubmitted : Submitted env call rounds answer h.world _ :=
    submit_submitted call rounds answer h.world
  rw [act]
  generalize submit env call rounds answer h.world = x at hsubmitted
  have hheard (message : String) : Steps env h { h with world := h.world.hear message } :=
    .single (.heard h message)
  cases hsubmitted with
  | accepted _ hpos hfree =>
    refine ⟨insert h.world.responses.length h.held, Finset.subset_insert _ _,
      (hheard answer.message).tail (.register (h := { h with world := _ }) call hpos hfree), ?_⟩
    rintro r ⟨-⟩
    exact Finset.mem_insert_self _ _
  | rejected x message hx =>
    cases x with
    | returned r => exact absurd rfl (hx r)
    | _ => exact .of_steps (Finset.Subset.refl _) (hheard message) (by simp)

theorem performs_loop (hw : Consistent env h.world) (script : Script) :
    h.Performs env (act env (.loop script) h.world) := by
  have hlooped := clientLoop_looped script h.world hw
  rw [act]
  generalize clientLoop env script h.world = x at hlooped
  cases hlooped with
  | pending message rest =>
    exact .of_steps (Finset.Subset.refl _) (.single (.heard h message)) (by simp)
  | failed rc message rest _ _ =>
    exact .of_steps (Finset.Subset.refl _) (.single (.heard h message)) (by simp)
  | @delivered reqid p c rest _ hp hfits _ _ =>
    refine ⟨insert p.ref h.held, Finset.subset_insert _ _, ?_⟩
    have hstep : Step env h _ := .delivered c hp hfits
    cases houtcome : p.outcome env (c.place h.world.lib.arrays.length) with
    | returned r =>
      obtain rfl : p.ref = r := by
        rw [Pending.outcome] at houtcome
        split at houtcome
        · simpa using houtcome
        · simp at houtcome
      refine ⟨.single hstep, ?_⟩
      rintro r ⟨-⟩
      exact Finset.mem_insert_self _ _
    | raised e => exact ⟨.single hstep, by simp [Outcome.andThen]⟩
    | pending => exact ⟨.single hstep, by simp [Outcome.andThen]⟩
    | undefined => exact ⟨.single hstep, by simp [Outcome.andThen]⟩

theorem performs_wait (hw : Consistent env h.world) (hheld : r ∈ h.held) {resp : Response}
    (hresp : h.world.responses[r]? = some resp) (hkind : resp.kind = .deferred) (script : Script) :
    h.Performs env (Outcome.andThen (wait env r script h.world) fun v w =>
      (.returned (.value v), w)) := by
  have hwaited := wait_waited script hw hresp
  generalize wait env r script h.world = x at hwaited
  cases hwaited with
  | @read w' resp' hsteps hresp' hfin =>
    have hext := LoopSteps.extends_of_response hsteps hw hresp hresp'
    rcases Steps.loop hsteps h.held h.freed with ⟨held, hsub, hrest⟩
    have hread : Step env ⟨w', held, h.freed⟩ _ :=
      .read (hsub hheld) hresp' (hext.kind.trans hkind) hfin
    generalize encodeReturn env resp' (w'.log (.read r)) = x at hread
    rcases x with ⟨x, w''⟩
    cases x with
    | returned v => exact .of_steps hsub (hrest.tail hread) (by simp)
    | raised e => exact .of_steps hsub (hrest.tail hread) (by simp)
    | pending => exact .of_steps hsub (hrest.tail hread) (by simp)
    | undefined => exact .of_steps hsub (hrest.tail hread) (by simp)
  | pending hsteps _ _ => exact .of_loop hsteps (by simp)
  | failed rc message hsteps _ _ => exact .of_loop (hsteps.tail (.heard _ message)) (by simp)
  | undecodable c hsteps hp hfits _ => exact .of_loop (hsteps.tail (.delivered c hp hfits)) (by simp)

theorem performs_hasNext (hw : Consistent env h.world) {resp : Response}
    (hresp : h.world.responses[r]? = some resp) (script : Script) :
    h.Performs env (Outcome.andThen (hasNext env r script h.world) fun b w =>
      (.returned (.bool b), w)) := by
  have hsteps := (hasNext_asked script hw hresp).steps
  generalize hasNext env r script h.world = x at hsteps
  rcases x with ⟨x, w'⟩
  cases x with
  | returned b => exact .of_loop hsteps (by simp)
  | raised e => exact .of_loop hsteps (by simp)
  | pending => exact .of_loop hsteps (by simp)
  | undefined => exact .of_loop hsteps (by simp)

theorem performs_next (hheld : r ∈ h.held) :
    h.Performs env (.returned (.entry (Client.next r h.world).1), (Client.next r h.world).2) := by
  have hidle : h.Performs env (.returned (.entry none), h.world) :=
    .of_steps (Finset.Subset.refl _) .refl (by simp)
  rw [Client.next]
  cases hresp : h.world.responses[r]? with
  | none => exact hidle
  | some resp =>
    cases hbacklog : resp.backlog with
    | nil => simpa [hbacklog] using hidle
    | cons e rest =>
      simp only [hbacklog]
      exact .of_steps (Finset.Subset.refl _) (.single (.next hheld hresp hbacklog)) (by simp)

theorem performs (hw : Consistent env h.world) (a : Action)
    (hheld : ∀ r ∈ a.receiver, r ∈ h.held) : h.Performs env (perform env a h.world) := by
  have hidle {x : Outcome Exn Result} (hx : ∀ r, x ≠ .returned (.response r)) :
      h.Performs env (x, h.world) := .of_steps (Finset.Subset.refl _) .refl hx
  rw [perform]
  split
  · exact hidle (by simp)
  · cases a with
    | submit call rounds answer => exact performs_submit call rounds answer
    | loop script => exact performs_loop hw script
    | wait r script =>
      rw [act]
      split
      · next hkind =>
        rcases kindOf_eq_some hkind with ⟨resp, hresp, hdeferred⟩
        exact performs_wait hw (hheld r rfl) hresp hdeferred script
      · exact hidle (by simp)
    | hasNext r script =>
      rw [act]
      split
      · next hkind =>
        rcases kindOf_eq_some hkind with ⟨resp, hresp, -⟩
        exact performs_hasNext hw hresp script
      · exact hidle (by simp)
    | next r =>
      rw [act]
      split
      · exact performs_next (hheld r rfl)
      · exact hidle (by simp)

end Step

end Heap

variable {Obj : Type} {env : Env Obj}

/-- Whatever the collector frees and whenever, in every continuation nothing is read from or written
to a freed response object, the program does not get hold of it again, and no request is
outstanding that would. A response object can be freed exactly when the program does not hold it and
the last event of its request was there. And every method call on an object that is held works in
such steps and returns an object that is held. -/
theorem heap_safe {h h' : Heap} (hreachable : Heap.Steps env .initial h)
    (hsteps : Heap.Steps env h h') :
    (∀ r ∈ h.freed, h.world.Untouched r h'.world ∧ r ∉ h'.held ∧
      ∀ id p, h'.world.lib.outstanding.lookup id = some p → p.ref ≠ r) ∧
    (∀ r resp, h.world.responses[r]? = some resp →
      (h.Garbage r ↔ r ∉ h.held ∧ resp.finished = true)) ∧
    ∀ a : Action, (∀ r ∈ a.receiver, r ∈ h.held) → h.Performs env (perform env a h.world) := by
  have hsafe := hreachable.safe Heap.safe_initial
  have hsafe' := hsteps.safe hsafe
  refine ⟨fun r hr => ?_, fun r resp => hsafe.garbage_iff, fun a => Heap.performs hsafe.consistent a⟩
  rcases hsteps.garbage hsafe.consistent (hsafe.garbage r hr) with ⟨hgarbage, huntouched⟩
  refine ⟨huntouched, hgarbage.not_held, fun id p hp href => ?_⟩
  have hbound := hsafe'.consistent.ops id
  rw [hp, Option.map_some, href] at hbound
  exact hgarbage.not_bound id hbound

def droppedGet : Heap where
  world := (World.initial.register getCall 1).delivered packedEnv 1
    ⟨0, .deferred, .attributes, fun _ => rfl⟩ (Completion.place ⟨.notfound, "", .none⟩ 0)
  held := (insert 0 ((insert 0 ∅ : Finset Ref).erase 0)).erase 0
  freed := insert 0 ∅

theorem droppedGet_reachable : Heap.Steps packedEnv .initial droppedGet := by
  have hsubmitted : Heap.Step packedEnv .initial
      ⟨World.initial.register getCall 1, insert 0 ∅, ∅⟩ := .register getCall (by decide) rfl
  refine (((Relation.ReflTransGen.single hsubmitted).tail (.drop _ 0)).tail
    (.delivered ⟨.notfound, "", .none⟩ rfl (by decide))).tail (.drop _ 0) |>.tail (.collect ?_)
  exact ⟨by decide, by simp, fun id => by simp [World.delivered, World.register, World.initial,
    Kind.closes, getCall]⟩

/-- The object was bound as long as its request was outstanding, and nothing comes back to it. -/
theorem heap_safe_droppedGet :
    droppedGet.world.Untouched 0 (droppedGet.world.hear "later") ∧ 0 ∉ droppedGet.held ∧
      ∀ id p, (droppedGet.world.hear "later").lib.outstanding.lookup id = some p → p.ref ≠ 0 :=
  (heap_safe droppedGet_reachable (.single (.heard droppedGet "later"))).1 0 (by decide)

end HyperDex.Client
