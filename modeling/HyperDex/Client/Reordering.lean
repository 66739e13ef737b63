import HyperDex.Client.Refinement
import HyperDex.General.Reordering

/-!
# The order of deliveries

The library may answer different requests in any order. Promises and streams
show that the order between requests cannot be observed afterwards, but for the
one error message of the library, which a later error may carry.
-/
namespace HyperDex.Client
open General Ruby Conversion Decoding

def deliveries (es : List (Int × Completion)) : List Action :=
  es.map fun e => .loop [.yielded e.1 e.2]

variable {Obj : Type} (env : Env Obj)

/-- The same results, or exceptions of one status with different messages. -/
def UpToMessage {α : Type} (x y : Outcome Exn α) : Prop :=
  x = y ∨ ∃ status message message', x = .raised (exception env.objectSpace status message) ∧
    y = .raised (exception env.objectSpace status message')

/-- The same result of an action, or exceptions of one status if it waits. -/
def Action.SameResult (a : Action) (x y : Outcome Exn Result) : Prop :=
  match a with
  | .wait .. => UpToMessage env x y
  | _ => x = y

theorem UpToMessage.refl {α : Type} (x : Outcome Exn α) : UpToMessage env x x := .inl rfl

namespace Service

/-- Two states that differ in the error message of the library only. -/
structure SameButMessage (s t : Service) : Prop where
  handles : s.handles = t.handles
  outstanding : s.outstanding = t.outstanding
  crashed : s.crashed = t.crashed

theorem SameButMessage.refl (s : Service) : SameButMessage s s := ⟨rfl, rfl, rfl⟩

theorem SameButMessage.trans {s t u : Service} (h : SameButMessage s t)
    (h' : SameButMessage t u) : SameButMessage s u :=
  ⟨h.handles.trans h'.handles, h.outstanding.trans h'.outstanding, h.crashed.trans h'.crashed⟩

section Calls
variable {env} {s t : Service}

theorem SameButMessage.hear_eq (h : SameButMessage s t) (message : String) :
    s.hear message = t.hear message := by
  rcases s with ⟨handles, outstanding, _, crashed⟩
  rcases t with ⟨handles', outstanding', _, crashed'⟩
  obtain ⟨rfl, rfl, rfl⟩ := h
  rfl

theorem SameButMessage.deliver_eq (h : SameButMessage s t) (reqid : Int) (p : Pending)
    (c : Completion) : s.deliver env reqid p c = t.deliver env reqid p c := by
  simp only [deliver, h.handles, h.outstanding, h.crashed]

theorem SameButMessage.admits_eq (h : SameButMessage s t) (reqid : Int) (c : Completion) :
    s.admits reqid c = t.admits reqid c := by
  simp only [admits, h.outstanding]

theorem SameButMessage.loop (h : SameButMessage s t) (script : Script) :
    (s.loop env script).1 = (t.loop env script).1 ∧
      SameButMessage (s.loop env script).2 (t.loop env script).2 := by
  match script with
  | [] => exact ⟨rfl, h⟩
  | .failed rc message :: script =>
    simp only [Service.loop, h.hear_eq]
    exact ⟨trivial, .refl _⟩
  | .yielded reqid c :: script =>
    simp only [Service.loop, h.admits_eq, h.deliver_eq]
    cases t.admits reqid c with
    | none => exact ⟨rfl, h⟩
    | some p => exact ⟨rfl, .refl _⟩

variable (env) in
theorem SameButMessage.drive (h : SameButMessage s t) {done : Service → Bool}
    (hdone : done s = done t) (script : Script) :
    (s.drive env done script).1 = (t.drive env done script).1 ∧
      SameButMessage (s.drive env done script).2 (t.drive env done script).2 := by
  match script with
  | [] =>
    simp only [Service.drive, hdone]
    exact ⟨trivial, h⟩
  | .failed rc message :: script =>
    simp only [Service.drive, hdone, h.hear_eq]
    split
    · exact ⟨rfl, h⟩
    · exact ⟨rfl, .refl _⟩
  | .yielded reqid c :: script =>
    simp only [Service.drive, hdone, h.admits_eq, h.deliver_eq]
    split
    · exact ⟨rfl, h⟩
    · cases t.admits reqid c with
      | none => exact ⟨rfl, h⟩
      | some p => exact ⟨rfl, .refl _⟩

/-- A value is had with any message, an error with its own. -/
theorem value_upToMessage (c : Completion) (message message' : String) :
    UpToMessage env (c.value env message) (c.value env message') := by
  rcases c with ⟨status, text, output⟩
  cases status with
  | success => exact .inl rfl
  | notfound => exact .inl rfl
  | cmpfail => exact .inl rfl
  | _ => exact .inr ⟨_, message, message', rfl, rfl⟩

theorem SameButMessage.redeem (h : SameButMessage s t) (r : Ref) (c : Completion)
    (redeemed : Bool) :
    UpToMessage env (s.redeem env r c redeemed).1 (t.redeem env r c redeemed).1 ∧
      SameButMessage (s.redeem env r c redeemed).2 (t.redeem env r c redeemed).2 := by
  have hmarked : s.handles.set r (.promise (some c) true) =
      t.handles.set r (.promise (some c) true) := by rw [h.handles]
  simp only [Service.redeem]
  split
  · exact ⟨.refl env _, hmarked, h.outstanding, rfl⟩
  · exact ⟨value_upToMessage c _ _, hmarked, h.outstanding, h.crashed⟩

variable (env) in
theorem SameButMessage.wait (h : SameButMessage s t) (r : Ref) (script : Script) :
    UpToMessage env (s.wait env r script).1 (t.wait env r script).1 ∧
      SameButMessage (s.wait env r script).2 (t.wait env r script).2 := by
  have hdone : resolved r s = resolved r t := by simp only [resolved, h.handles]
  have hdrive := h.drive env hdone script
  apply Outcome.andThen_related (.refl env) hdrive.1 hdrive.2
  intro _ s t hst
  rw [hst.handles]
  split
  · exact hst.redeem r _ _
  · exact ⟨.refl env _, hst⟩

theorem SameButMessage.hasNext (h : SameButMessage s t) (r : Ref) (script : Script) :
    (s.hasNext env r script).1 = (t.hasNext env r script).1 ∧
      SameButMessage (s.hasNext env r script).2 (t.hasNext env r script).2 := by
  have hdone : ready r s = ready r t := by simp only [ready, h.handles]
  have hdrive := h.drive env hdone script
  apply Outcome.andThen_related (Q := Eq) (fun _ => rfl) hdrive.1 hdrive.2
  intro _ s t hst
  rw [hst.handles]
  split <;> exact ⟨rfl, hst⟩

theorem SameButMessage.next (h : SameButMessage s t) (r : Ref) :
    (s.next r).1 = (t.next r).1 ∧ SameButMessage (s.next r).2 (t.next r).2 := by
  simp only [Service.next, h.handles]
  split
  · exact ⟨rfl, rfl, h.outstanding, h.crashed⟩
  · exact ⟨rfl, h⟩

theorem SameButMessage.submit (h : SameButMessage s t) (call : Call) (rounds : ℕ)
    (answer : SubmissionAnswer) :
    (s.submit env call rounds answer).1 = (t.submit env call rounds answer).1 ∧
      SameButMessage (s.submit env call rounds answer).2 (t.submit env call rounds answer).2 := by
  rw [Service.submit, Service.submit]
  apply Outcome.andThen_related (Q := Eq) (R := SameButMessage)
    (x := (call.convert env.ds rounds, s)) (y := (call.convert env.ds rounds, t)) (fun _ => rfl)
    rfl h
  intro _ s t hst
  rw [hst.hear_eq]
  exact ⟨rfl, .refl _⟩

/-- What a call returns and leaves behind is the same but for messages. -/
theorem SameButMessage.act (h : SameButMessage s t) (a : Action) :
    a.SameResult env (s.act env a).1 (t.act env a).1 ∧
      SameButMessage (s.act env a).2 (t.act env a).2 := by
  have hthen {α β : Type} {x y : Outcome Exn α × Service} (f : α → Outcome Exn β)
      (hxy : x.1 = y.1 ∧ SameButMessage x.2 y.2) :
      (Outcome.andThen x fun a s => (f a, s)).1 = (Outcome.andThen y fun a s => (f a, s)).1 ∧
        SameButMessage (Outcome.andThen x fun a s => (f a, s)).2
          (Outcome.andThen y fun a s => (f a, s)).2 :=
    Outcome.andThen_related (Q := Eq) (fun _ => rfl) hxy.1 hxy.2 fun _ _ _ hst => ⟨rfl, hst⟩
  cases a with
  | submit call rounds answer => exact hthen _ (h.submit call rounds answer)
  | loop script => exact hthen _ (h.loop script)
  | wait r script =>
    simp only [Service.act, h.handles]
    split
    · have hwait := h.wait env r script
      generalize s.wait env r script = x at hwait
      generalize t.wait env r script = y at hwait
      rcases x with ⟨x, s'⟩
      rcases y with ⟨y, t'⟩
      rcases hwait with ⟨hresult | ⟨status, message, message', hx, hy⟩, hstate⟩
      · exact (hthen (x := (x, s')) (y := (y, t')) _ ⟨hresult, hstate⟩).imp_left .inl
      · obtain rfl : x = _ := hx
        obtain rfl : y = _ := hy
        exact ⟨.inr ⟨status, message, message', rfl, rfl⟩, hstate⟩
    · exact ⟨.refl env _, h⟩
  | hasNext r script =>
    simp only [Service.act, h.handles]
    split
    · exact hthen _ (h.hasNext r script)
    · exact ⟨rfl, h⟩
  | next r =>
    simp only [Service.act, h.handles]
    split
    · rcases h.next r with ⟨hentry, hstate⟩
      rw [hentry]
      exact ⟨rfl, hstate⟩
    · exact ⟨rfl, h⟩

theorem sameResult_refl (a : Action) (x : Outcome Exn Result) : a.SameResult env x x := by
  cases a with
  | wait r script => exact .refl env x
  | _ => rfl

theorem SameButMessage.perform (h : SameButMessage s t) (a : Action) :
    a.SameResult env (s.perform env a).1 (t.perform env a).1 ∧
      SameButMessage (s.perform env a).2 (t.perform env a).2 := by
  rw [Service.perform, Service.perform, h.crashed]
  split
  · exact ⟨sameResult_refl a _, h⟩
  · exact h.act a

def Separate (s : Service) : Prop :=
  ∀ id id' p p', s.outstanding.lookup id = some p → s.outstanding.lookup id' = some p' →
    p.ref = p'.ref → id = id'

theorem admits_eq_some {reqid : Int} {c : Completion} {p : Pending}
    (h : s.admits reqid c = some p) : s.outstanding.lookup reqid = some p :=
  (Option.filter_eq_some_iff.mp h).1

theorem lookup_deliver {id id' : Int} (hid : id ≠ id') (p : Pending) (c : Completion) :
    (s.deliver env id p c).2.outstanding.lookup id' = s.outstanding.lookup id' := by
  rw [deliver]
  split_ifs
  · rw [OrderedMap.lookup_erase, if_neg (Ne.symm hid)]
  · rfl

theorem lookup_deliver_eq_some {id id' : Int} {p p' : Pending} {c : Completion}
    (h : (s.deliver env id p c).2.outstanding.lookup id' = some p') :
    s.outstanding.lookup id' = some p' := by
  rw [deliver] at h
  split_ifs at h
  · rw [OrderedMap.lookup_erase] at h
    split_ifs at h
    exact h
  · exact h

theorem Separate.deliver (hs : s.Separate) (id : Int) (p : Pending) (c : Completion) :
    (s.deliver env id p c).2.Separate :=
  fun _ _ _ _ h h' => hs _ _ _ _ (lookup_deliver_eq_some h) (lookup_deliver_eq_some h')

variable (env) in
def afterEvent (e : Int × Completion) (s : Service) : Service :=
  s.step env (.loop [.yielded e.1 e.2])

theorem afterEvent_eq (e : Int × Completion) (s : Service) :
    s.afterEvent env e = if s.crashed then s else
      match s.admits e.1 e.2 with
      | none => s
      | some p => (s.deliver env e.1 p e.2).2 := by
  rw [afterEvent, step, Service.perform]
  cases s.crashed with
  | true => rfl
  | false =>
    simp only [Bool.false_eq_true, if_false, Service.act, Service.loop]
    cases s.admits e.1 e.2 with
    | none => rfl
    | some p =>
      simp only
      generalize s.deliver env e.1 p e.2 = x
      rcases x with ⟨x, s'⟩
      cases x <;> rfl

theorem deliver_comm (hs : s.Separate) {id id' : Int} (hid : id ≠ id') {p p' : Pending}
    (hp : s.outstanding.lookup id = some p) (hp' : s.outstanding.lookup id' = some p')
    (c c' : Completion) :
    SameButMessage ((s.deliver env id p c).2.deliver env id' p' c').2
      ((s.deliver env id' p' c').2.deliver env id p c).2 := by
  have href : p.ref ≠ p'.ref := fun h => hid (hs id id' p p' hp hp' h)
  refine ⟨?_, ?_, rfl⟩
  · simp only [Service.deliver]
    exact List.modify_modify_ne _ _ _ href
  · simp only [Service.deliver]
    split_ifs <;> simp [OrderedMap.erase_comm _ id id']

theorem afterEvent_comm (hs : s.Separate) {e e' : Int × Completion} (hid : e.1 ≠ e'.1) :
    SameButMessage ((s.afterEvent env e).afterEvent env e')
      ((s.afterEvent env e').afterEvent env e) := by
  have hadmits {e e' : Int × Completion} (hid : e.1 ≠ e'.1) (p : Pending) :
      (s.deliver env e.1 p e.2).2.admits e'.1 e'.2 = s.admits e'.1 e'.2 := by
    rw [admits, lookup_deliver hid, admits]
  have hcrashed (e : Int × Completion) (p : Pending) :
      (s.deliver env e.1 p e.2).2.crashed = s.crashed := rfl
  simp only [afterEvent_eq]
  by_cases hc : s.crashed = true
  · simp only [hc, if_true]
    exact .refl s
  · simp only [hc]
    cases hp : s.admits e.1 e.2 with
    | none =>
      cases hp' : s.admits e'.1 e'.2 with
      | none => simpa [hc, hp, hp'] using SameButMessage.refl s
      | some p' => simpa [hc, hp, hp', hcrashed, hadmits (Ne.symm hid)] using SameButMessage.refl _
    | some p =>
      cases hp' : s.admits e'.1 e'.2 with
      | none => simpa [hc, hp, hp', hcrashed, hadmits hid] using SameButMessage.refl _
      | some p' =>
        simpa [hc, hp, hp', hcrashed, hadmits hid, hadmits (Ne.symm hid)] using
          deliver_comm hs hid (admits_eq_some hp) (admits_eq_some hp') e.2 e'.2

theorem Separate.afterEvent (hs : s.Separate) (e : Int × Completion) :
    (s.afterEvent env e).Separate := by
  rw [afterEvent_eq]
  split
  · exact hs
  · split
    · exact hs
    · exact hs.deliver _ _ _

theorem SameButMessage.afterEvent (h : SameButMessage s t) (e : Int × Completion) :
    SameButMessage (s.afterEvent env e) (t.afterEvent env e) :=
  (h.perform _).2

variable (env) in
theorem independent_afterEvent :
    Machine.Independent (Service.afterEvent env) Prod.fst Separate SameButMessage where
  invariant e _ hs := hs.afterEvent e
  refl := .refl
  trans _ _ _ := .trans
  congr e _ _ h := h.afterEvent e
  commute _ _ _ hs hid := afterEvent_comm hs hid

end Calls

end Service

section Runs
variable {env} {w : World}

/-- The table of the library names every response object once. -/
theorem Consistent.separate (hw : Consistent env w) : w.service.Separate := by
  intro id id' p p' hp hp' href
  have hopen (j : Int) (q : Pending) (hq : w.lib.outstanding.lookup j = some q) :
      Ledger.outstanding (ledger w.trace) j = some q.ref := by
    rw [hw.outstanding, hq]
    rfl
  exact hw.valid.outstanding_injective (hopen id p hp) (href ▸ hopen id' p' hp')

theorem run_deliveries (s : Service) (es : List (Int × Completion)) :
    Machine.run (Service.step env) s (deliveries es) =
      Machine.run (Service.afterEvent env) s es := by
  induction es generalizing s with
  | nil => rfl
  | cons e es ih => exact ih _

end Runs

/-- However the events of different requests are ordered, everything that happens afterwards is
the same, but for the messages of the exceptions that waits raise. -/
theorem run_reordered (pre : List Action) (es es' : List (Int × Completion))
    (hsame : ∀ id, es.filter (fun e => e.1 = id) = es'.filter (fun e => e.1 = id))
    (post : List Action) :
    List.Forall₂ (fun a o => a.SameResult env o.1 o.2) post
      ((outcomes env (run env (pre ++ deliveries es)) post).zip
        (outcomes env (run env (pre ++ deliveries es')) post)) := by
  have hstates : Service.SameButMessage (run env (pre ++ deliveries es)).service
      (run env (pre ++ deliveries es')).service := by
    rw [run_append, run_append, ((run_sound env pre).refines _).2,
      ((run_sound env pre).refines _).2, run_deliveries, run_deliveries]
    exact (Service.independent_afterEvent env).run_of_filter_eq
      (run_consistent env pre).separate hsame
  rw [((run_sound env _).refines post).1, ((run_sound env _).refines post).1]
  exact (Machine.outputs_forall₂ (Service.step env) _
    (fun a _ _ hst => hst.perform a) hstates post).1

/-- The answers of two requests in both orders. -/
theorem run_reordered_two_requests :
    List.Forall₂ (fun a o => Action.SameResult packedEnv a o.1 o.2) [.wait 0 [], .wait 1 []]
      ((outcomes packedEnv (run packedEnv ([.submit getCall 0 (accepting 1),
        .submit getCall 0 (accepting 2)] ++
          deliveries [(1, ⟨.unknownspace, "no such space", .none⟩),
            (2, ⟨.timeout, "timed out", .none⟩)])) [.wait 0 [], .wait 1 []]).zip
        (outcomes packedEnv (run packedEnv ([.submit getCall 0 (accepting 1),
          .submit getCall 0 (accepting 2)] ++
            deliveries [(2, ⟨.timeout, "timed out", .none⟩),
              (1, ⟨.unknownspace, "no such space", .none⟩)])) [.wait 0 [], .wait 1 []])) := by
  apply run_reordered
  intro id
  by_cases h1 : id = 1
  · subst h1
    rfl
  · have h1 : ¬ 1 = id := fun h => h1 h.symm
    by_cases h2 : (2 : Int) = id <;> simp [h1, h2]

end HyperDex.Client
