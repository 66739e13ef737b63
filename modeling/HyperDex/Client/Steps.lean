import HyperDex.Client.Invariant

/-!
# Method calls as small steps

The loop of the client hears messages and delivers events. A call of it is one
of three things, a loop until a condition is a sequence of such calls, and every
method call is a sequence of small steps; each step keeps the invariant.
-/
namespace HyperDex.Client
open General Ruby Conversion Decoding

variable {Obj : Type} (env : Env Obj)

/-- What a call of the library in the loop does to the client. -/
inductive LoopStep : World → World → Prop where
  | heard (w : World) (message : String) : LoopStep w (w.hear message)
  | delivered {w : World} {reqid : Int} {p : Pending} (c : Completion) :
      w.lib.outstanding.lookup reqid = some p → c.Fits p.outputs →
      LoopStep w (w.delivered env reqid p (c.place w.lib.arrays.length))

abbrev LoopSteps : World → World → Prop := Relation.ReflTransGen (LoopStep env)

inductive SmallStep : World → World → Prop where
  | loop {w w' : World} : LoopStep env w w' → SmallStep w w'
  | register {w : World} (call : Call) {reqid : Int} : 0 ≤ reqid →
      w.lib.outstanding.lookup reqid = none → SmallStep w (w.register call reqid)
  | read {w : World} {r : Ref} {resp : Response} : w.responses[r]? = some resp →
      resp.kind = .deferred → resp.finished = true →
      SmallStep w (encodeReturn env resp (w.log (.read r))).2
  | take {w : World} {r : Ref} {resp : Response} {e : Entry} {rest : List Entry} :
      w.responses[r]? = some resp → resp.backlog = e :: rest →
      SmallStep w ((w.modify r fun resp => { resp with backlog := rest }).log (.taken r e))

abbrev SmallSteps : World → World → Prop := Relation.ReflTransGen (SmallStep env)

variable {env} {w w' : World}

theorem LoopStep.consistent (h : LoopStep env w w') (hw : Consistent env w) :
    Consistent env w' := by
  cases h with
  | heard message => exact hw.hear message
  | delivered c hp hfits => exact hw.delivered hp _ hfits

theorem LoopSteps.consistent (h : LoopSteps env w w') (hw : Consistent env w) :
    Consistent env w' :=
  Machine.steps_invariant (fun _ _ => LoopStep.consistent) h hw

/-- The memory that a decoding touches, and nothing else. -/
structure MemoryOnly (w w' : World) : Prop where
  responses : w'.responses = w.responses
  ops : w'.ops = w.ops
  outstanding : w'.lib.outstanding = w.lib.outstanding
  message : w'.lib.message = w.lib.message
  trace : ∃ es, w'.trace = w.trace ++ es ∧ ∀ e ∈ es, e.Silent ∧ e.ref? = none

theorem MemoryOnly.refl (w : World) : MemoryOnly w w := ⟨rfl, rfl, rfl, rfl, [], by simp⟩

theorem MemoryOnly.trans {w₁ w₂ w₃ : World} (h : MemoryOnly w₁ w₂) (h' : MemoryOnly w₂ w₃) :
    MemoryOnly w₁ w₃ := by
  rcases h.trace with ⟨es, hes, hsilent⟩
  rcases h'.trace with ⟨es', hes', hsilent'⟩
  refine ⟨h'.responses.trans h.responses, h'.ops.trans h.ops, h'.outstanding.trans h.outstanding,
    h'.message.trans h.message, es ++ es', by rw [hes', hes, List.append_assoc], fun e he => ?_⟩
  exact (List.mem_append.mp he).elim (hsilent e) (hsilent' e)

theorem memoryOnly_decoded (w : World) (p : Option Address) : MemoryOnly w (w.log (.decoded p)) :=
  ⟨rfl, rfl, rfl, rfl, [.decoded p], rfl, by simp [Event.Silent, Event.ref?]⟩

theorem destroyAttrs_memoryOnly (w : World) (p : Option Address) :
    MemoryOnly w (w.destroyAttrs p).2 := by
  have hlog (w' : World) (hresponses : w'.responses = w.responses) (hops : w'.ops = w.ops)
      (houtstanding : w'.lib.outstanding = w.lib.outstanding)
      (hmessage : w'.lib.message = w.lib.message)
      (htrace : w'.trace = w.trace ++ [.destroyed p]) : MemoryOnly w w' :=
    ⟨hresponses, hops, houtstanding, hmessage, [.destroyed p], htrace,
      by simp [Event.Silent, Event.ref?]⟩
  simp only [World.destroyAttrs]
  split
  · exact hlog _ rfl rfl rfl rfl rfl
  · split <;> exact hlog _ rfl rfl rfl rfl rfl

theorem takeAttributes_memoryOnly (p : Option Address) (sz : ℕ) (w : World) :
    MemoryOnly w (takeAttributes env p sz w).2 := by
  have hdecoded := memoryOnly_decoded w p
  simp only [takeAttributes]
  split
  · exact ⟨rfl, rfl, rfl, rfl, hdecoded.trace⟩
  · split
    · exact hdecoded
    · exact Outcome.andThen_state (hdecoded.trans (destroyAttrs_memoryOnly _ p)) fun _ _ h => h

theorem encodeReturn_memoryOnly (env : Env Obj) (resp : Response) (w : World) :
    MemoryOnly w (encodeReturn env resp w).2 := by
  unfold encodeReturn
  repeat' split
  all_goals first | exact takeAttributes_memoryOnly _ _ w | exact MemoryOnly.refl w

theorem SmallStep.consistent (h : SmallStep env w w') (hw : Consistent env w) :
    Consistent env w' := by
  cases h with
  | loop h => exact h.consistent hw
  | register call hpos hfree => exact hw.register call hpos hfree
  | @read r resp hresp _ _ =>
    have hmemory := encodeReturn_memoryOnly env resp (w.log (.read r))
    rcases hmemory.trace with ⟨es, hes, hsilent⟩
    refine hw.silent hmemory.responses hmemory.ops hmemory.outstanding (.read r :: es)
      (hes.trans (List.append_assoc _ _ _)) ?_ ?_
    · intro e he
      rcases List.mem_cons.mp he with rfl | he
      · trivial
      · exact (hsilent e he).1
    · intro e he r' hr'
      rcases List.mem_cons.mp he with rfl | he
      · obtain rfl := Option.some.inj hr'
        exact (List.getElem?_eq_some_iff.mp hresp).1
      · simp [(hsilent e he).2] at hr'
  | take hresp hbacklog => exact hw.taken hresp hbacklog

theorem SmallSteps.consistent (h : SmallSteps env w w') (hw : Consistent env w) :
    Consistent env w' :=
  Machine.steps_invariant (fun _ _ => SmallStep.consistent) h hw

theorem LoopSteps.small (h : LoopSteps env w w') : SmallSteps env w w' :=
  Relation.ReflTransGen.lift id (fun _ _ => SmallStep.loop) _ _ h

theorem Library.admits_eq_some {lib : Library} {reqid : Int} {c : Completion} {p : Pending}
    (h : lib.admits reqid c = some p) :
    lib.outstanding.lookup reqid = some p ∧ c.Fits p.outputs := by
  unfold Library.admits at h
  cases hp : lib.outstanding.lookup reqid with
  | none => simp [hp] at h
  | some p' =>
    by_cases hfits : c.Fits p'.outputs
    · obtain rfl : p' = p := by simpa [hp, hfits] using h
      exact ⟨rfl, hfits⟩
    · simp [hp, hfits] at h

/-- The three results of a call of the loop. -/
inductive Looped (env : Env Obj) (w : World) (script : Script) :
    Outcome Exn Ref × World × Script → Prop where
  /-- the library gives no further result -/
  | pending (message : String) (rest : Script) :
      Looped env w script (.pending, w.hear message, rest)
  /-- a failure of the client -/
  | failed (rc : ReturnCode) (message : String) (rest : Script) : .failed rc message ∈ script →
      rc ≠ .interrupted →
      Looped env w script
        (.raised (exception env.objectSpace rc message), w.hear message, rest)
  /-- an event of an outstanding request -/
  | delivered {reqid : Int} {p : Pending} (c : Completion) (rest : Script) :
      .yielded reqid c ∈ script → w.lib.outstanding.lookup reqid = some p → c.Fits p.outputs →
      rest ⊆ script → rest.length < script.length →
      Looped env w script (p.outcome env (c.place w.lib.arrays.length),
        w.delivered env reqid p (c.place w.lib.arrays.length), rest)

theorem clientLoop_looped (script : Script) (w : World) (hw : Consistent env w) :
    Looped env w script (clientLoop env script w) := by
  induction script generalizing w with
  | nil => exact .pending w.lib.message []
  | cons answer script ih =>
    cases answer with
    | failed rc message =>
      rw [clientLoop]
      by_cases hrc : rc = .interrupted
      · rw [if_neg (not_not.mpr hrc)]
        have hrest := ih (w.hear message) (hw.hear message)
        generalize clientLoop env script (w.hear message) = x at hrest
        cases hrest with
        | pending message' rest => exact .pending message' rest
        | failed rc' message' rest hmem hne =>
          exact .failed rc' message' rest (List.mem_cons_of_mem _ hmem) hne
        | delivered c rest hmem hp hfits hsub hlt =>
          exact .delivered c rest (List.mem_cons_of_mem _ hmem) hp hfits
            (List.subset_cons_of_subset _ hsub) (Nat.lt_succ_of_lt hlt)
      · rw [if_pos hrc]
        exact .failed rc message script List.mem_cons_self hrc
    | yielded reqid c =>
      rw [clientLoop]
      cases hadmits : w.lib.admits reqid c with
      | none => exact .pending w.lib.message script
      | some p =>
        rcases Library.admits_eq_some hadmits with ⟨hp, hfits⟩
        rcases hw.bound reqid p hp with ⟨resp, hresp, hbound⟩
        have hops : w.ops.lookup reqid = some p.ref := by rw [hw.ops, hp]; rfl
        simp only [deliver_eq env hops hresp hbound hfits]
        exact .delivered c script List.mem_cons_self hp hfits (List.subset_cons_self _ _)
          (Nat.lt_succ_self _)

theorem Looped.steps {script : Script} {x : Outcome Exn Ref × World × Script}
    (h : Looped env w script x) : LoopSteps env w x.2.1 := by
  cases h with
  | pending message rest => exact .single (.heard w message)
  | failed rc message rest => exact .single (.heard w message)
  | delivered c rest _ hp hfits => exact .single (.delivered c hp hfits)

/-- The steps up to the first state that meets a condition. -/
def StepsUntil (env : Env Obj) (done : World → Bool) (w w' : World) : Prop :=
  w' = w ∨ ∃ w₁, LoopSteps env w w₁ ∧ done w₁ = false ∧ LoopStep env w₁ w'

theorem StepsUntil.steps {done : World → Bool} (h : StepsUntil env done w w') :
    LoopSteps env w w' := by
  rcases h with rfl | ⟨w₁, hsteps, -, hstep⟩
  · exact .refl
  · exact .tail hsteps hstep

theorem StepsUntil.prepend {done : World → Bool} {w₁ : World} (hstep : LoopStep env w w₁)
    (hopen : done w = false) (h : StepsUntil env done w₁ w') : StepsUntil env done w w' := by
  rcases h with rfl | ⟨w₂, hsteps, hopen₂, hlast⟩
  · exact .inr ⟨w, .refl, hopen, hstep⟩
  · exact .inr ⟨w₂, .head hstep hsteps, hopen₂, hlast⟩

/-- How a loop until a condition ends. -/
inductive LoopedUntil (env : Env Obj) (done : World → Bool) (w : World) (script : Script) :
    Outcome Exn Unit × World × Script → Prop where
  | returned {w' : World} (rest : Script) : StepsUntil env done w w' → done w' = true →
      LoopedUntil env done w script (.returned (), w', rest)
  | pending {w' : World} (rest : Script) : LoopSteps env w w' → done w' = false →
      LoopedUntil env done w script (.pending, w', rest)
  /-- a failure of the client -/
  | failed {w' : World} (rc : ReturnCode) (message : String) (rest : Script) :
      LoopSteps env w w' → done w' = false → .failed rc message ∈ script → rc ≠ .interrupted →
      LoopedUntil env done w script
        (.raised (exception env.objectSpace rc message), w'.hear message, rest)
  /-- a record that its search cannot decode -/
  | undecodable {w' : World} {reqid : Int} {p : Pending} {e : Exn} (c : Completion)
      (rest : Script) :
      LoopSteps env w w' → done w' = false → w'.lib.outstanding.lookup reqid = some p →
      c.Fits p.outputs → p.kind.decodingError env (c.place w'.lib.arrays.length) = some e →
      LoopedUntil env done w script
        (.raised e, w'.delivered env reqid p (c.place w'.lib.arrays.length), rest)

theorem LoopedUntil.prepend {done : World → Bool} {w₁ : World} {script rest : Script}
    {x : Outcome Exn Unit × World × Script} (hstep : LoopStep env w w₁) (hopen : done w = false)
    (hsub : rest ⊆ script) (h : LoopedUntil env done w₁ rest x) :
    LoopedUntil env done w script x := by
  cases h with
  | returned rest' hsteps hend => exact .returned rest' (hsteps.prepend hstep hopen) hend
  | pending rest' hsteps hend => exact .pending rest' (.head hstep hsteps) hend
  | failed rc message rest' hsteps hend hmem hne =>
    exact .failed rc message rest' (.head hstep hsteps) hend (hsub hmem) hne
  | undecodable c rest' hsteps hend hp hfits herror =>
    exact .undecodable c rest' (.head hstep hsteps) hend hp hfits herror

theorem loopUntil_loopedUntil (env : Env Obj) (done : World → Bool)
    (hdone : ∀ w message, done (w.hear message) = done w) (n : ℕ) (script : Script) (w : World)
    (hw : Consistent env w) (hn : script.length < n) :
    LoopedUntil env done w script (loopUntil env done n w script) := by
  induction n generalizing script w with
  | zero => exact absurd hn (Nat.not_lt_zero _)
  | succ n ih =>
    rw [loopUntil]
    by_cases hend : done w = true
    · rw [if_pos hend]
      exact .returned script (.inl rfl) hend
    · rw [if_neg hend]
      have hend : done w = false := by simpa using hend
      have hlooped := clientLoop_looped script w hw
      have hsteps := hlooped.steps
      generalize clientLoop env script w = x at hlooped hsteps
      cases hlooped with
      | pending message rest =>
        exact .pending rest hsteps (by rw [hdone]; exact hend)
      | failed rc message rest hmem hne =>
        exact .failed rc message rest .refl hend hmem hne
      | @delivered reqid p c rest hmem hp hfits hsub hlt =>
        rw [Pending.outcome]
        cases herror : p.kind.decodingError env (c.place w.lib.arrays.length) with
        | some e => exact .undecodable c rest .refl hend hp hfits herror
        | none =>
          have hstep : LoopStep env w (w.delivered env reqid p (c.place w.lib.arrays.length)) :=
            .delivered c hp hfits
          exact (ih rest _ (hstep.consistent hw) (by omega)).prepend hstep hend hsub

/-- Events reach a response object only through its cells, its flag and the end of its backlog. -/
structure Response.Extends (resp resp' : Response) : Prop where
  kind : resp'.kind = resp.kind
  reqid : resp'.reqid = resp.reqid
  backlog : resp.backlog <+: resp'.backlog
  finished : resp.finished = true → resp' = resp

theorem Response.Extends.refl (resp : Response) : resp.Extends resp :=
  ⟨rfl, rfl, List.prefix_refl _, fun _ => rfl⟩

theorem Response.Extends.trans {r₁ r₂ r₃ : Response} (h : r₁.Extends r₂) (h' : r₂.Extends r₃) :
    r₁.Extends r₃ where
  kind := h'.kind.trans h.kind
  reqid := h'.reqid.trans h.reqid
  backlog := h.backlog.trans h'.backlog
  finished hfin := by
    obtain rfl := h.finished hfin
    exact h'.finished hfin

theorem LoopStep.extends (h : LoopStep env w w') (hw : Consistent env w) {r : Ref} {resp : Response}
    (hresp : w.responses[r]? = some resp) :
    ∃ resp', w'.responses[r]? = some resp' ∧ resp.Extends resp' := by
  cases h with
  | heard message => exact ⟨resp, hresp, .refl resp⟩
  | @delivered reqid p c hp hfits =>
    by_cases hr : p.ref = r
    · subst hr
      rcases hw.bound reqid p hp with ⟨resp₀, hresp₀, hbound⟩
      obtain rfl : resp = resp₀ := Option.some.inj (hresp.symm.trans hresp₀)
      have hself : (w.delivered env reqid p (c.place w.lib.arrays.length)).responses[p.ref]? =
          some (p.receive env (c.place w.lib.arrays.length) resp) := by
        simp [World.delivered, hresp]
      refine ⟨_, hself, rfl, rfl, List.prefix_append _ _, fun hfin => ?_⟩
      rw [hbound.unfinished] at hfin
      exact absurd hfin (by decide)
    · exact ⟨resp, by simp only [World.delivered, List.getElem?_modify_ne _ _ hr, hresp],
        .refl resp⟩

theorem LoopSteps.extends (h : LoopSteps env w w') (hw : Consistent env w) {r : Ref}
    {resp : Response} (hresp : w.responses[r]? = some resp) :
    ∃ resp', w'.responses[r]? = some resp' ∧ resp.Extends resp' := by
  have hkept := Machine.steps_invariant (I := fun v => Consistent env v ∧
    ∃ resp', v.responses[r]? = some resp' ∧ resp.Extends resp') ?_ h ⟨hw, resp, hresp, .refl resp⟩
  · exact hkept.2
  · rintro v v' hstep ⟨hv, resp₁, hresp₁, hext₁⟩
    rcases hstep.extends hv hresp₁ with ⟨resp₂, hresp₂, hext₂⟩
    exact ⟨hstep.consistent hv, resp₂, hresp₂, hext₁.trans hext₂⟩

theorem LoopSteps.extends_of_response (h : LoopSteps env w w') (hw : Consistent env w) {r : Ref}
    {resp resp' : Response} (hresp : w.responses[r]? = some resp)
    (hresp' : w'.responses[r]? = some resp') : resp.Extends resp' := by
  rcases LoopSteps.extends h hw hresp with ⟨resp₁, hresp₁, hext⟩
  obtain rfl : resp' = resp₁ := Option.some.inj (hresp'.symm.trans hresp₁)
  exact hext

theorem kindOf_of_response {r : Ref} {resp : Response} {kind : Kind}
    (hresp : w.responses[r]? = some resp) (hkind : resp.kind = kind) : w.kindOf r = some kind := by
  rw [World.kindOf, hresp, ← hkind]
  rfl

theorem kindOf_eq_some {r : Ref} {kind : Kind} (h : w.kindOf r = some kind) :
    ∃ resp, w.responses[r]? = some resp ∧ resp.kind = kind := by
  simpa [World.kindOf] using h

/-- How a wait on a Deferred ends. -/
inductive Waited (env : Env Obj) (r : Ref) (w : World) (script : Script) :
    Outcome Exn Value × World → Prop where
  | read {w' : World} {resp : Response} : LoopSteps env w w' → w'.responses[r]? = some resp →
      resp.finished = true → Waited env r w script (encodeReturn env resp (w'.log (.read r)))
  | pending {w' : World} {resp : Response} : LoopSteps env w w' → w'.responses[r]? = some resp →
      resp.finished = false → Waited env r w script (.pending, w')
  | failed {w' : World} (rc : ReturnCode) (message : String) : LoopSteps env w w' →
      .failed rc message ∈ script → rc ≠ .interrupted →
      Waited env r w script (.raised (exception env.objectSpace rc message), w'.hear message)
  | undecodable {w' : World} {reqid : Int} {p : Pending} {e : Exn} (c : Completion) :
      LoopSteps env w w' → w'.lib.outstanding.lookup reqid = some p → c.Fits p.outputs →
      p.kind.decodingError env (c.place w'.lib.arrays.length) = some e →
      Waited env r w script
        (.raised e, w'.delivered env reqid p (c.place w'.lib.arrays.length))

/-- The condition of a wait: its response object has an identifier, so it has to be finished. -/
theorem waitDone_eq (hw : Consistent env w) {r : Ref} {resp : Response}
    (hresp : w.responses[r]? = some resp) : waitDone r w = resp.finished := by
  rcases hw.opened r resp hresp with ⟨id, hid, -⟩
  simp [waitDone, hresp, hid]

theorem waitLoop_loopedUntil (r : Ref) (script : Script) (hw : Consistent env w) :
    LoopedUntil env (waitDone r) w script (waitLoop env r script w) :=
  loopUntil_loopedUntil env (waitDone r) (fun _ _ => rfl) (script.length + 1) script w hw
    (Nat.lt_succ_self _)

theorem wait_waited {r : Ref} {resp : Response} (script : Script) (hw : Consistent env w)
    (hresp : w.responses[r]? = some resp) : Waited env r w script (wait env r script w) := by
  have hloop := waitLoop_loopedUntil r script hw
  rw [wait]
  generalize waitLoop env r script w = x at hloop
  cases hloop with
  | returned rest huntil hend =>
    have hsteps := huntil.steps
    rcases LoopSteps.extends hsteps hw hresp with ⟨resp', hresp', -⟩
    rw [waitDone_eq (LoopSteps.consistent hsteps hw) hresp'] at hend
    simp only [Outcome.andThen, hresp']
    exact .read hsteps hresp' hend
  | pending rest hsteps hend =>
    rcases LoopSteps.extends hsteps hw hresp with ⟨resp', hresp', -⟩
    rw [waitDone_eq (LoopSteps.consistent hsteps hw) hresp'] at hend
    exact .pending hsteps hresp' hend
  | failed rc message rest hsteps _ hmem hne => exact .failed rc message hsteps hmem hne
  | undecodable c rest hsteps _ hp hfits herror => exact .undecodable c hsteps hp hfits herror

/-- How a call of `has_next?` ends. -/
inductive Asked (env : Env Obj) (r : Ref) (w : World) (script : Script) :
    Outcome Exn Bool × World → Prop where
  | answered {w' : World} {resp : Response} : LoopSteps env w w' → w'.responses[r]? = some resp →
      (resp.finished = true ∨ resp.backlog ≠ []) →
      Asked env r w script (.returned (!resp.backlog.isEmpty), w')
  | pending {w' : World} {resp : Response} : LoopSteps env w w' → w'.responses[r]? = some resp →
      resp.finished = false → resp.backlog = [] → Asked env r w script (.pending, w')
  | failed {w' : World} (rc : ReturnCode) (message : String) : LoopSteps env w w' →
      .failed rc message ∈ script → rc ≠ .interrupted →
      Asked env r w script (.raised (exception env.objectSpace rc message), w'.hear message)
  | undecodable {w' : World} {reqid : Int} {p : Pending} {e : Exn} (c : Completion) :
      LoopSteps env w w' → w'.lib.outstanding.lookup reqid = some p → c.Fits p.outputs →
      p.kind.decodingError env (c.place w'.lib.arrays.length) = some e →
      Asked env r w script
        (.raised e, w'.delivered env reqid p (c.place w'.lib.arrays.length))

theorem hasNextDone_eq {r : Ref} {resp : Response} (hresp : w.responses[r]? = some resp) :
    hasNextDone r w = (resp.finished || !resp.backlog.isEmpty) := by
  simp only [hasNextDone, hresp, Response.itemAvailable]
  cases resp.finished <;> simp

theorem hasNext_asked {r : Ref} {resp : Response} (script : Script) (hw : Consistent env w)
    (hresp : w.responses[r]? = some resp) : Asked env r w script (hasNext env r script w) := by
  have hloop := loopUntil_loopedUntil env (hasNextDone r) (fun _ _ => rfl)
    (script.length + 1) script w hw (Nat.lt_succ_self _)
  rw [hasNext]
  generalize loopUntil env (hasNextDone r) (script.length + 1) w script = x at hloop
  cases hloop with
  | returned rest huntil hend =>
    have hsteps := huntil.steps
    rcases LoopSteps.extends hsteps hw hresp with ⟨resp', hresp', -⟩
    rw [hasNextDone_eq hresp'] at hend
    simp only [Outcome.andThen, hresp']
    exact .answered hsteps hresp' (by simpa using hend)
  | pending rest hsteps hend =>
    rcases LoopSteps.extends hsteps hw hresp with ⟨resp', hresp', -⟩
    rw [hasNextDone_eq hresp'] at hend
    have hend : resp'.finished = false ∧ resp'.backlog = [] := by simpa using hend
    exact .pending hsteps hresp' hend.1 hend.2
  | failed rc message rest hsteps _ hmem hne => exact .failed rc message hsteps hmem hne
  | undecodable c rest hsteps _ hp hfits herror => exact .undecodable c hsteps hp hfits herror

theorem Waited.steps {r : Ref} {resp : Response} {script : Script} {x : Outcome Exn Value × World}
    (h : Waited env r w script x) (hw : Consistent env w) (hresp : w.responses[r]? = some resp)
    (hkind : resp.kind = .deferred) : SmallSteps env w x.2 := by
  cases h with
  | @read w' resp' hsteps hresp' hfin =>
    have hext := LoopSteps.extends_of_response hsteps hw hresp hresp'
    exact .tail (LoopSteps.small hsteps) (.read hresp' (hext.kind.trans hkind) hfin)
  | pending hsteps _ _ => exact LoopSteps.small hsteps
  | failed rc message hsteps _ _ => exact LoopSteps.small (.tail hsteps (.heard _ message))
  | undecodable c hsteps hp hfits _ => exact LoopSteps.small (.tail hsteps (.delivered c hp hfits))

theorem Asked.steps {r : Ref} {script : Script} {x : Outcome Exn Bool × World}
    (h : Asked env r w script x) : LoopSteps env w x.2 := by
  cases h with
  | answered hsteps _ _ => exact hsteps
  | pending hsteps _ _ _ => exact hsteps
  | failed rc message hsteps _ _ => exact .tail hsteps (.heard _ message)
  | undecodable c hsteps hp hfits _ => exact .tail hsteps (.delivered c hp hfits)

/-- The two ends of a submission. -/
inductive Submitted (env : Env Obj) (call : Call) (rounds : ℕ) (answer : SubmissionAnswer)
    (w : World) : Outcome Exn Ref × World → Prop where
  | accepted {args : List Argument} : call.convert env.ds rounds = .returned args →
      0 ≤ answer.reqid → w.lib.outstanding.lookup answer.reqid = none →
      Submitted env call rounds answer w (.returned w.responses.length,
        (w.hear answer.message).register call answer.reqid)
  | rejected (x : Outcome Exn Ref) (message : String) : (∀ r, x ≠ .returned r) →
      Submitted env call rounds answer w (x, w.hear message)

theorem submit_submitted (call : Call) (rounds : ℕ) (answer : SubmissionAnswer) (w : World) :
    Submitted env call rounds answer w (submit env call rounds answer w) := by
  rw [submit]
  cases hconvert : call.convert env.ds rounds with
  | raised e => exact .rejected _ w.lib.message (by simp)
  | pending => exact .rejected _ w.lib.message (by simp)
  | undefined => exact .rejected _ w.lib.message (by simp)
  | returned args =>
    rw [Outcome.andThen]
    by_cases hneg : answer.reqid < 0
    · rw [if_pos hneg]
      exact .rejected _ answer.message (by simp)
    · rw [if_neg hneg]
      cases hp : w.lib.outstanding.lookup answer.reqid with
      | none =>
        rw [if_neg (by simp [World.hear, hp])]
        exact .accepted hconvert (Int.not_lt.mp hneg) hp
      | some p =>
        rw [if_pos (by simp [World.hear, hp])]
        exact .rejected _ answer.message (by simp)

theorem Submitted.steps {call : Call} {rounds : ℕ} {answer : SubmissionAnswer}
    {x : Outcome Exn Ref × World} (h : Submitted env call rounds answer w x) :
    SmallSteps env w x.2 := by
  have hhear (message : String) : SmallSteps env w (w.hear message) :=
    .single (.loop (.heard w message))
  cases h with
  | accepted _ hpos hfree => exact .tail (hhear answer.message) (.register call hpos hfree)
  | rejected x message _ => exact hhear message

theorem next_steps (r : Ref) (w : World) : SmallSteps env w (next r w).2 := by
  rw [next]
  cases hresp : w.responses[r]? with
  | none => exact .refl
  | some resp =>
    cases hbacklog : resp.backlog with
    | nil => simpa [hbacklog] using Relation.ReflTransGen.refl
    | cons e rest => simpa [hbacklog] using Relation.ReflTransGen.single (.take hresp hbacklog)

theorem act_steps (a : Action) (hw : Consistent env w) : SmallSteps env w (act env a w).2 := by
  cases a with
  | submit call rounds answer =>
    exact Outcome.andThen_state (submit_submitted call rounds answer w).steps fun _ _ h => h
  | loop script =>
    exact Outcome.andThen_state (x := ((clientLoop env script w).1, (clientLoop env script w).2.1))
      (LoopSteps.small (clientLoop_looped script w hw).steps) fun _ _ h => h
  | wait r script =>
    rw [act]
    split
    · next hkind =>
      rcases kindOf_eq_some hkind with ⟨resp, hresp, hdeferred⟩
      exact Outcome.andThen_state ((wait_waited script hw hresp).steps hw hresp hdeferred)
        fun _ _ h => h
    · exact .refl
  | hasNext r script =>
    rw [act]
    split
    · next hkind =>
      rcases kindOf_eq_some hkind with ⟨resp, hresp, -⟩
      exact Outcome.andThen_state (LoopSteps.small (hasNext_asked script hw hresp).steps)
        fun _ _ h => h
    · exact .refl
  | next r =>
    rw [act]
    split
    · exact next_steps r w
    · exact .refl

theorem step_steps (a : Action) (hw : Consistent env w) : SmallSteps env w (step env a w) := by
  rw [step, perform]
  split
  · exact .refl
  · exact act_steps a hw

theorem Consistent.run (hw : Consistent env w) (as : List Action) :
    Consistent env (Machine.run (step env) w as) :=
  Machine.run_invariant (step env) (fun a _ hw => SmallSteps.consistent (step_steps a hw) hw) hw as

variable (env)

theorem run_consistent (as : List Action) : Consistent env (run env as) :=
  (consistent_initial env).run as

/-- The trace grows, and a response object keeps its class. -/
structure World.Continues (w w' : World) : Prop where
  trace : w.trace <+: w'.trace
  kindOf : ∀ r kind, w.kindOf r = some kind → w'.kindOf r = some kind

theorem World.Continues.refl (w : World) : w.Continues w := ⟨List.prefix_refl _, fun _ _ h => h⟩

theorem World.Continues.trans {w₁ w₂ w₃ : World} (h : w₁.Continues w₂) (h' : w₂.Continues w₃) :
    w₁.Continues w₃ :=
  ⟨h.trace.trans h'.trace, fun r kind hr => h'.kindOf r kind (h.kindOf r kind hr)⟩

variable {env}

theorem LoopStep.continues (h : LoopStep env w w') (hw : Consistent env w) : w.Continues w' := by
  refine ⟨?_, fun r kind hr => ?_⟩
  · cases h with
    | heard message => exact List.prefix_refl _
    | delivered c hp hfits => exact List.prefix_append _ _
  · rcases kindOf_eq_some hr with ⟨resp, hresp, rfl⟩
    rcases h.extends hw hresp with ⟨resp', hresp', hext⟩
    exact kindOf_of_response hresp' hext.kind

theorem SmallStep.continues (h : SmallStep env w w') (hw : Consistent env w) : w.Continues w' := by
  cases h with
  | loop h => exact h.continues hw
  | register call hpos hfree =>
    refine ⟨List.prefix_append _ _, fun r kind hr => ?_⟩
    rcases kindOf_eq_some hr with ⟨resp, hresp, rfl⟩
    have hlt : r < w.responses.length := (List.getElem?_eq_some_iff.mp hresp).1
    simp [World.kindOf, World.register, List.getElem?_append_left hlt, hresp]
  | @read r resp _ _ _ =>
    have hmemory := encodeReturn_memoryOnly env resp (w.log (.read r))
    rcases hmemory.trace with ⟨es, hes, -⟩
    refine ⟨⟨.read r :: es, ?_⟩, fun r' kind hr => ?_⟩
    · rw [hes]
      simp [World.log]
    · rw [World.kindOf, hmemory.responses]
      exact hr
  | @take r resp e rest _ _ =>
    refine ⟨List.prefix_append _ _, fun r' kind hr => ?_⟩
    rcases kindOf_eq_some hr with ⟨resp', hresp', rfl⟩
    by_cases heq : r = r' <;>
      simp [World.kindOf, World.log, World.modify, heq, hresp']

theorem SmallSteps.continues (h : SmallSteps env w w') (hw : Consistent env w) :
    w.Continues w' :=
  Machine.steps_related (r := SmallStep env) World.Continues.refl
    (fun _ _ _ => World.Continues.trans) (fun _ _ hstep => hstep.consistent)
    (fun _ _ hstep => hstep.continues) h hw

theorem Consistent.continues (hw : Consistent env w) (as : List Action) :
    w.Continues (Machine.run (step env) w as) :=
  Machine.run_related (step env) World.Continues.refl (fun _ _ _ => World.Continues.trans)
    (fun a _ hw => SmallSteps.consistent (step_steps a hw) hw)
    (fun a _ hw => SmallSteps.continues (step_steps a hw) hw) hw as

variable (env)

theorem run_append (as bs : List Action) :
    run env (as ++ bs) = Machine.run (step env) (run env as) bs :=
  Machine.run_append (step env) .initial as bs

theorem run_continues (as bs : List Action) : (run env as).Continues (run env (as ++ bs)) := by
  rw [run_append]
  exact (run_consistent env as).continues bs

end HyperDex.Client
