import HyperDex.Client.Ownership

/-!
# Arrays handed to Deferreds and Iterators

The library expects every array back exactly once. It gets it back from the
first use of a decodable array, so an undecodable array is never returned, and
a second wait on a Deferred decodes and may return an array that is gone.
-/
namespace HyperDex.Client
open General Ruby Conversion Decoding

variable {Obj : Type} (env : Env Obj)

def outcomes : World → List Action → List (Outcome Exn Result)
  | _, [] => []
  | w, a :: as => (perform env a w).1 :: outcomes (step env a w) as

def Awaited (as : List Action) (r : Ref) : Prop :=
  ∃ pre script post, as = pre ++ .wait r script :: post ∧ (run env pre).kindOf r = some .deferred

/-- The array was handed to an Iterator, or to a Deferred on which `wait` is called. -/
def Consumed (as : List Action) (r : Ref) (a : Address) (attrs : List Attribute) : Prop :=
  (run env as).Handed r a attrs ∧ ((run env as).kindOf r = some .iterator ∨ Awaited env as r)

def World.Done (w : World) (r : Ref) : Prop :=
  ∃ resp, w.responses[r]? = some resp ∧ resp.kind = .deferred ∧ resp.finished = true

/-- Arrays are handed back once and not decoded afterwards, and successive waits agree. -/
structure Owned (as : List Action) : Prop where
  destroyed : ∀ r a attrs, Consumed env as r a attrs →
    (touches a (run env as).trace).count .destroy = 1
  unread : ∀ r a attrs, Consumed env as r a attrs →
    ¬ [Touch.destroy, .decode].Sublist (touches a (run env as).trace)
  waits : ∀ pre (scripts : List Script) post r, as = pre ++ scripts.map (.wait r) ++ post →
    (run env pre).Done r →
      ∃ o, ∀ x ∈ outcomes env (run env pre) (scripts.map (.wait r)), x = o

/-- Every array is decodable, and exactly one wait on its Deferred gets to it. -/
def Sparing (as : List Action) : Prop :=
  ∀ r a attrs, Consumed env as r a attrs → Decodable env attrs ∧ (run env as).uses r = 1

theorem count_lifecycle_of_undecodable {attrs : List Attribute} (h : ¬ Decodable env attrs)
    (n : ℕ) :
    (lifecycle env attrs n).count .destroy = 0 := by
  induction n with
  | zero => rfl
  | succ n ih => simp [lifecycle, use, h, ih]

/-- The lifecycle of an array is in order exactly when the array is decodable and used once. -/
theorem lifecycle_owned_iff (attrs : List Attribute) (n : ℕ) :
    ((lifecycle env attrs n).count .destroy = 1 ∧
      ¬ [Touch.destroy, .decode].Sublist (lifecycle env attrs n)) ↔
    Decodable env attrs ∧ n = 1 := by
  by_cases hgood : Decodable env attrs
  · match n with
    | 0 => simp [lifecycle]
    | 1 =>
      have hone : lifecycle env attrs 1 = [.decode, .destroy] := by simp [lifecycle, use, hgood]
      have hunread : ¬ [Touch.destroy, .decode].Sublist [.decode, .destroy] := by decide
      simp [hone, hgood, hunread]
    | n + 2 =>
      have hdestroy : [Touch.destroy].Sublist (lifecycle env attrs (n + 1)) := by
        rw [List.singleton_sublist]
        induction n with
        | zero => simp [lifecycle, use, hgood]
        | succ n ih => exact List.mem_append_left _ ih
      have hdecode : [Touch.decode].Sublist (use env attrs (n + 1)) := by simp [use]
      have hbad : [Touch.destroy, .decode].Sublist (lifecycle env attrs (n + 2)) :=
        hdestroy.append hdecode
      simp [hbad]
  · simp [count_lifecycle_of_undecodable env hgood, hgood]

section Waits
variable {env} {w : World} {r : Ref} {resp : Response}

theorem perform_wait (hcrashed : w.crashed = false) (hresp : w.responses[r]? = some resp)
    (hkind : resp.kind = .deferred) (hfin : resp.finished = true) (script : Script) :
    perform env (.wait r script) w =
      Outcome.andThen (encodeReturn env resp (w.log (.read r))) fun v w =>
        (.returned (.value v), w) := by
  have hkindr := kindOf_of_response hresp hkind
  have hdone : waitDone r w = true := by simp [waitDone, hresp, hfin]
  simp [perform, hcrashed, act, hkindr, wait, waitLoop, loopUntil, hdone, Outcome.andThen, hresp]

theorem outcomes_of_crashed (hcrashed : w.crashed = true) (as : List Action) :
    ∀ x ∈ outcomes env w as, x = .undefined := by
  have hperform (a : Action) : perform env a w = (.undefined, w) := by simp [perform, hcrashed]
  induction as with
  | nil => simp [outcomes]
  | cons a as ih => simpa [outcomes, step, hperform] using ih

theorem outcomes_of_cells {y : Yield} {outputs : Outputs} (hmarks : resp.Marks outputs)
    (hfits : y.Fits outputs) (hcells : resp.cells = Cells.initial.fill y)
    (houtput : ∀ attrs, y.output ≠ .attributes attrs) (hkind : resp.kind = .deferred)
    (hfin : resp.finished = true) (scripts : List Script) (w : World)
    (hcrashed : w.crashed = false) (hresp : w.responses[r]? = some resp) :
    ∀ x ∈ outcomes env w (scripts.map (.wait r)),
      x = (y.value env w.lib.message >>= fun v => .returned (.value v)) := by
  induction scripts generalizing w with
  | nil => simp [outcomes]
  | cons script scripts ih =>
    have hperform : perform env (.wait r script) w =
        (y.value env w.lib.message >>= fun v => .returned (.value v), w.log (.read r)) := by
      rw [perform_wait hcrashed hresp hkind hfin script,
        encodeReturn_cells hmarks hfits hcells houtput]
      cases hvalue : y.value env w.lib.message <;> simp [World.log, hvalue, Outcome.andThen]
    intro x hx
    rw [List.map_cons, outcomes, hperform, List.mem_cons, step, hperform] at hx
    rcases hx with rfl | hx
    · rfl
    · exact ih (w.log (.read r)) hcrashed hresp x hx

theorem reads_le_of_continues {w' : World} (h : w.Continues w') (r : Ref) :
    reads r w.trace ≤ reads r w'.trace := by
  rcases h.trace with ⟨es, hes⟩
  rw [← hes, reads_append]
  exact Nat.le_add_right _ _

theorem World.Handed.continues {w' : World} {a : Address} {attrs : List Attribute}
    (hr : w.Handed r a attrs) (h : w.Continues w') : w'.Handed r a attrs := by
  rcases hr with ⟨id, y, closes, hmem, hy⟩
  exact ⟨id, y, closes, h.trace.subset hmem, hy⟩

theorem step_wait (hc : Consistent env w) (hw : Accounted env w) (hcrashed : w.crashed = false)
    (hresp : w.responses[r]? = some resp) (hkind : resp.kind = .deferred)
    (hfin : resp.finished = true) (script : Script) :
    (step env (.wait r script) w).responses = w.responses ∧
      reads r (step env (.wait r script) w).trace = reads r w.trace + 1 ∧
      ((step env (.wait r script) w).crashed = true → reads r w.trace ≠ 0) := by
  rcases hw.reading hc hresp hkind hfin with ⟨y, hy, hreading⟩
  have hstate : step env (.wait r script) w = (encodeReturn env resp (w.log (.read r))).2 := by
    rw [step, perform_wait hcrashed hresp hkind hfin script]
    generalize encodeReturn env resp (w.log (.read r)) = x
    rcases x with ⟨x, w'⟩
    cases x <;> rfl
  have hmemory := encodeReturn_memoryOnly env resp (w.log (.read r))
  rcases hmemory.trace with ⟨es, hes, hsilent⟩
  rw [hstate]
  refine ⟨hmemory.responses, ?_, ?_⟩
  · have hnone : reads r es = 0 := by
      rw [reads, List.countP_eq_zero]
      intro e he hread
      have href := (hsilent e he).2
      cases e <;> simp_all [Event.isRead, Event.ref?]
    rw [hes, World.log, reads_append, reads_append, hnone]
    simp [reads, Event.isRead]
  · generalize encodeReturn env resp (w.log (.read r)) = x at hreading
    cases hreading with
    | cells _ => exact fun h => absurd (hcrashed.symm.trans h) (by decide)
    | undecodable _ _ _ => exact fun h => absurd (hcrashed.symm.trans h) (by decide)
    | decoded _ _ _ => exact fun h => absurd (hcrashed.symm.trans h) (by decide)
    | freed houtput hencode hgone =>
      intro _ hzero
      have halive := (hw.alive_iff ((World.handed_iff hy).mpr ⟨houtput, rfl⟩)
        (kindOf_of_response hresp hkind) ⟨_, hencode⟩).mpr hzero
      exact absurd (hgone.symm.trans halive) (by simp)

end Waits

/-- Where arrays are used sparingly, a second wait on a finished Deferred finds no array. -/
theorem Sparing.waits {as : List Action} (h : Sparing env as) (pre : List Action)
    (scripts : List Script) (post : List Action) (r : Ref)
    (has : as = pre ++ scripts.map (.wait r) ++ post) (hdone : (run env pre).Done r) :
    ∃ o, ∀ x ∈ outcomes env (run env pre) (scripts.map (.wait r)), x = o := by
  rcases hdone with ⟨resp, hresp, hkind, hfin⟩
  have hc := run_consistent env pre
  have hw := run_accounted env pre
  cases hcrashed : (run env pre).crashed with
  | true => exact ⟨_, outcomes_of_crashed hcrashed _⟩
  | false =>
    rcases hc.answered hresp hkind hfin with ⟨y, outputs, hy, hcells, hmarks, hfits⟩
    by_cases houtput : ∃ attrs, y.output = .attributes attrs
    · rcases houtput with ⟨attrs, houtput⟩
      match scripts with
      | [] => exact ⟨.undefined, by simp [outcomes]⟩
      | [script] => exact ⟨(perform env (.wait r script) (run env pre)).1, by simp [outcomes]⟩
      | script :: script' :: scripts =>
        exfalso
        have hfirst : run env (pre ++ [.wait r script]) = step env (.wait r script) (run env pre) :=
          run_append env pre [.wait r script]
        have hsecond : run env (pre ++ [.wait r script] ++ [.wait r script']) =
            step env (.wait r script') (run env (pre ++ [.wait r script])) :=
          run_append env (pre ++ [.wait r script]) [.wait r script']
        rcases step_wait hc hw hcrashed hresp hkind hfin script with ⟨hresponses, hreads, hcrash⟩
        rw [← hfirst] at hresponses hreads hcrash
        -- the first wait already was the second use, or both waits use the array
        have htwice :
            2 ≤ reads r (run env (pre ++ [.wait r script] ++ [.wait r script'])).trace := by
          cases hcrashed' : (run env (pre ++ [.wait r script])).crashed with
          | true =>
            have hmono := reads_le_of_continues
              (run_continues env (pre ++ [.wait r script]) [.wait r script']) r
            have hused := hcrash hcrashed'
            omega
          | false =>
            have hreads' := (step_wait (run_consistent env _) (run_accounted env _) hcrashed'
              (hresponses ▸ hresp) hkind hfin script').2.1
            rw [hsecond, hreads', hreads]
            omega
        have hsplit : as = pre ++ [.wait r script] ++ [.wait r script'] ++
            (scripts.map (.wait r) ++ post) := by simp [has]
        have hmono := reads_le_of_continues (run_continues env
          (pre ++ [.wait r script] ++ [.wait r script']) (scripts.map (.wait r) ++ post)) r
        rw [← hsplit] at hmono
        have hrest : as = pre ++ (.wait r script :: .wait r script' ::
            (scripts.map (.wait r) ++ post)) := by simp [has]
        have hcontinues := run_continues env pre
          (.wait r script :: .wait r script' :: (scripts.map (.wait r) ++ post))
        rw [← hrest] at hcontinues
        have hkindr := kindOf_of_response hresp hkind
        have hhanded : (run env pre).Handed r y.address attrs :=
          (World.handed_iff hy).mpr ⟨houtput, rfl⟩
        have huses := (h r y.address attrs
          ⟨hhanded.continues hcontinues, .inr ⟨pre, script, _, hrest, hkindr⟩⟩).2
        rw [uses_deferred (hcontinues.kindOf r _ hkindr)] at huses
        omega
    · have houtput : ∀ attrs, y.output ≠ .attributes attrs := fun attrs h => houtput ⟨attrs, h⟩
      exact ⟨_, outcomes_of_cells hmarks hfits hcells houtput hkind hfin scripts _ hcrashed hresp⟩

/-- The library gets every consumed array back exactly once, with successive waits that agree,
exactly when the arrays are used sparingly. -/
theorem run_owned_iff (as : List Action) : Owned env as ↔ Sparing env as := by
  have htouched {r : Ref} {a : Address} {attrs : List Attribute} (h : Consumed env as r a attrs) :
      touches a (run env as).trace = lifecycle env attrs ((run env as).uses r) :=
    (run_accounted env as).touched r a attrs h.1
  constructor
  · intro h r a attrs hconsumed
    rw [← lifecycle_owned_iff, ← htouched hconsumed]
    exact ⟨h.destroyed r a attrs hconsumed, h.unread r a attrs hconsumed⟩
  · intro h
    have howned {r : Ref} {a : Address} {attrs : List Attribute}
        (hconsumed : Consumed env as r a attrs) :=
      (lifecycle_owned_iff env attrs _).mpr (h r a attrs hconsumed)
    exact ⟨fun r a attrs hconsumed => by rw [htouched hconsumed]; exact (howned hconsumed).1,
      fun r a attrs hconsumed => by rw [htouched hconsumed]; exact (howned hconsumed).2, h.waits⟩

def getCall : Call := .spacenameKeyStatusAttributes (.string [115]) (.string [107])

def accepting (reqid : Int) : SubmissionAnswer := ⟨reqid, .garbage, ""⟩

def recordOf (n : UInt8) : List Attribute :=
  [⟨[118], .ofBytes [n, 0, 0, 0, 0, 0, 0, 0], .prim .int64⟩]

def waitedTwice : List Action :=
  [.submit getCall 0 (accepting 1),
    .wait 0 [.yielded 1 ⟨.success, "", .attributes (recordOf 7)⟩], .wait 0 []]

/-- The second wait decodes the array that the first one handed back. -/
theorem waitedTwice_not_owned : ¬ Owned packedEnv waitedTwice := by
  intro h
  have htrace : (run packedEnv waitedTwice).trace =
      [.submitted 1 0, .yielded 1 0 ⟨⟨.success, "", .attributes (recordOf 7)⟩, 0⟩ true,
        .callback 0, .read 0, .decoded (some 0), .destroyed (some 0), .read 0,
        .decoded (some 0)] := rfl
  have hhanded : (run packedEnv waitedTwice).Handed 0 0 (recordOf 7) :=
    ⟨1, ⟨⟨.success, "", .attributes (recordOf 7)⟩, 0⟩, true, by simp [htrace], rfl, rfl⟩
  have hconsumed : Consumed packedEnv waitedTwice 0 0 (recordOf 7) :=
    ⟨hhanded, .inr ⟨[.submit getCall 0 (accepting 1)], _, _, rfl, rfl⟩⟩
  apply h.unread 0 0 (recordOf 7) hconsumed
  rw [htrace]
  decide

end HyperDex.Client
