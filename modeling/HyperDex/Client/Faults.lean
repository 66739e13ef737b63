import HyperDex.Client.Search

/-!
# Containment of faults

A search decodes its records inside the loop that all requests share. An
undecodable record is raised out of whichever call drives that loop and leaves
no entry behind; apart from such records, a fault stays with its own request.
-/
namespace HyperDex.Client
open General Ruby Conversion Decoding

variable {Obj : Type} (env : Env Obj)

/-- The library itself reported a failure, and no interruption. -/
def ClientFailure (script : Script) (e : Exn) : Prop :=
  ∃ rc message, .failed rc message ∈ script ∧ rc ≠ .interrupted ∧
    e = exception env.objectSpace rc message

def OwnFault (w : World) (r : Ref) (e : Exn) : Prop :=
  ∃ y ∈ w.events r, ∃ message, y.value env message = .raised e

/-- An event shows up as its entry; an undecodable record, as some error. -/
def Reports (y : Yield) (e : Entry) : Prop :=
  EntryFor env y e ∨ ∃ attrs error, y.output = .attributes attrs ∧ ¬ Decodable env attrs ∧
    e = .error error

structure Contained (as : List Action) : Prop where
  loops : ∀ pre script post e, as = pre ++ .loop script :: post →
    (perform env (.loop script) (run env pre)).1 = .raised e → ClientFailure env script e
  hasNexts : ∀ pre r script post e, as = pre ++ .hasNext r script :: post →
    (run env pre).kindOf r = some .iterator →
    (perform env (.hasNext r script) (run env pre)).1 = .raised e → ClientFailure env script e
  waits : ∀ pre r script post e, as = pre ++ .wait r script :: post →
    (run env pre).kindOf r = some .deferred →
    (perform env (.wait r script) (run env pre)).1 = .raised e →
    ClientFailure env script e ∨ OwnFault env (run env (pre ++ [.wait r script])) r e
  reported : ∀ r, (run env as).kindOf r = some .iterator →
    List.Forall₂ (Reports env) (((run env as).events r).filter fun y => y.status ≠ .searchdone)
      (obtained env r .initial as ++ (run env as).backlog r)

def World.Readable (w : World) : Prop :=
  ∀ r, w.kindOf r = some .iterator → ∀ y ∈ w.events r, ∀ attrs, y.output = .attributes attrs →
    Decodable env attrs

variable {env} {w w' : World} {r : Ref} {script : Script} {e : Exn}

theorem World.Continues.readable (h : w.Continues w') (hw' : w'.Readable env) : w.Readable env :=
  fun r hr y hy => hw' r (h.kindOf r _ hr) y (h.events hy)

/-- A record that raises in the loop is undecodable and belongs to a search. -/
theorem not_readable_delivered (hw : Consistent env w) {reqid : Int} {p : Pending} {y : Yield}
    (hp : w.lib.outstanding.lookup reqid = some p) (herror : p.kind.decodingError env y = some e) :
    ¬ (w.delivered env reqid p y).Readable env := by
  intro hreadable
  rcases hw.bound reqid p hp with ⟨resp, hresp, hbound⟩
  cases hkind : p.kind with
  | deferred => simp [Kind.decodingError, hkind] at herror
  | iterator =>
    have hkindr : (w.delivered env reqid p y).kindOf p.ref = some .iterator := by
      rw [kindOf_delivered, ← hkind]
      exact kindOf_of_response hresp hbound.kind
    have hevent : y ∈ (w.delivered env reqid p y).events p.ref :=
      mem_answers_history.mpr ⟨reqid, p.kind.closes y.status, by simp [World.delivered]⟩
    simp only [Kind.decodingError, hkind, decodingError] at herror
    split at herror
    · next attrs _ houtput =>
      rcases hreadable p.ref hkindr y hevent attrs houtput with ⟨h, hencode⟩
      simp [hencode] at herror
    · simp at herror

theorem loop_contained (hw : Consistent env w)
    (hreadable : (step env (.loop script) w).Readable env)
    (h : (perform env (.loop script) w).1 = .raised e) : ClientFailure env script e := by
  rw [step] at hreadable
  rw [perform] at h hreadable
  split at h
  · simp at h
  · next hcrashed =>
    rw [if_neg hcrashed] at hreadable
    have hlooped := clientLoop_looped script w hw
    rw [act] at h hreadable
    generalize clientLoop env script w = x at hlooped h hreadable
    cases hlooped with
    | pending message rest => simp [Outcome.andThen] at h
    | failed rc message rest hmem hrc =>
      exact ⟨rc, message, hmem, hrc, by simpa [Outcome.andThen] using h.symm⟩
    | @delivered reqid p c rest hmem hp hfits hsub hlt =>
      simp only [Pending.outcome] at h hreadable
      cases herror : p.kind.decodingError env (c.place w.lib.arrays.length) with
      | none => simp [herror, Outcome.andThen] at h
      | some e' =>
        simp only [herror, Outcome.andThen] at hreadable
        exact absurd hreadable (not_readable_delivered hw hp herror)

theorem hasNext_contained (hw : Consistent env w) (hkind : w.kindOf r = some .iterator)
    (hreadable : (step env (.hasNext r script) w).Readable env)
    (h : (perform env (.hasNext r script) w).1 = .raised e) : ClientFailure env script e := by
  rcases kindOf_eq_some hkind with ⟨resp, hresp, -⟩
  rw [step] at hreadable
  rw [perform] at h hreadable
  split at h
  · simp at h
  · next hcrashed =>
    have hasked := hasNext_asked script hw hresp
    simp only [if_neg hcrashed, act, hkind] at h hreadable
    generalize hasNext env r script w = x at hasked h hreadable
    cases hasked with
    | answered _ _ _ => simp [Outcome.andThen] at h
    | pending _ _ _ _ => simp [Outcome.andThen] at h
    | failed rc message _ hmem hrc =>
      exact ⟨rc, message, hmem, hrc, by simpa [Outcome.andThen] using h.symm⟩
    | undecodable c hsteps hp _ herror =>
      exact absurd hreadable (not_readable_delivered (LoopSteps.consistent hsteps hw) hp herror)

theorem Reading.value_of_raised {y : Yield} {outputs : Outputs} {x : Outcome Exn Value × World}
    (h : Reading env y w x) (hfits : y.Fits outputs) (he : x.1 = .raised e) :
    y.value env w.lib.message = .raised e := by
  cases h with
  | cells _ => exact he
  | @undecodable attrs e' houtput hencode _ =>
    simpa [Yield.value, hfits.success houtput, houtput, hencode] using he
  | decoded _ _ _ => simp at he
  | freed _ _ _ => simp at he

theorem wait_contained (hw : Consistent env w) (hacc : Accounted env w)
    (hkind : w.kindOf r = some .deferred) (hreadable : (step env (.wait r script) w).Readable env)
    (h : (perform env (.wait r script) w).1 = .raised e) :
    ClientFailure env script e ∨ OwnFault env (step env (.wait r script) w) r e := by
  rcases kindOf_eq_some hkind with ⟨resp, hresp, hdeferred⟩
  rw [step] at hreadable ⊢
  rw [perform] at h hreadable ⊢
  split at h
  · simp at h
  · next hcrashed =>
    have hwaited := wait_waited script hw hresp
    simp only [if_neg hcrashed, act, hkind] at h hreadable ⊢
    generalize wait env r script w = x at hwaited h hreadable
    cases hwaited with
    | @read w' resp' hsteps hresp' hfin =>
      right
      have hw' := LoopSteps.consistent hsteps hw
      have hext := LoopSteps.extends_of_response hsteps hw hresp hresp'
      have hkind' : resp'.kind = .deferred := hext.kind.trans hdeferred
      obtain ⟨y, hy, hreading⟩ :=
        (SmallSteps.accounted (LoopSteps.small hsteps) hw hacc).reading hw' hresp' hkind' hfin
      rcases (hw'.tracked r resp' hresp').outputs with ⟨outputs, -, -, hfits⟩
      have hmem : y ∈ w'.events r := by
        rw [World.events, hy]
        exact List.mem_singleton_self y
      have hstep : SmallStep env w' _ := .read hresp' hkind' hfin
      have hcontinues := hstep.continues hw'
      have hraised : (encodeReturn env resp' (w'.log (.read r))).1 = .raised e := by
        generalize encodeReturn env resp' (w'.log (.read r)) = x at h
        rcases x with ⟨x, w''⟩
        cases x <;> simp_all [Outcome.andThen]
      refine ⟨y, ?_, _, hreading.value_of_raised (hfits y hmem) hraised⟩
      exact Outcome.andThen_state (I := fun w'' : World => y ∈ w''.events r)
        (hcontinues.events hmem) fun _ _ h => h
    | pending _ _ _ => simp [Outcome.andThen] at h
    | failed rc message _ hmem hrc =>
      exact .inl ⟨rc, message, hmem, hrc, by simpa [Outcome.andThen] using h.symm⟩
    | undecodable c hsteps hp _ herror =>
      exact absurd hreadable (not_readable_delivered (LoopSteps.consistent hsteps hw) hp herror)

variable (env)

/-- Where every event that should make an entry makes one, nothing is undecodable. -/
theorem decodable_of_reported {ys : List Yield} (hys : ∀ y ∈ ys, y.Fits .attributes)
    (hlength : (ys.filterMap (entryOf env)).length =
      (ys.filter fun y => y.status ≠ .searchdone).length) :
    ∀ y ∈ ys, ∀ attrs, y.output = .attributes attrs → Decodable env attrs := by
  intro y hy attrs houtput
  have hentry (y : Yield) (h : (entryOf env y).isSome) :
      decide (y.status ≠ .searchdone) = true := by
    by_contra hdone
    have hdone : y.status = .searchdone := by simpa using hdone
    simp [entryOf, hdone] at h
  have hsublist := List.monotone_filter_right ys hentry
  have heq := hsublist.eq_of_length (by
    rw [← hlength, List.length_filterMap_eq_countP, List.countP_eq_length_filter])
  have hstatus : y.status = .success := (hys y hy).success houtput
  have hmem : y ∈ ys.filter fun y => y.status ≠ .searchdone := by simp [hy, hstatus]
  rw [← heq, List.mem_filter] at hmem
  cases hencode : encodeAttributes env attrs with
  | ok h => exact ⟨h, hencode⟩
  | error e => simp [entryOf, hstatus, houtput, hencode] at hmem

/-- The faults of a run are contained exactly when no search is given an undecodable record. -/
theorem run_contained_iff (as : List Action) : Contained env as ↔ (run env as).Readable env := by
  constructor
  · intro h r hkind
    have hlength := (h.reported r hkind).length_eq
    rw [run_entries env hkind] at hlength
    exact decodable_of_reported env (run_fits env hkind) hlength.symm
  · intro hreadable
    have hbefore (pre : List Action) (a : Action) (post : List Action)
        (has : as = pre ++ a :: post) : (step env a (run env pre)).Readable env := by
      have hsplit : as = pre ++ [a] ++ post := by simp [has]
      rw [← run_snoc]
      exact (run_continues env (pre ++ [a]) post).readable (hsplit ▸ hreadable)
    constructor
    · intro pre script post e has h
      exact loop_contained (run_consistent env pre) (hbefore pre _ post has) h
    · intro pre r script post e has hkind h
      exact hasNext_contained (run_consistent env pre) hkind (hbefore pre _ post has) h
    · intro pre r script post e has hkind h
      rw [run_snoc]
      exact wait_contained (run_consistent env pre) (run_accounted env pre) hkind
        (hbefore pre _ post has) h
    · intro r hkind
      exact (run_entryFor env hkind (hreadable r hkind)).imp fun _ _ h => .inl h

def malformedRecord : List Attribute := [⟨[118], .ofBytes [1, 2, 3], .prim .int64⟩]

def faultyRun : List Action :=
  [.submit searchCall 0 (accepting 1), .submit getCall 0 (accepting 2),
    .wait 1 [.yielded 1 ⟨.success, "", .attributes malformedRecord⟩]]

/-- The wait raises the error of the search. -/
theorem faultyRun_not_contained : ¬ Contained packedEnv faultyRun := by
  intro h
  have hraised := h.waits [.submit searchCall 0 (accepting 1), .submit getCall 0 (accepting 2)] 1
    [.yielded 1 ⟨.success, "", .attributes malformedRecord⟩] [] _ rfl rfl rfl
  rcases hraised with ⟨rc, message, hmem, -, -⟩ | ⟨y, hy, -⟩
  · simp at hmem
  · exact List.not_mem_nil hy

end HyperDex.Client
