import HyperDex.Client.Arrays

/-!
# Searches

All events of a search share its cells and reach its backlog one by one,
through whichever call takes them from the library. What a consumer obtains
with `next`, followed by the backlog, is one entry for every event so far; and
`has_next?` says whether `next` will return an entry.
-/
namespace HyperDex.Client
open General Ruby Conversion Decoding

def World.events (w : World) (r : Ref) : List Yield := (history r w.trace).answers

theorem World.Continues.events {w w' : World} {r : Ref} (h : w.Continues w') {y : Yield}
    (hy : y ∈ w.events r) :
    y ∈ w'.events r := by
  rcases mem_answers_history.mp hy with ⟨id, closes, hmem⟩
  exact mem_answers_history.mpr ⟨id, closes, h.trace.subset hmem⟩

def World.backlog (w : World) (r : Ref) : List Entry :=
  (w.responses[r]?.map Response.backlog).getD []

variable {Obj : Type} (env : Env Obj)

def returnedEntry (r : Ref) (a : Action) (x : Outcome Exn Result) : List Entry :=
  match a with
  | .next r' =>
    match x with
    | .returned (.entry (some e)) => if r' = r then [e] else []
    | _ => []
  | _ => []

def obtained (r : Ref) : World → List Action → List Entry
  | _, [] => []
  | w, a :: as => returnedEntry r a (perform env a w).1 ++ obtained r (step env a w) as

/-- The decoded record of a success, and an exception with the status and the message of any
other event. -/
inductive EntryFor (y : Yield) : Entry → Prop where
  | record {attrs : List Attribute} {h : OrderedMap Bytes Value} : y.status = .success →
      y.output = .attributes attrs → encodeAttributes env attrs = .ok h →
      EntryFor y (.record (hashOf h))
  | error : y.status ≠ .success →
      EntryFor y (.error (exception env.objectSpace y.status y.message))

/-- What a consumer of a search can rely on. -/
structure Served (as : List Action) (r : Ref) : Prop where
  entries : List.Forall₂ (EntryFor env)
    (((run env as).events r).filter fun y => y.status ≠ .searchdone)
    (obtained env r .initial as ++ (run env as).backlog r)
  keeps : ∀ script, (run env as).backlog r <+: (run env (as ++ [.hasNext r script])).backlog r
  more : ∀ script, (perform env (.hasNext r script) (run env as)).1 = .returned (.bool true) →
    ∃ e rest, (run env (as ++ [.hasNext r script])).backlog r = e :: rest ∧
      (perform env (.next r) (run env (as ++ [.hasNext r script]))).1 =
        .returned (.entry (some e)) ∧
      (run env (as ++ [.hasNext r script, .next r])).backlog r = rest
  finished : ∀ script, (perform env (.hasNext r script) (run env as)).1 = .returned (.bool false) →
    (run env (as ++ [.hasNext r script])).backlog r = [] ∧
      ∃ y ∈ (run env (as ++ [.hasNext r script])).events r, y.status = .searchdone

section Entries
variable {env}

theorem entryOf_entryFor {y : Yield} (hfits : y.Fits .attributes)
    (hgood : ∀ attrs, y.output = .attributes attrs → Decodable env attrs)
    (hdone : y.status ≠ .searchdone) : ∃ e, entryOf env y = some e ∧ EntryFor env y e := by
  by_cases hok : y.status = .success
  · rcases y with ⟨⟨status, message, output⟩, address⟩
    obtain rfl : status = .success := hok
    cases output with
    | attributes attrs =>
      rcases hgood attrs rfl with ⟨h, hencode⟩
      exact ⟨.record (hashOf h), by simp [entryOf, hencode], .record rfl rfl hencode⟩
    | none => exact absurd (hfits rfl) (by decide)
    | description _ => exact absurd hfits.2 (by decide)
    | count _ => exact absurd hfits.2 (by decide)
  · exact ⟨_, entryOf_error env hdone hok, .error hok⟩

theorem forall₂_entryFor (ys : List Yield) (hys : ∀ y ∈ ys, y.Fits .attributes ∧
    ∀ attrs, y.output = .attributes attrs → Decodable env attrs) :
    List.Forall₂ (EntryFor env) (ys.filter fun y => y.status ≠ .searchdone)
      (ys.filterMap (entryOf env)) := by
  induction ys with
  | nil => exact .nil
  | cons y ys ih =>
    rcases hys y List.mem_cons_self with ⟨hfits, hgood⟩
    have ih := ih fun z hz => hys z (List.mem_cons_of_mem y hz)
    by_cases hdone : y.status = .searchdone
    · have hnone : entryOf env y = none := by simp [entryOf, hdone]
      rw [List.filter_cons_of_neg (by simp [hdone]), List.filterMap_cons_none hnone]
      exact ih
    · rcases entryOf_entryFor hfits hgood hdone with ⟨e, he, hentry⟩
      rw [List.filter_cons_of_pos (by simp [hdone]), List.filterMap_cons_some he]
      exact .cons hentry ih

end Entries

section Taken
variable {env} {w w' : World}

theorem LoopSteps.taken (h : LoopSteps env w w') (r : Ref) :
    (history r w'.trace).taken = (history r w.trace).taken := by
  induction h with
  | refl => rfl
  | @tail w₁ w₂ _ hstep ih =>
    cases hstep with
    | heard message => exact ih
    | @delivered reqid p c _ _ =>
      have hhistory := history_yielded env r p.ref w₁.trace reqid (c.place w₁.lib.arrays.length)
        (p.kind.closes (c.place w₁.lib.arrays.length).status) p.kind
      rw [World.delivered, hhistory, ← ih]
      split_ifs <;> rfl

theorem LoopSteps.crashed (h : LoopSteps env w w') : w'.crashed = w.crashed := by
  apply Machine.steps_invariant (I := fun v => v.crashed = w.crashed) _ h rfl
  intro v v' hstep hv
  cases hstep <;> exact hv

theorem next_taken (w : World) (r r' : Ref) :
    (history r (next r' w).2.trace).taken =
      (history r w.trace).taken ++
        returnedEntry r (.next r') (.returned (.entry (next r' w).1)) := by
  rw [next]
  cases hresp : w.responses[r']? with
  | none => simp [returnedEntry]
  | some resp =>
    cases hbacklog : resp.backlog with
    | nil => simp [hbacklog, returnedEntry]
    | cons e rest =>
      simp only [hbacklog, World.log, World.modify, history_taken, returnedEntry]
      split_ifs <;> simp

theorem next_events (r r' : Ref) (w : World) : (next r w).2.events r' = w.events r' := by
  rw [next]
  split
  · rfl
  · split
    · rfl
    · simp only [World.events, World.log, World.modify, history_taken]
      split_ifs <;> rfl

theorem Submitted.taken {call : Call} {rounds : ℕ} {answer : SubmissionAnswer}
    {x : Outcome Exn Ref × World} (h : Submitted env call rounds answer w x) (r : Ref) :
    (history r x.2.trace).taken = (history r w.trace).taken := by
  cases h with
  | accepted _ _ _ => exact congrArg History.taken (history_submitted _ _ _ _)
  | rejected x message _ => rfl

theorem Waited.taken {r' : Ref} {script : Script} {x : Outcome Exn Value × World}
    (h : Waited env r' w script x) (r : Ref) :
    (history r x.2.trace).taken = (history r w.trace).taken := by
  cases h with
  | @read w' resp hsteps _ _ =>
    have hmemory := encodeReturn_memoryOnly env resp (w'.log (.read r'))
    rcases hmemory.trace with ⟨es, hes, hsilent⟩
    have hread : history r (w'.log (.read r')).trace = history r w'.trace :=
      history_silent r _ (by simp [Event.Silent])
    rw [hes, history_silent r _ fun e he => (hsilent e he).1, hread]
    exact LoopSteps.taken hsteps r
  | pending hsteps _ _ => exact LoopSteps.taken hsteps r
  | failed rc message hsteps _ _ => exact LoopSteps.taken hsteps r
  | undecodable c hsteps hp hfits _ =>
    exact LoopSteps.taken (.tail hsteps (.delivered c hp hfits)) r

/-- Only `next` takes an entry, and it returns the entry that it takes. -/
theorem step_taken (hw : Consistent env w) (r : Ref) (a : Action) :
    (history r (step env a w).trace).taken =
      (history r w.trace).taken ++ returnedEntry r a (perform env a w).1 := by
  have hlast {α β : Type} {x : Outcome Exn α × World} {f : α → World → Outcome Exn β × World}
      (hf : ∀ v w, (f v w).2 = w) (hx : (history r x.2.trace).taken = (history r w.trace).taken) :
      (history r (Outcome.andThen x f).2.trace).taken = (history r w.trace).taken :=
    Outcome.andThen_state (I := fun w' : World => (history r w'.trace).taken =
      (history r w.trace).taken) hx fun v w' h => by rw [hf]; exact h
  rw [step, perform]
  split
  · cases a <;> simp [returnedEntry]
  · cases a with
    | submit call rounds answer =>
      simp only [returnedEntry, List.append_nil]
      exact hlast (fun _ _ => rfl) ((submit_submitted call rounds answer w).taken r)
    | loop script =>
      simp only [returnedEntry, List.append_nil]
      exact hlast (x := ((clientLoop env script w).1, (clientLoop env script w).2.1))
        (fun _ _ => rfl) (LoopSteps.taken (clientLoop_looped script w hw).steps r)
    | wait r' script =>
      simp only [returnedEntry, List.append_nil, act]
      split
      · next hkind =>
        rcases kindOf_eq_some hkind with ⟨resp, hresp, -⟩
        exact hlast (fun _ _ => rfl) ((wait_waited script hw hresp).taken r)
      · rfl
    | hasNext r' script =>
      simp only [returnedEntry, List.append_nil, act]
      split
      · next hkind =>
        rcases kindOf_eq_some hkind with ⟨resp, hresp, -⟩
        exact hlast (fun _ _ => rfl) (LoopSteps.taken (hasNext_asked script hw hresp).steps r)
      · rfl
    | next r' =>
      rw [act]
      split
      · exact next_taken w r r'
      · simp [returnedEntry]

/-- The trace records exactly what `next` returned. -/
theorem taken_eq_obtained (hw : Consistent env w) (r : Ref) (as : List Action) :
    (history r (Machine.run (step env) w as).trace).taken =
      (history r w.trace).taken ++ obtained env r w as := by
  induction as generalizing w with
  | nil => simp [obtained]
  | cons a as ih =>
    have hstep := SmallSteps.consistent (step_steps a hw) hw
    rw [Machine.run_cons, ih hstep, step_taken hw, obtained, List.append_assoc]

end Taken

section HasNext
variable {env} {w : World} {r : Ref}

theorem step_hasNext (hw : Consistent env w) (script : Script) :
    LoopSteps env w (step env (.hasNext r script) w) := by
  rw [step, perform]
  split
  · exact .refl
  · rw [act]
    split
    · next hkind =>
      rcases kindOf_eq_some hkind with ⟨resp, hresp, -⟩
      exact Outcome.andThen_state (hasNext_asked script hw hresp).steps fun _ _ h => h
    · exact .refl

theorem perform_hasNext_returned (hw : Consistent env w) (hkind : w.kindOf r = some .iterator)
    {script : Script} {b : Bool} (h : (perform env (.hasNext r script) w).1 = .returned (.bool b)) :
    w.crashed = false ∧ ∃ resp, (step env (.hasNext r script) w).responses[r]? = some resp ∧
      b = !resp.backlog.isEmpty ∧ (resp.finished = true ∨ resp.backlog ≠ []) := by
  rcases kindOf_eq_some hkind with ⟨resp, hresp, -⟩
  have hasked := hasNext_asked script hw hresp
  cases hcrashed : w.crashed with
  | true => simp [perform, hcrashed] at h
  | false =>
    refine ⟨rfl, ?_⟩
    simp only [step, perform, hcrashed, Bool.false_eq_true, if_false, act, hkind] at h ⊢
    generalize hasNext env r script w = x at hasked h
    cases hasked with
    | @answered w' resp' _ hresp' hend =>
      have hb : b = !resp'.backlog.isEmpty := by simpa [Outcome.andThen] using h.symm
      exact ⟨resp', hresp', hb, hend⟩
    | pending _ _ _ _ => simp [Outcome.andThen] at h
    | failed _ _ _ _ _ => simp [Outcome.andThen] at h
    | undecodable _ _ _ _ _ => simp [Outcome.andThen] at h

theorem backlog_eq {resp : Response} (hresp : w.responses[r]? = some resp) :
    w.backlog r = resp.backlog := by
  rw [World.backlog, hresp]
  rfl

end HasNext

theorem run_taken (as : List Action) (r : Ref) :
    (history r (run env as).trace).taken = obtained env r .initial as :=
  taken_eq_obtained (consistent_initial env) r as

theorem run_snoc (as : List Action) (a : Action) : run env (as ++ [a]) = step env a (run env as) :=
  run_append env as [a]

theorem run_fits {as : List Action} {r : Ref} (hkind : (run env as).kindOf r = some .iterator) :
    ∀ y ∈ (run env as).events r, y.Fits .attributes := by
  rcases kindOf_eq_some hkind with ⟨resp, hresp, hiterator⟩
  rcases ((run_consistent env as).tracked r resp hresp).outputs with ⟨outputs, -, houtputs, hfits⟩
  obtain rfl : outputs = .attributes := houtputs hiterator
  exact hfits

theorem run_entries {as : List Action} {r : Ref} (hkind : (run env as).kindOf r = some .iterator) :
    obtained env r .initial as ++ (run env as).backlog r =
      ((run env as).events r).filterMap (entryOf env) := by
  rcases kindOf_eq_some hkind with ⟨resp, hresp, hiterator⟩
  have hentries := ((run_consistent env as).tracked r resp hresp).entries
  rw [hiterator] at hentries
  rw [backlog_eq hresp, ← run_taken]
  exact hentries

theorem run_entryFor {as : List Action} {r : Ref} (hkind : (run env as).kindOf r = some .iterator)
    (hgood : ∀ y ∈ (run env as).events r, ∀ attrs, y.output = .attributes attrs →
      Decodable env attrs) :
    List.Forall₂ (EntryFor env) (((run env as).events r).filter fun y => y.status ≠ .searchdone)
      (obtained env r .initial as ++ (run env as).backlog r) := by
  rw [run_entries env hkind]
  exact forall₂_entryFor _ fun y hy => ⟨run_fits env hkind y hy, hgood y hy⟩

/-- In every run a search whose records are decodable serves its consumer. -/
theorem run_served (as : List Action) (r : Ref) (hkind : (run env as).kindOf r = some .iterator)
    (hgood : ∀ y ∈ (run env as).events r, ∀ attrs, y.output = .attributes attrs →
      Decodable env attrs) : Served env as r := by
  have hw := run_consistent env as
  rcases kindOf_eq_some hkind with ⟨resp, hresp, hiterator⟩
  constructor
  · exact run_entryFor env hkind hgood
  · intro script
    rcases LoopSteps.extends (step_hasNext hw script) hw hresp with ⟨resp', hresp', hext⟩
    rw [run_snoc, backlog_eq hresp, backlog_eq hresp']
    exact hext.backlog
  · intro script hmore
    rcases perform_hasNext_returned hw hkind hmore with ⟨hcrashed, resp', hresp', hb, -⟩
    have hkind' : (step env (.hasNext r script) (run env as)).kindOf r = some .iterator :=
      (SmallSteps.continues (LoopSteps.small (step_hasNext hw script)) hw).kindOf r _ hkind
    have hcrashed' : (step env (.hasNext r script) (run env as)).crashed = false :=
      (LoopSteps.crashed (step_hasNext hw script)).trans hcrashed
    have happend : as ++ [Action.hasNext r script, .next r] =
        as ++ [.hasNext r script] ++ [.next r] := by simp
    cases hbacklog : resp'.backlog with
    | nil => simp [hbacklog] at hb
    | cons e rest =>
      refine ⟨e, rest, ?_, ?_, ?_⟩
      · rw [run_snoc, backlog_eq hresp', hbacklog]
      · simp [run_snoc, perform, hcrashed', act, hkind', next, hresp', hbacklog]
      · rw [happend, run_snoc, run_snoc, step]
        simp [perform, hcrashed', act, hkind', next, hresp', hbacklog, World.backlog, World.log,
          World.modify]
  · intro script hdone
    rcases perform_hasNext_returned hw hkind hdone with ⟨-, resp', hresp', hb, hend⟩
    have hempty : resp'.backlog = [] := by simpa using hb
    have hfin : resp'.finished = true := hend.resolve_right (not_not.mpr hempty)
    have hw' : Consistent env (step env (.hasNext r script) (run env as)) :=
      LoopSteps.consistent (step_hasNext hw script) hw
    have hext := LoopSteps.extends_of_response (step_hasNext hw script) hw hresp hresp'
    rw [run_snoc, backlog_eq hresp']
    exact ⟨hempty, ((hw'.tracked r resp' hresp').searchdone (hext.kind.trans hiterator)).mp hfin⟩

def searchCall : Call := .iteratorSpacenamePredicatesStatusAttributes (.string [115]) (.hash [])

def searchedRun : List Action :=
  [.submit searchCall 0 (accepting 1), .submit getCall 0 (accepting 2),
    .wait 1 [.yielded 1 ⟨.success, "", .attributes (recordOf 7)⟩,
      .yielded 2 ⟨.success, "", .attributes (recordOf 8)⟩],
    .loop [.yielded 1 ⟨.timeout, "late", .none⟩], .hasNext 0 [], .next 0]

theorem searchedRun_served : Served packedEnv searchedRun 0 := by
  have hevents : (run packedEnv searchedRun).events 0 =
      [⟨⟨.success, "", .attributes (recordOf 7)⟩, 0⟩, ⟨⟨.timeout, "late", .none⟩, 2⟩] := rfl
  apply run_served packedEnv searchedRun 0 rfl
  intro y hy attrs houtput
  rw [hevents, List.mem_cons, List.mem_singleton] at hy
  rcases hy with rfl | rfl
  · obtain rfl : recordOf 7 = attrs := Output.attributes.inj houtput
    exact ⟨_, rfl⟩
  · cases houtput

end HyperDex.Client
