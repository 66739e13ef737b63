import HyperDex.Client.Messages
import HyperDex.Client.Requests
import HyperDex.Client.Reordering

/-!
# Progress

Every loop of the client waits for one request and takes the events of all of
them. When the library gives interruptions and good events only, no event ends
a loop early: a wait comes to the answer of its own request, and a consumer of
a search comes to its end, whatever else is answered in between.
-/
namespace HyperDex.Client
open General Ruby Conversion Decoding

def eventsOf (reqid : Int) (script : Script) : List Completion :=
  script.filterMap fun
    | .yielded id c => if id = reqid then some c else none
    | .failed .. => none

variable {Obj : Type} (env : Env Obj)

/-- Interruptions, and events of requests that are outstanding; a search is given records that
can be decoded. -/
def Serves : OrderedMap Int Pending → Script → Prop
  | _, [] => True
  | table, .failed rc _ :: script => rc = .interrupted ∧ Serves table script
  | table, .yielded reqid c :: script =>
    ∃ p, table.lookup reqid = some p ∧ c.Fits p.outputs ∧
      (p.kind = .iterator → ∃ es, c.items env = .ok es) ∧
      Serves (if p.kind.closes c.status then table.erase reqid else table) script

/-- The same with failures of the loop and records that cannot be decoded. -/
def Feeds : OrderedMap Int Pending → Script → Prop
  | _, [] => True
  | table, .failed _ _ :: script => Feeds table script
  | table, .yielded reqid c :: script =>
    ∃ p, table.lookup reqid = some p ∧ c.Fits p.outputs ∧
      Feeds (if p.kind.closes c.status then table.erase reqid else table) script

def World.serve : Script → World → World
  | [], w => w
  | .failed _ message :: script, w => World.serve script (w.hear message)
  | .yielded reqid c :: script, w =>
    match w.lib.outstanding.lookup reqid with
    | none => w
    | some p => World.serve script (w.delivered env reqid p (c.place w.lib.arrays.length))

/-- `has_next?`, with what is left of the results. -/
def hasNextRest (r : Ref) (script : Script) (w : World) : Outcome Exn Bool × World × Script :=
  Outcome.andThen (loopUntil env (hasNextDone r) (script.length + 1) w script) fun _ s =>
    (.returned (!(s.1.backlog r).isEmpty), s)

/-- `entries << it.next while it.has_next?` on one row of results, for a number of rounds. -/
def collectRounds (r : Ref) : ℕ → World → Script → Outcome Exn (List Entry) × World × Script
  | 0, w, script => (.pending, w, script)
  | n + 1, w, script =>
    Outcome.andThen (hasNextRest env r script w) fun more s =>
      if more then
        let x := next r s.1
        Outcome.andThen (collectRounds r n x.2 s.2) fun es s => (.returned (x.1.toList ++ es), s)
      else (.returned [], s)

/-- A round takes an entry, and every event adds at most one. -/
def collect (r : Ref) (w : World) (script : Script) : Outcome Exn (List Entry) × World × Script :=
  collectRounds env r ((w.backlog r).length + script.length + 1) w script

section Served
variable {env} {w : World} {r : Ref} {id : Int} {pre rest script : Script}

theorem eventsOf_append (id : Int) (s t : Script) :
    eventsOf id (s ++ t) = eventsOf id s ++ eventsOf id t :=
  List.filterMap_append

@[simp] theorem eventsOf_failed (id : Int) (rc : ReturnCode) (message : String) (s : Script) :
    eventsOf id (.failed rc message :: s) = eventsOf id s := rfl

@[simp] theorem eventsOf_yielded (id id' : Int) (c : Completion) (s : Script) :
    eventsOf id (.yielded id' c :: s) = (if id' = id then [c] else []) ++ eventsOf id s := by
  by_cases h : id' = id <;> simp [eventsOf, h]

theorem Serves.feeds {table : OrderedMap Int Pending} (h : Serves env table script) :
    Feeds table script := by
  induction script generalizing table with
  | nil => trivial
  | cons answer script ih =>
    cases answer with
    | failed rc message => exact ih h.2
    | yielded id c =>
      rcases h with ⟨p, hp, hfits, -, hrest⟩
      exact ⟨p, hp, hfits, ih hrest⟩

/-- A request that is not outstanding has no events. -/
theorem Feeds.eventsOf_eq_nil {table : OrderedMap Int Pending} (h : Feeds table script)
    (hid : table.lookup id = none) : eventsOf id script = [] := by
  induction script generalizing table with
  | nil => rfl
  | cons answer script ih =>
    cases answer with
    | failed rc message => exact ih h hid
    | yielded id' c =>
      rcases h with ⟨p, hp, -, hrest⟩
      have hne : id' ≠ id := by
        rintro rfl
        exact nomatch hp.symm.trans hid
      rw [eventsOf_yielded, if_neg hne, List.nil_append]
      apply ih hrest
      split_ifs
      · rw [OrderedMap.lookup_erase, hid, ite_self]
      · exact hid

theorem Serves.after (h : Serves env w.lib.outstanding (pre ++ rest)) :
    Serves env (w.serve env pre).lib.outstanding rest := by
  induction pre generalizing w with
  | nil => exact h
  | cons answer pre ih =>
    cases answer with
    | failed rc message => exact ih (w := w.hear message) h.2
    | yielded id c =>
      rcases h with ⟨p, hp, -, -, hrest⟩
      simp only [World.serve, hp]
      exact ih hrest

theorem Serves.of_append {table : OrderedMap Int Pending} (h : Serves env table (pre ++ rest)) :
    Serves env table pre := by
  induction pre generalizing table with
  | nil => trivial
  | cons answer pre ih =>
    cases answer with
    | failed rc message => exact ⟨h.1, ih h.2⟩
    | yielded id c =>
      rcases h with ⟨p, hp, hfits, hgood, hrest⟩
      exact ⟨p, hp, hfits, hgood, ih hrest⟩

theorem Feeds.steps (env : Env Obj) (h : Feeds w.lib.outstanding script) :
    LoopSteps env w (w.serve env script) := by
  induction script generalizing w with
  | nil => exact .refl
  | cons answer script ih =>
    cases answer with
    | failed rc message => exact .head (.heard w message) (ih (w := w.hear message) h)
    | yielded id c =>
      rcases h with ⟨p, hp, hfits, hrest⟩
      simp only [World.serve, hp]
      exact .head (.delivered c hp hfits) (ih hrest)

/-- No outstanding request but the one under the identifier has this response object. -/
def World.Owns (w : World) (id : Int) (r : Ref) : Prop :=
  ∀ id' p, w.lib.outstanding.lookup id' = some p → (p.ref = r ↔ id' = id)

theorem Consistent.owns (hw : Consistent env w) {p : Pending}
    (hp : w.lib.outstanding.lookup id = some p) : w.Owns id p.ref := by
  intro id' p' hp'
  constructor
  · intro href
    exact hw.separate id' id p' p hp' hp href
  · rintro rfl
    obtain rfl : p' = p := Option.some.inj (hp'.symm.trans hp)
    rfl

theorem World.Owns.delivered (h : w.Owns id r) (id' : Int) (p : Pending) (y : Yield) :
    (w.delivered env id' p y).Owns id r := by
  intro j q hq
  apply h j q
  simp only [World.delivered] at hq
  split_ifs at hq
  · rw [OrderedMap.lookup_erase] at hq
    split_ifs at hq
    exact hq
  · exact hq

/-- A response object gets the events of its own request, in order. -/
theorem Feeds.events (env : Env Obj) (h : Feeds w.lib.outstanding script) (hown : w.Owns id r) :
    ((w.serve env script).events r).map Yield.toCompletion =
      (w.events r).map Yield.toCompletion ++ eventsOf id script := by
  induction script generalizing w with
  | nil => simp [World.serve, eventsOf]
  | cons answer script ih =>
    cases answer with
    | failed rc message => exact ih (w := w.hear message) h hown
    | yielded id' c =>
      rcases h with ⟨p, hp, -, hrest⟩
      simp only [World.serve, hp]
      rw [ih hrest (hown.delivered id' p _), events_delivered, eventsOf_yielded,
        ← List.append_assoc]
      congr 1
      by_cases hr : p.ref = r
      · rw [if_pos hr, if_pos ((hown id' p hp).mp hr), List.map_append]
        rfl
      · rw [if_neg hr, if_neg fun hid => hr ((hown id' p hp).mpr hid), List.append_nil]

def itemsOf (env : Env Obj) (cs : List Completion) : List Entry :=
  cs.flatMap fun c => (c.items env).toOption.getD []

theorem filterMap_entryOf (ys : List Yield) :
    ys.filterMap (entryOf env) = itemsOf env (ys.map Yield.toCompletion) := by
  induction ys with
  | nil => rfl
  | cons y ys ih =>
    have hentry : (entryOf env y).toList = (y.toCompletion.items env).toOption.getD [] :=
      entryOf_place env y.toCompletion y.address
    rw [List.map_cons, itemsOf, List.flatMap_cons, ← hentry, ← itemsOf, ← ih]
    cases hy : entryOf env y <;> simp [hy]

theorem length_itemsOf_le (cs : List Completion) : (itemsOf env cs).length ≤ cs.length := by
  induction cs with
  | nil => exact Nat.le_refl 0
  | cons c cs ih =>
    have hone : ((c.items env).toOption.getD []).length ≤ 1 := by
      rw [← entryOf_place env c 0]
      cases entryOf env (c.place 0) <;> simp
    rw [itemsOf, List.flatMap_cons, ← itemsOf, List.length_append, List.length_cons]
    omega

theorem length_eventsOf_le (id : Int) (script : Script) :
    (eventsOf id script).length ≤ script.length :=
  List.length_filterMap_le _ _

/-- How a loop ends when no event stops it. -/
inductive Drained (env : Env Obj) (done : World → Bool) (w : World) (script : Script) :
    Outcome Exn Unit × World × Script → Prop where
  | returned {pre rest : Script} : script = pre ++ rest → done (w.serve env pre) = true →
      Drained env done w script (.returned (), w.serve env pre, rest)
  | pending : done (w.serve env script) = false →
      Drained env done w script (.pending, w.serve env script, [])

theorem Drained.cons {done : World → Bool} {w' : World} {answer : LoopAnswer}
    {x : Outcome Exn Unit × World × Script}
    (hserve : ∀ script, w.serve env (answer :: script) = w'.serve env script)
    (h : Drained env done w' script x) : Drained env done w (answer :: script) x := by
  cases h with
  | @returned pre rest hsplit hend =>
    rw [← hserve pre] at hend ⊢
    exact .returned (by rw [hsplit, List.cons_append]) hend
  | pending hend =>
    rw [← hserve script] at hend ⊢
    exact .pending hend

theorem loopUntil_drained {done : World → Bool}
    (hdone : ∀ w message, done (World.hear w message) = done w) (n : ℕ) (script : Script)
    (hw : Consistent env w) (hserves : Serves env w.lib.outstanding script)
    (hn : script.length < n) : Drained env done w script (loopUntil env done n w script) := by
  induction script generalizing w n with
  | nil =>
    cases n with
    | zero => exact absurd hn (Nat.not_lt_zero _)
    | succ n =>
      rw [loopUntil]
      by_cases hend : done w = true
      · rw [if_pos hend]
        exact .returned (List.nil_append _).symm hend
      · rw [if_neg hend]
        exact .pending (by simpa [World.serve] using hend)
  | cons answer script ih =>
    cases n with
    | zero => exact absurd hn (Nat.not_lt_zero _)
    | succ n =>
      by_cases hend : done w = true
      · rw [loopUntil, if_pos hend]
        exact .returned (List.nil_append _).symm hend
      · cases answer with
        | failed rc message =>
          -- an interruption is taken in the same round
          obtain rfl : rc = .interrupted := hserves.1
          have hround : loopUntil env done (n + 1) w (.failed .interrupted message :: script) =
              loopUntil env done (n + 1) (w.hear message) script := by
            rw [loopUntil, loopUntil, hdone, if_neg hend, if_neg hend, clientLoop]
            rfl
          rw [hround]
          exact (ih (n + 1) (hw.hear message) hserves.2 (by simp at hn; omega)).cons fun _ => rfl
        | yielded id c =>
          rcases hserves with ⟨p, hp, hfits, hgood, hrest⟩
          rcases hw.bound id p hp with ⟨resp, hresp, hbound⟩
          have hops : w.ops.lookup id = some p.ref := by rw [hw.ops, hp]; rfl
          have hadmits : w.lib.admits id c = some p := by simp [Library.admits, hp, hfits]
          have hreturned : p.outcome env (c.place w.lib.arrays.length) = .returned p.ref := by
            rw [outcome_place]
            cases hkind : p.kind with
            | deferred => rfl
            | iterator =>
              rcases hgood hkind with ⟨es, hes⟩
              rw [hes]
              rfl
          rw [loopUntil, if_neg hend, clientLoop, hadmits]
          simp only [deliver_eq env hops hresp hbound hfits, hreturned, Outcome.andThen]
          have hw' := hw.delivered hp (c.place w.lib.arrays.length) hfits
          apply (ih n hw' hrest (by simp at hn; omega)).cons
          intro script
          simp only [World.serve, hp]

theorem LoopSteps.reads_eq {w' : World} (h : LoopSteps env w w') (r : Ref) :
    reads r w'.trace = reads r w.trace := by
  apply Machine.steps_invariant (I := fun v => reads r v.trace = reads r w.trace) _ h rfl
  intro v v' hstep hv
  cases hstep with
  | heard message => exact hv
  | @delivered reqid p c _ hfits =>
    exact (reads_delivered v reqid (y := c.place v.lib.arrays.length) hfits r).trans hv

theorem perform_wait_eq (hcrashed : w.crashed = false) (hkind : w.kindOf r = some .deferred) :
    (perform env (.wait r script) w).1 =
      (wait env r script w).1 >>= fun v => .returned (.value v) := by
  simp only [perform, hcrashed, Bool.false_eq_true, if_false, act, hkind]
  generalize wait env r script w = x
  rcases x with ⟨x, w'⟩
  cases x <;> rfl

theorem LoopSteps.sound {w' : World} (h : LoopSteps env w w') (hw : Sound env w) : Sound env w' :=
  ⟨LoopSteps.consistent h hw.consistent,
    SmallSteps.accounted (LoopSteps.small h) hw.consistent hw.accounted⟩

/-- A wait that comes to the answer of an open request finds the message of that answer. -/
theorem Consistent.message_of_open (hw : Consistent env w) {p : Pending}
    (hp : w.lib.outstanding.lookup id = some p) (hkind : p.kind = .deferred)
    (hcrashed : w.crashed = false) (hreturned : (waitLoop env p.ref script w).1 = .returned ())
    {y : Yield} (hy : (waitLoop env p.ref script w).2.1.events p.ref = [y]) :
    (waitLoop env p.ref script w).2.1.lib.message = y.message := by
  rcases hw.bound id p hp with ⟨resp, hresp, hbound⟩
  have hkindOf := kindOf_of_response hresp (hbound.kind.trans hkind)
  apply EndsOn.message_of_not_done ⟨hcrashed, hkindOf, hreturned, hy⟩ hw
  rintro ⟨resp', hresp', -, hfin⟩
  obtain rfl : resp' = resp := Option.some.inj (hresp'.symm.trans hresp)
  exact absurd (hfin.symm.trans hbound.unfinished) (by decide)

theorem Consistent.events_of_pending (hw : Consistent env w) {p : Pending}
    (hp : w.lib.outstanding.lookup id = some p) (hkind : p.kind = .deferred) :
    w.events p.ref = [] := by
  rcases hw.bound id p hp with ⟨resp, hresp, hbound⟩
  have hhead := hw.head_isSome hresp (hbound.kind.trans hkind)
  rw [hbound.unfinished] at hhead
  simpa using hhead

/-- A Deferred is finished by the first event of its request. -/
theorem Consistent.finished_iff_events (hw : Consistent env w) {p : Pending}
    (hp : w.lib.outstanding.lookup id = some p) (hkind : p.kind = .deferred)
    (hfeeds : Feeds w.lib.outstanding script) :
    waitDone p.ref (w.serve env script) = (eventsOf id script).head?.isSome ∧
      ((w.serve env script).events p.ref).map Yield.toCompletion = eventsOf id script := by
  rcases hw.bound id p hp with ⟨resp, hresp, hbound⟩
  have hdeferred : resp.kind = .deferred := hbound.kind.trans hkind
  have hevents := hfeeds.events env (hw.owns hp)
  rw [hw.events_of_pending hp hkind, List.map_nil, List.nil_append] at hevents
  have hw' := LoopSteps.consistent (hfeeds.steps env) hw
  rcases LoopSteps.extends (hfeeds.steps env) hw hresp with ⟨resp', hresp', hext⟩
  refine ⟨?_, hevents⟩
  rw [waitDone_eq hw' hresp', ← hw'.head_isSome hresp' (hext.kind.trans hdeferred), ← hevents,
    List.head?_map, Option.isSome_map]

theorem Sound.wait_value (hw : Sound env w) {p : Pending}
    (hp : w.lib.outstanding.lookup id = some p) (hkind : p.kind = .deferred)
    (hcrashed : w.crashed = false) (hserves : Serves env w.lib.outstanding script)
    {c : Completion} (hc : (eventsOf id script).head? = some c) :
    (wait env p.ref script w).1 = c.value env c.message := by
  rcases hw.consistent.bound id p hp with ⟨resp, hresp, hbound⟩
  have hdeferred : resp.kind = .deferred := hbound.kind.trans hkind
  have hdrained : Drained env (waitDone p.ref) w script (waitLoop env p.ref script w) :=
    loopUntil_drained (fun _ _ => rfl) (script.length + 1) script hw.consistent hserves
      (Nat.lt_succ_self _)
  have hends := wait_ends hw.consistent hw.accounted hresp hdeferred script
  have hmessage (hreturned : (waitLoop env p.ref script w).1 = .returned ()) (y : Yield) :=
    hw.consistent.message_of_open hp hkind hcrashed hreturned (y := y)
  generalize waitLoop env p.ref script w = x at hdrained hends hmessage
  cases hdrained with
  | pending hend =>
    have hdone := (hw.consistent.finished_iff_events hp hkind hserves.feeds).1
    simp [hc, hend] at hdone
  | @returned pre rest hsplit hend =>
    subst hsplit
    rcases hends with ⟨resp', id', y, closes, hresp', -, -, hy, -, hresult, hvalue⟩
    have hpre := hw.consistent.finished_iff_events hp hkind hserves.of_append.feeds
    have hanswer : y.toCompletion = c := by
      have hy : (w.serve env pre).events p.ref = [y] := hy
      rw [hy] at hpre
      rw [eventsOf_append, ← hpre.2] at hc
      simpa using hc
    rw [hresult] at hvalue
    have hreads : reads p.ref (w.serve env pre).trace = 0 := by
      rw [LoopSteps.reads_eq (hserves.of_append.feeds.steps env)]
      exact hw.accounted.reads_eq_zero hresp hbound.unfinished
    rw [hresult, hvalue hreads, hmessage rfl y hy, ← hanswer]
    rfl

theorem Consistent.search_served (hw : Consistent env w) {resp : Response}
    (hresp : w.responses[r]? = some resp) (hkind : resp.kind = .iterator) (hown : w.Owns id r)
    (hfeeds : Feeds w.lib.outstanding script) :
    ∃ resp', (w.serve env script).responses[r]? = some resp' ∧ resp'.kind = .iterator ∧
      resp'.backlog = resp.backlog ++ itemsOf env (eventsOf id script) ∧
      (resp'.finished = true ↔
        resp.finished = true ∨ ∃ c ∈ eventsOf id script, c.status = .searchdone) := by
  have hw' := LoopSteps.consistent (hfeeds.steps env) hw
  have hevents := hfeeds.events env hown
  have htracked := hw.tracked r resp hresp
  rcases LoopSteps.extends (hfeeds.steps env) hw hresp with ⟨resp', hresp', hext⟩
  have hkind' : resp'.kind = .iterator := hext.kind.trans hkind
  have htracked' := hw'.tracked r resp' hresp'
  refine ⟨resp', hresp', hkind', ?_, ?_⟩
  · have hentries := htracked.entries
    have hentries' := htracked'.entries
    rw [hkind'] at hentries'
    rw [hkind] at hentries
    have hitems (v : World) : (history r v.trace).answers.filterMap (entryOf env) =
        itemsOf env ((v.events r).map Yield.toCompletion) := filterMap_entryOf _
    have htaken := LoopSteps.taken (hfeeds.steps env) r
    have hall := hentries'.trans (hitems (w.serve env script))
    rw [hevents, itemsOf, List.flatMap_append, ← itemsOf, ← itemsOf, ← hitems w, htaken] at hall
    exact List.append_cancel_left
      (hall.trans ((congrArg (· ++ _) hentries.symm).trans (List.append_assoc _ _ _)))
  · have hdone (v : World) : (∃ y ∈ (history r v.trace).answers, y.status = .searchdone) ↔
        ∃ c ∈ (v.events r).map Yield.toCompletion, c.status = .searchdone := by
      simp [World.events]
    rw [htracked'.searchdone hkind', htracked.searchdone hkind, hdone, hdone, hevents]
    simp only [List.mem_append, or_and_right, exists_or]

theorem World.Owns.serve (h : w.Owns id r) (script : Script) : (w.serve env script).Owns id r := by
  induction script generalizing w with
  | nil => exact h
  | cons answer script ih =>
    cases answer with
    | failed rc message => exact ih (w := w.hear message) h
    | yielded id' c =>
      rw [World.serve]
      split
      · exact h
      · exact ih (h.delivered _ _ _)

theorem Consistent.lookup_of_finished (hw : Consistent env w) {resp : Response}
    (hresp : w.responses[r]? = some resp) (hfin : resp.finished = true) (hown : w.Owns id r) :
    w.lib.outstanding.lookup id = none := by
  cases hp : w.lib.outstanding.lookup id with
  | none => rfl
  | some p =>
    rcases hw.bound id p hp with ⟨resp', hresp', hbound⟩
    rw [(hown id p hp).mpr rfl] at hresp'
    obtain rfl : resp' = resp := Option.some.inj (hresp'.symm.trans hresp)
    exact absurd (hfin.symm.trans hbound.unfinished) (by decide)

/-- On results that finish the search, the rounds return its backlog and what its events add. -/
theorem Sound.collectRounds (hw : Sound env w) (n : ℕ) {resp : Response}
    (hresp : w.responses[r]? = some resp) (hkind : resp.kind = .iterator) (hown : w.Owns id r)
    (hserves : Serves env w.lib.outstanding script)
    (hend : resp.finished = true ∨ ∃ c ∈ eventsOf id script, c.status = .searchdone)
    (hn : resp.backlog.length + script.length < n) :
    (collectRounds env r n w script).1 =
      .returned (resp.backlog ++ itemsOf env (eventsOf id script)) := by
  induction n generalizing w resp script with
  | zero => exact absurd hn (Nat.not_lt_zero _)
  | succ n ih =>
    have hdrained : Drained env (hasNextDone r) w script _ := loopUntil_drained (fun _ _ => rfl)
      (script.length + 1) script hw.consistent hserves (Nat.lt_succ_self _)
    rw [Client.collectRounds, hasNextRest]
    generalize loopUntil env (hasNextDone r) (script.length + 1) w script = x at hdrained
    cases hdrained with
    | pending hopen =>
      rcases hw.consistent.search_served hresp hkind hown hserves.feeds with
        ⟨resp', hresp', -, -, hfin⟩
      rw [hasNextDone_eq hresp', hfin.mpr hend] at hopen
      exact absurd hopen (by simp)
    | @returned pre rest hsplit hready =>
      subst hsplit
      have hw₁ := LoopSteps.sound (hserves.of_append.feeds.steps env) hw
      rcases hw.consistent.search_served hresp hkind hown hserves.of_append.feeds with
        ⟨resp₁, hresp₁, hkind₁, hbacklog₁, hfin₁⟩
      rw [hasNextDone_eq hresp₁] at hready
      have hend₁ : resp₁.finished = true ∨ ∃ c ∈ eventsOf id rest, c.status = .searchdone := by
        rw [hfin₁, or_assoc, ← exists_or]
        simpa only [eventsOf_append, List.mem_append, or_and_right] using hend
      have hitems : resp.backlog ++ itemsOf env (eventsOf id (pre ++ rest)) =
          resp₁.backlog ++ itemsOf env (eventsOf id rest) := by
        rw [hbacklog₁, eventsOf_append, itemsOf, List.flatMap_append, ← List.append_assoc]
        rfl
      have hlength : resp₁.backlog.length ≤ resp.backlog.length + pre.length := by
        rw [hbacklog₁, List.length_append]
        exact Nat.add_le_add_left
          (Nat.le_trans (length_itemsOf_le _) (length_eventsOf_le id pre)) _
      rw [hitems]
      simp only [Outcome.andThen, backlog_eq hresp₁]
      cases hnext : resp₁.backlog with
      | nil =>
        have hfin : resp₁.finished = true := by simpa [hnext] using hready
        have hrest := hserves.after.feeds.eventsOf_eq_nil
          (hw₁.consistent.lookup_of_finished hresp₁ hfin (hown.serve pre))
        simp [hrest, itemsOf]
      | cons e es =>
        have hstep : SmallStep env (w.serve env pre) _ := .take hresp₁ hnext
        have hw₂ : Sound env _ := ⟨hstep.consistent hw₁.consistent,
          hstep.accounted hw₁.consistent hw₁.accounted⟩
        have hresp₂ : (((w.serve env pre).modify r fun resp => { resp with backlog := es }).log
            (.taken r e)).responses[r]? = some { resp₁ with backlog := es } := by
          simp [World.log, World.modify, hresp₁]
        have htail := ih hw₂ hresp₂ hkind₁ (hown.serve pre) hserves.after hend₁
          (by simp only [hnext, List.length_cons, List.length_append] at hlength hn ⊢; omega)
        simp only [next, hresp₁, hnext, List.isEmpty_cons, Bool.not_false, if_true]
        generalize Client.collectRounds env r n _ rest = x at htail ⊢
        rcases x with ⟨x, s⟩
        obtain rfl : x = _ := htail
        rfl

theorem Sound.collect_value (hw : Sound env w) {p : Pending}
    (hp : w.lib.outstanding.lookup id = some p) (hkind : p.kind = .iterator)
    (hserves : Serves env w.lib.outstanding script)
    (hdone : ∃ c ∈ eventsOf id script, c.status = .searchdone) :
    (collect env p.ref w script).1 =
      .returned (w.backlog p.ref ++ itemsOf env (eventsOf id script)) := by
  rcases hw.consistent.bound id p hp with ⟨resp, hresp, hbound⟩
  rw [collect, backlog_eq hresp]
  exact hw.collectRounds _ hresp (hbound.kind.trans hkind) (hw.consistent.owns hp) hserves
    (.inr hdone) (Nat.lt_succ_self _)

theorem hasNext_eq {resp : Response} (hw : Consistent env w) (hresp : w.responses[r]? = some resp) :
    hasNext env r script w =
      ((hasNextRest env r script w).1, (hasNextRest env r script w).2.1) := by
  have hloop := loopUntil_loopedUntil env (hasNextDone r) (fun _ _ => rfl) (script.length + 1)
    script w hw (Nat.lt_succ_self _)
  rw [hasNext, hasNextRest]
  generalize loopUntil env (hasNextDone r) (script.length + 1) w script = x at hloop
  cases hloop with
  | returned rest huntil _ =>
    rcases LoopSteps.extends huntil.steps hw hresp with ⟨resp', hresp', -⟩
    simp only [Outcome.andThen, hresp', backlog_eq hresp']
  | _ => rfl

/-- The first part of a round is a call of `has_next?`. -/
theorem step_hasNext_eq (hw : Consistent env w) (hkind : w.kindOf r = some .iterator)
    (hcrashed : w.crashed = false) :
    step env (.hasNext r script) w = (hasNextRest env r script w).2.1 := by
  rcases kindOf_eq_some hkind with ⟨resp, hresp, -⟩
  simp only [step, perform, hcrashed, Bool.false_eq_true, if_false, act, hkind, hasNext_eq hw hresp]
  generalize hasNextRest env r script w = x
  rcases x with ⟨x, w', rest⟩
  cases x <;> rfl

theorem step_next_eq (hkind : w.kindOf r = some .iterator) (hcrashed : w.crashed = false) :
    step env (.next r) w = (next r w).2 := by
  simp only [step, perform, hcrashed, Bool.false_eq_true, if_false, act, hkind]

end Served

variable {env}

/-- In every reachable state, a wait that is served up to the answer of its request returns or
raises what that answer stands for, with the message of that answer. -/
theorem wait_answered (as : List Action) {id : Int} {p : Pending} {script : Script}
    {c : Completion} (hp : (run env as).lib.outstanding.lookup id = some p)
    (hkind : p.kind = .deferred) (hcrashed : (run env as).crashed = false)
    (hserves : Serves env (run env as).lib.outstanding script)
    (hc : (eventsOf id script).head? = some c) :
    (perform env (.wait p.ref script) (run env as)).1 =
      c.value env c.message >>= fun v => .returned (.value v) := by
  have hw := run_sound env as
  rcases hw.consistent.bound id p hp with ⟨resp, hresp, hbound⟩
  have hkindOf := kindOf_of_response hresp (hbound.kind.trans hkind)
  rw [perform_wait_eq hcrashed hkindOf, hw.wait_value hp hkind hcrashed hserves hc]

/-- The wait of a `get` that is interrupted and takes a record of a search first. -/
theorem wait_answered_after_record :
    (perform packedEnv
      (.wait 1 [.failed .interrupted "interrupted",
        .yielded 1 ⟨.success, "", .attributes (recordOf 7)⟩, .yielded 2 ⟨.timeout, "late", .none⟩])
      (run packedEnv [.submit searchCall 0 (accepting 1), .submit getCall 0 (accepting 2)])).1 =
    (Completion.value packedEnv ⟨.timeout, "late", .none⟩ "late" >>=
      fun v => .returned (.value v)) :=
  have hp : (run packedEnv [.submit searchCall 0 (accepting 1),
      .submit getCall 0 (accepting 2)]).lib.outstanding.lookup 2 =
        some ⟨1, .deferred, .attributes, fun _ => rfl⟩ := rfl
  wait_answered _ hp rfl rfl
    ⟨rfl, _, rfl, by decide, fun _ => ⟨_, rfl⟩, _, rfl, by decide, nofun, trivial⟩ rfl

/-- In every reachable state, a consumer of a search that is served up to its end obtains the
backlog and one entry for every further event, and ends. -/
theorem collect_returned (as : List Action) {id : Int} {p : Pending} {script : Script}
    (hp : (run env as).lib.outstanding.lookup id = some p) (hkind : p.kind = .iterator)
    (hserves : Serves env (run env as).lib.outstanding script)
    (hdone : ∃ c ∈ eventsOf id script, c.status = .searchdone) :
    (collect env p.ref (run env as) script).1 =
      .returned ((run env as).backlog p.ref ++ itemsOf env (eventsOf id script)) := by
  exact (run_sound env as).collect_value hp hkind hserves hdone

/-- A search and a `get` that is answered in the middle of it. -/
theorem collect_returned_around_get :
    (collect packedEnv 0
      (run packedEnv [.submit searchCall 0 (accepting 1), .submit getCall 0 (accepting 2)])
      [.yielded 1 ⟨.success, "", .attributes (recordOf 7)⟩, .yielded 2 ⟨.timeout, "late", .none⟩,
        .yielded 1 ⟨.searchdone, "", .none⟩]).1 =
    .returned ([] ++ itemsOf packedEnv [⟨.success, "", .attributes (recordOf 7)⟩,
      ⟨.searchdone, "", .none⟩]) :=
  have hp : (run packedEnv [.submit searchCall 0 (accepting 1),
      .submit getCall 0 (accepting 2)]).lib.outstanding.lookup 1 =
        some ⟨0, .iterator, .attributes, fun _ => rfl⟩ := rfl
  collect_returned _ hp rfl
    ⟨_, rfl, by decide, fun _ => ⟨_, rfl⟩, _, rfl, by decide, nofun, _, rfl, by decide,
      fun _ => ⟨_, rfl⟩, trivial⟩
    ⟨⟨.searchdone, "", .none⟩, by simp, rfl⟩

end HyperDex.Client
