import HyperDex.Client.Blocking
import HyperDex.General.Resume

/-!
# Recovery

A wait or a `has_next?` raises the failure of a call of the library and the
exception of a record that no attribute list can be made of, whichever search
the record is for. Either is consumed with the exception, and what was taken
before stays taken. So a caller who rescues the exception and calls again
misses no event and sees none twice.
-/
namespace HyperDex.Client
open General Ruby Conversion Decoding

variable {Obj : Type} (env : Env Obj)

/-- The exception that the loop raises at a result of the library. -/
def LoopAnswer.fault (table : OrderedMap Int Pending) : LoopAnswer → Option Exn
  | .failed rc message =>
    if rc = .interrupted then none else some (exception env.objectSpace rc message)
  | .yielded reqid c => (table.lookup reqid).bind fun p => p.kind.decodingError env (c.place 0)

def LoopAnswer.after (table : OrderedMap Int Pending) : LoopAnswer → OrderedMap Int Pending
  | .failed _ _ => table
  | .yielded reqid c =>
    match table.lookup reqid with
    | none => table
    | some p => if p.kind.closes c.status then table.erase reqid else table

def rescued : OrderedMap Int Pending → Script → List Exn
  | _, [] => []
  | table, answer :: script =>
    (answer.fault env table).toList ++ rescued (answer.after table) script

/-- What results of the library are to the consumer of a search: an exception, or the entries
that the search makes of them. -/
def given (id : Int) : OrderedMap Int Pending → Script → List (Except Exn Entry)
  | _, [] => []
  | table, answer :: script =>
    (match answer.fault env table with
      | some e => [.error e]
      | none => (itemsOf env (eventsOf id [answer])).map .ok) ++
    given id (answer.after table) script

/-- `d.finished?` -/
def World.finished (w : World) (r : Ref) : Bool :=
  match w.responses[r]? with
  | none => true
  | some resp => resp.finished

/-- `Deferred#wait`, with what is left of the results. -/
def waitRest (r : Ref) (w : World) (script : Script) : Outcome Exn Value × World × Script :=
  Outcome.andThen (loopUntil env (waitDone r) (script.length + 1) w script) fun _ s =>
    match s.1.responses[r]? with
    | none => (.undefined, s)
    | some resp =>
      let x := encodeReturn env resp (s.1.log (.read r))
      (x.1, x.2, s.2)

/-- `begin; d.wait; rescue => e; errors << e; retry unless d.finished?; raise; end` -/
def waitAgain (r : Ref) (w : World) (script : Script) :
    Outcome Exn Value × List Exn × World × Script :=
  retry (fun w => w.finished r) (waitRest env r) (script.length + 1) w script

/-- `begin; log << it.next while it.has_next?; rescue => e; log << e; retry; end`, for a number
of rounds. -/
def collectRescuing (r : Ref) : ℕ → World → Script →
    Outcome Exn (List (Except Exn Entry)) × World × Script
  | 0, w, script => (.pending, w, script)
  | n + 1, w, script =>
    let x := hasNextRest env r script w
    match x.1 with
    | .raised e =>
      Outcome.andThen (collectRescuing r n x.2.1 x.2.2) fun log s => (.returned (.error e :: log), s)
    | .returned true =>
      let y := next r x.2.1
      Outcome.andThen (collectRescuing r n y.2 x.2.2) fun log s =>
        (.returned (y.1.toList.map .ok ++ log), s)
    | .returned false => (.returned [], x.2)
    | .pending => (.pending, x.2)
    | .undefined => (.undefined, x.2)

/-- A round takes an entry or an exception. -/
def collectAgain (r : Ref) (w : World) (script : Script) :
    Outcome Exn (List (Except Exn Entry)) × World × Script :=
  collectRescuing env r ((w.backlog r).length + script.length + 1) w script

def reader : Reader World LoopAnswer Exn where
  take w answer := w.serve env [answer]
  fault w answer := answer.fault env w.lib.outstanding

def Fed (w : World) (script : Script) : Prop :=
  Consistent env w ∧ Feeds w.lib.outstanding script

section Reading
variable {env} {w : World} {answer : LoopAnswer} {script : Script}

@[simp] theorem reader_fault (w : World) (answer : LoopAnswer) :
    (reader env).fault w answer = answer.fault env w.lib.outstanding := rfl

theorem outstanding_serve (env : Env Obj) (w : World) (answer : LoopAnswer) :
    (w.serve env [answer]).lib.outstanding = answer.after w.lib.outstanding := by
  cases answer with
  | failed rc message => rfl
  | yielded id c =>
    simp only [World.serve, LoopAnswer.after]
    cases w.lib.outstanding.lookup id <;> rfl

theorem faults_reader (w : World) (script : Script) :
    (reader env).faults w script = rescued env w.lib.outstanding script := by
  induction script generalizing w with
  | nil => rfl
  | cons answer script ih =>
    rw [Reader.faults, rescued, ih, ← outstanding_serve env]
    rfl

theorem feeds_cons (table : OrderedMap Int Pending) (answer : LoopAnswer) (script : Script) :
    Feeds table (answer :: script) ↔ Feeds table [answer] ∧ Feeds (answer.after table) script := by
  cases answer with
  | failed rc message => simp [Feeds, LoopAnswer.after]
  | yielded id c =>
    cases hp : table.lookup id with
    | none => simp [Feeds, hp]
    | some p => simp [Feeds, LoopAnswer.after, hp]

theorem Fed.take (h : Fed env w (answer :: script)) : Fed env (w.serve env [answer]) script := by
  rcases (feeds_cons _ _ _).mp h.2 with ⟨hone, hrest⟩
  exact ⟨LoopSteps.consistent (hone.steps env) h.1, outstanding_serve env w answer ▸ hrest⟩

theorem clientLoop_length (env : Env Obj) {r : Ref} (script : Script) (w : World)
    (h : (clientLoop env script w).1 = .returned r) :
    (clientLoop env script w).2.2.length < script.length := by
  induction script generalizing w with
  | nil => simp [clientLoop] at h
  | cons answer script ih =>
    cases answer with
    | failed rc message =>
      rw [clientLoop] at h ⊢
      split_ifs at h ⊢ with hrc
      · exact Nat.lt_succ_of_lt (ih _ h)
    | yielded id c =>
      rw [clientLoop] at h ⊢
      split at h
      · simp at h
      · next hadmits => simp

/-- The number of rounds does not matter, as long as it exceeds the number of results. -/
theorem loopUntil_rounds (env : Env Obj) (done : World → Bool) (n m : ℕ) (w : World)
    (script : Script) (hn : script.length < n) (hm : script.length < m) :
    loopUntil env done n w script = loopUntil env done m w script := by
  induction n generalizing m w script with
  | zero => exact absurd hn (Nat.not_lt_zero _)
  | succ n ih =>
    rcases Nat.exists_eq_succ_of_ne_zero (Nat.ne_of_gt (Nat.zero_lt_of_lt hm)) with ⟨m, rfl⟩
    rw [loopUntil, loopUntil]
    split
    · rfl
    · have hlength (r : Ref) := clientLoop_length env (r := r) script w
      generalize clientLoop env script w = x at hlength
      rcases x with ⟨x, w', rest⟩
      cases x with
      | returned r =>
        have hrest : rest.length < script.length := hlength r rfl
        exact ih m w' rest (by omega) (by omega)
      | _ => rfl

/-- What ends a loop depends on neither the error message nor the cells. -/
structure Watches (env : Env Obj) (done : World → Bool) : Prop where
  hear : ∀ w message, done (World.hear w message) = done w
  undecodable : ∀ w id p c a e, p.kind.decodingError env (Completion.place c a) = some e →
    done (World.delivered env w id p (c.place a)) = done w

theorem decodingError_eq (kind : Kind) (c : Completion) (a b : Address) :
    kind.decodingError env (c.place a) = kind.decodingError env (c.place b) := by
  cases kind with
  | deferred => rfl
  | iterator => rw [Kind.decodingError, Kind.decodingError, decodingError_place, decodingError_place]

theorem Consistent.clientLoop_yielded (hw : Consistent env w) {id : Int} {p : Pending}
    {c : Completion} (hp : w.lib.outstanding.lookup id = some p) (hfits : c.Fits p.outputs) :
    clientLoop env (.yielded id c :: script) w =
      (p.outcome env (c.place w.lib.arrays.length), w.serve env [.yielded id c], script) := by
  rcases hw.bound id p hp with ⟨resp, hresp, hbound⟩
  have hops : w.ops.lookup id = some p.ref := by rw [hw.ops, hp]; rfl
  have hadmits : w.lib.admits id c = some p := by simp [Library.admits, hp, hfits]
  simp only [clientLoop, hadmits, deliver_eq env hops hresp hbound hfits, World.serve, hp]

theorem loopUntil_reads {done : World → Bool} (hdone : Watches env done) :
    (reader env).Reads (Fed env) done
      fun w script => loopUntil env done (script.length + 1) w script where
  keeps w answer script hfed := hfed.take
  goes_on w answer script hfed hopen hfault := by
    cases answer with
    | failed rc message =>
      have hrc : rc = .interrupted := by simpa [reader, LoopAnswer.fault] using hfault
      -- an interruption is taken in the same round
      have hround := loopUntil_rounds env done (script.length + 1) (script.length + 2)
        (w.hear message) script (Nat.lt_succ_self _) (by omega)
      simp only [reader, World.serve, List.length_cons]
      rw [hround, loopUntil, loopUntil, hdone.hear, hopen, clientLoop]
      simp [hrc]
    | yielded id c =>
      rcases hfed.2 with ⟨p, hp, hfits, -⟩
      have hgood : p.kind.decodingError env (c.place w.lib.arrays.length) = none := by
        rw [decodingError_eq _ _ _ 0]
        simpa [reader, LoopAnswer.fault, hp] using hfault
      rw [List.length_cons, loopUntil, hopen, hfed.1.clientLoop_yielded hp hfits, Pending.outcome,
        hgood]
      rfl
  raises w answer script e hfed hopen hfault := by
    cases answer with
    | failed rc message =>
      rcases Option.ite_none_left_eq_some.mp hfault with ⟨hrc, he⟩
      have hstill : done (w.hear message) = false := (hdone.hear w message).trans hopen
      refine ⟨?_, hstill⟩
      obtain rfl : exception env.objectSpace rc message = e := Option.some.inj he
      rw [loopUntil, hopen, clientLoop, if_pos hrc]
      rfl
    | yielded id c =>
      rcases hfed.2 with ⟨p, hp, hfits, -⟩
      have hbad : p.kind.decodingError env (c.place w.lib.arrays.length) = some e := by
        rw [decodingError_eq _ _ _ 0]
        simpa [reader, LoopAnswer.fault, hp] using hfault
      have hserve : w.serve env [.yielded id c] =
          w.delivered env id p (c.place w.lib.arrays.length) := by simp only [World.serve, hp]
      refine ⟨?_, ?_⟩
      · rw [loopUntil, hopen, hfed.1.clientLoop_yielded hp hfits, Pending.outcome, hbad]
        rfl
      · exact (congrArg done hserve).trans ((hdone.undecodable w id p c _ e hbad).trans hopen)

/-- An event that cannot be decoded fills the cells of its search and does nothing else to it. -/
theorem receive_of_undecodable {p : Pending} {c : Completion} {a : Address} {e : Exn}
    (h : p.kind.decodingError env (c.place a) = some e) (resp : Response) :
    p.receive env (c.place a) resp = { resp with cells := resp.cells.fill (c.place a) } := by
  cases hkind : p.kind with
  | deferred => simp [hkind, Kind.decodingError] at h
  | iterator =>
    rw [hkind, Kind.decodingError, decodingError] at h
    split at h
    · next hstatus houtput =>
      split at h
      · simp at h
      · next hencode =>
        simp [Pending.receive, hkind, Kind.entry, entryOf, hstatus, houtput, hencode, Kind.closes]
    · simp at h

theorem watches_waitDone (r : Ref) : Watches env (waitDone r) where
  hear _ _ := rfl
  undecodable w id p c a e h := by
    simp only [waitDone, World.delivered, List.getElem?_modify]
    split_ifs with hr
    · cases w.responses[r]? with
      | none => simp
      | some resp => simp [receive_of_undecodable h]
    · simp

theorem watches_hasNextDone (r : Ref) : Watches env (hasNextDone r) where
  hear _ _ := rfl
  undecodable w id p c a e h := by
    simp only [hasNextDone, World.delivered, List.getElem?_modify]
    split_ifs with hr
    · cases w.responses[r]? with
      | none => simp
      | some resp => simp [receive_of_undecodable h, Response.itemAvailable]
    · simp

theorem Feeds.of_append {table : OrderedMap Int Pending} {pre rest : Script}
    (h : Feeds table (pre ++ rest)) : Feeds table pre := by
  induction pre generalizing table with
  | nil => trivial
  | cons answer pre ih =>
    rcases (feeds_cons _ _ _).mp h with ⟨hone, hrest⟩
    exact (feeds_cons _ _ _).mpr ⟨hone, ih hrest⟩

theorem after_reader (h : Feeds w.lib.outstanding script) :
    (reader env).after w script = w.serve env script := by
  induction script generalizing w with
  | nil => rfl
  | cons answer script ih =>
    have hrest := ((feeds_cons _ _ _).mp h).2
    rw [← outstanding_serve env] at hrest
    rw [Reader.after_cons]
    refine (ih hrest).trans ?_
    cases answer with
    | failed rc message => rfl
    | yielded id c =>
      rcases h with ⟨p, hp, -⟩
      simp only [World.serve, hp]

theorem lookup_after {table : OrderedMap Int Pending} {id : Int} {p : Pending}
    (hp : table.lookup id = some p) (hfeeds : Feeds table (answer :: script))
    (hmore : eventsOf id script ≠ []) : (answer.after table).lookup id = some p := by
  have hrest := ((feeds_cons _ _ _).mp hfeeds).2
  have hopen : (answer.after table).lookup id ≠ none := fun h => hmore (hrest.eventsOf_eq_nil h)
  cases answer with
  | failed rc message => exact hp
  | yielded id' c =>
    simp only [LoopAnswer.after] at hopen ⊢
    cases hp' : table.lookup id' with
    | none => exact hp
    | some p' =>
      simp only [hp'] at hopen ⊢
      split_ifs at hopen ⊢ with hcloses
      · rw [OrderedMap.lookup_erase] at hopen ⊢
        split_ifs at hopen ⊢ with hid
        · exact absurd rfl hopen
        · exact hp
      · exact hp

end Reading

section Waits
variable {env} {w : World} {r : Ref} {id : Int} {p : Pending} {c : Completion}
  {pre rest script : Script}

theorem waitDone_finished (hw : Consistent env w) (r : Ref) : w.finished r = waitDone r w := by
  rw [World.finished]
  cases hresp : w.responses[r]? with
  | none => simp [waitDone, hresp]
  | some resp => rw [waitDone_eq hw hresp]

theorem waitRest_reads (r : Ref) :
    (reader env).Reads (Fed env) (fun w => w.finished r) (waitRest env r) :=
  ((loopUntil_reads (watches_waitDone r)).andThen _).congr
    fun _ _ hfed => waitDone_finished hfed.1 r

theorem Consistent.unfinished_of_lookup (hw : Consistent env w)
    (hp : w.lib.outstanding.lookup id = some p) : w.finished p.ref = false := by
  rcases hw.bound id p hp with ⟨resp, hresp, hbound⟩
  simp [World.finished, hresp, hbound.unfinished]

/-- Up to its answer an outstanding Deferred is not finished. -/
theorem Fed.open (hfed : Fed env w (pre ++ .yielded id c :: rest))
    (hp : w.lib.outstanding.lookup id = some p) :
    ((reader env).after w pre).lib.outstanding.lookup id = some p ∧
      (reader env).Open (fun w => w.finished p.ref) w (pre ++ [.yielded id c]) := by
  induction pre generalizing w with
  | nil => exact ⟨hp, hfed.1.unfinished_of_lookup hp, trivial⟩
  | cons answer pre ih =>
    have hnext : (w.serve env [answer]).lib.outstanding.lookup id = some p := by
      rw [outstanding_serve]
      exact lookup_after hp hfed.2 (by simp [eventsOf_append])
    rcases ih hfed.take hnext with ⟨hlast, hopen⟩
    exact ⟨hlast, hfed.1.unfinished_of_lookup hp, hopen⟩

/-- A wait on a finished Deferred takes no results and reads its cells. -/
theorem Sound.waitRest_finished (hw : Sound env w) {resp : Response}
    (hresp : w.responses[r]? = some resp) (hkind : resp.kind = .deferred)
    (hfin : resp.finished = true) (hreads : reads r w.trace = 0) {y : Yield}
    (hy : w.events r = [y]) (hcrashed : w.crashed = false) (script : Script) :
    ∃ w', w'.finished r = true ∧
      waitRest env r w script = (y.value env w.lib.message, w', script) := by
  have hread := (hw.first_read hresp hkind hfin hreads hy hcrashed).1
  have hmemory := encodeReturn_memoryOnly env resp (w.log (.read r))
  have hdone : waitDone r w = true := by rw [waitDone_eq hw.consistent hresp, hfin]
  refine ⟨(encodeReturn env resp (w.log (.read r))).2, ?_, ?_⟩
  · rw [World.finished, hmemory.responses]
    simp [World.log, hresp, hfin]
  · rw [waitRest, loopUntil, if_pos hdone]
    simp only [Outcome.andThen, hresp, hread]

/-- A wait behind the answer of its request comes to what the answer stands for. -/
theorem Sound.waitRest_answered (hw : Sound env w) (hp : w.lib.outstanding.lookup id = some p)
    (hkind : p.kind = .deferred) (hcrashed : w.crashed = false) (hfits : c.Fits p.outputs)
    (script : Script) : ∃ w', w'.finished p.ref = true ∧
      waitRest env p.ref (w.serve env [.yielded id c]) script =
        (c.value env c.message, w', script) := by
  rcases hw.consistent.bound id p hp with ⟨resp, hresp, hbound⟩
  have hdeferred : resp.kind = .deferred := hbound.kind.trans hkind
  have hsteps : LoopSteps env w (w.serve env [.yielded id c]) :=
    Feeds.steps env ⟨p, hp, hfits, trivial⟩
  have hserve : w.serve env [.yielded id c] =
      w.delivered env id p (c.place w.lib.arrays.length) := by simp only [World.serve, hp]
  have hevents : (w.serve env [.yielded id c]).events p.ref = [c.place w.lib.arrays.length] := by
    rw [hserve, events_delivered, if_pos rfl, hw.consistent.events_of_pending hp hkind,
      List.nil_append]
  have hmessage : (w.serve env [.yielded id c]).lib.message = c.message := by rw [hserve]; rfl
  have hreads : reads p.ref (w.serve env [.yielded id c]).trace = 0 :=
    (LoopSteps.reads_eq hsteps p.ref).trans (hw.accounted.reads_eq_zero hresp hbound.unfinished)
  have hw' := LoopSteps.sound hsteps hw
  rcases LoopSteps.extends hsteps hw.consistent hresp with ⟨resp', hresp', hext⟩
  have hkind' : resp'.kind = .deferred := hext.kind.trans hdeferred
  have hfin : resp'.finished = true := by
    rw [← hw'.consistent.head_isSome hresp' hkind', hevents]
    rfl
  rw [← hmessage]
  exact hw'.waitRest_finished hresp' hkind' hfin hreads hevents
    ((LoopSteps.crashed hsteps).trans hcrashed) script

theorem Sound.waitAgain_eq (hw : Sound env w) (hp : w.lib.outstanding.lookup id = some p)
    (hkind : p.kind = .deferred) (hcrashed : w.crashed = false)
    (hfeeds : Feeds w.lib.outstanding (pre ++ .yielded id c :: rest)) :
    ∃ w', waitAgain env p.ref w (pre ++ .yielded id c :: rest) =
      (c.value env c.message, rescued env w.lib.outstanding pre, w', rest) := by
  have hfed : Fed env w (pre ++ .yielded id c :: rest) := ⟨hw.consistent, hfeeds⟩
  have hfeeds_pre : Feeds w.lib.outstanding pre := hfeeds.of_append
  have hsteps : LoopSteps env w ((reader env).after w pre) := by
    rw [after_reader hfeeds_pre]
    exact hfeeds_pre.steps env
  have hw' := LoopSteps.sound hsteps hw
  rcases hfed.open hp with ⟨hlast, hopen⟩
  rcases ((waitRest_reads p.ref).after pre hfed).2 with ⟨q, hq, hfits, -⟩
  obtain rfl : p = q := Option.some.inj (hlast.symm.trans hq)
  rcases hw'.waitRest_answered hlast hkind ((LoopSteps.crashed hsteps).trans hcrashed) hfits rest
    with ⟨w', hfin, hends⟩
  have hafter : (reader env).after w (pre ++ [.yielded id c]) =
      ((reader env).after w pre).serve env [.yielded id c] := (reader env).after_append w pre _
  have hfaults : (reader env).faults w (pre ++ [.yielded id c]) =
      rescued env w.lib.outstanding pre := by
    have hgood : LoopAnswer.fault env ((reader env).after w pre).lib.outstanding (.yielded id c) =
        none := by simp [LoopAnswer.fault, hlast, Kind.decodingError, hkind]
    rw [Reader.faults_append, faults_reader]
    simp [Reader.faults, hgood]
  have hraised (e : Exn) (t : World × Script)
      (h : waitRest env p.ref ((reader env).after w (pre ++ [.yielded id c])) rest =
        (.raised e, t)) : t.1.finished p.ref = true := by
    rw [hafter, hends] at h
    obtain rfl : (w', rest) = t := congrArg Prod.snd h
    exact hfin
  have hlength := (reader env).length_faults_le w (pre ++ [.yielded id c])
  have hretry := (waitRest_reads p.ref).retry_eq (n := (pre ++ .yielded id c :: rest).length + 1)
    (by simpa using hfed) hopen hraised
    (by simp at hlength ⊢; omega)
  refine ⟨w', ?_⟩
  rw [waitAgain, ← hfaults]
  rw [hafter, hends] at hretry
  simpa using hretry

end Waits

section Searches
variable {env} {w : World} {r : Ref} {id : Int} {p : Pending} {c : Completion} {resp : Response}
  {answer : LoopAnswer} {pre rest script : Script}

theorem hasNextRest_reads (r : Ref) :
    (reader env).Reads (Fed env) (hasNextDone r) fun w script => hasNextRest env r script w :=
  (loopUntil_reads (watches_hasNextDone r)).andThen _

/-- A consumer whose search is open and has no entry takes a result. -/
theorem collectRescuing_take (n : ℕ) (hfed : Fed env w (answer :: script))
    (hopen : hasNextDone r w = false) (hfault : answer.fault env w.lib.outstanding = none) :
    collectRescuing env r (n + 1) w (answer :: script) =
      collectRescuing env r (n + 1) (w.serve env [answer]) script := by
  have hround := (hasNextRest_reads r).goes_on w answer script hfed hopen hfault
  rw [collectRescuing, collectRescuing, hround]
  rfl

theorem collectRescuing_fault (n : ℕ) (hfed : Fed env w (answer :: script))
    (hopen : hasNextDone r w = false) {e : Exn}
    (hfault : answer.fault env w.lib.outstanding = some e) :
    collectRescuing env r (n + 1) w (answer :: script) =
      Outcome.andThen (collectRescuing env r n (w.serve env [answer]) script) fun log s =>
        (.returned (.error e :: log), s) := by
  have hround := ((hasNextRest_reads r).raises w answer script e hfed hopen hfault).1
  rw [collectRescuing, hround]
  rfl

theorem hasNextRest_of_done (env : Env Obj) (hresp : w.responses[r]? = some resp)
    (hdone : hasNextDone r w = true) (script : Script) :
    hasNextRest env r script w = (.returned (!resp.backlog.isEmpty), w, script) := by
  rw [hasNextRest, loopUntil, if_pos hdone]
  simp [Outcome.andThen, backlog_eq hresp]

theorem collectRescuing_entry (n : ℕ) (hresp : w.responses[r]? = some resp) {e : Entry}
    {es : List Entry} (hbacklog : resp.backlog = e :: es) (script : Script) :
    collectRescuing env r (n + 1) w script =
      Outcome.andThen (collectRescuing env r n (next r w).2 script) fun log s =>
        (.returned (.ok e :: log), s) := by
  have hdone : hasNextDone r w = true := by
    rw [hasNextDone_eq hresp, hbacklog]
    simp
  have hround := hasNextRest_of_done env hresp hdone script
  rw [hbacklog, List.isEmpty_cons, Bool.not_false] at hround
  rw [collectRescuing, hround]
  simp only [(next_cons hresp hbacklog).1]
  rfl

theorem collectRescuing_end (n : ℕ) (hresp : w.responses[r]? = some resp)
    (hbacklog : resp.backlog = []) (hfin : resp.finished = true) (script : Script) :
    collectRescuing env r (n + 1) w script = (.returned [], w, script) := by
  have hdone : hasNextDone r w = true := by
    rw [hasNextDone_eq hresp, hfin]
    simp
  have hround := hasNextRest_of_done env hresp hdone script
  rw [hbacklog, List.isEmpty_nil, Bool.not_true] at hround
  rw [collectRescuing, hround]

theorem itemsOf_of_fault {table : OrderedMap Int Pending} {e : Exn}
    (h : answer.fault env table = some e) (id : Int) : itemsOf env (eventsOf id [answer]) = [] := by
  cases answer with
  | failed rc message => rfl
  | yielded id' c =>
    rcases Option.bind_eq_some_iff.mp h with ⟨p, -, herror⟩
    have hitems : (c.items env).toOption = none := by
      cases hkind : p.kind with
      | deferred => simp [hkind, Kind.decodingError] at herror
      | iterator =>
        rw [hkind, Kind.decodingError, decodingError_place] at herror
        cases hc : c.items env with
        | ok es => simp [hc] at herror
        | error e' => rfl
    rw [eventsOf_yielded]
    split_ifs
    · simp [itemsOf, hitems, eventsOf]
    · rfl

/-- What a consumer obtains in the states that have nothing to read. -/
def CollectsFrom (env : Env Obj) (r : Ref) (table : OrderedMap Int Pending) (script rest : Script)
    (k : ℕ) (log : List (Except Exn Entry)) : Prop :=
  ∀ w resp n, Sound env w → w.lib.outstanding = table → w.responses[r]? = some resp →
    resp.kind = .iterator → resp.backlog = [] → k < n →
    ∃ w', collectRescuing env r n w script = (.returned log, w', rest)

theorem CollectsFrom.backlog {table : OrderedMap Int Pending} {k : ℕ}
    {log : List (Except Exn Entry)} (h : CollectsFrom env r table script rest k log)
    (hw : Sound env w) (htable : w.lib.outstanding = table)
    (hresp : w.responses[r]? = some resp) (hkind : resp.kind = .iterator) {n : ℕ}
    (hn : resp.backlog.length + k < n) :
    ∃ w', collectRescuing env r n w script =
      (.returned (resp.backlog.map .ok ++ log), w', rest) := by
  generalize hbacklog : resp.backlog = es at hn
  induction es generalizing w resp n with
  | nil => exact h w resp n hw htable hresp hkind hbacklog (by simpa using hn)
  | cons e es ih =>
    rcases Nat.exists_eq_succ_of_ne_zero (Nat.ne_of_gt (Nat.zero_lt_of_lt hn)) with ⟨n, rfl⟩
    have hstate : (next r w).2.lib = w.lib := by
      simp [next, hresp, hbacklog, World.log, World.modify]
    rcases ih (SmallSteps.sound (next_steps r w) hw) (hstate ▸ htable) (next_cons hresp hbacklog).2
      hkind (n := n) rfl (by simp at hn; omega) with ⟨w', hrest⟩
    refine ⟨w', ?_⟩
    rw [collectRescuing_entry n hresp hbacklog, hrest]
    rfl

theorem Sound.search_step (hw : Sound env w) (hp : w.lib.outstanding.lookup id = some p)
    (hresp : w.responses[p.ref]? = some resp) (hkind : resp.kind = .iterator)
    (hbacklog : resp.backlog = []) (hone : Feeds w.lib.outstanding [answer]) :
    hasNextDone p.ref w = false ∧ Sound env (w.serve env [answer]) ∧
      ∃ resp', (w.serve env [answer]).responses[p.ref]? = some resp' ∧ resp'.kind = .iterator ∧
        resp'.backlog = itemsOf env (eventsOf id [answer]) ∧
        (resp'.finished = true ↔ ∃ c ∈ eventsOf id [answer], c.status = .searchdone) := by
  have hunfinished : resp.finished = false := by
    rcases hw.consistent.bound id p hp with ⟨resp', hresp', hbound⟩
    obtain rfl : resp' = resp := Option.some.inj (hresp'.symm.trans hresp)
    exact hbound.unfinished
  refine ⟨?_, LoopSteps.sound (hone.steps env) hw, ?_⟩
  · rw [hasNextDone_eq hresp, hunfinished, hbacklog]
    rfl
  · rcases hw.consistent.search_served hresp hkind (hw.consistent.owns hp) hone with
      ⟨resp', hresp', hkind', hbacklog', hfin'⟩
    rw [hbacklog, List.nil_append] at hbacklog'
    exact ⟨resp', hresp', hkind', hbacklog', by simpa [hunfinished] using hfin'⟩

/-- What the consumer of an outstanding search obtains up to the end of the search. -/
theorem collectsFrom_given {table : OrderedMap Int Pending} (hp : table.lookup id = some p)
    (hdone : c.status = .searchdone) (hfeeds : Feeds table (pre ++ .yielded id c :: rest)) :
    CollectsFrom env p.ref table (pre ++ .yielded id c :: rest) rest pre.length
      (given env id table pre) := by
  induction pre generalizing table with
  | nil =>
    intro w resp n hw htable hresp hkind hbacklog hn
    subst htable
    rcases Nat.exists_eq_succ_of_ne_zero (Nat.ne_of_gt hn) with ⟨n, rfl⟩
    rcases hw.search_step hp hresp hkind hbacklog ((feeds_cons _ _ _).mp hfeeds).1 with
      ⟨hopen, -, resp', hresp', -, hbacklog', hfin'⟩
    have hgood : LoopAnswer.fault env w.lib.outstanding (.yielded id c) = none := by
      cases hk : p.kind <;>
        simp [LoopAnswer.fault, hp, hk, Kind.decodingError, decodingError, Completion.place, hdone]
    have hnothing : resp'.backlog = [] := by
      rw [hbacklog']
      have hitems : c.items env = .ok [] := by simp [Completion.items, hdone]
      simp [itemsOf, eventsOf, hitems, Except.toOption]
    rw [List.nil_append, collectRescuing_take n ⟨hw.consistent, hfeeds⟩ hopen hgood,
      collectRescuing_end n hresp' hnothing (hfin'.mpr ⟨c, by simp, hdone⟩)]
    exact ⟨_, rfl⟩
  | cons answer pre ih =>
    intro w resp n hw htable hresp hkind hbacklog hn
    subst htable
    rcases Nat.exists_eq_succ_of_ne_zero (Nat.ne_of_gt (Nat.zero_lt_of_lt hn)) with ⟨n, rfl⟩
    rcases (feeds_cons _ _ _).mp hfeeds with ⟨hone, hrest⟩
    rcases hw.search_step hp hresp hkind hbacklog hone with
      ⟨hopen, hw', resp', hresp', hkind', hbacklog', -⟩
    have hfed : Fed env w (answer :: (pre ++ .yielded id c :: rest)) := ⟨hw.consistent, hfeeds⟩
    have hnext := lookup_after hp hfeeds (by simp [eventsOf_append])
    have hlength : resp'.backlog.length ≤ 1 := by
      rw [hbacklog']
      exact Nat.le_trans (length_itemsOf_le _) (length_eventsOf_le id [answer])
    have hstate := outstanding_serve env w answer
    rw [List.cons_append, given]
    cases hfault : answer.fault env w.lib.outstanding with
    | none =>
      rw [collectRescuing_take n hfed hopen hfault, ← hbacklog']
      exact (ih hnext hrest).backlog hw' hstate hresp' hkind' (by simp at hn; omega)
    | some e =>
      have hnothing : resp'.backlog = [] := hbacklog'.trans (itemsOf_of_fault hfault id)
      rcases ih hnext hrest _ resp' n hw' hstate hresp' hkind' hnothing (by simp at hn; omega) with
        ⟨w', hcollects⟩
      rw [collectRescuing_fault n hfed hopen hfault, hcollects]
      exact ⟨w', rfl⟩

theorem Sound.collectAgain_eq (hw : Sound env w) (hp : w.lib.outstanding.lookup id = some p)
    (hkind : p.kind = .iterator) (hdone : c.status = .searchdone)
    (hfeeds : Feeds w.lib.outstanding (pre ++ .yielded id c :: rest)) :
    ∃ w', collectAgain env p.ref w (pre ++ .yielded id c :: rest) =
      (.returned ((w.backlog p.ref).map .ok ++ given env id w.lib.outstanding pre), w', rest) := by
  rcases hw.consistent.bound id p hp with ⟨resp, hresp, hbound⟩
  have hrounds : resp.backlog.length + pre.length <
      resp.backlog.length + (pre ++ .yielded id c :: rest).length + 1 := by
    rw [List.length_append]
    omega
  rw [collectAgain, backlog_eq hresp]
  exact (collectsFrom_given hp hdone hfeeds).backlog hw rfl hresp (hbound.kind.trans hkind) hrounds

end Searches

variable {env}

/-- In every reachable state, a caller who rescues the exceptions of a wait and waits again comes
to what the answer of its request stands for, with the message of that answer. It has rescued one
exception for each failure and each undecodable record before the answer, in their order, and what
comes behind the answer is left. -/
theorem wait_recovers (as : List Action) {id : Int} {p : Pending} {c : Completion}
    {pre rest : Script} (hp : (run env as).lib.outstanding.lookup id = some p)
    (hkind : p.kind = .deferred) (hcrashed : (run env as).crashed = false)
    (hfeeds : Feeds (run env as).lib.outstanding (pre ++ .yielded id c :: rest)) :
    ∃ w', waitAgain env p.ref (run env as) (pre ++ .yielded id c :: rest) =
      (c.value env c.message, rescued env (run env as).lib.outstanding pre, w', rest) :=
  (run_sound env as).waitAgain_eq hp hkind hcrashed hfeeds

/-- A `get` whose wait fails twice, once over a record of a search that cannot be decoded. -/
theorem wait_recovers_beside_malformed : ∃ w',
    waitAgain packedEnv 1
      (run packedEnv [.submit searchCall 0 (accepting 1), .submit getCall 0 (accepting 2)])
      ([.failed .timeout "no server", .yielded 1 ⟨.success, "", .attributes malformedRecord⟩] ++
        .yielded 2 ⟨.notfound, "", .none⟩ :: [.yielded 1 ⟨.searchdone, "", .none⟩]) =
    (Completion.value packedEnv ⟨.notfound, "", .none⟩ "",
      rescued packedEnv
        (run packedEnv [.submit searchCall 0 (accepting 1),
          .submit getCall 0 (accepting 2)]).lib.outstanding
        [.failed .timeout "no server", .yielded 1 ⟨.success, "", .attributes malformedRecord⟩],
      w', [.yielded 1 ⟨.searchdone, "", .none⟩]) :=
  have hp : (run packedEnv [.submit searchCall 0 (accepting 1),
      .submit getCall 0 (accepting 2)]).lib.outstanding.lookup 2 =
        some ⟨1, .deferred, .attributes, fun _ => rfl⟩ := rfl
  wait_recovers _ hp rfl rfl ⟨_, rfl, by decide, _, rfl, by decide, _, rfl, by decide, trivial⟩

/-- In every reachable state, a consumer of a search that rescues what `has_next?` raises and goes
on comes to the end of its search. It obtains the backlog and then, in the order of the results,
one entry for each further event of its search that can be decoded, and one exception for each
failure and each record of any search that cannot. -/
theorem collect_recovers (as : List Action) {id : Int} {p : Pending} {c : Completion}
    {pre rest : Script} (hp : (run env as).lib.outstanding.lookup id = some p)
    (hkind : p.kind = .iterator) (hdone : c.status = .searchdone)
    (hfeeds : Feeds (run env as).lib.outstanding (pre ++ .yielded id c :: rest)) :
    ∃ w', collectAgain env p.ref (run env as) (pre ++ .yielded id c :: rest) =
      (.returned (((run env as).backlog p.ref).map .ok ++
        given env id (run env as).lib.outstanding pre), w', rest) :=
  (run_sound env as).collectAgain_eq hp hkind hdone hfeeds

/-- A search with a failure of the loop and a malformed record between two good ones. -/
theorem collect_recovers_around_malformed : ∃ w',
    collectAgain packedEnv 0
      (run packedEnv [.submit searchCall 0 (accepting 1), .submit getCall 0 (accepting 2)])
      ([.yielded 1 ⟨.success, "", .attributes (recordOf 7)⟩, .failed .timeout "no server",
        .yielded 1 ⟨.success, "", .attributes malformedRecord⟩,
        .yielded 1 ⟨.success, "", .attributes (recordOf 8)⟩] ++
        .yielded 1 ⟨.searchdone, "", .none⟩ :: [.yielded 2 ⟨.notfound, "", .none⟩]) =
    (.returned ([] ++ given packedEnv 1
      (run packedEnv [.submit searchCall 0 (accepting 1),
        .submit getCall 0 (accepting 2)]).lib.outstanding
      [.yielded 1 ⟨.success, "", .attributes (recordOf 7)⟩, .failed .timeout "no server",
        .yielded 1 ⟨.success, "", .attributes malformedRecord⟩,
        .yielded 1 ⟨.success, "", .attributes (recordOf 8)⟩]),
      w', [.yielded 2 ⟨.notfound, "", .none⟩]) :=
  have hp : (run packedEnv [.submit searchCall 0 (accepting 1),
      .submit getCall 0 (accepting 2)]).lib.outstanding.lookup 1 =
        some ⟨0, .iterator, .attributes, fun _ => rfl⟩ := rfl
  collect_recovers _ hp rfl rfl
    ⟨_, rfl, by decide, _, rfl, by decide, _, rfl, by decide, _, rfl, by decide, _, rfl, by decide,
      trivial⟩

end HyperDex.Client
