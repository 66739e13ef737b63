import HyperDex.Client.Search

/-!
# Consumers that poll

A consumer of a search can ask `item_available?` before each `next` and leave
the loop to others, or let `has_next?` drive it. The first kind loses what is
unread when `SEARCHDONE` arrives: a finished search never has an item available.
-/
namespace HyperDex.Client
open General Ruby Conversion Decoding

/-- `item_available?` of a response object. -/
def World.itemAvailable (w : World) (r : Ref) : Bool :=
  match w.responses[r]? with
  | none => false
  | some resp => resp.itemAvailable

/-- `entries << it.next while it.item_available?`, for a number of rounds. -/
def pollRounds (r : Ref) : ℕ → World → List Entry × World
  | 0, w => ([], w)
  | n + 1, w =>
    if w.itemAvailable r then
      let x := next r w
      let y := pollRounds r n x.2
      (x.1.toList ++ y.1, y.2)
    else ([], w)

/-- A round takes one entry, so the loop has ended after these. -/
def poll (r : Ref) (w : World) : List Entry × World := pollRounds r ((w.backlog r).length + 1) w

def World.EndsUnread (w : World) (r : Ref) : Prop :=
  (∃ y ∈ w.events r, y.status = .searchdone) ∧ w.backlog r ≠ []

variable {Obj : Type} (env : Env Obj)

/-- `entries << it.next while it.has_next?`, for a number of rounds, as far as it gets without
another event. -/
def takeRounds (r : Ref) : ℕ → World → List Entry × World
  | 0, w => ([], w)
  | n + 1, w =>
    match hasNext env r [] w with
    | (.returned true, w) =>
      let x := next r w
      let y := takeRounds r n x.2
      (x.1.toList ++ y.1, y.2)
    | (_, w) => ([], w)

def take (r : Ref) (w : World) : List Entry × World :=
  takeRounds env r ((w.backlog r).length + 1) w

/-- What a consumer obtains who reads the search after each part of a run. The parts may drive
the loop through any request, the search itself included. -/
def consume (read : World → List Entry × World) : List (List Action) → World → List Entry
  | [], _ => []
  | part :: parts, w =>
    let x := read (Machine.run (step env) w part)
    x.1 ++ consume read parts x.2

def readStates (read : World → List Entry × World) : List (List Action) → World → List World
  | [], _ => []
  | part :: parts, w =>
    let w' := Machine.run (step env) w part
    w' :: readStates read parts (read w').2

/-- In every state of the run an item is available exactly when `next` returns one. -/
def Available (as : List Action) (r : Ref) : Prop :=
  ∀ pre, pre <+: as →
    ((run env pre).itemAvailable r = true ↔ ∃ e, (next r (run env pre)).1 = some e)

def SameEntries (parts : List (List Action)) (r : Ref) : Prop :=
  consume env (poll r) parts .initial = consume env (take env r) parts .initial

section State
variable {env} {w : World} {r : Ref} {resp : Response}

theorem itemAvailable_eq (hresp : w.responses[r]? = some resp) :
    w.itemAvailable r = !(resp.finished || resp.backlog.isEmpty) := by
  simp only [World.itemAvailable, hresp, Response.itemAvailable]

theorem next_isSome_iff (w : World) (r : Ref) :
    (∃ e, (next r w).1 = some e) ↔ w.backlog r ≠ [] := by
  rw [next, World.backlog]
  cases hresp : w.responses[r]? with
  | none => simp
  | some resp => cases hbacklog : resp.backlog <;> simp [hbacklog]

theorem Consistent.backlog_of_deferred (hw : Consistent env w)
    (hresp : w.responses[r]? = some resp) (hkind : resp.kind = .deferred) :
    resp.backlog = [] := by
  have hentries := (hw.tracked r resp hresp).entries
  have hnone : ∀ y ∈ (history r w.trace).answers, Kind.deferred.entry env y = none :=
    fun _ _ => rfl
  rw [hkind, List.filterMap_eq_nil_iff.mpr hnone] at hentries
  exact (List.append_eq_nil_iff.mp hentries).2

/-- Only an iterator has a backlog, and it is finished by `SEARCHDONE`. -/
theorem Consistent.endsUnread_iff (hw : Consistent env w) (hresp : w.responses[r]? = some resp) :
    w.EndsUnread r ↔ resp.finished = true ∧ resp.backlog ≠ [] := by
  rw [World.EndsUnread, backlog_eq hresp]
  cases hkind : resp.kind with
  | iterator => exact and_congr_left fun _ => ((hw.tracked r resp hresp).searchdone hkind).symm
  | deferred => simp [hw.backlog_of_deferred hresp hkind]

theorem World.EndsUnread.response (h : w.EndsUnread r) (hw : Consistent env w) :
    ∃ resp, w.responses[r]? = some resp ∧ resp.kind = .iterator ∧ resp.backlog ≠ [] := by
  cases hresp : w.responses[r]? with
  | none => exact absurd (by simp [World.backlog, hresp]) h.2
  | some resp =>
    have hbacklog : resp.backlog ≠ [] := ((hw.endsUnread_iff hresp).mp h).2
    refine ⟨resp, rfl, ?_, hbacklog⟩
    cases hkind : resp.kind with
    | iterator => rfl
    | deferred => exact absurd (hw.backlog_of_deferred hresp hkind) hbacklog

theorem hasNext_nil (hresp : w.responses[r]? = some resp) :
    hasNext env r [] w =
      (if resp.finished || !resp.backlog.isEmpty then .returned (!resp.backlog.isEmpty)
        else .pending, w) := by
  simp only [hasNext, List.length_nil, loopUntil, hasNextDone_eq hresp]
  split
  · simp [Outcome.andThen, hresp]
  · rfl

theorem itemAvailable_iff (hw : Consistent env w) :
    (w.itemAvailable r = true ↔ ∃ e, (next r w).1 = some e) ↔ ¬ w.EndsUnread r := by
  rw [next_isSome_iff]
  cases hresp : w.responses[r]? with
  | none => simp [World.itemAvailable, World.EndsUnread, World.backlog, hresp]
  | some resp =>
    rw [itemAvailable_eq hresp, hw.endsUnread_iff hresp, backlog_eq hresp]
    cases resp.finished <;> simp

theorem next_cons {e : Entry} {rest : List Entry} (hresp : w.responses[r]? = some resp)
    (hbacklog : resp.backlog = e :: rest) : (next r w).1 = some e ∧
      (next r w).2.responses[r]? = some { resp with backlog := rest } := by
  simp [next, hresp, hbacklog, World.log, World.modify]

/-- Unless the search has ended, both loops stop and go on together. -/
theorem pollRounds_eq_takeRounds (n : ℕ) (hresp : w.responses[r]? = some resp)
    (h : resp.finished = false ∨ resp.backlog = []) :
    pollRounds r n w = takeRounds env r n w := by
  induction n generalizing w resp with
  | zero => rfl
  | succ n ih =>
    rw [pollRounds, takeRounds, itemAvailable_eq hresp, hasNext_nil hresp]
    cases hbacklog : resp.backlog with
    | nil => cases resp.finished <;> simp
    | cons e rest =>
      have hfin : resp.finished = false := h.resolve_right (by simp [hbacklog])
      rcases next_cons hresp hbacklog with ⟨-, hrest⟩
      simp only [hfin, List.isEmpty_cons, Bool.or_false, Bool.not_false, Bool.or_true, if_true]
      rw [ih hrest (.inl hfin)]

theorem pollRounds_steps (n : ℕ) (w : World) : SmallSteps env w (pollRounds r n w).2 := by
  induction n generalizing w with
  | zero => exact .refl
  | succ n ih =>
    rw [pollRounds]
    split
    · exact (next_steps r w).trans (ih _)
    · exact .refl

theorem poll_eq_take (hw : Consistent env w) (h : ¬ w.EndsUnread r) :
    poll r w = take env r w := by
  rw [poll, take]
  cases hresp : w.responses[r]? with
  | none => simp [pollRounds, takeRounds, World.itemAvailable, hasNext, loopUntil, hasNextDone,
      hresp, Outcome.andThen]
  | some resp =>
    rw [hw.endsUnread_iff hresp] at h
    refine pollRounds_eq_takeRounds _ hresp ?_
    cases hfin : resp.finished with
    | false => exact .inl rfl
    | true => exact .inr (by simpa [hfin] using h)

/-- In an ended search a consumer that polls stops at once. -/
theorem poll_of_ended (hw : Consistent env w) (hkind : w.kindOf r = some .iterator)
    (hended : ∃ y ∈ w.events r, y.status = .searchdone) : poll r w = ([], w) := by
  rcases kindOf_eq_some hkind with ⟨resp, hresp, hiterator⟩
  have hfin := ((hw.tracked r resp hresp).searchdone hiterator).mpr hended
  simp [poll, pollRounds, itemAvailable_eq hresp, hfin]

theorem take_of_unread (hresp : w.responses[r]? = some resp) (h : resp.backlog ≠ []) :
    (take env r w).1 ≠ [] := by
  rcases List.exists_cons_of_ne_nil h with ⟨e, rest, hbacklog⟩
  rw [take, takeRounds, hasNext_nil hresp]
  simp [hbacklog, (next_cons hresp hbacklog).1]

end State

section Runs
variable {env} {w w' : World} {r : Ref}

/-- Once a search has ended, polling obtains nothing in any part of a run. -/
theorem consume_poll_of_ended (parts : List (List Action)) (hw : Consistent env w)
    (hkind : w.kindOf r = some .iterator) (hended : ∃ y ∈ w.events r, y.status = .searchdone) :
    consume env (poll r) parts w = [] := by
  induction parts generalizing w with
  | nil => rfl
  | cons part parts ih =>
    have hw' := hw.run part
    have hcontinues := hw.continues part
    have hkind' := hcontinues.kindOf r _ hkind
    rcases hended with ⟨y, hy, hdone⟩
    have hended' : ∃ y ∈ (Machine.run (step env) w part).events r, y.status = .searchdone :=
      ⟨y, hcontinues.events hy, hdone⟩
    rw [consume, poll_of_ended hw' hkind' hended', List.nil_append]
    exact ih hw' hkind' hended'

/-- Up to the first state with an ended and unread search the consumers agree, and from there
on only one of them obtains anything. -/
theorem consume_eq_iff (parts : List (List Action)) (hw : Consistent env w) :
    consume env (poll r) parts w = consume env (take env r) parts w ↔
      ∀ w' ∈ readStates env (take env r) parts w, ¬ w'.EndsUnread r := by
  induction parts generalizing w with
  | nil => simp [consume, readStates]
  | cons part parts ih =>
    have hw' := hw.run part
    rw [consume, consume, readStates, List.forall_mem_cons]
    by_cases hunread : (Machine.run (step env) w part).EndsUnread r
    · refine iff_of_false (fun heq => ?_) (fun h => h.1 hunread)
      rcases hunread.response hw' with ⟨resp, hresp, hiterator, hbacklog⟩
      have hkind := kindOf_of_response hresp hiterator
      rw [poll_of_ended hw' hkind hunread.1, List.nil_append,
        consume_poll_of_ended parts hw' hkind hunread.1] at heq
      exact take_of_unread hresp hbacklog (List.append_eq_nil_iff.mp heq.symm).1
    · have hpoll := poll_eq_take hw' hunread
      have hnext : Consistent env (take env r (Machine.run (step env) w part)).2 :=
        SmallSteps.consistent (hpoll ▸ pollRounds_steps _ _) hw'
      rw [hpoll, List.append_cancel_left_eq, ih hnext]
      exact ⟨fun h => ⟨hunread, h⟩, fun h => h.2⟩

end Runs

/-- In a run both answers agree exactly as long as no search ends unread; and the two kinds of
consumers obtain the same entries exactly when they never start to read in such a state. -/
theorem run_polling_iff (r : Ref) :
    (∀ as, Available env as r ↔ ∀ pre, pre <+: as → ¬ (run env pre).EndsUnread r) ∧
      ∀ parts, SameEntries env parts r ↔
        ∀ w ∈ readStates env (take env r) parts .initial, ¬ w.EndsUnread r :=
  ⟨fun _ => forall₂_congr fun pre _ => itemAvailable_iff (run_consistent env pre),
    fun parts => consume_eq_iff parts (consistent_initial env)⟩

def endedRun : List Action :=
  [.submit searchCall 0 (accepting 1), .submit getCall 0 (accepting 2),
    .wait 1 [.yielded 1 ⟨.success, "", .attributes (recordOf 7)⟩,
      .yielded 1 ⟨.searchdone, "", .none⟩, .yielded 2 ⟨.success, "", .attributes (recordOf 8)⟩]]

/-- The record can be taken, but no item is available: polling obtains nothing. -/
theorem endedRun_not_available :
    (run packedEnv endedRun).itemAvailable 0 = false ∧
      (next 0 (run packedEnv endedRun)).1.isSome = true ∧
      ¬ Available packedEnv endedRun 0 ∧ ¬ SameEntries packedEnv [endedRun] 0 := by
  refine ⟨rfl, rfl, fun h => ?_, fun h => ?_⟩
  · have hnext : ∃ e, (next 0 (run packedEnv endedRun)).1 = some e := ⟨_, rfl⟩
    exact nomatch (h endedRun (List.prefix_refl _)).mpr hnext
  · have hpoll : (consume packedEnv (poll 0) [endedRun] .initial).length = 0 := rfl
    have htake : (consume packedEnv (take packedEnv 0) [endedRun] .initial).length = 1 := rfl
    rw [SameEntries] at h
    rw [h, htake] at hpoll
    exact nomatch hpoll

end HyperDex.Client
