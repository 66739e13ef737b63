import HyperDex.Client.Delivery
import Mathlib.Logic.Relation

/-!
# The invariant of a client

The trace of a client is read as a ledger of requests and answers. Every
response object is determined by its part of the ledger, and the table of
operations holds what the ledger has outstanding. Every method call is a
sequence of small steps, each of which keeps this.
-/
namespace HyperDex.Client
open General Ruby Conversion Decoding

def Event.ledgerEntry : Event → Option (Ledger.Entry Int Ref Yield)
  | .submitted id r => some (.opened id r)
  | .yielded id r y closes => some (.answered id r y closes)
  | _ => none

def ledger (trace : List Event) : List (Ledger.Entry Int Ref Yield) :=
  trace.filterMap Event.ledgerEntry

def Event.isCallback (r : Ref) : Event → Bool
  | .callback r' => r' = r
  | _ => false

def Event.takenBy (r : Ref) : Event → Option Entry
  | .taken r' e => if r' = r then some e else none
  | _ => none

def Event.ref? : Event → Option Ref
  | .submitted _ r | .yielded _ r _ _ | .callback r | .read r | .taken r _ => some r
  | .decoded _ | .destroyed _ => none

/-- What the trace says about one response object: the answers of the library, how many of
them were the last one, the runs of the callback and the entries that were taken. -/
structure History where
  answers : List Yield
  closings : ℕ
  callbacks : ℕ
  taken : List Entry

def history (r : Ref) (trace : List Event) : History where
  answers := Ledger.answers r (ledger trace)
  closings := Ledger.closings r (ledger trace)
  callbacks := trace.countP (Event.isCallback r)
  taken := trace.filterMap (Event.takenBy r)

def History.receive (h : History) (y : Yield) (closes : Bool) : History where
  answers := h.answers ++ [y]
  closings := h.closings + if closes then 1 else 0
  callbacks := h.callbacks + 1
  taken := h.taken

/-- Events of the memory alone. -/
def Event.Silent : Event → Prop
  | .decoded _ | .destroyed _ | .read _ => True
  | _ => False

theorem ledger_append (t u : List Event) : ledger (t ++ u) = ledger t ++ ledger u :=
  List.filterMap_append

/-- An entry that one event alone leaves is in the ledger where the event is in the trace. -/
theorem mem_ledger_iff {t : List Event} {entry : Ledger.Entry Int Ref Yield} {event : Event}
    (h : ∀ e : Event, e.ledgerEntry = some entry ↔ e = event) :
    entry ∈ ledger t ↔ event ∈ t := by
  rw [ledger, List.mem_filterMap]
  simp only [h, exists_eq_right]

theorem answered_mem_ledger {t : List Event} {id : Int} {r : Ref} {y : Yield} {closes : Bool} :
    .answered id r y closes ∈ ledger t ↔ .yielded id r y closes ∈ t := by
  apply mem_ledger_iff
  intro e
  cases e <;> simp [Event.ledgerEntry]

theorem mem_answers_history {t : List Event} {r : Ref} {y : Yield} :
    y ∈ (history r t).answers ↔ ∃ id closes, .yielded id r y closes ∈ t := by
  simp only [history, Ledger.mem_answers, answered_mem_ledger]

theorem opened_mem_ledger {t : List Event} {id : Int} {r : Ref} :
    .opened id r ∈ ledger t ↔ .submitted id r ∈ t := by
  apply mem_ledger_iff
  intro e
  cases e <;> simp [Event.ledgerEntry]

theorem ledger_silent {es : List Event} (hes : ∀ e ∈ es, e.Silent) : ledger es = [] := by
  rw [ledger, List.filterMap_eq_nil_iff]
  intro e he
  have hsilent := hes e he
  cases e <;> first | rfl | exact hsilent.elim

theorem history_silent (r : Ref) (t : List Event) {es : List Event} (hes : ∀ e ∈ es, e.Silent) :
    history r (t ++ es) = history r t := by
  have hcallback : es.countP (Event.isCallback r) = 0 := by
    rw [List.countP_eq_zero]
    intro e he
    have hsilent := hes e he
    cases e <;> first | exact hsilent.elim | simp [Event.isCallback]
  have htaken : es.filterMap (Event.takenBy r) = [] := by
    rw [List.filterMap_eq_nil_iff]
    intro e he
    have hsilent := hes e he
    cases e <;> first | rfl | exact hsilent.elim
  simp only [history, ledger_append, ledger_silent hes, List.append_nil, List.countP_append,
    hcallback, List.filterMap_append, htaken, Nat.add_zero]

theorem ledger_submitted (t : List Event) (id : Int) (r : Ref) :
    ledger (t ++ [.submitted id r]) = ledger t ++ [.opened id r] :=
  ledger_append t _

theorem ledger_taken (t : List Event) (r : Ref) (e : Entry) :
    ledger (t ++ [.taken r e]) = ledger t :=
  (ledger_append t _).trans (List.append_nil _)

theorem history_submitted (r r' : Ref) (t : List Event) (id : Int) :
    history r (t ++ [.submitted id r']) = history r t := by
  simp [history, ledger_submitted, Event.isCallback, Event.takenBy]

theorem history_taken (r r' : Ref) (t : List Event) (e : Entry) :
    history r (t ++ [.taken r' e]) =
      if r' = r then { history r t with taken := (history r t).taken ++ [e] } else history r t := by
  by_cases h : r' = r <;> simp [history, ledger_taken, Event.isCallback, Event.takenBy, h]

theorem ledger_ref {t : List Event} {r : Ref} (h : ∀ e ∈ t, e.ref? ≠ some r) :
    ∀ e ∈ ledger t, e.ref ≠ r := by
  intro e he hr
  rcases List.mem_filterMap.mp he with ⟨a, ha, hae⟩
  refine h a ha ?_
  cases a <;> simp only [Event.ledgerEntry, reduceCtorEq, Option.some.injEq] at hae
  all_goals
    subst hae
    exact congrArg some hr

theorem history_fresh {t : List Event} {r : Ref} (h : ∀ e ∈ t, e.ref? ≠ some r) :
    history r t = ⟨[], 0, 0, []⟩ := by
  have hcallback : t.countP (Event.isCallback r) = 0 := by
    rw [List.countP_eq_zero]
    intro e he hcallback
    cases e with
    | callback r' =>
      have hr : r' = r := by simpa [Event.isCallback] using hcallback
      exact h _ he (congrArg some hr)
    | _ => simp [Event.isCallback] at hcallback
  have htaken : t.filterMap (Event.takenBy r) = [] := by
    rw [List.filterMap_eq_nil_iff]
    intro e he
    cases e with
    | taken r' e =>
      have hr : r' ≠ r := fun hr => h _ he (congrArg some hr)
      simp [Event.takenBy, hr]
    | _ => rfl
  simp only [history, Ledger.answers_of_not_mem r _ (ledger_ref h),
    Ledger.closings_of_not_mem r _ (ledger_ref h), hcallback, htaken]

variable {Obj : Type} (env : Env Obj)

theorem consumption_silent (kind : Kind) (y : Yield) : ∀ e ∈ kind.consumption env y, e.Silent := by
  unfold Kind.consumption consumption
  repeat' split
  all_goals simp [Event.Silent]

theorem consumption_ref (kind : Kind) (y : Yield) :
    ∀ e ∈ kind.consumption env y, ∀ r, e.ref? ≠ some r := by
  unfold Kind.consumption consumption
  repeat' split
  all_goals simp [Event.ref?]

theorem ledger_yielded (t : List Event) (id : Int) (r : Ref) (y : Yield) (closes : Bool)
    (kind : Kind) :
    ledger (t ++ (.yielded id r y closes :: .callback r :: kind.consumption env y)) =
      ledger t ++ [.answered id r y closes] := by
  have hcons : ledger (.yielded id r y closes :: .callback r :: kind.consumption env y) =
      .answered id r y closes :: ledger (kind.consumption env y) := rfl
  rw [ledger_append, hcons, ledger_silent (consumption_silent env kind y)]

theorem history_yielded (r r' : Ref) (t : List Event) (id : Int) (y : Yield) (closes : Bool)
    (kind : Kind) :
    history r (t ++ (.yielded id r' y closes :: .callback r' :: kind.consumption env y)) =
      if r' = r then (history r t).receive y closes else history r t := by
  have hsplit : t ++ (.yielded id r' y closes :: .callback r' :: kind.consumption env y) =
      (t ++ [.yielded id r' y closes, .callback r']) ++ kind.consumption env y := by simp
  have hledger : ledger (t ++ [.yielded id r' y closes, .callback r']) =
      ledger t ++ [.answered id r' y closes] := ledger_append t _
  rw [hsplit, history_silent _ _ (consumption_silent env kind y)]
  by_cases h : r' = r
  · subst h
    simp [history, History.receive, hledger, Event.isCallback, Event.takenBy, List.countP_append]
  · simp [history, hledger, Event.isCallback, Event.takenBy, h, List.countP_append]

/-- A response object is what its history has made of it. -/
structure Tracked (h : History) (resp : Response) : Prop where
  callbacks : h.callbacks = h.answers.length
  finished : h.closings = if resp.finished then 1 else 0
  single : resp.kind = .deferred → h.answers.length = h.closings
  searchdone : resp.kind = .iterator →
    (resp.finished = true ↔ ∃ y ∈ h.answers, y.status = .searchdone)
  cells : resp.cells = h.answers.foldl Cells.fill .initial
  entries : h.taken ++ resp.backlog = h.answers.filterMap (resp.kind.entry env)
  outputs : ∃ outputs, resp.Marks outputs ∧ (resp.kind = .iterator → outputs = .attributes) ∧
    ∀ y ∈ h.answers, y.Fits outputs

theorem marks_unique {resp : Response} {o o' : Outputs} (h : resp.Marks o) (h' : resp.Marks o') :
    o = o' := by
  have hdescription := h.description.symm.trans h'.description
  have hcount := h.count.symm.trans h'.count
  have hattrs := h.attrs.symm.trans h'.attrs
  cases o <;> cases o' <;> simp_all

theorem tracked_accept (kind : Kind) (outputs : Outputs) (reqid : Int)
    (houtputs : kind = .iterator → outputs = .attributes) :
    Tracked env ⟨[], 0, 0, []⟩ ((Response.new kind).accept outputs reqid) where
  callbacks := rfl
  finished := rfl
  single _ := rfl
  searchdone _ := by simp [Response.accept, Response.new]
  cells := rfl
  entries := rfl
  outputs := ⟨outputs, ⟨rfl, rfl, rfl⟩, houtputs, by simp⟩

/-- An event keeps an unfinished response object tracked. -/
theorem Tracked.receive {h : History} {resp : Response} {p : Pending} {reqid : Int}
    (ht : Tracked env h resp) (hbound : p.Bound reqid resp) (y : Yield) (hy : y.Fits p.outputs) :
    Tracked env (h.receive y (p.kind.closes y.status)) (p.receive env y resp) := by
  have hunfinished : resp.finished = false := hbound.unfinished
  have hclosings : h.closings = 0 := by simpa [hunfinished] using ht.finished
  have hkind : resp.kind = p.kind := hbound.kind
  constructor
  · simp [History.receive, ht.callbacks]
  · simp [History.receive, Pending.receive, hclosings, hunfinished]
  · intro hdeferred
    have hdeferred : resp.kind = .deferred := hdeferred
    simp [History.receive, ht.single hdeferred, ← hkind, hdeferred, Kind.closes]
  · intro hiterator
    have hiterator : resp.kind = .iterator := hiterator
    have hbefore : ¬ ∃ y ∈ h.answers, y.status = .searchdone := by
      rw [← ht.searchdone hiterator, hunfinished]
      decide
    simp only [Pending.receive, hunfinished, Bool.false_or, ← hkind, hiterator, Kind.closes,
      decide_eq_true_eq, History.receive, List.mem_append, List.mem_singleton]
    constructor
    · intro hdone
      exact ⟨y, Or.inr rfl, hdone⟩
    · rintro ⟨z, hz | rfl, hdone⟩
      · exact absurd ⟨z, hz, hdone⟩ hbefore
      · exact hdone
  · simp [History.receive, Pending.receive, ht.cells]
  · have hentries := ht.entries
    rw [hkind] at hentries
    change h.taken ++ (resp.backlog ++ (p.kind.entry env y).toList) =
      (h.answers ++ [y]).filterMap (resp.kind.entry env)
    rw [hkind, List.filterMap_append, ← hentries, List.append_assoc]
    cases hentry : p.kind.entry env y <;> simp [hentry]
  · rcases ht.outputs with ⟨outputs, hmarks, hiterator, hfits⟩
    obtain rfl : outputs = p.outputs := marks_unique hmarks hbound.marks
    refine ⟨p.outputs, ⟨hmarks.description, hmarks.count, hmarks.attrs⟩, hiterator, ?_⟩
    intro z hz
    rcases List.mem_append.mp hz with hz | hz
    · exact hfits z hz
    · rwa [List.mem_singleton.mp hz]

theorem Tracked.take {h : History} {resp : Response} {e : Entry} {rest : List Entry}
    (ht : Tracked env h resp) (hbacklog : resp.backlog = e :: rest) :
    Tracked env { h with taken := h.taken ++ [e] } { resp with backlog := rest } := by
  refine ⟨ht.callbacks, ht.finished, ht.single, ht.searchdone, ht.cells, ?_, ?_⟩
  · rw [← ht.entries, hbacklog]
    simp
  · rcases ht.outputs with ⟨outputs, hmarks, hrest⟩
    exact ⟨outputs, ⟨hmarks.description, hmarks.count, hmarks.attrs⟩, hrest⟩

/-- The table of operations is what the library has outstanding, and every response object
is tracked. -/
structure Consistent (w : World) : Prop where
  valid : Ledger.Valid (ledger w.trace)
  outstanding : ∀ id, Ledger.outstanding (ledger w.trace) id =
    (w.lib.outstanding.lookup id).map Pending.ref
  ops : ∀ id, w.ops.lookup id = (w.lib.outstanding.lookup id).map Pending.ref
  bound : ∀ id p, w.lib.outstanding.lookup id = some p →
    ∃ resp, w.responses[p.ref]? = some resp ∧ p.Bound id resp
  fresh : ∀ e ∈ w.trace, ∀ r, e.ref? = some r → r < w.responses.length
  opened : ∀ (r : Ref) resp, w.responses[r]? = some resp →
    ∃ id, resp.reqid = some id ∧ 0 ≤ id ∧ .opened id r ∈ ledger w.trace
  tracked : ∀ (r : Ref) resp, w.responses[r]? = some resp → Tracked env (history r w.trace) resp

theorem consistent_initial : Consistent env .initial where
  valid := .nil
  outstanding _ := rfl
  ops _ := rfl
  bound id p h := by simp [World.initial] at h
  fresh e h := by simp [World.initial] at h
  opened r resp h := by simp [World.initial] at h
  tracked r resp h := by simp [World.initial] at h

variable {env} {w : World}

theorem Consistent.hear (hw : Consistent env w) (message : String) :
    Consistent env (w.hear message) :=
  ⟨hw.valid, hw.outstanding, hw.ops, hw.bound, hw.fresh, hw.opened, hw.tracked⟩

theorem Consistent.ref_ne (hw : Consistent env w) :
    ∀ e ∈ w.trace, e.ref? ≠ some w.responses.length := by
  intro e he hr
  exact Nat.lt_irrefl _ (hw.fresh e he _ hr)

theorem Consistent.register (hw : Consistent env w) (call : Call) {reqid : Int} (hpos : 0 ≤ reqid)
    (hfree : w.lib.outstanding.lookup reqid = none) : Consistent env (w.register call reqid) := by
  have hlength : (w.register call reqid).responses.length = w.responses.length + 1 := by
    simp [World.register]
  have hledger : ledger (w.register call reqid).trace =
      ledger w.trace ++ [.opened reqid w.responses.length] := ledger_submitted _ _ _
  have hold {r : Ref} {resp : Response} (h : w.responses[r]? = some resp) :
      (w.register call reqid).responses[r]? = some resp := by
    have hr : r < w.responses.length := (List.getElem?_eq_some_iff.mp h).1
    simp [World.register, List.getElem?_append_left hr, h]
  have hcases {r : Ref} {resp : Response}
      (h : (w.register call reqid).responses[r]? = some resp) :
      w.responses[r]? = some resp ∨ (r = w.responses.length ∧
        resp = (Response.new call.kind).accept call.outputs reqid) := by
    rcases Nat.lt_or_ge r w.responses.length with hr | hr
    · left
      simpa [World.register, List.getElem?_append_left hr] using h
    · right
      rw [World.register, List.getElem?_append_right hr] at h
      rcases List.getElem?_eq_some_iff.mp h with ⟨hr', hresp⟩
      have hzero : r - w.responses.length = 0 := by simpa using hr'
      exact ⟨Nat.le_antisymm (Nat.sub_eq_zero_iff_le.mp hzero) hr,
        by simpa [hzero] using hresp.symm⟩
  constructor
  · rw [hledger]
    exact .opened hw.valid (by simp [hw.outstanding, hfree]) (ledger_ref hw.ref_ne)
  · intro id
    rw [hledger, Ledger.outstanding_snoc, Ledger.apply, Function.update_apply]
    simp only [World.register, OrderedMap.lookup_insert]
    split_ifs
    · rfl
    · exact hw.outstanding id
  · intro id
    simp only [World.register, OrderedMap.lookup_insert]
    split_ifs
    · rfl
    · exact hw.ops id
  · intro id p hp
    simp only [World.register, OrderedMap.lookup_insert] at hp
    split_ifs at hp with hid
    · obtain rfl := Option.some.inj hp
      refine ⟨(Response.new call.kind).accept call.outputs reqid, by simp [World.register],
        ⟨by rw [hid]; rfl, rfl, rfl, ⟨rfl, rfl, rfl⟩⟩⟩
    · rcases hw.bound id p hp with ⟨resp, hresp, hbound⟩
      exact ⟨resp, hold hresp, hbound⟩
  · intro e he r hr
    rw [hlength]
    rcases List.mem_append.mp he with he | he
    · exact Nat.lt_succ_of_lt (hw.fresh e he r hr)
    · obtain rfl := List.mem_singleton.mp he
      obtain rfl := Option.some.inj hr
      exact Nat.lt_succ_self _
  · intro r resp hresp
    rw [hledger]
    rcases hcases hresp with hresp | ⟨rfl, rfl⟩
    · rcases hw.opened r resp hresp with ⟨id, hid, hidpos, hmem⟩
      exact ⟨id, hid, hidpos, List.mem_append_left _ hmem⟩
    · exact ⟨reqid, rfl, hpos, by simp⟩
  · intro r resp hresp
    have htrace :
        (w.register call reqid).trace = w.trace ++ [.submitted reqid w.responses.length] :=
      rfl
    rw [htrace, history_submitted]
    rcases hcases hresp with hresp | ⟨rfl, rfl⟩
    · exact hw.tracked r resp hresp
    · rw [history_fresh hw.ref_ne]
      exact tracked_accept env call.kind call.outputs reqid call.outputs_of_iterator

theorem Consistent.ref_injective (hw : Consistent env w) {id id' : Int} {p p' : Pending}
    (hp : w.lib.outstanding.lookup id = some p) (hp' : w.lib.outstanding.lookup id' = some p')
    (href : p'.ref = p.ref) : id' = id :=
  hw.valid.outstanding_injective (by rw [hw.outstanding, hp']; exact congrArg some href)
    (by rw [hw.outstanding, hp]; rfl)

theorem Consistent.delivered (hw : Consistent env w) {reqid : Int} {p : Pending}
    (hp : w.lib.outstanding.lookup reqid = some p) (y : Yield) (hy : y.Fits p.outputs) :
    Consistent env (w.delivered env reqid p y) := by
  rcases hw.bound reqid p hp with ⟨resp₀, hresp₀, hbound⟩
  have hledger : ledger (w.delivered env reqid p y).trace =
      ledger w.trace ++ [.answered reqid p.ref y (p.kind.closes y.status)] :=
    ledger_yielded env _ _ _ _ _ _
  have houtstanding (id : Int) : (w.delivered env reqid p y).lib.outstanding.lookup id =
      if p.kind.closes y.status ∧ id = reqid then none else w.lib.outstanding.lookup id := by
    by_cases hcloses : p.kind.closes y.status = true <;> simp [World.delivered, hcloses]
  have hself : (w.delivered env reqid p y).responses[p.ref]? = some (p.receive env y resp₀) := by
    simp [World.delivered, hresp₀]
  have hother {r : Ref} (hr : r ≠ p.ref) :
      (w.delivered env reqid p y).responses[r]? = w.responses[r]? := by
    simp [World.delivered, List.getElem?_modify_ne _ _ (Ne.symm hr)]
  constructor
  · rw [hledger]
    exact .answered y _ hw.valid (by rw [hw.outstanding, hp]; rfl)
  · intro id
    rw [hledger, Ledger.outstanding_snoc, Ledger.apply, houtstanding]
    by_cases hcloses : p.kind.closes y.status = true
    · by_cases hid : id = reqid <;> simp [hcloses, hid, hw.outstanding]
    · simp [hcloses, hw.outstanding]
  · intro id
    rw [houtstanding]
    by_cases hcloses : p.kind.closes y.status = true
    · by_cases hid : id = reqid <;> simp [World.delivered, hcloses, hid, hw.ops]
    · simp [World.delivered, hcloses, hw.ops]
  · intro id p' hp'
    rw [houtstanding] at hp'
    split_ifs at hp' with hgone
    by_cases hid : id = reqid
    · subst hid
      obtain rfl : p = p' := Option.some.inj (hp.symm.trans hp')
      have hopen : p.kind.closes y.status = false := by simpa using hgone
      exact ⟨_, hself, hbound.reqid, by simp [Pending.receive, hbound.unfinished, hopen],
        hbound.kind, hbound.marks.description, hbound.marks.count, hbound.marks.attrs⟩
    · rcases hw.bound id p' hp' with ⟨resp, hresp, hbound'⟩
      have href : p'.ref ≠ p.ref := fun href => hid (hw.ref_injective hp hp' href)
      exact ⟨resp, by rw [hother href, hresp], hbound'⟩
  · intro e he r hr
    have hlength : (w.delivered env reqid p y).responses.length = w.responses.length := by
      simp [World.delivered]
    have hpref : p.ref < w.responses.length := (List.getElem?_eq_some_iff.mp hresp₀).1
    rw [hlength]
    rcases List.mem_append.mp he with he | he
    · exact hw.fresh e he r hr
    · rcases List.mem_cons.mp he with rfl | he
      · exact Option.some.inj hr ▸ hpref
      · rcases List.mem_cons.mp he with rfl | he
        · exact Option.some.inj hr ▸ hpref
        · exact absurd hr (consumption_ref env p.kind y e he r)
  · intro r resp hresp
    rw [hledger]
    by_cases hr : r = p.ref
    · subst hr
      obtain rfl := Option.some.inj (hself.symm.trans hresp)
      rcases hw.opened p.ref resp₀ hresp₀ with ⟨id, hid, hpos, hmem⟩
      exact ⟨id, hid, hpos, List.mem_append_left _ hmem⟩
    · rcases hw.opened r resp (hother hr ▸ hresp) with ⟨id, hid, hpos, hmem⟩
      exact ⟨id, hid, hpos, List.mem_append_left _ hmem⟩
  · intro r resp hresp
    have hhistory : history r (w.delivered env reqid p y).trace =
        if p.ref = r then (history r w.trace).receive y (p.kind.closes y.status)
        else history r w.trace := history_yielded env _ _ _ _ _ _ _
    by_cases hr : r = p.ref
    · subst hr
      obtain rfl := Option.some.inj (hself.symm.trans hresp)
      rw [hhistory, if_pos rfl]
      exact (hw.tracked p.ref resp₀ hresp₀).receive env hbound y hy
    · rw [hhistory, if_neg (Ne.symm hr)]
      exact hw.tracked r resp (hother hr ▸ hresp)

/-- Reading the cells of a response object leaves only events of the memory. -/
theorem Consistent.silent (hw : Consistent env w) {w' : World}
    (hresponses : w'.responses = w.responses) (hops : w'.ops = w.ops)
    (houtstanding : w'.lib.outstanding = w.lib.outstanding) (es : List Event)
    (htrace : w'.trace = w.trace ++ es) (hsilent : ∀ e ∈ es, e.Silent)
    (hes : ∀ e ∈ es, ∀ r, e.ref? = some r → r < w.responses.length) : Consistent env w' := by
  have hledger : ledger w'.trace = ledger w.trace := by
    rw [htrace, ledger_append, ledger_silent hsilent, List.append_nil]
  constructor
  · rw [hledger]
    exact hw.valid
  · rw [hledger, houtstanding]
    exact hw.outstanding
  · rw [hops, houtstanding]
    exact hw.ops
  · rw [houtstanding, hresponses]
    exact hw.bound
  · intro e he r hr
    rw [hresponses]
    rw [htrace] at he
    rcases List.mem_append.mp he with he | he
    · exact hw.fresh e he r hr
    · exact hes e he r hr
  · rw [hresponses, hledger]
    exact hw.opened
  · intro r resp hresp
    rw [htrace, history_silent r _ hsilent]
    exact hw.tracked r resp (hresponses ▸ hresp)

theorem Consistent.taken (hw : Consistent env w) {r : Ref} {resp : Response} {e : Entry}
    {rest : List Entry} (hresp : w.responses[r]? = some resp)
    (hbacklog : resp.backlog = e :: rest) :
    Consistent env ((w.modify r fun resp => { resp with backlog := rest }).log (.taken r e)) := by
  have hledger : ledger ((w.modify r fun resp => { resp with backlog := rest }).log
      (.taken r e)).trace = ledger w.trace := ledger_taken _ _ _
  have hget (r' : Ref) : ((w.modify r fun resp => { resp with backlog := rest }).log
      (.taken r e)).responses[r']? =
      if r = r' then some { resp with backlog := rest } else w.responses[r']? := by
    simp only [World.log, World.modify]
    split_ifs with hr
    · simp [← hr, hresp]
    · exact List.getElem?_modify_ne _ _ hr
  refine ⟨?_, ?_, hw.ops, ?_, ?_, ?_, ?_⟩
  · rw [hledger]
    exact hw.valid
  · rw [hledger]
    exact hw.outstanding
  · intro id p hp
    rcases hw.bound id p hp with ⟨resp', hresp', hbound⟩
    rw [hget]
    split_ifs with hr
    · obtain rfl : resp = resp' := by simpa [← hr, hresp] using hresp'
      exact ⟨_, rfl, hbound.reqid, hbound.unfinished, hbound.kind, hbound.marks.description,
        hbound.marks.count, hbound.marks.attrs⟩
    · exact ⟨resp', hresp', hbound⟩
  · intro e' he' r' hr'
    have hlength : ((w.modify r fun resp => { resp with backlog := rest }).log
        (.taken r e)).responses.length = w.responses.length := by simp [World.log, World.modify]
    rw [hlength]
    rcases List.mem_append.mp he' with he' | he'
    · exact hw.fresh e' he' r' hr'
    · obtain rfl := List.mem_singleton.mp he'
      obtain rfl : r = r' := Option.some.inj hr'
      exact (List.getElem?_eq_some_iff.mp hresp).1
  · intro r' resp' hresp'
    rw [hledger]
    rw [hget] at hresp'
    split_ifs at hresp' with hr
    · obtain rfl := Option.some.inj hresp'
      exact hr ▸ hw.opened r resp hresp
    · exact hw.opened r' resp' hresp'
  · intro r' resp' hresp'
    have hhistory := history_taken r' r w.trace e
    rw [hget] at hresp'
    change Tracked env (history r' (w.trace ++ [.taken r e])) resp'
    rw [hhistory]
    split_ifs at hresp' ⊢ with hr
    · obtain rfl := Option.some.inj hresp'
      subst hr
      exact (hw.tracked r resp hresp).take env hbacklog
    · exact hw.tracked r' resp' hresp'

end HyperDex.Client
