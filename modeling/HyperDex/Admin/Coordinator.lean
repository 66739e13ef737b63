import HyperDex.Admin.Backlog
import HyperDex.Admin.Spaces
import HyperDex.Client.Texts
import HyperDex.General.Linearization

/-!
# Admin clients of one coordinator

Behind the admin library stands a coordinator, which executes the operations of all
clients, each as the library has read it: the argument of a request is a C string. A
call waits for one completion only: behind a failed loop call its operation may be
executed at any later time, or never, and its completion ends another call of the
client. What the calls return is nevertheless the coordinator's word, in an order of the
operations that keeps to the order of the calls.
-/
namespace HyperDex.Admin
open General Ruby Linearization

/-- What executes the requests, and the spaces that it lists, one a line. -/
structure Coordinator (σ : Type) where
  execute : Request → σ → ReturnCode × σ
  names : σ → List Bytes
  listing : σ → Bytes
  joins : ∀ s, Lines.Joins 10 (names s) (cString (listing s))

inductive Reply where
  | ended (code : ReturnCode)
  | listed (code : ReturnCode) (names : List Bytes)

/-- The request as the library reads it. -/
def Request.received : Request → Request
  | .listSpaces => .listSpaces
  | .addSpace definition => .addSpace (Client.adminReceived (.addSpace definition))
  | .rmSpace name => .rmSpace (Client.adminReceived (.rmSpace name))

def Request.reply (code : ReturnCode) (names : List Bytes) : Request → Reply
  | .listSpaces => .listed code names
  | _ => .ended code

/-- The coordinator executes a request as the library has read it. -/
def Coordinator.serve {σ : Type} (c : Coordinator σ) (request : Request) (s : σ) : Reply × σ :=
  (request.reply (c.execute request.received s).1 (c.names s), (c.execute request.received s).2)

/-- What a call returns to a reply. That a space was added or removed is not seen. -/
inductive Shows : Reply → Result → Prop where
  | nil (code : ReturnCode) : Shows (.ended code) .nil
  | symbols (names : List Bytes) : Shows (.listed .success names) (.symbols names)

/-- An operation that was started, with the code and the listing of the coordinator when it has
been executed. -/
structure Operation where
  request : Request
  answer : Option (ReturnCode × Bytes)

/-- The library ends the operation with the answer of the coordinator. Nothing is stored for a
listing that failed. -/
def Operation.Ends (op : Operation) (a : Answers) : Prop :=
  ∃ listing, op.answer = some (a.finalCode, listing) ∧ (op.request = .listSpaces →
    a.listing = if a.finalCode = .success then some listing else none)

/-- A client, and the call that it is in. -/
structure Caller where
  world : World
  current : Option (Request × Int)

structure Shared (κ σ : Type) where
  callers : κ → Caller
  operations : κ × Int → Option Operation
  state : σ

section Systems
variable {κ σ : Type} [DecidableEq κ]

omit [DecidableEq κ] in
def Shared.initial (s₀ : σ) : Shared κ σ := ⟨fun _ => ⟨.initial, none⟩, fun _ => none, s₀⟩

def Shared.setCaller (s : Shared κ σ) (k : κ) (caller : Caller) : Shared κ σ :=
  { s with callers := Function.update s.callers k caller }

def Shared.setOperation (s : Shared κ σ) (i : κ × Int) (op : Operation) : Shared κ σ :=
  { s with operations := Function.update s.operations i (some op) }

variable (codes : ReturnCodes) (c : Coordinator σ)

def seen (k : κ) (request : Request) (a : Answers) : List (Moment (κ × Int) Request Result) :=
  match call codes request a with
  | .ok r => [.returned (k, a.reqid) r]
  | .error _ => []

/-- A submission is rejected or starts an operation, the coordinator executes one, or a call ends
with its loop call, which completes an operation of the client that has been executed. -/
inductive SharedStep (s : Shared κ σ) :
    List (Moment (κ × Int) Request Result) → Shared κ σ → Prop where
  | reject (k : κ) (request : Request) {a : Answers} : (s.callers k).current = none →
      a.reqid < 0 →
      SharedStep s [] (s.setCaller k ⟨step codes (request, a) (s.callers k).world, none⟩)
  | call (k : κ) (request : Request) {reqid : Int} : (s.callers k).current = none → 0 ≤ reqid →
      reqid ∉ (s.callers k).world.used →
      SharedStep s [.called (k, reqid) request]
        ((s.setCaller k { s.callers k with current := some (request, reqid) }).setOperation
          (k, reqid) ⟨request, none⟩)
  | execute {i : κ × Int} {request : Request} : s.operations i = some ⟨request, none⟩ →
      SharedStep s []
        { s.setOperation i
            ⟨request, some ((c.execute request.received s.state).1, c.listing s.state)⟩ with
          state := (c.execute request.received s.state).2 }
  | finish (k : κ) {request : Request} {a : Answers} :
      (s.callers k).current = some (request, a.reqid) → (s.callers k).world.Admits a →
      (0 ≤ a.loopId → ∃ op, s.operations (k, a.loopId) = some op ∧ op.Ends a) →
      SharedStep s (seen codes k request a)
        (s.setCaller k ⟨step codes (request, a) (s.callers k).world, none⟩)

/-- A run of new clients, with what is seen of it. -/
inductive SharedRun (s₀ : σ) : List (Moment (κ × Int) Request Result) → Shared κ σ → Prop where
  | start : SharedRun s₀ [] (.initial s₀)
  | step {history seen : List (Moment (κ × Int) Request Result)} {s s' : Shared κ σ} :
      SharedRun s₀ history s → SharedStep codes c s seen s' → SharedRun s₀ (history ++ seen) s'

end Systems

/-- A returned listing is that of the coordinator, and nothing but nil is returned otherwise. -/
theorem Operation.Ends.shows {codes : ReturnCodes} {op : Operation} {a : Answers} (h : op.Ends a)
    {r : Result} (hcall : call codes op.request a = .ok r) {code : ReturnCode} {listing : Bytes}
    (hanswer : op.answer = some (code, listing)) {names : List Bytes}
    (hjoins : Lines.Joins 10 names (cString listing)) : Shows (op.request.reply code names) r := by
  rcases h with ⟨listing', hanswer', hlisting⟩
  obtain ⟨rfl, rfl⟩ := Prod.mk.inj (Option.some.inj (hanswer.symm.trans hanswer'))
  generalize op.request = request at hcall hlisting
  have hnil {f : String} (hmake : (makeRequest codes a f).outcome = .ok r) : r = .nil :=
    ((makeRequest_ok_iff codes a f r).mp hmake).2
  cases request with
  | listSpaces =>
    have hstored := hlisting rfl
    have hlist : (listSpaces codes a).outcome = .ok r := hcall
    rcases listSpaces_ok codes hlist with ⟨text, htext, rfl⟩
    rw [hstored] at htext
    split at htext
    · next hcode =>
      obtain rfl := Option.some.inj htext
      rw [Request.reply, hcode, (splitLines_eq_iff _ _).mpr hjoins]
      exact .symbols names
    · simp at htext
  | addSpace definition =>
    rw [hnil hcall]
    exact .nil _
  | rmSpace name =>
    rw [hnil hcall]
    exact .nil _

theorem used_step (codes : ReturnCodes) (s : Request × Answers) (w : World) :
    w.used ⊆ (step codes s w).used := by
  rcases step_makes codes s w with hstep | hmakes
  · rw [hstep]
    exact List.Subset.refl _
  · generalize step codes s w = w' at hmakes
    cases hmakes with
    | refused => exact List.Subset.refl _
    | failed => exact List.subset_cons_self _ _
    | ended => exact List.subset_cons_self _ _

theorem reqid_used_step (codes : ReturnCodes) (request : Request) {a : Answers} {w : World}
    (hadmits : w.Admits a) (hpos : 0 ≤ a.reqid) :
    a.reqid ∈ (step codes (request, a) w).used := by
  rw [step_of_accepted codes hadmits hpos]
  exact List.mem_cons_self

def Shared.handled {κ σ : Type} (s : Shared κ σ) (i : κ × Int) :
    Option (Request × Option (ReturnCode × Bytes)) :=
  (s.operations i).map fun op => (op.request, op.answer)

def Request.Answered (request : Request) (answer : ReturnCode × Bytes) (reply : Reply) : Prop :=
  ∃ names, Lines.Joins 10 names (cString answer.2) ∧ reply = request.reply answer.1 names

/-- The calls, the operations and the state of the coordinator go with an order in which it has
executed them. -/
structure Coherent {κ σ : Type} (c : Coordinator σ) (s₀ : σ) (s : Shared κ σ)
    (history : List (Moment (κ × Int) Request Result)) (order : List ((κ × Int) × Request)) :
    Prop where
  known : ∀ i m, .called i m ∈ history → i.2 ∈ (s.callers i.1).world.used ∨
    ∃ request, (s.callers i.1).current = some (request, i.2)
  current : ∀ k request id, (s.callers k).current = some (request, id) → 0 ≤ id ∧
    ∃ op, s.operations (k, id) = some op ∧ op.request = request
  handles : Handles c.serve Shows s₀ Eq Request.Answered s.handled s.state history order

section Invariant
variable {κ σ : Type} {codes : ReturnCodes} {c : Coordinator σ} {s₀ : σ} {s : Shared κ σ}
  {history : List (Moment (κ × Int) Request Result)} {order : List ((κ × Int) × Request)}

theorem coherent_initial (c : Coordinator σ) (s₀ : σ) :
    Coherent c s₀ (Shared.initial s₀ : Shared κ σ) [] [] where
  known i m h := by simp at h
  current k request id h := by simp [Shared.initial] at h
  handles := handles_start rfl

theorem Shared.handled_of_operation {s : Shared κ σ} {i : κ × Int} {op : Operation}
    (h : s.operations i = some op) : s.handled i = some (op.request, op.answer) := by
  rw [Shared.handled, h]
  rfl

variable [DecidableEq κ]

@[simp] theorem Shared.setCaller_self (s : Shared κ σ) (k : κ) (caller : Caller) :
    (s.setCaller k caller).callers k = caller := by
  simp [Shared.setCaller]

@[simp] theorem Shared.setCaller_of_ne (s : Shared κ σ) {k k' : κ} (h : k' ≠ k) (caller : Caller) :
    (s.setCaller k caller).callers k' = s.callers k' := by
  simp [Shared.setCaller, h]

@[simp] theorem Shared.setOperation_self (s : Shared κ σ) (i : κ × Int) (op : Operation) :
    (s.setOperation i op).operations i = some op := Function.update_self i _ s.operations

@[simp] theorem Shared.setOperation_of_ne (s : Shared κ σ) {i j : κ × Int} (h : j ≠ i)
    (op : Operation) : (s.setOperation i op).operations j = s.operations j :=
  Function.update_of_ne h _ s.operations

theorem Shared.handled_setOperation (s : Shared κ σ) (i : κ × Int) (op : Operation) :
    (s.setOperation i op).handled = Function.update s.handled i (some (op.request, op.answer)) := by
  funext j
  rw [Shared.handled]
  by_cases hj : j = i
  · subst hj
    rw [Shared.setOperation_self, Function.update_self]
    rfl
  · rw [Shared.setOperation_of_ne s hj, Function.update_of_ne hj]
    rfl

theorem Coherent.known_setCaller (h : Coherent c s₀ s history order) {k : κ} {caller : Caller}
    (hused : (s.callers k).world.used ⊆ caller.world.used)
    (hcurrent : ∀ request id, (s.callers k).current = some (request, id) →
      id ∈ caller.world.used) {i : κ × Int} {m : Request} (hi : .called i m ∈ history) :
    i.2 ∈ ((s.setCaller k caller).callers i.1).world.used ∨
      ∃ request, ((s.setCaller k caller).callers i.1).current = some (request, i.2) := by
  have hknown := h.known i m hi
  by_cases hk : i.1 = k
  · subst hk
    rw [Shared.setCaller_self]
    rcases hknown with hid | ⟨request, hrequest⟩
    · exact .inl (hused hid)
    · exact .inl (hcurrent request i.2 hrequest)
  · rwa [Shared.setCaller_of_ne s hk]

theorem Coherent.ended (h : Coherent c s₀ s history order) {k : κ} {w : World}
    (hused : (s.callers k).world.used ⊆ w.used)
    (hcurrent : ∀ request id, (s.callers k).current = some (request, id) → id ∈ w.used) :
    Coherent c s₀ (s.setCaller k ⟨w, none⟩) history order where
  known i m hi := h.known_setCaller hused hcurrent hi
  current k' request id hrequest := by
    by_cases hk : k' = k
    · subst hk
      simp at hrequest
    · rw [Shared.setCaller_of_ne s hk] at hrequest
      exact h.current k' request id hrequest
  handles := h.handles

theorem Coherent.call (h : Coherent c s₀ s history order) (k : κ) (request : Request) {reqid : Int}
    (hidle : (s.callers k).current = none) (hpos : 0 ≤ reqid)
    (hfresh : reqid ∉ (s.callers k).world.used) :
    Coherent c s₀ ((s.setCaller k { s.callers k with current := some (request, reqid) }).setOperation
      (k, reqid) ⟨request, none⟩) (history ++ [.called (k, reqid) request]) order := by
  have hnew (m : Request) : .called (k, reqid) m ∉ history := by
    intro hcalled
    rcases h.known _ m hcalled with hid | ⟨request', hrequest⟩
    · exact hfresh hid
    · simp [hidle] at hrequest
  refine ⟨?_, ?_, ?_⟩
  · intro i m hi
    change i.2 ∈ ((s.setCaller k _).callers i.1).world.used ∨
      ∃ request', ((s.setCaller k _).callers i.1).current = some (request', i.2)
    by_cases hk : i.1 = k
    · subst hk
      rw [Shared.setCaller_self]
      rcases List.mem_append.mp hi with hi | hi
      · rcases h.known i m hi with hid | ⟨request', hrequest⟩
        · exact .inl hid
        · simp [hidle] at hrequest
      · obtain ⟨hid, -⟩ : i = (i.1, reqid) ∧ m = request := by simpa using hi
        exact .inr ⟨request, by rw [congrArg Prod.snd hid]⟩
    · rw [Shared.setCaller_of_ne s hk]
      rcases List.mem_append.mp hi with hi | hi
      · exact h.known i m hi
      · obtain ⟨hid, -⟩ : i = (k, reqid) ∧ m = request := by simpa using hi
        exact absurd (congrArg Prod.fst hid) hk
  · intro k' request' id hrequest
    change ((s.setCaller k _).callers k').current = some (request', id) at hrequest
    by_cases hk : k' = k
    · subst hk
      rw [Shared.setCaller_self] at hrequest
      obtain ⟨rfl, rfl⟩ := Prod.mk.inj (Option.some.inj hrequest)
      exact ⟨hpos, _, Shared.setOperation_self _ _ _, rfl⟩
    · rw [Shared.setCaller_of_ne s hk] at hrequest
      have hne : (k', id) ≠ (k, reqid) := fun heq => hk (congrArg Prod.fst heq)
      rw [Shared.setOperation_of_ne _ hne]
      exact h.current k' request' id hrequest
  · rw [Shared.handled_setOperation]
    exact h.handles.call request hnew

theorem Coherent.execute (h : Coherent c s₀ s history order) {i : κ × Int} {request : Request}
    (hop : s.operations i = some ⟨request, none⟩) :
    Coherent c s₀
      { s.setOperation i
          ⟨request, some ((c.execute request.received s.state).1, c.listing s.state)⟩ with
        state := (c.execute request.received s.state).2 }
      history (order ++ [(i, request)]) := by
  have hhandled := Shared.handled_of_operation hop
  refine ⟨h.known, ?_, ?_⟩
  · intro k request' id hrequest
    rcases h.current k request' id hrequest with ⟨hpos, op, hop', rfl⟩
    refine ⟨hpos, ?_⟩
    by_cases hi : (k, id) = i
    · subst hi
      obtain rfl := Option.some.inj (hop.symm.trans hop')
      exact ⟨_, Shared.setOperation_self _ _ _, rfl⟩
    · exact ⟨op, (Shared.setOperation_of_ne s hi _).trans hop', rfl⟩
  · have hreply : request.Answered ((c.execute request.received s.state).1, c.listing s.state)
        (c.serve request s.state).1 := ⟨c.names s.state, c.joins s.state, rfl⟩
    rw [h.handles.state] at hreply
    have hexecuted := h.handles.execute hhandled hreply rfl
    rw [← h.handles.state, ← Shared.handled_setOperation s i ⟨request, some _⟩] at hexecuted
    exact hexecuted

theorem Coherent.finish (h : Coherent c s₀ s history order) (k : κ) {request : Request}
    {a : Answers} (hcurrent : (s.callers k).current = some (request, a.reqid))
    (hadmits : (s.callers k).world.Admits a)
    (hends : 0 ≤ a.loopId → ∃ op, s.operations (k, a.loopId) = some op ∧ op.Ends a) :
    Coherent c s₀ (s.setCaller k ⟨step codes (request, a) (s.callers k).world, none⟩)
      (history ++ seen codes k request a) order := by
  rcases h.current k request a.reqid hcurrent with ⟨hpos, op, hop, hrequest⟩
  have hended : Coherent c s₀ (s.setCaller k ⟨step codes (request, a) (s.callers k).world, none⟩)
      history order := by
    refine h.ended (used_step codes _ _) fun request' id hrequest' => ?_
    obtain ⟨rfl, rfl⟩ := Prod.mk.inj (Option.some.inj (hcurrent.symm.trans hrequest'))
    exact reqid_used_step codes request hadmits hpos
  rw [seen]
  split
  · next r hcall =>
    have hown : a.loopId = a.reqid := ((call_ok_iff codes request a).mp ⟨r, hcall⟩).1.2
    rcases hends (hown ▸ hpos) with ⟨op', hop', listing, hanswer, hlisting⟩
    rw [hown] at hop'
    obtain rfl := Option.some.inj (hop.symm.trans hop')
    subst hrequest
    have hhandled := hanswer ▸ Shared.handled_of_operation hop
    refine ⟨fun i m hi => hended.known i m (by simpa using hi), hended.current, ?_⟩
    refine h.handles.returned hhandled fun reply hreply => ?_
    rcases hreply with ⟨names, hjoins, rfl⟩
    exact Operation.Ends.shows ⟨listing, hanswer, hlisting⟩ hcall hanswer hjoins
  · rwa [List.append_nil]

end Invariant

/-- Any number of clients call one coordinator, their loop calls fail at any time, and operations
that were given up are executed later or not at all: there is an order of the operations, in which
one whose call returned before another call was made comes first, with the replies that the calls
return. A listing that is returned has the spaces of its turn in this order. -/
theorem requests_linearizable {κ σ : Type} [DecidableEq κ] (codes : ReturnCodes)
    (c : Coordinator σ) {s₀ : σ} {history : List (Moment (κ × Int) Request Result)}
    {s : Shared κ σ} (hrun : SharedRun codes c s₀ history s) :
    ∃ order, Linearizes c.serve Shows s₀ history order := by
  have hcoherent : ∃ order, Coherent c s₀ s history order := by
    induction hrun with
    | start => exact ⟨[], coherent_initial c s₀⟩
    | @step history seen s s' _ hstep ih =>
      rcases ih with ⟨order, h⟩
      cases hstep with
      | reject k request hidle hreqid =>
        rw [List.append_nil]
        refine ⟨order, h.ended (used_step codes _ _) fun request' id hrequest => ?_⟩
        simp [hidle] at hrequest
      | call k request hidle hpos hfresh => exact ⟨order, h.call k request hidle hpos hfresh⟩
      | execute hop =>
        rw [List.append_nil]
        exact ⟨_, h.execute hop⟩
      | finish k hcurrent hadmits hends => exact ⟨order, h.finish k hcurrent hadmits hends⟩
  rcases hcoherent with ⟨order, h⟩
  exact ⟨order, h.handles.executes.linearizes⟩

def oneSpace : Coordinator Bool where
  execute
    | .listSpaces, s => (.success, s)
    | .addSpace _, s => (if s then .duplicate else .success, true)
    | .rmSpace _, s => (if s then .success else .notfound, false)
  names s := if s then [[97]] else []
  listing s := if s then [97, 10] else []
  joins s := by cases s <;> exact (splitLines_eq_iff _ _).mp (by decide)

/-- The loop call of `reqid` completes its own request with this listing. -/
def listing (reqid : Int) (text : Bytes) : Answers where
  reqid := reqid
  submissionCode := .garbage
  loopId := reqid
  loopCode := .success
  finalCode := .success
  listing := some text
  listing_of_success _ := rfl

/-- One client gives up its `add_space`, and another client calls `list_spaces`. -/
def abandoned : List (Moment (Bool × Int) Request Result) :=
  [.called (false, 1) (.addSpace [97]), .called (true, 1) .listSpaces,
    .returned (true, 1) (.symbols [[97]])]

/-- The `add_space` is executed behind the call of the `list_spaces`. -/
theorem abandoned_run : ∃ s, SharedRun plainCodes oneSpace false abandoned s := by
  have hstart : SharedRun plainCodes oneSpace false [] (.initial false : Shared Bool Bool) := .start
  have hgiven : SharedRun plainCodes oneSpace false [.called (false, 1) (.addSpace [97])] _ :=
    hstart.step (.call false (.addSpace [97]) rfl (by decide) (by decide))
  have hfailed := hgiven.step (.finish false (a := interrupting 1) rfl (by decide)
    fun hloop => absurd hloop (by decide))
  have hcalled : SharedRun plainCodes oneSpace false
      [.called (false, 1) (.addSpace [97]), .called (true, 1) .listSpaces] _ :=
    hfailed.step (.call true .listSpaces rfl (by decide) (by decide))
  have hadded := hcalled.step (.execute (i := (false, 1)) rfl)
  have hlisted := hadded.step (.execute (i := (true, 1)) rfl)
  have hends := hlisted.step (.finish true (a := listing 1 [97, 10]) rfl (by decide)
    fun _ => ⟨_, rfl, _, rfl, fun _ => rfl⟩)
  exact ⟨_, hends⟩

theorem requests_linearizable_abandoned :
    ∃ order, Linearizes oneSpace.serve Shows false abandoned order := by
  rcases abandoned_run with ⟨s, hrun⟩
  exact requests_linearizable plainCodes oneSpace hrun

end HyperDex.Admin
