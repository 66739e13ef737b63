import HyperDex.Client.World

/-!
# What one event does

The library fills the cells of a request, the loop looks the request up and
runs its callback. For a request that is in the table of operations this comes
to one update of the state, which the invariants are derived from.
-/
namespace HyperDex.Client
open General Ruby Conversion Decoding

variable {Obj : Type} (env : Env Obj)

/-- The entry that a search makes of an event. -/
def entryOf (y : Yield) : Option Entry :=
  match y.status with
  | .searchdone => none
  | .success =>
    match y.output with
    | .attributes attrs =>
      match encodeAttributes env attrs with
      | .ok h => some (.record (hashOf h))
      | .error _ => none
    | _ => none
  | status => some (.error (exception env.objectSpace status y.message))

/-- What the callback of a search does with the array of an event. -/
def consumption (y : Yield) : List Event :=
  match y.status, y.output with
  | .success, .attributes attrs =>
    match encodeAttributes env attrs with
    | .ok _ => [.decoded (some y.address), .destroyed (some y.address)]
    | .error _ => [.decoded (some y.address)]
  | _, _ => []

def decodingError (y : Yield) : Option Exn :=
  match y.status, y.output with
  | .success, .attributes attrs =>
    match encodeAttributes env attrs with
    | .ok _ => none
    | .error e => some e
  | _, _ => none

def Kind.entry (kind : Kind) (y : Yield) : Option Entry :=
  match kind with
  | .deferred => none
  | .iterator => entryOf env y

def Kind.consumption (kind : Kind) (y : Yield) : List Event :=
  match kind with
  | .deferred => []
  | .iterator => Client.consumption env y

def Kind.decodingError (kind : Kind) (y : Yield) : Option Exn :=
  match kind with
  | .deferred => none
  | .iterator => Client.decodingError env y

def Pending.receive (p : Pending) (y : Yield) (resp : Response) : Response :=
  { resp with
    cells := resp.cells.fill y
    finished := resp.finished || p.kind.closes y.status
    backlog := resp.backlog ++ (p.kind.entry env y).toList }

/-- What is left of the array of an event. -/
def Kind.remains (kind : Kind) (y : Yield) : List (Option (List Attribute)) :=
  match y.output with
  | .attributes attrs =>
    match kind, encodeAttributes env attrs with
    | .iterator, .ok _ => [none]
    | _, _ => [some attrs]
  | _ => []

def World.delivered (w : World) (reqid : Int) (p : Pending) (y : Yield) : World where
  responses := w.responses.modify p.ref (p.receive env y)
  ops := if p.kind.closes y.status then w.ops.erase reqid else w.ops
  lib :=
    { outstanding :=
        if p.kind.closes y.status then w.lib.outstanding.erase reqid else w.lib.outstanding
      arrays := w.lib.arrays ++ p.kind.remains env y
      message := y.message }
  crashed := w.crashed
  trace := w.trace ++ (.yielded reqid p.ref y (p.kind.closes y.status) :: .callback p.ref ::
    p.kind.consumption env y)

def Pending.outcome (p : Pending) (y : Yield) : Outcome Exn Ref :=
  match p.kind.decodingError env y with
  | none => .returned p.ref
  | some e => .raised e

/-- The instance variables say which outputs the call has. -/
structure Response.Marks (resp : Response) (outputs : Outputs) : Prop where
  description : resp.description = decide (outputs = .description)
  count : resp.count = decide (outputs = .count)
  attrs : resp.attrs = decide (outputs = .attributes)

/-- The response object is the one that the library knows under the identifier. -/
structure Pending.Bound (p : Pending) (reqid : Int) (resp : Response) : Prop where
  reqid : resp.reqid = some reqid
  unfinished : resp.finished = false
  kind : resp.kind = p.kind
  marks : resp.Marks p.outputs

/-- An array after its decoding and its destruction. -/
def World.consume (w : World) (a : Address) : World :=
  { (w.log (.decoded (some a))).log (.destroyed (some a)) with
    lib := { w.lib with arrays := w.lib.arrays.set a none } }

theorem readArray_alive {lib : Library} {a : Address} {attrs : List Attribute}
    (ha : lib.arrays[a]? = some (some attrs)) :
    lib.readArray (some a) attrs.length = some attrs := by
  rw [Library.readArray]
  split_ifs with hsz
  · rw [List.length_eq_zero_iff.mp hsz]
  · simp [ha]

theorem takeAttributes_alive {w : World} {a : Address} {attrs : List Attribute}
    (ha : w.lib.arrays[a]? = some (some attrs)) :
    takeAttributes env (some a) attrs.length w =
      match encodeAttributes env attrs with
      | .error e => (.raised e, w.log (.decoded (some a)))
      | .ok h => (.returned (hashOf h), w.consume a) := by
  have hread : (w.log (.decoded (some a))).lib.readArray (some a) attrs.length = some attrs :=
    readArray_alive ha
  simp only [takeAttributes, hread]
  cases encodeAttributes env attrs with
  | error e => rfl
  | ok h => simp [World.destroyAttrs, World.consume, World.log, ha, Outcome.andThen]

theorem entryOf_error {y : Yield} (hdone : y.status ≠ .searchdone) (hok : y.status ≠ .success) :
    entryOf env y = some (.error (exception env.objectSpace y.status y.message)) := by
  rw [entryOf]
  split
  · contradiction
  · contradiction
  · rfl

theorem iteratorCallback_error {r : Ref} {resp : Response} (w : World)
    (hdone : resp.cells.status ≠ .searchdone) (hok : resp.cells.status ≠ .success) :
    iteratorCallback env r resp w = (.returned (),
      push r (.error (exception env.objectSpace resp.cells.status w.lib.message)) w) := by
  rw [iteratorCallback]
  split
  · contradiction
  · contradiction
  · rfl

@[simp] theorem fill_status (c : Cells) (y : Yield) : (c.fill y).status = y.status := by
  unfold Cells.fill
  split <;> rfl

section Event
variable {w : World} {reqid : Int} {p : Pending} {c : Completion} {resp : Response}

def World.called (w : World) (reqid : Int) (p : Pending) (c : Completion) : World :=
  (w.yield reqid p c).log (.callback p.ref)

theorem deliver_of_lookup (hops : w.ops.lookup reqid = some p.ref)
    (hresp : w.responses[p.ref]? = some resp) :
    deliver env reqid p c w =
      Outcome.andThen
        (match resp.kind with
          | .deferred => (.returned (), finish p.ref resp.reqid (w.called reqid p c))
          | .iterator =>
            iteratorCallback env p.ref
              { resp with cells := resp.cells.fill (c.place w.lib.arrays.length) }
              (w.called reqid p c))
        fun _ w => (.returned p.ref, w) := by
  have hlookup : (w.yield reqid p c).ops.lookup reqid = some p.ref := hops
  have hfilled : ((w.yield reqid p c).log (.callback p.ref)).responses[p.ref]? =
      some { resp with cells := resp.cells.fill (c.place w.lib.arrays.length) } := by
    simp [World.yield, World.log, World.modify, hresp]
  simp only [deliver, hlookup, callback, hfilled]
  rfl

theorem finish_called (hcloses : p.kind.closes c.status = true)
    (hentry : p.kind.entry env (c.place w.lib.arrays.length) = none)
    (hconsumption : p.kind.consumption env (c.place w.lib.arrays.length) = [])
    (hremains : p.kind.remains env (c.place w.lib.arrays.length) =
      match c.output with | .attributes attrs => [some attrs] | _ => []) :
    finish p.ref (some reqid) (w.called reqid p c) =
      w.delivered env reqid p (c.place w.lib.arrays.length) := by
  have hstatus : (c.place w.lib.arrays.length).status = c.status := rfl
  simp only [finish, World.delivered, World.called, World.yield, World.log, World.modify,
    Library.answer, hstatus, hcloses, hconsumption, hremains, List.modify_modify_eq, if_true]
  congr 1
  · congr 1
    funext resp
    simp [Pending.receive, hentry, hstatus, hcloses]
  · congr 1
    simp only [Completion.place]
    cases c.output <;> simp
  · simp

theorem deliver_deferred (hops : w.ops.lookup reqid = some p.ref)
    (hresp : w.responses[p.ref]? = some resp) (hbound : p.Bound reqid resp)
    (hkind : p.kind = .deferred) :
    deliver env reqid p c w =
      (p.outcome env (c.place w.lib.arrays.length),
        w.delivered env reqid p (c.place w.lib.arrays.length)) := by
  have hfinish : finish p.ref (some reqid) (w.called reqid p c) =
      w.delivered env reqid p (c.place w.lib.arrays.length) := by
    apply finish_called
    · simp [Kind.closes, hkind]
    · simp [Kind.entry, hkind]
    · simp [Kind.consumption, hkind]
    · simp only [Kind.remains, hkind, Completion.place]
  rw [deliver_of_lookup env hops hresp, hbound.kind, hkind, hbound.reqid, hfinish]
  simp [Outcome.andThen, Pending.outcome, Kind.decodingError, hkind]

theorem deliver_searchdone (hops : w.ops.lookup reqid = some p.ref)
    (hresp : w.responses[p.ref]? = some resp) (hbound : p.Bound reqid resp)
    (hfits : c.Fits p.outputs) (hkind : p.kind = .iterator) (hstatus : c.status = .searchdone) :
    deliver env reqid p c w =
      (p.outcome env (c.place w.lib.arrays.length),
        w.delivered env reqid p (c.place w.lib.arrays.length)) := by
  have houtput : c.output = .none := hfits.output_eq_none (by simp [hstatus])
  have hfinish : finish p.ref (some reqid) (w.called reqid p c) =
      w.delivered env reqid p (c.place w.lib.arrays.length) := by
    apply finish_called
    · simp [Kind.closes, hkind, hstatus]
    · simp [Kind.entry, hkind, entryOf, Completion.place, hstatus]
    · simp [Kind.consumption, hkind, consumption, Completion.place, hstatus]
    · simp [Kind.remains, Completion.place, houtput]
  rw [deliver_of_lookup env hops hresp, hbound.kind, hkind]
  simp only [iteratorCallback, fill_status, Completion.place, hstatus, hbound.reqid]
  rw [hfinish]
  simp [Outcome.andThen, Pending.outcome, Kind.decodingError, hkind, decodingError,
    Completion.place, hstatus]

theorem deliver_error (hops : w.ops.lookup reqid = some p.ref)
    (hresp : w.responses[p.ref]? = some resp) (hbound : p.Bound reqid resp)
    (hfits : c.Fits p.outputs) (hkind : p.kind = .iterator) (hdone : c.status ≠ .searchdone)
    (hok : c.status ≠ .success) :
    deliver env reqid p c w =
      (p.outcome env (c.place w.lib.arrays.length),
        w.delivered env reqid p (c.place w.lib.arrays.length)) := by
  have houtput : c.output = .none := hfits.output_eq_none hok
  have hpush : push p.ref (.error (exception env.objectSpace c.status c.message))
      (w.called reqid p c) = w.delivered env reqid p (c.place w.lib.arrays.length) := by
    have hentry : Kind.iterator.entry env (c.place w.lib.arrays.length) =
        some (.error (exception env.objectSpace c.status c.message)) :=
      entryOf_error env hdone hok
    have hopen : Kind.iterator.closes c.status = false := by simpa [Kind.closes] using hdone
    have hplace : (c.place w.lib.arrays.length).output = .none := houtput
    have hstatus : (c.place w.lib.arrays.length).status = c.status := rfl
    simp only [push, World.called, World.yield, World.log, World.modify, World.delivered,
      Library.answer, List.modify_modify_eq, hstatus, hopen, hplace, Kind.consumption, hkind,
      consumption, Kind.remains]
    congr 1
    · congr 1
      funext resp
      simp [Pending.receive, hkind, hentry, hstatus, hopen]
    · simp
    · simp
  rw [deliver_of_lookup env hops hresp, hbound.kind, hkind]
  simp only
  rw [iteratorCallback_error env _ (by simpa [Completion.place] using hdone)
    (by simpa [Completion.place] using hok), fill_status]
  have hmessage : (w.called reqid p c).lib.message = c.message := rfl
  have hstatus : (c.place w.lib.arrays.length).status = c.status := rfl
  rw [hmessage, hstatus, hpush]
  simp [Outcome.andThen, Pending.outcome, Kind.decodingError, hkind, decodingError,
    Completion.place, houtput]

theorem deliver_record (hops : w.ops.lookup reqid = some p.ref)
    (hresp : w.responses[p.ref]? = some resp) (hbound : p.Bound reqid resp)
    (hfits : c.Fits p.outputs) (hkind : p.kind = .iterator) (hok : c.status = .success) :
    deliver env reqid p c w =
      (p.outcome env (c.place w.lib.arrays.length),
        w.delivered env reqid p (c.place w.lib.arrays.length)) := by
  have houtputs := p.outputs_of_iterator hkind
  obtain ⟨attrs, houtput⟩ : ∃ attrs, c.output = .attributes attrs := by
    rcases c with ⟨status, message, output⟩
    cases output <;> simp_all [Completion.Fits]
  have hplace : (c.place w.lib.arrays.length).output = .attributes attrs := houtput
  have hstatus : (c.place w.lib.arrays.length).status = .success := hok
  have harrays : (w.called reqid p c).lib.arrays = w.lib.arrays ++ [some attrs] := by
    simp only [World.called, World.yield, World.log, Library.answer, hplace]
  have halive : (w.called reqid p c).lib.arrays[w.lib.arrays.length]? = some (some attrs) := by
    simp [harrays]
  have htake := takeAttributes_alive env halive
  rw [deliver_of_lookup env hops hresp, hbound.kind, hkind]
  simp only [iteratorCallback, encodeReturn, fill_status, hstatus, hbound.marks.description,
    hbound.marks.count, hbound.marks.attrs, houtputs]
  have hcells : (resp.cells.fill (c.place w.lib.arrays.length)).attrs = some w.lib.arrays.length ∧
      (resp.cells.fill (c.place w.lib.arrays.length)).attrsSz = attrs.length := by
    simp only [Cells.fill, hplace, and_true]
    rfl
  have hopen : Kind.iterator.closes .success = false := rfl
  have haddress : (c.place w.lib.arrays.length).address = w.lib.arrays.length := rfl
  simp only [hcells.1, hcells.2, htake, reduceCtorEq, decide_false, decide_true, if_true,
    Bool.false_eq_true, if_false]
  cases hencode : encodeAttributes env attrs with
  | error e =>
    simp only [Outcome.andThen, Pending.outcome, Kind.decodingError, hkind, decodingError, hplace,
      hstatus, hencode, World.called, World.yield, World.log, World.modify, World.delivered, hopen,
      Library.answer, Kind.consumption, consumption, Kind.remains, haddress, hok]
    congr 2
    · congr 1
      funext resp
      simp [Pending.receive, Kind.entry, hkind, entryOf, hstatus, hplace, hencode, hopen]
    · simp
  | ok h =>
    simp only [Outcome.andThen, Pending.outcome, Kind.decodingError, hkind, decodingError, hplace,
      hstatus, hencode, World.called, World.yield, World.log, World.modify, World.delivered, hopen,
      Library.answer, Kind.consumption, consumption, Kind.remains, haddress, hok, push,
      World.consume, List.modify_modify_eq]
    congr 2
    · congr 1
      funext resp
      simp [Pending.receive, Kind.entry, hkind, entryOf, hstatus, hplace, hencode, hopen]
    · simp
    · simp

/-- One event of a request in the table is one update of the state. -/
theorem deliver_eq (hops : w.ops.lookup reqid = some p.ref)
    (hresp : w.responses[p.ref]? = some resp) (hbound : p.Bound reqid resp)
    (hfits : c.Fits p.outputs) :
    deliver env reqid p c w =
      (p.outcome env (c.place w.lib.arrays.length),
        w.delivered env reqid p (c.place w.lib.arrays.length)) := by
  cases hkind : p.kind with
  | deferred => exact deliver_deferred env hops hresp hbound hkind
  | iterator =>
    by_cases hdone : c.status = .searchdone
    · exact deliver_searchdone env hops hresp hbound hfits hkind hdone
    · by_cases hok : c.status = .success
      · exact deliver_record env hops hresp hbound hfits hkind hok
      · exact deliver_error env hops hresp hbound hfits hkind hdone hok

end Event

end HyperDex.Client
