import HyperDex.Client.Call
import HyperDex.Decoding.BuildAttribute
import HyperDex.General.Ledger
import HyperDex.General.Machine

/-!
# The client and its library

The state of one client: its response objects with their cells, the table of
operations, and behind them the library with its outstanding requests, the
attribute arrays it handed out and its one error message. The methods of the
client are state transformers; what the library answers is an argument of the
method. An answer outside the library's contract is one it never gives: the
call that would need it does not return.
-/
namespace HyperDex.Client
open General Ruby Conversion Decoding

/-- The index of a response object, in the order of creation. -/
abbrev Ref := ℕ

/-- The index of an attribute array, in the order in which the library handed them out. -/
abbrev Address := ℕ

inductive Output where
  | none
  | attributes (attrs : List Attribute)
  | description (address : UInt64)
  | count (n : UInt64)

inductive Entry where
  | record (value : Value)
  | error (e : Exn)

/-- The cells of a response object that the library writes to. -/
structure Cells where
  status : ReturnCode
  attrs : Option Address
  attrsSz : ℕ
  description : UInt64
  count : UInt64

def Cells.initial : Cells := ⟨.garbage, none, 0, 0, 0⟩

/-- What an event of a request says, before the library places its array. -/
structure Completion where
  status : ReturnCode
  message : String
  output : Output

/-- A success stores the output of the call, any other status none. -/
def Completion.Fits (c : Completion) (outputs : Outputs) : Prop :=
  match c.output with
  | .none => c.status = .success → outputs = .status
  | .attributes _ => c.status = .success ∧ outputs = .attributes
  | .description _ => c.status = .success ∧ outputs = .description
  | .count _ => c.status = .success ∧ outputs = .count

instance (c : Completion) (outputs : Outputs) : Decidable (c.Fits outputs) := by
  unfold Completion.Fits
  split <;> infer_instance

theorem Completion.Fits.success {c : Completion} {outputs : Outputs} {attrs : List Attribute}
    (h : c.Fits outputs) (houtput : c.output = .attributes attrs) : c.status = .success := by
  rw [Completion.Fits, houtput] at h
  exact h.1

theorem Completion.Fits.output_eq_none {c : Completion} {outputs : Outputs} (h : c.Fits outputs)
    (hok : c.status ≠ .success) : c.output = .none := by
  cases houtput : c.output with
  | none => rfl
  | _ =>
    rw [Completion.Fits, houtput] at h
    exact absurd h.1 hok

/-- One event of a request, with the address of its array where it has one. -/
structure Yield extends Completion where
  address : Address

def Cells.fill (c : Cells) (y : Yield) : Cells :=
  match y.output with
  | .none => { c with status := y.status }
  | .attributes attrs =>
    { c with status := y.status, attrs := some y.address, attrsSz := attrs.length }
  | .description address => { c with status := y.status, description := address }
  | .count n => { c with status := y.status, count := n }

/-- `HyperDex::Client::Response` and its two subclasses. -/
structure Response where
  kind : Kind
  reqid : Option Int
  finished : Bool
  cells : Cells
  description : Bool
  count : Bool
  attrs : Bool
  backlog : List Entry

/-- `Response#initialize` -/
def Response.new (kind : Kind) : Response :=
  ⟨kind, none, false, .initial, false, false, false, []⟩

/-- The instance variables that a template sets after an accepted submission. -/
def Response.accept (resp : Response) (outputs : Outputs) (reqid : Int) : Response :=
  { resp with
    reqid := some reqid
    description := outputs = .description
    count := outputs = .count
    attrs := outputs = .attributes }

/-- A request that the library still answers; a search is answered with attributes. -/
structure Pending where
  ref : Ref
  kind : Kind
  outputs : Outputs
  outputs_of_iterator : kind = .iterator → outputs = .attributes

structure Library where
  outstanding : OrderedMap Int Pending
  /-- the arrays handed out; a destroyed one is gone -/
  arrays : List (Option (List Attribute))
  message : String

/-- What happened, for the statements about runs. -/
inductive Event where
  | submitted (reqid : Int) (r : Ref)
  | yielded (reqid : Int) (r : Ref) (y : Yield) (closes : Bool)
  | callback (r : Ref)
  | decoded (p : Option Address)
  | destroyed (p : Option Address)
  /-- a wait went on to read the cells -/
  | read (r : Ref)
  | taken (r : Ref) (e : Entry)

structure World where
  responses : List Response
  ops : OrderedMap Int Ref
  lib : Library
  /-- memory was used after it was freed -/
  crashed : Bool
  trace : List Event

def World.initial : World := ⟨[], .empty, ⟨.empty, [], ""⟩, false, []⟩

def World.log (w : World) (e : Event) : World := { w with trace := w.trace ++ [e] }

def World.crash (w : World) : World := { w with crashed := true }

def World.modify (w : World) (r : Ref) (f : Response → Response) : World :=
  { w with responses := w.responses.modify r f }

def World.kindOf (w : World) (r : Ref) : Option Kind := w.responses[r]?.map Response.kind

def World.hear (w : World) (message : String) : World :=
  { w with lib := { w.lib with message } }

variable {Obj : Type} (env : Env Obj)

def Library.readArray (lib : Library) (p : Option Address) (sz : ℕ) : Option (List Attribute) :=
  if sz = 0 then some []
  else do
    let attrs ← lib.arrays[← p]?
    return (← attrs).take sz

/-- `hyperdex_client_destroy_attrs`; a second call on the same array frees it again. -/
def World.destroyAttrs (w : World) (p : Option Address) : Outcome Exn Unit × World :=
  let w := w.log (.destroyed p)
  match p with
  | none => (.returned (), w)
  | some a =>
    match w.lib.arrays[a]? with
    | some (some _) =>
      (.returned (), { w with lib := { w.lib with arrays := w.lib.arrays.set a none } })
    | _ => (.undefined, w.crash)

def hashOf (h : OrderedMap Bytes Value) : Value :=
  .hash (h.entries.map fun e => (.symbol e.1, e.2))

/-- `HyperDex::Client.encode_attributes(ptr, sz).tap { destroy_attrs(ptr, sz) }`: the block is
not reached when the decoding raises. -/
def takeAttributes (p : Option Address) (sz : ℕ) (w : World) : Outcome Exn Value × World :=
  let w := w.log (.decoded p)
  match w.lib.readArray p sz with
  | none => (.undefined, w.crash)
  | some attrs =>
    match encodeAttributes env attrs with
    | .error e => (.raised e, w)
    | .ok h => Outcome.andThen (w.destroyAttrs p) fun _ w => (.returned (hashOf h), w)

/-- `@description_ptr.read_string`: the bytes of the cell itself, up to a NUL. -/
def readDescription (c : Cells) : Bytes :=
  cString (PrefixCode.toLittleEndian 8 c.description.toNat)

/-- `@count_ptr.read_int64` -/
def readCount (c : Cells) : Int := c.count.toInt64.toInt

def encodeReturn (resp : Response) (w : World) : Outcome Exn Value × World :=
  match resp.cells.status with
  | .success =>
    if resp.description then (.returned (.string (readDescription resp.cells)), w)
    else if resp.count then (.returned (.integer (readCount resp.cells)), w)
    else if resp.attrs then takeAttributes env resp.cells.attrs resp.cells.attrsSz w
    else (.returned .true, w)
  | .notfound => (.returned .nil, w)
  | .cmpfail => (.returned .false, w)
  | status => (.raised (exception env.objectSpace status w.lib.message), w)

/-- `Response#callback` -/
def finish (r : Ref) (reqid : Option Int) (w : World) : World :=
  let w := w.modify r fun resp => { resp with finished := true }
  match reqid with
  | some id => { w with ops := w.ops.erase id }
  | none => w

def push (r : Ref) (e : Entry) (w : World) : World :=
  w.modify r fun resp => { resp with backlog := resp.backlog ++ [e] }

/-- `Iterator#callback` -/
def iteratorCallback (r : Ref) (resp : Response) (w : World) : Outcome Exn Unit × World :=
  match resp.cells.status with
  | .searchdone => (.returned (), finish r resp.reqid w)
  | .success =>
    Outcome.andThen (encodeReturn env resp w) fun value w =>
      (.returned (), push r (.record value) w)
  | status =>
    (.returned (), push r (.error (exception env.objectSpace status w.lib.message)) w)

def callback (r : Ref) (w : World) : Outcome Exn Unit × World :=
  let w := w.log (.callback r)
  match w.responses[r]? with
  | none => (.undefined, w)
  | some resp =>
    match resp.kind with
    | .deferred => (.returned (), finish r resp.reqid w)
    | .iterator => iteratorCallback env r resp w

/-- One result of `hyperdex_client_loop`. -/
inductive LoopAnswer where
  | failed (rc : ReturnCode) (message : String)
  | yielded (reqid : Int) (c : Completion)

abbrev Script := List LoopAnswer

/-- The request that the library may answer in this way. -/
def Library.admits (lib : Library) (reqid : Int) (c : Completion) : Option Pending :=
  match lib.outstanding.lookup reqid with
  | none => none
  | some p => if c.Fits p.outputs then some p else none

/-- A search goes on until `SEARCHDONE`; any other request is answered once. -/
def Kind.closes (kind : Kind) (status : ReturnCode) : Bool :=
  match kind with
  | .deferred => true
  | .iterator => status = .searchdone

def Completion.place (c : Completion) (address : Address) : Yield :=
  ⟨c, address⟩

def Library.answer (lib : Library) (reqid : Int) (p : Pending) (y : Yield) : Library where
  outstanding := if p.kind.closes y.status then lib.outstanding.erase reqid else lib.outstanding
  arrays :=
    match y.output with
    | .attributes attrs => lib.arrays ++ [some attrs]
    | _ => lib.arrays
  message := y.message

/-- The library fills the cells of a request. -/
def World.yield (w : World) (reqid : Int) (p : Pending) (c : Completion) : World :=
  let y := c.place w.lib.arrays.length
  { (w.modify p.ref fun resp => { resp with cells := resp.cells.fill y }).log
      (.yielded reqid p.ref y (p.kind.closes c.status)) with
    lib := w.lib.answer reqid p y }

def noMethodError (name : String) : Exn :=
  .core .noMethodError ("undefined method `" ++ name ++ "' for nil:NilClass")

/-- `@ops[ret].tap { |op| op.callback }` after the library filled the cells. -/
def deliver (reqid : Int) (p : Pending) (c : Completion) (w : World) : Outcome Exn Ref × World :=
  let w := w.yield reqid p c
  match w.ops.lookup reqid with
  | none => (.raised (noMethodError "callback"), w)
  | some r => Outcome.andThen (callback env r w) fun _ w => (.returned r, w)

/-- `Client#loop`, with the results of the library and what is left of them. -/
def clientLoop : Script → World → Outcome Exn Ref × World × Script
  | [], w => (.pending, w, [])
  | .failed rc message :: script, w =>
    let w := w.hear message
    if rc ≠ .interrupted then
      (.raised (exception env.objectSpace rc w.lib.message), w, script)
    else clientLoop script w
  | .yielded reqid c :: script, w =>
    match w.lib.admits reqid c with
    | none => (.pending, w, script)
    | some p =>
      let x := deliver env reqid p c w
      (x.1, x.2, script)

/-- `@client.loop until done`; every round takes at least one result of the library. -/
def loopUntil (done : World → Bool) : ℕ → World → Script → Outcome Exn Unit × World × Script
  | 0, w, script => (.pending, w, script)
  | n + 1, w, script =>
    if done w then (.returned (), w, script)
    else Outcome.andThen (clientLoop env script w) fun _ s => loopUntil done n s.1 s.2

/-- `@finished or @reqid.nil?` -/
def waitDone (r : Ref) (w : World) : Bool :=
  match w.responses[r]? with
  | none => true
  | some resp => resp.finished || resp.reqid.isNone

/-- The loops that a wait drives. -/
def waitLoop (r : Ref) (script : Script) (w : World) : Outcome Exn Unit × World × Script :=
  loopUntil env (waitDone r) (script.length + 1) w script

/-- `Deferred#wait` -/
def wait (r : Ref) (script : Script) (w : World) : Outcome Exn Value × World :=
  let x := waitLoop env r script w
  Outcome.andThen (x.1, x.2.1) fun _ w =>
    match w.responses[r]? with
    | none => (.undefined, w)
    | some resp => encodeReturn env resp (w.log (.read r))

/-- `Iterator#item_available?` -/
def Response.itemAvailable (resp : Response) : Bool := !(resp.finished || resp.backlog.isEmpty)

def hasNextDone (r : Ref) (w : World) : Bool :=
  match w.responses[r]? with
  | none => true
  | some resp => resp.finished || resp.itemAvailable

/-- `Iterator#has_next?` -/
def hasNext (r : Ref) (script : Script) (w : World) : Outcome Exn Bool × World :=
  let x := loopUntil env (hasNextDone r) (script.length + 1) w script
  Outcome.andThen (x.1, x.2.1) fun _ w =>
    match w.responses[r]? with
    | none => (.undefined, w)
    | some resp => (.returned (!resp.backlog.isEmpty), w)

/-- `Iterator#next`: `@backlog.shift` -/
def next (r : Ref) (w : World) : Option Entry × World :=
  match w.responses[r]? with
  | none => (none, w)
  | some resp =>
    match resp.backlog with
    | [] => (none, w)
    | e :: rest =>
      (some e, (w.modify r fun resp => { resp with backlog := rest }).log (.taken r e))

/-- What the library answers to a submission; the status cell matters on failure only. -/
structure SubmissionAnswer where
  reqid : Int
  status : ReturnCode
  message : String

def World.register (w : World) (call : Call) (reqid : Int) : World :=
  let r := w.responses.length
  { w with
    responses := w.responses ++ [(Response.new call.kind).accept call.outputs reqid]
    ops := w.ops.insert reqid r
    lib := { w.lib with
      outstanding := w.lib.outstanding.insert reqid
        ⟨r, call.kind, call.outputs, call.outputs_of_iterator⟩ }
    trace := w.trace ++ [.submitted reqid r] }

/-- The templates of the extension: convert, call the library, raise or register. -/
def submit (call : Call) (rounds : ℕ) (answer : SubmissionAnswer) (w : World) :
    Outcome Exn Ref × World :=
  Outcome.andThen (call.convert env.ds rounds, w) fun _ w =>
    let w := w.hear answer.message
    if answer.reqid < 0 then
      (.raised (exception env.objectSpace answer.status w.lib.message), w)
    else if (w.lib.outstanding.lookup answer.reqid).isSome then (.pending, w)
    else (.returned w.responses.length, w.register call answer.reqid)

inductive Action where
  | submit (call : Call) (rounds : ℕ) (answer : SubmissionAnswer)
  | loop (script : Script)
  | wait (r : Ref) (script : Script)
  | hasNext (r : Ref) (script : Script)
  | next (r : Ref)

inductive Result where
  | response (r : Ref)
  | value (v : Value)
  | bool (b : Bool)
  | entry (e : Option Entry)

/-- A method call on the client or on one of its response objects. -/
def act : Action → World → Outcome Exn Result × World
  | .submit call rounds answer, w =>
    Outcome.andThen (submit env call rounds answer w) fun r w => (.returned (.response r), w)
  | .loop script, w =>
    let x := clientLoop env script w
    Outcome.andThen (x.1, x.2.1) fun r w => (.returned (.response r), w)
  | .wait r script, w =>
    match w.kindOf r with
    | some .deferred =>
      Outcome.andThen (wait env r script w) fun v w => (.returned (.value v), w)
    | _ => (.raised (noMethodError "wait"), w)
  | .hasNext r script, w =>
    match w.kindOf r with
    | some .iterator =>
      Outcome.andThen (hasNext env r script w) fun b w => (.returned (.bool b), w)
    | _ => (.raised (noMethodError "has_next?"), w)
  | .next r, w =>
    match w.kindOf r with
    | some .iterator =>
      let x := next r w
      (.returned (.entry x.1), x.2)
    | _ => (.raised (noMethodError "next"), w)

/-- Nothing is observed after a use of freed memory. -/
def perform (a : Action) (w : World) : Outcome Exn Result × World :=
  if w.crashed then (.undefined, w) else act env a w

def step (a : Action) (w : World) : World := (perform env a w).2

def run (as : List Action) : World := Machine.run (step env) .initial as

end HyperDex.Client
