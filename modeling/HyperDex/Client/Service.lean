import HyperDex.Client.Ownership

/-!
# Promises and streams

What a client is for, without its cells, its table of operations and the memory
behind its arrays. A Deferred is a promise that the library answers once, an
Iterator is a stream that grows at its end until it is closed. One loop reads
the results of the library one by one until its caller has what it waits for.
-/
namespace HyperDex.Client
open General Ruby Conversion Decoding

inductive Handle where
  | promise (answer : Option Completion) (redeemed : Bool)
  | stream (items : List Entry) (ended : Bool)

/-- The handles in the order of their creation, and the library with its outstanding requests
and its one error message. -/
structure Service where
  handles : List Handle
  outstanding : OrderedMap Int Pending
  message : String
  crashed : Bool

namespace Service

def initial : Service := ⟨[], .empty, "", false⟩

def hear (s : Service) (message : String) : Service := { s with message }

def admits (s : Service) (reqid : Int) (c : Completion) : Option Pending :=
  (s.outstanding.lookup reqid).filter fun p => c.Fits p.outputs

end Service

variable {Obj : Type} (env : Env Obj)

def Completion.items (c : Completion) : Except Exn (List Entry) :=
  match c.status, c.output with
  | .searchdone, _ => .ok []
  | .success, .attributes attrs => do
    let h ← encodeAttributes env attrs
    return [.record (hashOf h)]
  | .success, _ => .ok []
  | status, _ => .ok [.error (exception env.objectSpace status c.message)]

/-- What an answer stands for, with the error message of the library. -/
def Completion.value (c : Completion) (message : String) : Outcome Exn Value :=
  (c.place 0).value env message

/-- An array that can be decoded, which can be had once only. -/
def Completion.IsLinear (c : Completion) : Prop :=
  ∃ attrs, c.output = .attributes attrs ∧ Decodable env attrs

instance (c : Completion) : Decidable (c.IsLinear env) :=
  match h : c.output with
  | .attributes attrs => decidable_of_iff (Decodable env attrs) (by simp [Completion.IsLinear, h])
  | .none => .isFalse (by simp [Completion.IsLinear, h])
  | .description _ => .isFalse (by simp [Completion.IsLinear, h])
  | .count _ => .isFalse (by simp [Completion.IsLinear, h])

def Handle.receive (c : Completion) : Handle → Handle
  | .promise _ redeemed => .promise (some c) redeemed
  | .stream items ended =>
    .stream (items ++ (c.items env).toOption.getD []) (ended || c.status = .searchdone)

namespace Service

/-- An event of an outstanding request. A record of a stream is decoded at once. -/
def deliver (reqid : Int) (p : Pending) (c : Completion) (s : Service) :
    Outcome Exn Ref × Service :=
  (match p.kind with
    | .deferred => .returned p.ref
    | .iterator => Outcome.ofExcept ((c.items env).map fun _ => p.ref),
    { s with
      handles := s.handles.modify p.ref (Handle.receive env c)
      outstanding := if p.kind.closes c.status then s.outstanding.erase reqid else s.outstanding
      message := c.message })

/-- The next event, over interruptions. -/
def loop : Script → Service → Outcome Exn Ref × Service
  | [], s => (.pending, s)
  | .failed rc message :: script, s =>
    if rc = .interrupted then loop script (s.hear message)
    else (.raised (exception env.objectSpace rc message), s.hear message)
  | .yielded reqid c :: _, s =>
    match s.admits reqid c with
    | none => (.pending, s)
    | some p => s.deliver env reqid p c

/-- The results of the library one by one, until the state is as wanted. -/
def drive (done : Service → Bool) : Script → Service → Outcome Exn Unit × Service
  | [], s => (if done s then .returned () else .pending, s)
  | answer :: script, s =>
    if done s then (.returned (), s)
    else
      match answer with
      | .failed rc message =>
        if rc = .interrupted then drive done script (s.hear message)
        else (.raised (exception env.objectSpace rc message), s.hear message)
      | .yielded reqid c =>
        match s.admits reqid c with
        | none => (.pending, s)
        | some p => Outcome.andThen (s.deliver env reqid p c) fun _ s => drive done script s

def resolved (r : Ref) (s : Service) : Bool :=
  match s.handles[r]? with
  | some (.promise answer _) => answer.isSome
  | some (.stream _ ended) => ended
  | none => true

/-- The answer of a promise, with the error message of the time of the call. -/
def redeem (r : Ref) (c : Completion) (redeemed : Bool) (s : Service) :
    Outcome Exn Value × Service :=
  let s := { s with handles := s.handles.set r (.promise (some c) true) }
  if redeemed ∧ c.IsLinear env then (.undefined, { s with crashed := true })
  else (c.value env s.message, s)

def wait (r : Ref) (script : Script) (s : Service) : Outcome Exn Value × Service :=
  Outcome.andThen (s.drive env (resolved r) script) fun _ s =>
    match s.handles[r]? with
    | some (.promise (some c) redeemed) => s.redeem env r c redeemed
    | _ => (.undefined, s)

def ready (r : Ref) (s : Service) : Bool :=
  match s.handles[r]? with
  | some (.promise answer _) => answer.isSome
  | some (.stream items ended) => ended || !items.isEmpty
  | none => true

def hasNext (r : Ref) (script : Script) (s : Service) : Outcome Exn Bool × Service :=
  Outcome.andThen (s.drive env (ready r) script) fun _ s =>
    match s.handles[r]? with
    | some (.stream items _) => (.returned (!items.isEmpty), s)
    | _ => (.undefined, s)

def next (r : Ref) (s : Service) : Option Entry × Service :=
  match s.handles[r]? with
  | some (.stream (e :: items) ended) =>
    (some e, { s with handles := s.handles.set r (.stream items ended) })
  | _ => (none, s)

def register (call : Call) (reqid : Int) (s : Service) : Service :=
  { s with
    handles := s.handles ++ [match call.kind with
      | .deferred => .promise none false
      | .iterator => .stream [] false]
    outstanding := s.outstanding.insert reqid
      ⟨s.handles.length, call.kind, call.outputs, call.outputs_of_iterator⟩ }

def submit (call : Call) (rounds : ℕ) (answer : SubmissionAnswer) (s : Service) :
    Outcome Exn Ref × Service :=
  Outcome.andThen (call.convert env.ds rounds, s) fun _ s =>
    let s := s.hear answer.message
    if answer.reqid < 0 then
      (.raised (exception env.objectSpace answer.status answer.message), s)
    else if (s.outstanding.lookup answer.reqid).isSome then (.pending, s)
    else (.returned s.handles.length, s.register call answer.reqid)

def act : Action → Service → Outcome Exn Result × Service
  | .submit call rounds answer, s =>
    Outcome.andThen (s.submit env call rounds answer) fun r s => (.returned (.response r), s)
  | .loop script, s =>
    Outcome.andThen (s.loop env script) fun r s => (.returned (.response r), s)
  | .wait r script, s =>
    match s.handles[r]? with
    | some (.promise ..) =>
      Outcome.andThen (s.wait env r script) fun v s => (.returned (.value v), s)
    | _ => (.raised (noMethodError "wait"), s)
  | .hasNext r script, s =>
    match s.handles[r]? with
    | some (.stream ..) =>
      Outcome.andThen (s.hasNext env r script) fun b s => (.returned (.bool b), s)
    | _ => (.raised (noMethodError "has_next?"), s)
  | .next r, s =>
    match s.handles[r]? with
    | some (.stream ..) => (.returned (.entry (s.next r).1), (s.next r).2)
    | _ => (.raised (noMethodError "next"), s)

def perform (a : Action) (s : Service) : Outcome Exn Result × Service :=
  if s.crashed then (.undefined, s) else s.act env a

def step (a : Action) (s : Service) : Service := (s.perform env a).2

def run (as : List Action) : Service := Machine.run (step env) .initial as

def outcomes : Service → List Action → List (Outcome Exn Result) :=
  Machine.outputs (step env) fun a s => (s.perform env a).1

end Service

end HyperDex.Client
