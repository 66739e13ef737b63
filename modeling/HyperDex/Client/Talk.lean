import HyperDex.Client.Store

/-!
# A program that reads and writes objects

Methods that are called one after the other return what a store of Ruby hashes answers,
whatever else the client has outstanding and in whatever order the library answers. A
store that compares and adds integers shows this at work.
-/
namespace HyperDex.Client
open General Ruby Conversion Decoding ObjectStore

variable {Obj V : Type} {env : Env Obj}

structure Exchange where
  method : Method
  answer : SubmissionAnswer
  script : Script

variable (env) in
/-- The call of the blocking method by its name. -/
def Exchange.perform (x : Exchange) (w : World) : Outcome Exn Value × World :=
  let y := send env x.method.function.name x.method.arguments 0 x.answer x.script w
  (y.1 >>= Result.toValue, y.2)

theorem Exchange.perform_eq (x : Exchange) (w : World) :
    x.perform env w = waitCall env x.method.call 0 x.answer x.script w := by
  have hkind : x.method.function.kind = .deferred :=
    (LibraryFunction.call_kind x.method.function_call).symm.trans x.method.call_kind
  rw [perform, send_of_deferred x.method.function_call 0 x.answer x.script w hkind]
  generalize waitCall env x.method.call 0 x.answer x.script w = y
  rcases y with ⟨y, w'⟩
  cases y <;> rfl

/-- The request is accepted, nothing ends the loop before its answer, and the answer is that of
the store. -/
structure Exchange.Served (schema : Schema env V) (x : Exchange) (w : World) (st st' : Records) :
    Prop where
  accepted : 0 ≤ x.answer.reqid
  free : w.lib.outstanding.lookup x.answer.reqid = none
  serves : Serves env (w.register x.method.call x.answer.reqid).lib.outstanding x.script
  answered : ∀ args op place, x.method.call.convert env.ds 0 = .returned args →
    x.method.received args = some (op, place) →
    st' = (schema.records.serve op place st).2 ∧
      ∃ c, Reported (schema.records.serve op place st).1 c ∧
        (eventsOf x.answer.reqid x.script).head? = some c

/-- Method calls one after the other, with their results. In between the client may do anything
else that leaves the objects of the store as they are. -/
inductive Talk (schema : Schema env V) :
    World → Records → List Exchange → List (Outcome Exn Value) → Prop where
  | done (w : World) (st : Records) : Talk schema w st [] []
  | other {w : World} {st : Records} {xs : List Exchange} {outs : List (Outcome Exn Value)}
      (a : Action) : (step env a w).crashed = false → Talk schema (step env a w) st xs outs →
      Talk schema w st xs outs
  | exchange {w : World} {st st' : Records} {x : Exchange} {xs : List Exchange}
      {outs : List (Outcome Exn Value)} : x.Served schema w st st' →
      Talk schema (x.perform env w).2 st' xs outs →
      Talk schema w st (x :: xs) ((x.perform env w).1 :: outs)

theorem Talk.waited {schema : Schema env V} {w w' : World} {st st' : Records} {x : Exchange}
    {xs : List Exchange} {out : Outcome Exn Value} {outs : List (Outcome Exn Value)}
    (hserved : x.Served schema w st st')
    (hwaited : waitCall env x.method.call 0 x.answer x.script w = (out, w'))
    (h : Talk schema w' st' xs outs) : Talk schema w st (x :: xs) (out :: outs) := by
  have hperform := (x.perform_eq w).trans hwaited
  have hout : (x.perform env w).1 = out := congrArg Prod.fst hperform
  subst hout
  exact .exchange hserved ((congrArg Prod.snd hperform).symm ▸ h)

noncomputable def Schema.replies (schema : Schema env V) (os : Objects) (ms : List Method) :
    List (Reply Object) :=
  Machine.outputs (fun m os => (schema.serveObjects m os).2)
    (fun m os => (schema.serveObjects m os).1) os ms

/-- One method call returns what the store of objects answers, and keeps the stores in
agreement. -/
theorem Exchange.Served.shows (hds : env.ds.Lawful) {schema : Schema env V} {x : Exchange}
    {w : World} {st st' : Records} (h : x.Served schema w st st') (hw : Sound env w)
    (hcrashed : w.crashed = false) (hm : x.method.WellTyped schema) {os : Objects}
    (hagree : Agree (SamePlace schema) (Keeps env) st os) :
    Shows env (schema.serveObjects x.method os).1 (x.perform env w).1 ∧
      Agree (SamePlace schema) (Keeps env) st' (schema.serveObjects x.method os).2 := by
  obtain ⟨args, op, place, hconvert, hreceived, hplace, hop⟩ := hm.converted hds
  obtain ⟨rfl, c, hreported, hc⟩ := h.answered args op place hconvert hreceived
  have hserved := schema.stores_related.serve (samePlace_oneToOne hds schema) hop hplace hagree
  refine ⟨?_, hserved.2⟩
  rw [x.perform_eq, hw.waitCall_value hcrashed x.method.call_kind hconvert h.accepted h.free
    h.serves hc]
  exact hreported.shows hserved.1

/-- From every reachable state on, whatever the client does in between and whatever else is answered
first, the methods return what a store of Ruby hashes answers to them one after the other. -/
theorem talk_shows (hds : env.ds.Lawful) {schema : Schema env V} {w : World} {st : Records}
    {xs : List Exchange} {outs : List (Outcome Exn Value)} (h : Talk schema w st xs outs)
    (hreachable : ∃ as, w = run env as) (hcrashed : w.crashed = false)
    (hm : ∀ x ∈ xs, x.method.WellTyped schema) {os : Objects}
    (hagree : Agree (SamePlace schema) (Keeps env) st os) :
    List.Forall₂ (Shows env) (schema.replies os (xs.map Exchange.method)) outs := by
  induction h generalizing os with
  | done w st => exact .nil
  | @other w st xs outs a hsafe _ ih =>
    rcases hreachable with ⟨as, rfl⟩
    exact ih ⟨as ++ [a], (run_append env as [a]).symm⟩ hsafe hm hagree
  | @exchange w st st' x xs outs hserved _ ih =>
    rcases hreachable with ⟨as, rfl⟩
    rw [List.forall_mem_cons] at hm
    have hshows := hserved.shows hds (run_sound env as) hcrashed hm.1 hagree
    have hsafe := (Sound.waitCall_ends (run_sound env as) hcrashed x.method.call_kind 0 x.answer
      x.script).safe hcrashed
    rw [← x.perform_eq] at hsafe
    rcases send_run hcrashed x.method.function.name x.method.arguments 0 x.answer x.script with
      ⟨as', hrun⟩
    refine .cons hshows.1 (ih ⟨as ++ as', ?_⟩ hsafe hm.2 hshows.2)
    rw [run_append]
    exact hrun

def decodedScalar (env : Env Obj) (packed : Packed) : Scalar :=
  match buildAttribute env ⟨[], packed.value, packed.datatype⟩ with
  | .ok x => scalarOf x
  | .error _ => .nil

theorem decodedScalar_eq {packed : Packed} {x : Value} (h : Decoding.Decodable env x packed) :
    decodedScalar env packed = scalarOf x := by
  rcases h ⟨[], packed.value, packed.datatype⟩ rfl rfl with ⟨y, hbuild, hy⟩
  rw [decodedScalar, hbuild]
  cases hy with
  | scalar hx => cases hx <;> rfl
  | _ => rfl

def integerSemantics (env : Env Obj) : Semantics Scalar where
  read := decodedScalar env
  le
    | .integer i, .integer j => i ≤ j
    | _, _ => False
  lt
    | .integer i, .integer j => i < j
    | _, _ => False
  regex _ _ := False
  lengthEquals _ _ := False
  lengthLessEqual _ _ := False
  lengthGreaterEqual _ _ := False
  contains _ _ := False

/-- `atomic_add` of integers whose sum is one of 64 bits; nothing else is modified. -/
def addPacked (f : Modification) (p q : Packed) : Option Packed :=
  match f, decodedScalar packedEnv p, decodedScalar packedEnv q with
  | .atomicAdd, .integer i, .integer j =>
    match convertType packedEnv.ds (.integer (i + j)) with
    | .returned packed => some packed
    | _ => none
  | _, _, _ => none

def addValue (f : Modification) (x y : Value) : Option Value :=
  match f, scalarOf x, scalarOf y with
  | .atomicAdd, .integer i, .integer j =>
    if -2 ^ 63 ≤ i + j ∧ i + j < 2 ^ 63 then some (.integer (i + j)) else none
  | _, _, _ => none

theorem addPacked_matching (f : Modification) : Matching packedEnv (addPacked f) (addValue f) := by
  intro p x q y hp hq
  unfold addPacked addValue
  rw [decodedScalar_eq hp, decodedScalar_eq hq]
  split
  · next i j _ _ =>
    by_cases hrange : -2 ^ 63 ≤ i + j ∧ i + j < 2 ^ 63
    · rcases scalar_roundtrip packedEnv packedFormat_lawful (.integer _ hrange.1 hrange.2) with
        ⟨packed, hconvert, hdecodable⟩
      rw [hconvert, if_pos hrange]
      exact .some hdecodable
    · rw [convertType, num2ll, if_neg hrange, Outcome.raised_bind, if_neg hrange]
      exact .none
  · exact .none

/-- Spaces with string keys, and without attributes that have defaults. -/
def plainSchema : Schema packedEnv Scalar where
  kind _ := .string
  record _ := .empty
  object _ := .empty
  keeps _ := keeps_empty
  sem := integerSemantics packedEnv
  value := scalarOf
  reads _ _ := decodedScalar_eq
  absent := .nil
  apply := addPacked
  applyValue := addValue
  applies := addPacked_matching
  failsOnNone := false

/-- `{n: GreaterEqual.new(5)}` -/
def atLeastFive : List (Value × Condition) :=
  [(.symbol [110], .predicate (.greaterEqual (.integer 5)))]

def atLeastFiveChecks : List AttributeCheck :=
  [⟨[110], .greaterEqual, ⟨.ofBytes [5, 0, 0, 0, 0, 0, 0, 0], .prim .int64⟩⟩]

theorem atLeastFive_checks : ChecksFor packedEnv.ds atLeastFiveChecks atLeastFive :=
  ⟨by simp [atLeastFive, keyName], (1, atLeastFiveChecks.map (Prod.mk 0)), rfl, rfl⟩

def integerRecord (b : UInt8) : Record :=
  .insert .empty [110] ⟨.ofBytes [b, 0, 0, 0, 0, 0, 0, 0], .prim .int64⟩

theorem holds_seven : plainSchema.records.holds (integerRecord 7)
    atLeastFiveChecks = true := by
  rw [Schema.records_holds]
  intro c hc
  obtain rfl := List.mem_singleton.mp hc
  exact (by decide : (5 : Int) ≤ 7)

theorem holds_three : plainSchema.records.holds (integerRecord 3)
    atLeastFiveChecks = false := by
  rw [← Bool.not_eq_true, Schema.records_holds]
  intro h
  exact absurd (h _ (List.mem_singleton_self _)) (by decide : ¬ (5 : Int) ≤ 3)

/-- `put("s", "k", n: 7)`, which is interrupted. -/
def samplePut : Exchange where
  method := ⟨.write .put [(.symbol [110], .integer 7)], .string [115], .string [107]⟩
  answer := accepting 1
  script := [.failed .interrupted "interrupted", .yielded 1 ⟨.success, "", .none⟩]

/-- `cond_put(:s, :k, {n: GreaterEqual.new(5)}, n: 3)`, answered with the status. -/
def sampleCondPut (reqid : Int) (status : ReturnCode) : Exchange where
  method := ⟨.condWrite .put atLeastFive [(.symbol [110], .integer 3)], .symbol [115], .symbol [107]⟩
  answer := accepting reqid
  script := [.yielded reqid ⟨status, "", .none⟩]

/-- `atomic_add(:s, :k, n: 4)` -/
def sampleAdd : Exchange where
  method := ⟨.write .atomicAdd [(.symbol [110], .integer 4)], .symbol [115], .symbol [107]⟩
  answer := accepting 4
  script := [.yielded 4 ⟨.success, "", .none⟩]

/-- `get_partial(:s, :k, [:n])` -/
def sampleGetPart : Exchange where
  method := ⟨.getPart [.symbol [110]], .symbol [115], .symbol [107]⟩
  answer := accepting 5
  script := [.yielded 5 ⟨.success, "", .attributes (integerRecord 7).attributes⟩]

def sampleRecords (b : UInt8) : Records :=
  Function.update (fun _ => none) ([115], [107]) (some (integerRecord b))

theorem serves_answer {call : Call} (hkind : call.kind = .deferred) (w : World) (reqid : Int)
    {c : Completion} (hfits : c.Fits call.outputs) :
    Serves env (w.register call reqid).lib.outstanding [.yielded reqid c] := by
  refine ⟨⟨w.responses.length, call.kind, call.outputs, call.outputs_of_iterator⟩, ?_, hfits,
    fun h => ?_, trivial⟩
  · simp [World.register]
  · cases hkind.symm.trans h

theorem samplePut_served :
    samplePut.Served plainSchema .initial (fun _ => none) (sampleRecords 7) := by
  refine ⟨by decide, rfl, ⟨rfl, serves_answer rfl .initial 1 (by decide)⟩, ?_⟩
  intro args op place hconvert hreceived
  have hargs : samplePut.method.call.convert packedEnv.ds 0 =
      .returned [.space [115], .key (.ofBytes [107]), .attrs (integerRecord 7).attributes] := rfl
  obtain rfl := Outcome.returned.inj (hargs.symm.trans hconvert)
  obtain ⟨rfl, rfl⟩ := Prod.mk.inj (Option.some.inj hreceived)
  exact ⟨rfl, _, .true "", rfl⟩

theorem sampleCondPut_served {reqid : Int} {status : ReturnCode} {w : World} {st st' : Records}
    {r : Reply Record} (hpos : 0 ≤ reqid) (hfree : w.lib.outstanding.lookup reqid = none)
    (hserve : plainSchema.records.serve (.condWrite .put atLeastFiveChecks
      (integerRecord 3).attributes) ([115], [107]) st = (r, st'))
    (hreported : Reported r ⟨status, "", .none⟩) :
    (sampleCondPut reqid status).Served plainSchema w st st' := by
  refine ⟨hpos, hfree, serves_answer rfl w reqid fun _ => rfl, ?_⟩
  intro args op place hconvert hreceived
  have hargs : (sampleCondPut reqid status).method.call.convert packedEnv.ds 0 =
      .returned [.space [115], .key (.ofBytes [107]), .checks 1 (atLeastFiveChecks.map (Prod.mk 0)),
        .attrs (integerRecord 3).attributes] := rfl
  obtain rfl := Outcome.returned.inj (hargs.symm.trans hconvert)
  obtain ⟨rfl, rfl⟩ := Prod.mk.inj (Option.some.inj hreceived)
  have hplace : (cString [115], (Buffer.ofBytes [107]).readString) = ([115], [107]) := rfl
  have hread : readChecks (atLeastFiveChecks.map (Prod.mk 0)) = atLeastFiveChecks := rfl
  rw [hplace, hread, hserve]
  refine ⟨rfl, _, hreported, ?_⟩
  simp [sampleCondPut, accepting, eventsOf]

theorem condPut_seven : plainSchema.records.serve (.condWrite .put atLeastFiveChecks
    (integerRecord 3).attributes) ([115], [107]) (sampleRecords 7) = (.true, sampleRecords 3) := by
  have hwrite : plainSchema.records.write .put (integerRecord 7) (integerRecord 3).attributes =
      some (integerRecord 3) := rfl
  simp only [Store.serve, Store.writeOn, sampleRecords, Function.update_self, holds_seven, if_true,
    hwrite, Function.update_idem]

theorem condPut_three : plainSchema.records.serve (.condWrite .put atLeastFiveChecks
    (integerRecord 3).attributes) ([115], [107]) (sampleRecords 3) = (.false, sampleRecords 3) := by
  simp only [Store.serve, sampleRecords, Function.update_self, holds_three]
  rfl

theorem sampleAdd_served {w : World} (hfree : w.lib.outstanding.lookup 4 = none) :
    sampleAdd.Served plainSchema w (sampleRecords 3) (sampleRecords 7) := by
  refine ⟨by decide, hfree, serves_answer rfl w 4 (by decide), ?_⟩
  intro args op place hconvert hreceived
  have hargs : sampleAdd.method.call.convert packedEnv.ds 0 =
      .returned [.space [115], .key (.ofBytes [107]), .attrs (integerRecord 4).attributes] := rfl
  obtain rfl := Outcome.returned.inj (hargs.symm.trans hconvert)
  obtain ⟨rfl, rfl⟩ := Prod.mk.inj (Option.some.inj hreceived)
  have hserve : plainSchema.records.serve (.write .atomicAdd (integerRecord 4).attributes)
      (cString [115], (Buffer.ofBytes [107]).readString) (sampleRecords 3) =
        (.true, sampleRecords 7) := by
    have hwrite : plainSchema.records.write .atomicAdd (integerRecord 3)
        (integerRecord 4).attributes = some (integerRecord 7) := rfl
    have hplace : (cString [115], (Buffer.ofBytes [107]).readString) = ([115], [107]) := rfl
    simp only [hplace, Store.serve, Store.writeOn, sampleRecords, Function.update_self, hwrite,
      Function.update_idem]
  rw [hserve]
  exact ⟨rfl, _, .true "", rfl⟩

theorem sampleGetPart_served {w : World} (hfree : w.lib.outstanding.lookup 5 = none) :
    sampleGetPart.Served plainSchema w (sampleRecords 7) (sampleRecords 7) := by
  refine ⟨by decide, hfree, serves_answer rfl w 5 (by decide), ?_⟩
  intro args op place hconvert hreceived
  have hargs : sampleGetPart.method.call.convert packedEnv.ds 0 =
      .returned [.space [115], .key (.ofBytes [107]), .attrnames [[110]]] := rfl
  obtain rfl := Outcome.returned.inj (hargs.symm.trans hconvert)
  obtain ⟨rfl, rfl⟩ := Prod.mk.inj (Option.some.inj hreceived)
  have hsame : List.Forall₂ SameAttribute (integerRecord 7).attributes
      (integerRecord 7).attributes := .cons ⟨rfl, rfl, rfl, rfl⟩ .nil
  exact ⟨rfl, _, .object "" (.refl _) hsame, rfl⟩

def sampleTalk : List Exchange :=
  [samplePut, sampleCondPut 2 .success, sampleCondPut 3 .cmpfail, sampleAdd, sampleGetPart]

theorem sampleTalk_wellTyped : ∀ x ∈ sampleTalk, x.method.WellTyped plainSchema := by
  have hhash (i : Int) (hlo : -2 ^ 63 ≤ i) (hhi : i < 2 ^ 63) :
      StorableHash [(.symbol [110], .integer i)] := by
    constructor
    · simp [keyName]
    · simp [keyName]
    · simpa using Representable.scalar (Storable.integer i hlo hhi)
  have hwritten {f : Modification} {i : Int} (hlo : -2 ^ 63 ≤ i) (hhi : i < 2 ^ 63)
      {k : Value} (hkey : Storable .string k) {b : Bytes} {x : Value} (hspace : keyName x = some b)
      (hb : (0 : UInt8) ∉ b) :
      Method.WellTyped plainSchema ⟨.write f [(.symbol [110], .integer i)], x, k⟩ := by
    refine ⟨⟨b, hspace, hb⟩, hkey, by simp [Op.asked], fun h hop => ?_, by simp [Op.tested]⟩
    obtain rfl := Option.some.inj hop
    exact hhash i hlo hhi
  have hcondPut (reqid : Int) (status : ReturnCode) :
      (sampleCondPut reqid status).method.WellTyped plainSchema := by
    refine ⟨⟨_, rfl, by decide⟩, .symbol _ (by decide), by simp [sampleCondPut, Op.asked],
      fun h hop => ?_, fun c hop => ?_⟩
    · obtain rfl := Option.some.inj hop
      exact hhash 3 (by decide) (by decide)
    · obtain rfl := Option.some.inj hop
      exact ⟨_, atLeastFive_checks⟩
  have hgetPart : sampleGetPart.method.WellTyped plainSchema := by
    refine ⟨⟨_, rfl, by decide⟩, .symbol _ (by decide), fun names hop => ?_,
      by simp [sampleGetPart, Op.written], by simp [sampleGetPart, Op.tested]⟩
    obtain rfl := Option.some.inj hop
    exact ⟨[[110]], by simp [keyName], [[110]], rfl, rfl⟩
  simp only [sampleTalk, List.forall_mem_cons, List.not_mem_nil, false_imp_iff, implies_true,
    and_true]
  exact ⟨hwritten (by decide) (by decide) (.string _) rfl (by decide), hcondPut 2 .success,
    hcondPut 3 .cmpfail, hwritten (by decide) (by decide) (.symbol _ (by decide)) rfl (by decide),
    hgetPart⟩

/-- The first `cond_put` writes, the second one does not, and the sum is read. -/
theorem talk_shows_sampleTalk :
    List.Forall₂ (Shows packedEnv)
      (plainSchema.replies (fun _ => none) (sampleTalk.map Exchange.method))
      [.returned .true, .returned .true, .returned .false, .returned .true,
        .returned (.hash [(.symbol [110], .integer 7)])] :=
  have htalk : Talk plainSchema .initial (fun _ => none) sampleTalk
      [.returned .true, .returned .true, .returned .false, .returned .true,
        .returned (.hash [(.symbol [110], .integer 7)])] :=
    .waited samplePut_served rfl (.waited (sampleCondPut_served (by decide) rfl condPut_seven
      (.true "")) rfl (.waited (sampleCondPut_served (by decide) rfl condPut_three (.false "")) rfl
        (.waited (sampleAdd_served rfl) rfl (.waited (sampleGetPart_served rfl) rfl (.done _ _)))))
  talk_shows packedFormat_lawful htalk ⟨[], rfl⟩ rfl sampleTalk_wellTyped agree_empty

end HyperDex.Client
