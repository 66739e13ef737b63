import HyperDex.Client.Methods
import HyperDex.Client.Predicates
import HyperDex.Decoding.Records
import HyperDex.General.ObjectStore

/-!
# The store behind the client

Behind the client library stands a store, which keeps a record under the name of a
space and the bytes of a key. A caller of the methods sees a store of Ruby hashes
instead, whose conditional methods test the conditions of predicates hashes: a method is
converted to the operation of that store, and what the library reports of the records is
shown as its answer.
-/
namespace HyperDex.Client
open General Ruby Conversion Decoding ObjectStore

variable {Obj V : Type} (env : Env Obj)

/-- What a predicates hash says of an object, given by the values of its attributes. -/
def Meets (ds : DataStructures Obj) (sem : Semantics V) (conditions : List (Value × Condition))
    (values : Bytes → V) : Prop :=
  ∀ q ∈ conditions, ∃ name,
    convertCstring q.1 "Attribute name must be a string or symbol" = .returned name ∧
      q.2.Means ds sem (values name)

def predicatesHash (conditions : List (Value × Condition)) : Value :=
  .hash (conditions.map fun q => (q.1, q.2.toValue))

structure Method where
  op : Op Modification (List Value) (List (Value × Value)) (List (Value × Condition))
  spacename : Value
  key : Value

def Method.call (m : Method) : Call :=
  match m.op with
  | .get => .spacenameKeyStatusAttributes m.spacename m.key
  | .getPart names =>
    .spacenameKeyAttributenamesStatusAttributes m.spacename m.key (.array names)
  | .write _ h => .spacenameKeyAttributesStatus m.spacename m.key (.hash h)
  | .writeIfNone h => .spacenameKeyAttributesStatus m.spacename m.key (.hash h)
  | .del => .spacenameKeyStatus m.spacename m.key
  | .condWrite _ conditions h =>
    .spacenameKeyPredicatesAttributesStatus m.spacename m.key (predicatesHash conditions) (.hash h)
  | .condDel conditions =>
    .spacenameKeyPredicatesStatus m.spacename m.key (predicatesHash conditions)

def Method.function (m : Method) : LibraryFunction :=
  match m.op with
  | .get => .get
  | .getPart _ => .getPartial
  | .write f _ => .write f
  | .writeIfNone _ => .putIfNotExist
  | .del => .del
  | .condWrite f _ _ => .condWrite f
  | .condDel _ => .condDel

def Method.arguments (m : Method) : List Value :=
  match m.op with
  | .get | .del => [m.spacename, m.key]
  | .getPart names => [m.spacename, m.key, .array names]
  | .write _ h | .writeIfNone h => [m.spacename, m.key, .hash h]
  | .condWrite _ conditions h => [m.spacename, m.key, predicatesHash conditions, .hash h]
  | .condDel conditions => [m.spacename, m.key, predicatesHash conditions]

theorem Method.function_call (m : Method) : m.function.call m.arguments = some m.call := by
  rcases m with ⟨op, spacename, key⟩
  cases op <;> rfl

theorem Method.call_kind (m : Method) : m.call.kind = .deferred := by
  rcases m with ⟨op, spacename, key⟩
  cases op <;> rfl

/-- The operation that the library receives, with its place. -/
def Method.received (m : Method) (args : List Argument) :
    Option (Op Modification (List Bytes) (List Attribute) (List AttributeCheck) × Bytes × Bytes) :=
  match m.op, args with
  | .get, [.space space, .key key] => some (.get, cString space, key.readString)
  | .getPart _, [.space space, .key key, .attrnames names] =>
    some (.getPart (names.map cString), cString space, key.readString)
  | .write f _, [.space space, .key key, .attrs attrs] =>
    some (.write f attrs, cString space, key.readString)
  | .writeIfNone _, [.space space, .key key, .attrs attrs] =>
    some (.writeIfNone attrs, cString space, key.readString)
  | .del, [.space space, .key key] => some (.del, cString space, key.readString)
  | .condWrite f _ _, [.space space, .key key, .checks _ slots, .attrs attrs] =>
    some (.condWrite f (readChecks slots) attrs, cString space, key.readString)
  | .condDel _, [.space space, .key key, .checks _ slots] =>
    some (.condDel (readChecks slots), cString space, key.readString)
  | _, _ => none

def scalarOf : Value → Scalar
  | .symbol b => .string b
  | .string b => .string b
  | .integer i => .integer i
  | .float bits => .float bits
  | _ => .nil

/-- What a store knows of its spaces: the kind of the keys, the attributes that a new object starts
with, as the store has them and as they are decoded, how attributes are compared and how they are
modified, which is by what they decode to. -/
structure Schema (V : Type) where
  kind : Bytes → Prim
  record : Bytes → Record
  object : Bytes → Object
  keeps : ∀ space, Keeps env (record space) (object space)
  sem : Semantics V
  value : Value → V
  reads : ∀ packed x, Decoding.Decodable env x packed → sem.read packed = value x
  absent : V
  apply : Modification → Packed → Packed → Option Packed
  applyValue : Modification → Value → Value → Option Value
  applies : ∀ f, Matching env (apply f) (applyValue f)
  failsOnNone : Bool

abbrev Records := Bytes × Bytes → Option Record

abbrev Objects := Bytes × Scalar → Option Object

variable {env}

def Schema.recordValues (schema : Schema env V) (r : Record) (name : Bytes) : V :=
  ((r.lookup name).map schema.sem.read).getD schema.absent

def Schema.objectValues (schema : Schema env V) (o : Object) (name : Bytes) : V :=
  ((o.lookup name).map schema.value).getD schema.absent

/-- `put` replaces attributes, anything else modifies those that are there. -/
def Schema.writeRecord (schema : Schema env V) (f : Modification) (r : Record)
    (attrs : List Attribute) : Option Record :=
  if f = .put then some (r.put attrs) else r.modify (schema.apply f) attrs

def Schema.writeObject (schema : Schema env V) (f : Modification) (o : Object)
    (h : List (Value × Value)) : Option Object :=
  if f = .put then some (o.put h) else o.modify (schema.applyValue f) h

open Classical in
/-- The store of records, which tests attribute checks. Only `put` makes a record. -/
noncomputable def Schema.records (schema : Schema env V) :
    Store (Bytes × Bytes) Record Modification (List Bytes) (List Attribute)
      (List AttributeCheck) where
  new place := schema.record place.1
  creates f := f = .put
  plain := .put
  write := schema.writeRecord
  part := Record.part
  holds r checks := decide (schema.sem.Satisfies (schema.recordValues r) checks)
  failsOnNone := schema.failsOnNone

theorem Schema.records_holds (schema : Schema env V) (r : Record) (checks : List AttributeCheck) :
    schema.records.holds r checks = true ↔
      schema.sem.Satisfies (schema.recordValues r) checks := by
  simp only [records, decide_eq_true_iff]

open Classical in
/-- The store of objects, which tests the conditions of predicates hashes. -/
noncomputable def Schema.objects (schema : Schema env V) :
    Store (Bytes × Scalar) Object Modification (List Value) (List (Value × Value))
      (List (Value × Condition)) where
  new place := schema.object place.1
  creates f := f = .put
  plain := .put
  write := schema.writeObject
  part := Object.part
  holds o conditions := decide (Meets env.ds schema.sem conditions (schema.objectValues o))
  failsOnNone := schema.failsOnNone

noncomputable def Schema.serveObjects (schema : Schema env V) (m : Method) (os : Objects) :
    Reply Object × Objects :=
  schema.objects.serve m.op (nameOf m.spacename, scalarOf m.key) os

/-- How the library reports the answer of the store. A record is handed out in any order of its
attributes, at any place in memory. -/
inductive Reported : Reply Record → Completion → Prop where
  | nil (message : String) : Reported .nil ⟨.notfound, message, .none⟩
  | true (message : String) : Reported .true ⟨.success, message, .none⟩
  | false (message : String) : Reported .false ⟨.cmpfail, message, .none⟩
  | refused {status : ReturnCode} (message : String) : status.IsError →
      Reported .refused ⟨status, message, .none⟩
  | object {r : Record} {attrs attrs' : List Attribute} (message : String) :
      r.attributes.Perm attrs → List.Forall₂ SameAttribute attrs attrs' →
      Reported (.object r) ⟨.success, message, .attributes attrs'⟩

variable (env) in
/-- The Ruby value of an answer, or the exception. A hash has its names in an order of the
store. -/
inductive Shows : Reply Object → Outcome Exn Value → Prop where
  | nil : Shows .nil (.returned .nil)
  | true : Shows .true (.returned .true)
  | false : Shows .false (.returned .false)
  | refused {status : ReturnCode} (message : String) : status.IsError →
      Shows .refused (.raised (exception env.objectSpace status message))
  | object {o : Object} {es : List (Bytes × Value)} {m : OrderedMap Bytes Value} :
      es.Perm o.entries → List.Forall₂ SameContent es m.entries →
      Shows (.object o) (.returned (hashOf m))

/-- The key has the bytes of the place of the record, and the value of the place of the object. -/
def SamePlace (schema : Schema env V) (i : Bytes × Bytes) (j : Bytes × Scalar) : Prop :=
  i.1 = j.1 ∧ ∃ x key, Storable (schema.kind i.1) x ∧ convertKey env.ds x = .returned key ∧
    i.2 = key.readString ∧ j.2 = scalarOf x

/-- The checks that conditions are converted to, whose names are without NUL. -/
structure ChecksFor (ds : DataStructures Obj) (checks : List AttributeCheck)
    (conditions : List (Value × Condition)) : Prop where
  names : ∀ q ∈ conditions, ∃ b, keyName q.1 = some b ∧ (0 : UInt8) ∉ b
  converted : ∃ result, convertPredicates ds (predicatesHash conditions) = .returned result ∧
    checks = readChecks result.2

/-- The names of attributes that are converted, without NUL. -/
structure NamesFor (ds : DataStructures Obj) (bytes : List Bytes) (names : List Value) : Prop where
  keys : ∀ x ∈ names, ∃ b, keyName x = some b ∧ (0 : UInt8) ∉ b
  converted : ∃ result, convertAttributenames ds (.array names) = .returned result ∧
    bytes = result.map cString

/-- A name without NUL, a key of the kind of the space, attributes that can be stored, and names
and conditions that are converted. -/
structure Method.WellTyped (schema : Schema env V) (m : Method) : Prop where
  space : ∃ b, keyName m.spacename = some b ∧ (0 : UInt8) ∉ b
  key : Storable (schema.kind (nameOf m.spacename)) m.key
  names : ∀ names ∈ m.op.asked, ∃ bytes, NamesFor env.ds bytes names
  attributes : ∀ h ∈ m.op.written, StorableHash h
  conditions : ∀ c ∈ m.op.tested, ∃ checks, ChecksFor env.ds checks c

theorem ofScalar_scalarOf {p : Prim} {x : Value} (hx : Storable p x) :
    Value.ofScalar (scalarOf x) = stringified x := by
  cases hx <;> rfl

theorem samePlace_oneToOne (hds : env.ds.Lawful) (schema : Schema env V) :
    OneToOne (SamePlace schema) := by
  rintro ⟨space, bytes⟩ ⟨_, s⟩ ⟨space', bytes'⟩ ⟨_, s'⟩ ⟨rfl, x, key, hx, hkey, hbytes, hs⟩
    ⟨rfl, x', key', hx', hkey', hbytes', hs'⟩
  simp only at hx hbytes hs hx' hbytes' hs'
  subst hbytes hs hbytes' hs'
  simp only [Prod.mk.injEq]
  refine and_congr_right fun hspace => ?_
  subst hspace
  rw [key_bytes_iff env hds hx hx' hkey hkey', ← ofScalar_scalarOf hx, ← ofScalar_scalarOf hx',
    Value.ofScalar_injective.eq_iff]

theorem Schema.recordValues_eq (schema : Schema env V) {r : Record} {o : Object}
    (h : Keeps env r o) : schema.recordValues r = schema.objectValues o := by
  funext name
  have hlookup := h.related.lookup name
  rw [recordValues, objectValues]
  generalize r.lookup name = packed at hlookup
  generalize o.lookup name = x at hlookup
  cases hlookup with
  | none => rfl
  | some hx => rw [Option.map_some, Option.map_some, schema.reads _ _ hx]

theorem namesWhole_of_nulFree {conditions : List (Value × Condition)}
    (hnames : ∀ q ∈ conditions, ∃ b, keyName q.1 = some b ∧ (0 : UInt8) ∉ b) :
    NamesWhole (conditions.map fun q => (q.1, q.2.toValue)) := by
  intro e he name hname
  simp only [flattenPredicates, List.flatMap_map, List.mem_flatMap, List.mem_map] at he
  rcases he with ⟨q, hq, c, -, rfl⟩
  rcases hnames q hq with ⟨b, hb, hnulFree⟩
  change q.1 = .symbol name at hname
  rw [hname] at hb
  exact Option.some.inj hb ▸ hnulFree

theorem ChecksFor.holds_iff {checks : List AttributeCheck} {conditions : List (Value × Condition)}
    (h : ChecksFor env.ds checks conditions) (schema : Schema env V) {r : Record} {o : Object}
    (hr : Keeps env r o) : schema.sem.Satisfies (schema.recordValues r) checks ↔
      Meets env.ds schema.sem conditions (schema.objectValues o) := by
  rcases h with ⟨hnames, result, hconvert, rfl⟩
  have hwrites := convertPredicates_writes env.ds hconvert
  rw [schema.recordValues_eq hr, readChecks_eq hwrites (namesWhole_of_nulFree hnames)]
  exact hwrites.satisfies_iff env.ds schema.sem _

theorem NamesFor.eq {ds : DataStructures Obj} {bytes : List Bytes} {names : List Value}
    (h : NamesFor ds bytes names) : bytes = names.map nameOf := by
  rcases h with ⟨hnames, result, hconvert, rfl⟩
  have hloop (acc : List Bytes) : names.foldlM (fun names entry => do
      let name ← convertCstring entry "Attribute name must be a string or symbol"
      return names ++ [name]) acc = Outcome.returned (acc ++ names.map nameOf) := by
    clear hconvert
    induction names generalizing acc with
    | nil => simp
    | cons x names ih =>
      rw [List.forall_mem_cons] at hnames
      rcases hnames.1 with ⟨b, hname, hnulFree⟩
      have hrest := ih hnames.2 (acc ++ [b])
      rw [List.foldlM_cons, convertCstring_of_keyName hname hnulFree]
      simpa [nameOf, hname] using hrest
  have hresult : result = names.map nameOf := by
    simp only [convertAttributenames, rarrayLen, Outcome.returned_bind, forEntries_array] at hconvert
    split at hconvert
    · exact Outcome.returned.inj (hconvert.symm.trans (hloop []))
    · simp at hconvert
  rw [hresult, List.map_map]
  apply List.map_congr_left
  intro x hx
  rcases hnames x hx with ⟨b, hname, hnulFree⟩
  rw [Function.comp_apply, nameOf, hname, Option.getD_some, cString_of_nulFree b hnulFree]

/-- The store of records works on what it keeps as the store of objects does. -/
theorem Schema.stores_related (schema : Schema env V) :
    Store.Related (SamePlace schema) (Keeps env) (NamesFor env.ds)
      (fun attrs h => List.Forall₂ (Stores env) h attrs) (ChecksFor env.ds)
      schema.records schema.objects where
  new i j hij := by
    have hkeeps := schema.keeps i.1
    rwa [show schema.object i.1 = schema.object j.1 from congrArg _ hij.1] at hkeeps
  creates := rfl
  plain := rfl
  write f r o attrs h hr hh := by
    change Option.Rel _ (schema.writeRecord f r attrs) (schema.writeObject f o h)
    rw [Schema.writeRecord, Schema.writeObject]
    split
    · exact .some (hr.put hh)
    · exact hr.modify (schema.applies f) hh
  part r o bytes names hr hnames := by
    rw [hnames.eq]
    exact hr.part names
  holds r o checks conditions hr hchecks := decide_eq_decide.mpr (hchecks.holds_iff schema hr)
  failsOnNone := rfl

theorem Method.WellTyped.converted (hds : env.ds.Lawful) {schema : Schema env V} {m : Method}
    (hm : m.WellTyped schema) : ∃ args op place, m.call.convert env.ds 0 = .returned args ∧
      m.received args = some (op, place) ∧
      SamePlace schema place (nameOf m.spacename, scalarOf m.key) ∧
      op.Related (NamesFor env.ds) (fun attrs h => List.Forall₂ (Stores env) h attrs)
        (ChecksFor env.ds) m.op := by
  rcases m with ⟨op, spacename, k⟩
  rcases hm with ⟨⟨b, hname, hnulFree⟩, hkey, hnames, hattributes, hconditions⟩
  simp only at hname hkey hnames hattributes hconditions ⊢
  have hb : nameOf spacename = b := by rw [nameOf, hname, Option.getD_some]
  have hspace : convertSpacename spacename = .returned b :=
    convertCstring_of_keyName hname hnulFree _
  rcases convertKey_decodable env hds hkey with ⟨key, hconvert, -⟩
  have hplace : SamePlace schema (cString b, key.readString) (nameOf spacename, scalarOf k) := by
    rw [cString_of_nulFree b hnulFree, hb]
    exact ⟨rfl, k, key, hb ▸ hkey, hconvert, rfl, rfl⟩
  have hwritten {h : List (Value × Value)} (hop : op.written = some h) :
      ∃ attrs, convertAttributes env.ds (.hash h) = .returned attrs ∧
        List.Forall₂ (Stores env) h attrs :=
    convertAttributes_stores env hds (hattributes h hop)
  have htested {c : List (Value × Condition)} (hop : op.tested = some c) :
      ∃ result, convertPredicates env.ds (predicatesHash c) = .returned result ∧
        ChecksFor env.ds (readChecks result.2) c := by
    rcases hconditions c hop with ⟨_, hnames, result, hresult, -⟩
    exact ⟨result, hresult, hnames, result, hresult, rfl⟩
  cases op with
  | get =>
    refine ⟨[.space b, .key key], .get, _, ?_, rfl, hplace, .get⟩
    simp [call, Call.convert, Call.conversions, spaceArgument, keyArgument, hspace, hconvert]
  | getPart ns =>
    rcases hnames ns rfl with ⟨_, hkeys, result, hresult, -⟩
    refine ⟨[.space b, .key key, .attrnames result], .getPart (result.map cString), _, ?_, rfl,
      hplace, .getPart ⟨hkeys, result, hresult, rfl⟩⟩
    simp [call, Call.convert, Call.conversions, spaceArgument, keyArgument, attrnamesArgument,
      hspace, hconvert, hresult]
  | write f h =>
    rcases hwritten rfl with ⟨attrs, hattrs, hstores⟩
    refine ⟨[.space b, .key key, .attrs attrs], .write f attrs, _, ?_, rfl, hplace,
      .write hstores⟩
    simp [call, Call.convert, Call.conversions, spaceArgument, keyArgument, attrsArgument, hspace,
      hconvert, hattrs]
  | writeIfNone h =>
    rcases hwritten rfl with ⟨attrs, hattrs, hstores⟩
    refine ⟨[.space b, .key key, .attrs attrs], .writeIfNone attrs, _, ?_, rfl, hplace,
      .writeIfNone hstores⟩
    simp [call, Call.convert, Call.conversions, spaceArgument, keyArgument, attrsArgument, hspace,
      hconvert, hattrs]
  | del =>
    refine ⟨[.space b, .key key], .del, _, ?_, rfl, hplace, .del⟩
    simp [call, Call.convert, Call.conversions, spaceArgument, keyArgument, hspace, hconvert]
  | condWrite f c h =>
    rcases hwritten rfl with ⟨attrs, hattrs, hstores⟩
    rcases htested rfl with ⟨result, hresult, hchecks⟩
    refine ⟨[.space b, .key key, .checks result.1 result.2, .attrs attrs],
      .condWrite f (readChecks result.2) attrs, _, ?_, rfl, hplace, .condWrite hchecks hstores⟩
    simp [call, Call.convert, Call.conversions, spaceArgument, keyArgument, checksArgument,
      attrsArgument, hspace, hconvert, hresult, hattrs]
  | condDel c =>
    rcases htested rfl with ⟨result, hresult, hchecks⟩
    refine ⟨[.space b, .key key, .checks result.1 result.2], .condDel (readChecks result.2), _, ?_,
      rfl, hplace, .condDel hchecks⟩
    simp [call, Call.convert, Call.conversions, spaceArgument, keyArgument, checksArgument, hspace,
      hconvert, hresult]

theorem Reported.shows {r : Reply Record} {o : Reply Object} {c : Completion} (h : Reported r c)
    (hrelated : r.Related (Keeps env) o) : Shows env o (c.value env c.message) := by
  cases h with
  | nil message =>
    cases hrelated
    exact .nil
  | true message =>
    cases hrelated
    exact .true
  | false message =>
    cases hrelated
    exact .false
  | @refused status message herror =>
    cases hrelated
    rw [Completion.value, value_of_error herror]
    exact .refused message herror
  | @object r attrs attrs' message hperm hsame =>
    cases hrelated with
    | object hkeeps =>
      rcases hkeeps.read hperm hsame with ⟨m, hdecode, es, hes, hcontent⟩
      have hvalue : Completion.value env ⟨.success, message, .attributes attrs'⟩ message =
          .returned (hashOf m) := by
        simp [Completion.value, Completion.place, Yield.value, hdecode]
      rw [hvalue]
      exact .object hes hcontent

end HyperDex.Client
