import HyperDex.Conversion.PackedFormat

/-!
# Decoding of attributes

`build_attribute` and `encode_attributes`. Every container type has a loop of
its own over the iterator of the type; the loops differ in the iterator, in the
container and in the text of the error they would raise.
-/
namespace HyperDex.Decoding
open General Ruby Client Conversion

/-- What the decoder and the client use from outside: the data-structure library, the parser
of documents where a JSON library is loaded, and the classes in the order of `ObjectSpace`. -/
structure Env (Obj : Type) where
  ds : DataStructures Obj
  json : Option (Bytes → Option Value)
  objectSpace : List ClassObject

/-- `str.null? ? nil : str.read_string(len)`, `read_int64` and `read_double` of a cell. -/
def readCell : (p : Prim) → p.Cell → Scalar
  | .string, none => .nil
  | .string, some b => .string b
  | .int64, i => .integer (Int64.toInt i)
  | .float, d => .float d

def readCells (k v : Prim) (cells : k.Cell × v.Cell) : Scalar × Scalar :=
  (readCell k cells.1, readCell v cells.2)

/-- `while (result = next()) > 0`, with the test for a malformed value inside the loop. -/
def iterate {α β : Type} (message : String) (add : β → α → β) (tape : Tape α) (res : β) :
    Except Exn β :=
  tape.whilePositive
    (fun res result cell =>
      if result < 0 then .error (serverError message) else .ok (add res cell)) res

def ofPair (p : Scalar × Scalar) : Value × Value := (Value.ofScalar p.1, Value.ofScalar p.2)

section Containers
variable {Obj : Type} (env : Env Obj)

def buildList (p : Prim) (message : String) (iter : DsIterator) : Except Exn Value := do
  let res ←
    iterate message (fun res cell => res ++ [readCell p cell]) (env.ds.iterateList p iter) []
  return .array (res.map Value.ofScalar)

/-- Members are told apart as scalars, floats by their bits; Ruby's `Set` and the keys of its `Hash`
use `eql?`, for which 0.0 and -0.0 are one and two NaN are not. -/
def buildSet (p : Prim) (message : String) (iter : DsIterator) : Except Exn Value := do
  let res ← iterate message (fun res cell => OrderedSet.add res (readCell p cell))
    (env.ds.iterateSet p iter) .empty
  return .set (res.members.map Value.ofScalar)

def buildMap (k v : Prim) (message : String) (iter : DsIterator) : Except Exn Value := do
  let res ← iterate message
    (fun res cells => OrderedMap.insert res (readCell k cells.1) (readCell v cells.2))
    (env.ds.iterateMap k v iter) .empty
  return .hash (res.entries.map ofPair)

/-- `JSON.parse(value)` with its rescue; the constant is unknown where no library defines it. -/
def parseDocument (value : Bytes) : Except Exn Value :=
  match env.json with
  | none => .error (.core .nameError "uninitialized constant HyperDex::Client::JSON")
  | some parse =>
    match parse value with
    | some v => .ok v
    | none => .error (serverError "server sent malformed attribute(document)")

def buildAttribute (attr : Attribute) : Except Exn Value :=
  let type := attr.datatype
  let value := attr.value.readString
  let iter := initDsIterator type value
  match type with
  | .prim .string => .ok (.string value)
  | .prim .int64 =>
    match env.ds.unpackInt attr.value with
    | none => .error (serverError
        ("server sent malformed int attribute (" ++ inspect value ++ ")"))
    | some i => .ok (.integer i.toInt)
  | .prim .float =>
    match env.ds.unpackFloat attr.value with
    | none => .error (serverError
        ("server sent malformed float attribute (" ++ inspect value ++ ")"))
    | some d => .ok (.float d)
  | .document => parseDocument env value
  | .list .string => buildList env .string "server sent malformed list(string)" iter
  | .list .int64 => buildList env .int64 "server sent malformed list(int)" iter
  | .list .float => buildList env .float "server sent malformed list(float)" iter
  | .set .string => buildSet env .string "server sent malformed set(string)" iter
  | .set .int64 => buildSet env .int64 "server sent malformed set(int)" iter
  | .set .float => buildSet env .float "server sent malformed set(float)" iter
  | .map .string .string =>
    buildMap env .string .string "server sent malformed map(string, string)" iter
  | .map .string .int64 =>
    buildMap env .string .int64 "server sent malformed map(string, int)" iter
  | .map .string .float =>
    buildMap env .string .float "server sent malformed map(string, float)" iter
  | .map .int64 .string =>
    buildMap env .int64 .string "server sent malformed map(int, string)" iter
  | .map .int64 .int64 =>
    buildMap env .int64 .int64 "server sent malformed map(int, int)" iter
  | .map .int64 .float =>
    buildMap env .int64 .float "server sent malformed map(int, float)" iter
  | .map .float .string =>
    buildMap env .float .string "server sent malformed map(float, string)" iter
  | .map .float .int64 =>
    buildMap env .float .int64 "server sent malformed map(float, int)" iter
  | .map .float .float =>
    -- the text names the keys as integers
    buildMap env .float .float "server sent malformed map(int, float)" iter
  | _ => .error (serverError "server sent malformed attributes")

/-- `HyperDex::Client.encode_attributes` over the attributes of the array, keyed by symbols. -/
def encodeAttributes (attrs : List Attribute) : Except Exn (OrderedMap Bytes Value) :=
  attrs.foldlM (fun h attr => do
    let k := cString attr.attr
    let v ← buildAttribute env attr
    return h.insert k v) .empty

end Containers

theorem iterate_eq {α β : Type} (message : String) (add : β → α → β) (tape : Tape α) (res : β) :
    iterate message add tape res = .ok (tape.produced.foldl add res) := by
  refine Tape.whilePositive_eq_foldl _ _ (fun b result a hresult => ?_) tape res
  rw [if_neg (by omega)]

inductive Container where
  | list (p : Prim)
  | set (p : Prim)
  | map (k v : Prim)
  deriving DecidableEq

def Container.datatype : Container → Datatype
  | .list p => .list p
  | .set p => .set p
  | .map k v => .map k v

section Attributes
variable {Obj : Type} (env : Env Obj)

/-- The result with which the iteration over the value of an attribute ends. -/
def ending (c : Container) (attr : Attribute) : Int :=
  let iter := initDsIterator attr.datatype attr.value.readString
  match c with
  | .list p => (env.ds.iterateList p iter).ending
  | .set p => (env.ds.iterateSet p iter).ending
  | .map k v => (env.ds.iterateMap k v iter).ending

/-- The value holds exactly the elements that the iteration produced: a list in order, a set
their set, a map the last binding of every key. The elements are the scalars of the cells, so this
speaks of Ruby's `eql?` for all but floats, which are compared by their bits. -/
def Holds (c : Container) (attr : Attribute) (value : Value) : Prop :=
  let iter := initDsIterator attr.datatype attr.value.readString
  match c with
  | .list p =>
    value = .array ((env.ds.iterateList p iter).produced.map (Value.ofScalar ∘ readCell p))
  | .set p => ∃ s : OrderedSet Scalar, value = .set (s.members.map Value.ofScalar) ∧
      ∀ x, x ∈ s.members ↔ x ∈ (env.ds.iterateSet p iter).produced.map (readCell p)
  | .map k v => ∃ m : OrderedMap Scalar Scalar, value = .hash (m.entries.map ofPair) ∧
      ∀ x, m.lookup x = ((env.ds.iterateMap k v iter).produced.map (readCells k v)).reverse.lookup x

theorem buildList_eq (p : Prim) (message : String) (iter : DsIterator) :
    buildList env p message iter =
      .ok (.array ((env.ds.iterateList p iter).produced.map (Value.ofScalar ∘ readCell p))) := by
  have hfold (cells : List p.Cell) (res : List Scalar) :
      cells.foldl (fun res cell => res ++ [readCell p cell]) res =
        res ++ cells.map (readCell p) := by
    induction cells generalizing res with
    | nil => simp
    | cons cell cells ih => simp [ih]
  rw [buildList, iterate_eq, hfold]
  simp [bind, Except.bind, pure, Except.pure]

theorem buildSet_eq (p : Prim) (message : String) (iter : DsIterator) :
    buildSet env p message iter =
      .ok (.set ((OrderedSet.ofList ((env.ds.iterateSet p iter).produced.map
        (readCell p))).members.map Value.ofScalar)) := by
  rw [buildSet, iterate_eq, OrderedSet.ofList, List.foldl_map]
  rfl

theorem buildMap_eq (k v : Prim) (message : String) (iter : DsIterator) :
    buildMap env k v message iter =
      .ok (.hash ((OrderedMap.ofBindings ((env.ds.iterateMap k v iter).produced.map
        (readCells k v))).entries.map ofPair)) := by
  rw [buildMap, iterate_eq, OrderedMap.ofBindings, List.foldl_map]
  rfl

theorem buildAttribute_list {p : Prim} {attr : Attribute} (h : attr.datatype = .list p) :
    ∃ message, buildAttribute env attr =
      buildList env p message (initDsIterator (.list p) attr.value.readString) := by
  cases p <;> exact ⟨_, by rw [buildAttribute, h]⟩

theorem buildAttribute_set {p : Prim} {attr : Attribute} (h : attr.datatype = .set p) :
    ∃ message, buildAttribute env attr =
      buildSet env p message (initDsIterator (.set p) attr.value.readString) := by
  cases p <;> exact ⟨_, by rw [buildAttribute, h]⟩

theorem buildAttribute_map {k v : Prim} {attr : Attribute} (h : attr.datatype = .map k v) :
    ∃ message, buildAttribute env attr =
      buildMap env k v message (initDsIterator (.map k v) attr.value.readString) := by
  cases k <;> cases v <;> exact ⟨_, by rw [buildAttribute, h]⟩

/-- Whatever the iteration ends with, the elements read so far are returned. -/
theorem buildAttribute_holds (c : Container) (attr : Attribute) (h : attr.datatype = c.datatype) :
    ∃ value, buildAttribute env attr = .ok value ∧ Holds env c attr value := by
  cases c with
  | list p =>
    rcases buildAttribute_list env h with ⟨message, hbuild⟩
    rw [hbuild, buildList_eq]
    exact ⟨_, rfl, by rw [Holds, h]; rfl⟩
  | set p =>
    rcases buildAttribute_set env h with ⟨message, hbuild⟩
    rw [hbuild, buildSet_eq]
    exact ⟨_, rfl, _, rfl, by rw [h]; exact OrderedSet.mem_ofList _⟩
  | map k v =>
    rcases buildAttribute_map env h with ⟨message, hbuild⟩
    rw [hbuild, buildMap_eq]
    exact ⟨_, rfl, _, rfl, by rw [h]; exact OrderedMap.lookup_ofBindings _⟩

theorem ending_nonpos (c : Container) (attr : Attribute) : ending env c attr ≤ 0 := by
  cases c <;> exact Tape.ending_nonpos _

/-- A container is returned only after the iteration ended cleanly, with its elements, and
malformed data is reported. -/
structure ContainerLaw (c : Container) (attr : Attribute) : Prop where
  clean : ∀ value, buildAttribute env attr = .ok value →
    ending env c attr = 0 ∧ Holds env c attr value
  malformed : ending env c attr < 0 →
    ∃ message, buildAttribute env attr = .error (serverError message)

theorem containerLaw_iff (c : Container) (attr : Attribute) (h : attr.datatype = c.datatype) :
    ContainerLaw env c attr ↔ ending env c attr = 0 := by
  rcases buildAttribute_holds env c attr h with ⟨value, hbuild, hholds⟩
  constructor
  · intro hlaw
    exact (hlaw.clean value hbuild).1
  · intro hending
    refine ⟨fun value' hbuild' => ?_, fun hneg => absurd hneg (by omega)⟩
    obtain rfl : value = value' := by simpa [hbuild] using hbuild'
    exact ⟨hending, hholds⟩

/-- The law holds of an attribute array exactly when no iteration over one of its containers
reports malformed data. -/
theorem encodeAttributes_reports_malformed_iff (attrs : List Attribute) :
    ((∀ attr ∈ attrs, ∀ c : Container, attr.datatype = c.datatype → ContainerLaw env c attr) ∧
      ((∃ attr ∈ attrs, ∃ c : Container, attr.datatype = c.datatype ∧ ending env c attr < 0) →
        ∃ message, encodeAttributes env attrs = .error (serverError message))) ↔
    ∀ attr ∈ attrs, ∀ c : Container, attr.datatype = c.datatype → ¬ ending env c attr < 0 := by
  constructor
  · rintro ⟨hlaw, -⟩ attr hattr c hc hneg
    have hzero := (containerLaw_iff env c attr hc).mp (hlaw attr hattr c hc)
    omega
  · intro hclean
    refine ⟨fun attr hattr c hc => ?_, ?_⟩
    · have hle := ending_nonpos env c attr
      have hnot := hclean attr hattr c hc
      exact (containerLaw_iff env c attr hc).mpr (by omega)
    · rintro ⟨attr, hattr, c, hc, hneg⟩
      exact absurd hneg (hclean attr hattr c hc)

end Attributes

def packedEnv : Env PackedFormat.Container := ⟨packedFormat, none, declaredClasses⟩

def truncatedList : Attribute := ⟨[97], .ofBytes [5, 0, 0, 0, 0, 0, 0, 0, 1], .list .int64⟩

/-- The list is decoded to its first element. -/
theorem truncatedList_decoded :
    ending packedEnv (.list .int64) truncatedList = -1 ∧
      buildAttribute packedEnv truncatedList = .ok (.array [.integer 5]) ∧
      ¬ ContainerLaw packedEnv (.list .int64) truncatedList ∧
      ∀ message, encodeAttributes packedEnv [truncatedList] ≠ .error (serverError message) := by
  have hending : ending packedEnv (.list .int64) truncatedList = -1 := rfl
  refine ⟨hending, rfl, fun hlaw => ?_, fun message h => ?_⟩
  · have hzero := (containerLaw_iff packedEnv _ _ rfl).mp hlaw
    rw [hending] at hzero
    exact absurd hzero (by decide)
  · exact nomatch (show Except.ok _ = Except.error _ from h)

end HyperDex.Decoding
