import HyperDex.Client.Blocking

/-!
# The methods of the extension

The extension wraps the functions of the client library one by one. A function that is
answered once has an asynchronous method, which returns the Deferred, and a blocking one,
which waits on it; a search has one method, which returns the Iterator. Every name leads to
one function, and a program that goes through the names makes no other calls than those of
the runs.
-/
namespace HyperDex.Client
open General Ruby Conversion Decoding

/-- What a request does to the attributes that it names. -/
inductive Modification where
  | put
  | atomicAdd | atomicSub | atomicMul | atomicDiv | atomicMod | atomicAnd | atomicOr | atomicXor
  | stringPrepend | stringAppend
  | listLpush | listRpush
  | setAdd | setRemove | setIntersect | setUnion
  | mapRemove
  deriving DecidableEq

/-- What a request does to entries of maps. -/
inductive MapModification where
  | add
  | atomicAdd | atomicSub | atomicMul | atomicDiv | atomicMod | atomicAnd | atomicOr | atomicXor
  | stringPrepend | stringAppend
  deriving DecidableEq

inductive LibraryFunction where
  | get
  | getPartial
  | write (f : Modification)
  | condWrite (f : Modification)
  | putIfNotExist
  | del
  | condDel
  | mapWrite (f : MapModification)
  | condMapWrite (f : MapModification)
  | search
  | searchDescribe
  | sortedSearch
  | groupDel
  | count
  deriving DecidableEq

def Modification.name : Modification → String
  | .put => "put"
  | .atomicAdd => "atomic_add"
  | .atomicSub => "atomic_sub"
  | .atomicMul => "atomic_mul"
  | .atomicDiv => "atomic_div"
  | .atomicMod => "atomic_mod"
  | .atomicAnd => "atomic_and"
  | .atomicOr => "atomic_or"
  | .atomicXor => "atomic_xor"
  | .stringPrepend => "string_prepend"
  | .stringAppend => "string_append"
  | .listLpush => "list_lpush"
  | .listRpush => "list_rpush"
  | .setAdd => "set_add"
  | .setRemove => "set_remove"
  | .setIntersect => "set_intersect"
  | .setUnion => "set_union"
  | .mapRemove => "map_remove"

def MapModification.name : MapModification → String
  | .add => "map_add"
  | .atomicAdd => "map_atomic_add"
  | .atomicSub => "map_atomic_sub"
  | .atomicMul => "map_atomic_mul"
  | .atomicDiv => "map_atomic_div"
  | .atomicMod => "map_atomic_mod"
  | .atomicAnd => "map_atomic_and"
  | .atomicOr => "map_atomic_or"
  | .atomicXor => "map_atomic_xor"
  | .stringPrepend => "map_string_prepend"
  | .stringAppend => "map_string_append"

namespace LibraryFunction

def name : LibraryFunction → String
  | .get => "get"
  | .getPartial => "get_partial"
  | .write f => f.name
  | .condWrite f => "cond_" ++ f.name
  | .putIfNotExist => "put_if_not_exist"
  | .del => "del"
  | .condDel => "cond_del"
  | .mapWrite f => f.name
  | .condMapWrite f => "cond_" ++ f.name
  | .search => "search"
  | .searchDescribe => "search_describe"
  | .sortedSearch => "sorted_search"
  | .groupDel => "group_del"
  | .count => "count"

def arity : LibraryFunction → ℕ
  | .get | .del | .search | .searchDescribe | .groupDel | .count => 2
  | .getPartial | .write _ | .putIfNotExist | .condDel | .mapWrite _ => 3
  | .condWrite _ | .condMapWrite _ => 4
  | .sortedSearch => 5

def call : LibraryFunction → List Value → Option Call
  | .get, [spacename, key] => some (.spacenameKeyStatusAttributes spacename key)
  | .getPartial, [spacename, key, attributenames] =>
    some (.spacenameKeyAttributenamesStatusAttributes spacename key attributenames)
  | .write _, [spacename, key, attributes] =>
    some (.spacenameKeyAttributesStatus spacename key attributes)
  | .condWrite _, [spacename, key, predicates, attributes] =>
    some (.spacenameKeyPredicatesAttributesStatus spacename key predicates attributes)
  | .putIfNotExist, [spacename, key, attributes] =>
    some (.spacenameKeyAttributesStatus spacename key attributes)
  | .del, [spacename, key] => some (.spacenameKeyStatus spacename key)
  | .condDel, [spacename, key, predicates] =>
    some (.spacenameKeyPredicatesStatus spacename key predicates)
  | .mapWrite _, [spacename, key, mapattributes] =>
    some (.spacenameKeyMapattributesStatus spacename key mapattributes)
  | .condMapWrite _, [spacename, key, predicates, mapattributes] =>
    some (.spacenameKeyPredicatesMapattributesStatus spacename key predicates mapattributes)
  | .search, [spacename, predicates] =>
    some (.iteratorSpacenamePredicatesStatusAttributes spacename predicates)
  | .searchDescribe, [spacename, predicates] =>
    some (.spacenamePredicatesStatusDescription spacename predicates)
  | .sortedSearch, [spacename, predicates, sortby, limit, maxmin] =>
    some (.iteratorSpacenamePredicatesSortbyLimitMaxminStatusAttributes spacename predicates
      sortby limit maxmin)
  | .groupDel, [spacename, predicates] => some (.spacenamePredicatesStatus spacename predicates)
  | .count, [spacename, predicates] => some (.spacenamePredicatesStatusCount spacename predicates)
  | _, _ => none

def kind : LibraryFunction → Kind
  | .search | .sortedSearch => .iterator
  | _ => .deferred

def modifications (fs : List Modification) : List LibraryFunction :=
  fs.flatMap fun f => [.write f, .condWrite f]

def mapModifications (fs : List MapModification) : List LibraryFunction :=
  fs.flatMap fun f => [.mapWrite f, .condMapWrite f]

/-- The functions, in the order in which the extension defines their methods. -/
def all : List LibraryFunction :=
  [.get, .getPartial, .write .put, .condWrite .put, .putIfNotExist, .del, .condDel] ++
    modifications [.atomicAdd, .atomicSub, .atomicMul, .atomicDiv, .atomicMod, .atomicAnd,
      .atomicOr, .atomicXor, .stringPrepend, .stringAppend, .listLpush, .listRpush, .setAdd,
      .setRemove, .setIntersect, .setUnion] ++
    mapModifications [.add] ++ modifications [.mapRemove] ++
    mapModifications [.atomicAdd, .atomicSub, .atomicMul, .atomicDiv, .atomicMod, .atomicAnd,
      .atomicOr, .atomicXor, .stringPrepend, .stringAppend] ++
    [.search, .searchDescribe, .sortedSearch, .groupDel, .count]

theorem mem_all (f : LibraryFunction) : f ∈ all := by
  cases f with
  | write f => cases f <;> decide
  | condWrite f => cases f <;> decide
  | mapWrite f => cases f <;> decide
  | condMapWrite f => cases f <;> decide
  | _ => decide

/-- A template takes exactly the arguments that its methods are defined with. -/
theorem call_isSome_iff (f : LibraryFunction) (args : List Value) :
    (f.call args).isSome ↔ args.length = f.arity := by
  rcases args with _ | ⟨x₁, _ | ⟨x₂, _ | ⟨x₃, _ | ⟨x₄, _ | ⟨x₅, _ | ⟨x₆, args⟩⟩⟩⟩⟩⟩ <;>
    cases f <;> simp [call, arity]

theorem call_kind {f : LibraryFunction} {args : List Value} {c : Call}
    (h : f.call args = some c) : c.kind = f.kind := by
  unfold call at h
  split at h
  all_goals first | exact Option.some.inj h ▸ rfl | simp at h

end LibraryFunction

/-- A method waits or gives the response object away. -/
inductive Mode where
  | async
  | blocking
  deriving DecidableEq

/-- The methods that a function has, by name. -/
def LibraryFunction.methods (f : LibraryFunction) : List (String × LibraryFunction × Mode) :=
  match f.kind with
  | .deferred => [("async_" ++ f.name, f, .async), (f.name, f, .blocking)]
  | .iterator => [(f.name, f, .async)]

/-- `rb_define_method(class_client, …)`, one by one. -/
def methods : OrderedMap String (LibraryFunction × Mode) :=
  .ofBindings (LibraryFunction.all.flatMap LibraryFunction.methods)

theorem methods_nodup :
    ((LibraryFunction.all.flatMap LibraryFunction.methods).map Prod.fst).Nodup := by
  decide +kernel

/-- No definition replaces another one. -/
theorem methods_lookup_iff (name : String) (f : LibraryFunction) (mode : Mode) :
    methods.lookup name = some (f, mode) ↔ (name, f, mode) ∈ f.methods := by
  rw [OrderedMap.lookup_eq_some_iff, methods, OrderedMap.entries_ofBindings _ methods_nodup,
    List.mem_flatMap]
  constructor
  · rintro ⟨g, -, hg⟩
    obtain rfl : f = g := by
      rw [LibraryFunction.methods] at hg
      split at hg <;> simp at hg <;> grind
    exact hg
  · intro hf
    exact ⟨f, f.mem_all, hf⟩

variable {Obj : Type} (env : Env Obj)

def wrongNumber (given expected : ℕ) : Exn :=
  .core .argumentError s!"wrong number of arguments (given {given}, expected {expected})"

/-- A call of a method of the function; the number of the arguments is tested first. -/
def sendTo (f : LibraryFunction) (mode : Mode) (args : List Value) (rounds : ℕ)
    (answer : SubmissionAnswer) (script : Script) (w : World) : Outcome Exn Result × World :=
  if h : args.length = f.arity then
    let call := (f.call args).get ((f.call_isSome_iff args).mpr h)
    match mode with
    | .async =>
      Outcome.andThen (submit env call rounds answer w) fun r w => (.returned (.response r), w)
    | .blocking =>
      Outcome.andThen (waitCall env call rounds answer script w) fun v w =>
        (.returned (.value v), w)
  else (.raised (wrongNumber args.length f.arity), w)

/-- A call of a method by its name and its arguments. -/
def send (name : String) (args : List Value) (rounds : ℕ) (answer : SubmissionAnswer)
    (script : Script) (w : World) : Outcome Exn Result × World :=
  ((methods.lookup name).map fun m => sendTo env m.1 m.2 args rounds answer script w).getD
    (.raised (noMethodError name), w)

def Result.toValue : Result → Outcome Exn Value
  | .value v => .returned v
  | _ => .undefined

section Sent
variable {env} {f : LibraryFunction} {args : List Value} {call : Call}
  (hcall : f.call args = some call) (rounds : ℕ) (answer : SubmissionAnswer) (script : Script)
  (w : World)

include hcall

theorem send_of_deferred (hkind : f.kind = .deferred) :
    send env f.name args rounds answer script w =
      Outcome.andThen (waitCall env call rounds answer script w) fun v w =>
        (.returned (.value v), w) := by
  have hlookup : methods.lookup f.name = some (f, .blocking) := by
    rw [methods_lookup_iff, LibraryFunction.methods, hkind]
    simp
  have harity := (f.call_isSome_iff args).mp (by rw [hcall, Option.isSome_some])
  rw [send, hlookup, Option.map_some, Option.getD_some]
  simp only [sendTo, dif_pos harity, hcall, Option.get_some]

theorem send_of_iterator (hkind : f.kind = .iterator) :
    send env f.name args rounds answer script w =
      Outcome.andThen (submit env call rounds answer w) fun r w =>
        (.returned (.response r), w) := by
  have hlookup : methods.lookup f.name = some (f, .async) := by
    rw [methods_lookup_iff, LibraryFunction.methods, hkind]
    simp
  have harity := (f.call_isSome_iff args).mp (by rw [hcall, Option.isSome_some])
  rw [send, hlookup, Option.map_some, Option.getD_some]
  simp only [sendTo, dif_pos harity, hcall, Option.get_some]

end Sent

variable {env} {w : World}

/-- A call by name is a sequence of calls of the runs. -/
theorem send_run (hcrashed : w.crashed = false) (name : String) (args : List Value) (rounds : ℕ)
    (answer : SubmissionAnswer) (script : Script) :
    ∃ as, (send env name args rounds answer script w).2 = Machine.run (step env) w as := by
  rw [send]
  cases hname : methods.lookup name with
  | none => exact ⟨[], rfl⟩
  | some m =>
    rcases m with ⟨f, mode⟩
    have hmem := (methods_lookup_iff name f mode).mp hname
    rw [Option.map_some, Option.getD_some, sendTo]
    split
    · next harity =>
      rcases Option.isSome_iff_exists.mp ((f.call_isSome_iff args).mpr harity) with ⟨call, hcall⟩
      simp only [hcall, Option.get_some]
      cases mode with
      | async => exact ⟨[.submit call rounds answer], by simp [step, perform, hcrashed, act]⟩
      | blocking =>
        have hkind : call.kind = .deferred := by
          rw [LibraryFunction.call_kind hcall]
          rw [LibraryFunction.methods] at hmem
          split at hmem
          · assumption
          · simp at hmem
        exact Outcome.andThen_state (I := fun s => ∃ as, s = Machine.run (step env) w as)
          (waitCall_run hcrashed hkind rounds answer script) fun _ _ h => h
    · exact ⟨[], rfl⟩

end HyperDex.Client
