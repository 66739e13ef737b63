import HyperDex.Conversion.MapAttributes
import HyperDex.Conversion.Predicates

/-!
# Calls of the client library

The extension has one template for each shape of a library function: it
converts the Ruby arguments in order, hands over the cells of a fresh response
object and marks the outputs that the function has besides its status.
-/
namespace HyperDex.Client
open General Ruby Conversion

inductive Kind where
  | deferred
  | iterator
  deriving DecidableEq, Repr

inductive Outputs where
  | status
  | attributes
  | description
  | count
  deriving DecidableEq, Repr

/-- A call of one of the thirteen templates, with its Ruby arguments. -/
inductive Call where
  | spacenameKeyStatusAttributes (spacename key : Value)
  | spacenameKeyAttributenamesStatusAttributes (spacename key attributenames : Value)
  | spacenameKeyAttributesStatus (spacename key attributes : Value)
  | spacenameKeyPredicatesAttributesStatus (spacename key predicates attributes : Value)
  | spacenameKeyStatus (spacename key : Value)
  | spacenameKeyPredicatesStatus (spacename key predicates : Value)
  | spacenameKeyMapattributesStatus (spacename key mapattributes : Value)
  | spacenameKeyPredicatesMapattributesStatus (spacename key predicates mapattributes : Value)
  | iteratorSpacenamePredicatesStatusAttributes (spacename predicates : Value)
  | spacenamePredicatesStatusDescription (spacename predicates : Value)
  | iteratorSpacenamePredicatesSortbyLimitMaxminStatusAttributes
      (spacename predicates sortby limit maxmin : Value)
  | spacenamePredicatesStatus (spacename predicates : Value)
  | spacenamePredicatesStatusCount (spacename predicates : Value)

/-- The class that the template instantiates. -/
def Call.kind : Call → Kind
  | .iteratorSpacenamePredicatesStatusAttributes .. => .iterator
  | .iteratorSpacenamePredicatesSortbyLimitMaxminStatusAttributes .. => .iterator
  | _ => .deferred

/-- The instance variable that the template sets, besides `@status`. -/
def Call.outputs : Call → Outputs
  | .spacenameKeyStatusAttributes .. => .attributes
  | .spacenameKeyAttributenamesStatusAttributes .. => .attributes
  | .iteratorSpacenamePredicatesStatusAttributes .. => .attributes
  | .spacenamePredicatesStatusDescription .. => .description
  | .iteratorSpacenamePredicatesSortbyLimitMaxminStatusAttributes .. => .attributes
  | .spacenamePredicatesStatusCount .. => .count
  | _ => .status

theorem Call.outputs_of_iterator (call : Call) (h : call.kind = .iterator) :
    call.outputs = .attributes := by
  cases call <;> first | rfl | exact nomatch h

inductive Argument where
  | space (name : Bytes)
  | key (value : Buffer)
  | attrnames (names : List Bytes)
  | attrs (attrs : List Attribute)
  | checks (size : ℕ) (slots : List (ℕ × AttributeCheck))
  | mapattrs (mapattrs : MapAttributes)
  | sortBy (name : Bytes)
  | limit (n : UInt64)
  | maxmin (n : ℕ)

variable {Obj : Type} (ds : DataStructures Obj)

def spaceArgument (x : Value) : Conv Argument := do
  let space ← convertSpacename x
  return .space space

def keyArgument (x : Value) : Conv Argument := do
  let key ← convertKey ds x
  return .key key

def attrnamesArgument (x : Value) : Conv Argument := do
  let names ← convertAttributenames ds x
  return .attrnames names

def attrsArgument (x : Value) : Conv Argument := do
  let attrs ← convertAttributes ds x
  return .attrs attrs

def checksArgument (x : Value) : Conv Argument := do
  let checks ← convertPredicates ds x
  return .checks checks.1 checks.2

def mapattrsArgument (rounds : ℕ) (x : Value) : Conv Argument := do
  let mapattrs ← convertMapattributes ds rounds x
  return .mapattrs mapattrs

def sortByArgument (x : Value) : Conv Argument := do
  let sortBy ← convertSortby x
  return .sortBy sortBy

def limitArgument (x : Value) : Conv Argument := do
  let limit ← convertLimit x
  return .limit limit

/-- The conversions of a call, in the order of its template. -/
def Call.conversions (rounds : ℕ) : Call → List (Conv Argument)
  | .spacenameKeyStatusAttributes spacename key => [spaceArgument spacename, keyArgument ds key]
  | .spacenameKeyAttributenamesStatusAttributes spacename key attributenames =>
    [spaceArgument spacename, keyArgument ds key, attrnamesArgument ds attributenames]
  | .spacenameKeyAttributesStatus spacename key attributes =>
    [spaceArgument spacename, keyArgument ds key, attrsArgument ds attributes]
  | .spacenameKeyPredicatesAttributesStatus spacename key predicates attributes =>
    [spaceArgument spacename, keyArgument ds key, checksArgument ds predicates,
      attrsArgument ds attributes]
  | .spacenameKeyStatus spacename key => [spaceArgument spacename, keyArgument ds key]
  | .spacenameKeyPredicatesStatus spacename key predicates =>
    [spaceArgument spacename, keyArgument ds key, checksArgument ds predicates]
  | .spacenameKeyMapattributesStatus spacename key mapattributes =>
    [spaceArgument spacename, keyArgument ds key, mapattrsArgument ds rounds mapattributes]
  | .spacenameKeyPredicatesMapattributesStatus spacename key predicates mapattributes =>
    [spaceArgument spacename, keyArgument ds key, checksArgument ds predicates,
      mapattrsArgument ds rounds mapattributes]
  | .iteratorSpacenamePredicatesStatusAttributes spacename predicates =>
    [spaceArgument spacename, checksArgument ds predicates]
  | .spacenamePredicatesStatusDescription spacename predicates =>
    [spaceArgument spacename, checksArgument ds predicates]
  | .iteratorSpacenamePredicatesSortbyLimitMaxminStatusAttributes spacename predicates sortby limit
      maxmin =>
    [spaceArgument spacename, checksArgument ds predicates, sortByArgument sortby,
      limitArgument limit, .returned (.maxmin (convertMaxmin maxmin))]
  | .spacenamePredicatesStatus spacename predicates =>
    [spaceArgument spacename, checksArgument ds predicates]
  | .spacenamePredicatesStatusCount spacename predicates =>
    [spaceArgument spacename, checksArgument ds predicates]

/-- The conversion phase of a call, with so many rounds for the inner loops of map attributes. -/
def Call.convert (rounds : ℕ) (call : Call) : Conv (List Argument) :=
  (call.conversions ds rounds).mapM id

end HyperDex.Client
