import HyperDex.Conversion.Convert

/-!
# Predicates

A predicate object is a zeroed struct with one check or two, which the
`initialize` of its class fills. In a conversion a sizing pass counts the checks
of every value of the hash; a second pass writes them through an index that the
recursive conversion threads along.
-/
namespace HyperDex.Conversion
open General Ruby

/-- The `checks` of a predicate struct. -/
abbrev PredicateChecks := List (Hyperpredicate × Value)

/-- `memset(pred, 0, sz)`: the code zero, which is no predicate, and `Qfalse`. -/
def zeroedChecks (numChecks : ℕ) : PredicateChecks :=
  List.replicate numChecks (.other 0, .false)

def predicateAlloc1 : PredicateChecks := zeroedChecks 1

def predicateAlloc2 : PredicateChecks := zeroedChecks 2

/-- `pred->checks[i].v = v; pred->checks[i].predicate = predicate;` -/
def initCheck (i : ℕ) (predicate : Hyperpredicate) (pred : PredicateChecks) (v : Value) :
    PredicateChecks :=
  pred.set i (predicate, v)

/-- `Predicate#initialize` ignores its argument. -/
def predicateInit (pred : PredicateChecks) : PredicateChecks := initCheck 0 .fail pred .nil

def predicateEqualsInit := initCheck 0 .equals
def predicateLessequalInit := initCheck 0 .lessEqual
def predicateGreaterequalInit := initCheck 0 .greaterEqual
def predicateLessthanInit := initCheck 0 .lessThan
def predicateGreaterthanInit := initCheck 0 .greaterThan

def predicateRangeInit (pred : PredicateChecks) (lower upper : Value) : PredicateChecks :=
  initCheck 1 .lessEqual (initCheck 0 .greaterEqual pred lower) upper

def predicateRegexInit := initCheck 0 .regex
def predicateLengthequalsInit := initCheck 0 .lengthEquals
def predicateLengthlessequalInit := initCheck 0 .lengthLessEqual
def predicateLengthgreaterequalInit := initCheck 0 .lengthGreaterEqual
def predicateContainsInit := initCheck 0 .contains

/-- A predicate as Ruby code makes it: one of the classes with the arguments of `new`. -/
inductive Predicate where
  | predicate (v : Value)
  | equals (v : Value)
  | lessEqual (v : Value)
  | greaterEqual (v : Value)
  | lessThan (v : Value)
  | greaterThan (v : Value)
  | range (lower upper : Value)
  | regex (v : Value)
  | lengthEquals (v : Value)
  | lengthLessEqual (v : Value)
  | lengthGreaterEqual (v : Value)
  | contains (v : Value)

/-- The allocation and the initialisation that `Init_hyperdex_client` defines for the class. -/
def Predicate.checks : Predicate → PredicateChecks
  | .predicate _ => predicateInit predicateAlloc1
  | .equals v => predicateEqualsInit predicateAlloc1 v
  | .lessEqual v => predicateLessequalInit predicateAlloc1 v
  | .greaterEqual v => predicateGreaterequalInit predicateAlloc1 v
  | .lessThan v => predicateLessthanInit predicateAlloc1 v
  | .greaterThan v => predicateGreaterthanInit predicateAlloc1 v
  | .range lower upper => predicateRangeInit predicateAlloc2 lower upper
  | .regex v => predicateRegexInit predicateAlloc1 v
  | .lengthEquals v => predicateLengthequalsInit predicateAlloc1 v
  | .lengthLessEqual v => predicateLengthlessequalInit predicateAlloc1 v
  | .lengthGreaterEqual v => predicateLengthgreaterequalInit predicateAlloc1 v
  | .contains v => predicateContainsInit predicateAlloc1 v

def Predicate.toValue (p : Predicate) : Value := .predicate p.checks

/-- `hyperdex_client_attribute_check` -/
structure AttributeCheck where
  attr : Bytes
  predicate : Hyperpredicate
  value : Packed

structure Checks where
  checksIdx : ℕ
  slots : List (ℕ × AttributeCheck)

/-- `rb_obj_is_kind_of(x, class_predicate) == Qtrue` -/
def isPredicate : Value → Bool
  | .predicate _ => true
  | _ => false

/-- The number of checks of an element of an array that starts with a predicate. -/
def numChecks : Value → Conv ℕ
  | .predicate checks => .returned checks.length
  | _ => .raised (typeError "Cannot convert predicate to a HyperDex type")

def estimatePredicateSize (x : Value) : Conv ℕ :=
  match x with
  | .predicate checks => .returned checks.length
  | .array (first :: _) =>
    if isPredicate first then
      forEntries x (fun sum pred => do
        let n ← numChecks pred
        return sum + n) 0
    else .returned 1
  | _ => .returned 1

variable {Obj : Type} (ds : DataStructures Obj)

def convertCheck (attr : Bytes) (s : Checks) (check : Hyperpredicate × Value) : Conv Checks := do
  let value ← convertType ds check.2
  return ⟨s.checksIdx + 1, s.slots ++ [(s.checksIdx, ⟨attr, check.1, value⟩)]⟩

/-- The checks of a predicate object; another value fails the asserts before the call. -/
def convertPredicateObject (attr : Bytes) (x : Value) (s : Checks) : Conv Checks :=
  match x with
  | .predicate checks => checks.foldlM (convertCheck ds attr) s
  | _ => .undefined

def convertPredicate (attr : Bytes) (x : Value) (s : Checks) : Conv Checks :=
  match x with
  | .predicate _ => convertPredicateObject ds attr x s
  | .array (first :: _) =>
    if isPredicate first then
      forEntries x (fun s pred => convertPredicateObject ds attr pred s) s
    else convertCheck ds attr s (.equals, x)
  | _ => convertCheck ds attr s (.equals, x)

def convertPredicates (x : Value) : Conv (ℕ × List (ℕ × AttributeCheck)) :=
  match x with
  | .hash _ => do
    let hashPairs ← toA x
    let checksSz ← forEntries hashPairs (fun checksSz hashPair => do
      let val ← rbAryEntry hashPair 1
      let n ← estimatePredicateSize val
      return checksSz + n) 0
    if ds.allocateAttributeCheck checksSz then do
      let s ← forEntries hashPairs (fun s hashPair => do
        let key ← rbAryEntry hashPair 0
        let val ← rbAryEntry hashPair 1
        let attr ← convertCstring key "Attribute name must be a string or symbol"
        convertPredicate ds attr val s) ⟨0, []⟩
      return (checksSz, s.slots)
    else .raised outOfMemory
  | _ => .raised (typeError "Predicates must be specified as a hash")

end HyperDex.Conversion
