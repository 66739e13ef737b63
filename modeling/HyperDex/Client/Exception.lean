import HyperDex.General.OrderedMap

/-!
# Exceptions of the client module

Return codes of the client library, the exception classes that declare them and
the table that maps a code back to a class. A class is a Ruby object of its own:
its instance variables belong to the class object, and its class is `Class`.
-/
namespace HyperDex.Client
open General

/-- `hyperdex_client_returncode`, with the codes the enumeration does not name. -/
inductive ReturnCode where
  | success | notfound | searchdone | cmpfail | readonly
  | unknownspace | coordfail | servererror | pollfailed | overflow
  | reconfigure | timeout | unknownattr | dupeattr | nonepending | dontusekey
  | wrongtype | nomem | interrupted | clusterJump | offline
  | internal | exception | garbage
  | other (code : Int)
  deriving DecidableEq, Repr

/-- A class object: its name, its own `@status` and the names of its ancestors. -/
structure ClassObject where
  name : String
  status : Option ReturnCode
  ancestors : List String
  deriving DecidableEq, Repr

/-- The class of every class object. -/
def classClass : ClassObject := ⟨"Class", none, ["Class", "Module", "Object", "BasicObject"]⟩

def ClassObject.classOf (_ : ClassObject) : ClassObject := classClass

/-- `Exception.status` of a class: `self.class.instance_variable_get(:@status)`. -/
def ClassObject.classStatus (c : ClassObject) : Option ReturnCode := c.classOf.status

def exceptionName : String := "HyperDex::Client::Exception"

def baseAncestors : List String := ["StandardError", "Exception", "Object", "BasicObject"]

def exceptionClass : ClassObject := ⟨exceptionName, some .exception, exceptionName :: baseAncestors⟩

/-- `class name < Exception; @status = code; end` -/
def subclass (name : String) (code : ReturnCode) : ClassObject :=
  ⟨"HyperDex::Client::" ++ name, some code,
    ("HyperDex::Client::" ++ name) :: exceptionName :: baseAncestors⟩

def unknownSpaceError := subclass "UnknownSpaceError" .unknownspace
def coordFailError := subclass "CoordFailError" .coordfail
def serverErrorClass := subclass "ServerError" .servererror
def pollFailedError := subclass "PollFailedError" .pollfailed
def overflowError := subclass "OverflowError" .overflow
def reconfigureError := subclass "ReconfigureError" .reconfigure
def timeoutError := subclass "TimeoutError" .timeout
def unknownAttrError := subclass "UnknownAttrError" .unknownattr
def dupeAttrError := subclass "DupeAttrError" .dupeattr
def nonePendingError := subclass "NonePendingError" .nonepending
def dontUseKeyError := subclass "DontUseKeyError" .dontusekey
def wrongTypeError := subclass "WrongTypeError" .wrongtype
def noMemError := subclass "NoMemError" .nomem
def interruptedError := subclass "InterruptedError" .interrupted
def clusterJumpError := subclass "ClusterJumpError" .clusterJump
def offlineError := subclass "OfflineError" .offline
def internalError := subclass "InternalError" .internal
def garbageError := subclass "GarbageError" .garbage

def declaredClasses : List ClassObject :=
  [exceptionClass, unknownSpaceError, coordFailError, serverErrorClass, pollFailedError,
    overflowError, reconfigureError, timeoutError, unknownAttrError, dupeAttrError,
    nonePendingError, dontUseKeyError, wrongTypeError, noMemError, interruptedError,
    clusterJumpError, offlineError, internalError, garbageError]

/-- Exception classes of Ruby and of its FFI that the modelled paths raise. -/
inductive CoreClass where
  | typeError | rangeError | argumentError | noMemoryError | noMethodError | nameError
  deriving DecidableEq, Repr

/-- An exception object. An instance of a client class has no state but its message. -/
inductive Exn where
  | core (cls : CoreClass) (message : String)
  | client (cls : ClassObject) (message : String)
  deriving DecidableEq, Repr

/-- `exception.status`, where the class of the object answers to it. -/
def Exn.status : Exn → Option ReturnCode
  | .core _ _ => none
  | .client cls _ => cls.classStatus

def Exn.message : Exn → String
  | .core _ message => message
  | .client _ message => message

/-- `raise HyperDex::Client::ServerError, message` -/
def serverError (message : String) : Exn := .client serverErrorClass message

/-- `EXCEPTION_STATUS_MAP`, for the order in which `ObjectSpace` enumerates the classes. -/
def exceptionStatusMap (objectSpace : List ClassObject) :
    OrderedMap (Option ReturnCode) ClassObject :=
  objectSpace.foldl
    (fun h ex => if exceptionName ∈ ex.ancestors then h.insert ex.classStatus ex else h)
    .empty

/-- `HyperDex::Client.exception(status, message)` -/
def exception (objectSpace : List ClassObject) (status : ReturnCode) (message : String) : Exn :=
  match (exceptionStatusMap objectSpace).lookup (some status) with
  | none => .client exceptionClass message
  | some klass => .client klass message

@[simp] theorem classStatus_eq_none (c : ClassObject) : c.classStatus = none := rfl

theorem status_eq_none (e : Exn) : e.status = none := by
  cases e <;> rfl

/-- All classes of the table are bound to the one key `nil`. -/
theorem exceptionStatusMap_lookup (objectSpace : List ClassObject) (status : ReturnCode) :
    (exceptionStatusMap objectSpace).lookup (some status) = none := by
  have hfold (m : OrderedMap (Option ReturnCode) ClassObject) (hm : m.lookup (some status) = none) :
      (objectSpace.foldl (fun h ex =>
        if exceptionName ∈ ex.ancestors then h.insert ex.classStatus ex else h) m).lookup
          (some status) = none := by
    induction objectSpace generalizing m with
    | nil => exact hm
    | cons ex rest ih =>
      apply ih
      by_cases hex : exceptionName ∈ ex.ancestors
      · simpa [hex] using hm
      · simpa [hex] using hm
  exact hfold .empty rfl

/-- Whatever the code, the base class is instantiated. -/
theorem exception_eq (objectSpace : List ClassObject) (status : ReturnCode) (message : String) :
    exception objectSpace status message = .client exceptionClass message := by
  rw [exception, exceptionStatusMap_lookup]

/-- A class of the family that declares the status. -/
structure Declares (objectSpace : List ClassObject) (c : ClassObject) (status : ReturnCode) :
    Prop where
  mem : c ∈ objectSpace
  descends : exceptionName ∈ c.ancestors
  declares : c.status = some status

/-- Each class of the family declares a status of its own. -/
structure Family (objectSpace : List ClassObject) : Prop where
  base : exceptionClass ∈ objectSpace
  declared : ∀ c ∈ objectSpace, exceptionName ∈ c.ancestors → c.status ≠ none
  distinct : ∀ c d status, Declares objectSpace c status → Declares objectSpace d status → c = d

/-- A status is mapped to the class that declares it, whose instances answer with it, and to the
base class where no class declares it. -/
structure StatusLaw (objectSpace : List ClassObject) (status : ReturnCode) (message : String) :
    Prop where
  declared : ∀ c, Declares objectSpace c status →
    exception objectSpace status message = .client c message ∧
      (exception objectSpace status message).status = some status
  undeclared : (∀ c, ¬ Declares objectSpace c status) →
    exception objectSpace status message = .client exceptionClass message

/-- The law holds of the statuses that no class declares, and of no other. -/
theorem statusLaw_iff (objectSpace : List ClassObject) (status : ReturnCode) (message : String) :
    StatusLaw objectSpace status message ↔ ∀ c, ¬ Declares objectSpace c status := by
  constructor
  · intro hlaw c hc
    have hstatus := (hlaw.declared c hc).2
    rw [status_eq_none] at hstatus
    cases hstatus
  · intro hnone
    exact ⟨fun c hc => absurd hc (hnone c), fun _ => exception_eq objectSpace status message⟩

/-- The classes of the module are a family, but a code that one of them declares is raised as the
base class, without a status. -/
theorem unknownspace_raises_base : Family declaredClasses ∧
    Declares declaredClasses unknownSpaceError .unknownspace ∧
    exception declaredClasses .unknownspace "no such space" =
      .client exceptionClass "no such space" ∧
    (exception declaredClasses .unknownspace "no such space").status = none ∧
    ¬ StatusLaw declaredClasses .unknownspace "no such space" := by
  have hdeclares : Declares declaredClasses unknownSpaceError .unknownspace :=
    ⟨by decide, by decide, rfl⟩
  have hdistinct : ∀ c ∈ declaredClasses, ∀ d ∈ declaredClasses, c.status = d.status → c = d := by
    decide
  refine ⟨⟨by decide, by decide, fun c d status hc hd => ?_⟩, hdeclares,
    exception_eq _ _ _, status_eq_none _, fun hlaw => ?_⟩
  · exact hdistinct c hc.mem d hd.mem (hc.declares.trans hd.declares.symm)
  · have hstatus := (hlaw.declared _ hdeclares).2
    rw [status_eq_none] at hstatus
    cases hstatus

end HyperDex.Client
