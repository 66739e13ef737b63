import HyperDex.Ruby.Value

/-!
# One request of the admin client

A request is submitted, one call of `hyperdex_admin_loop` follows, and the
operation behind it ends with a code of its own. The three stages write to two
return-code cells: the one passed at submission and the one of the loop call.
-/
namespace HyperDex.Admin
open Ruby

/-- `hyperdex_admin_returncode`, with the codes the enumeration does not name. -/
inductive ReturnCode where
  | success
  | nomem | nonepending | pollfailed | timeout | interrupted | servererror
  | coordfail | badspace | duplicate | notfound | localerror
  | internal | exception | garbage
  | other (code : Int)
  deriving DecidableEq, Repr

/-- The numbers and the names that the library gives to the codes. -/
structure ReturnCodes where
  number : ReturnCode → Int
  toString : ReturnCode → String

/-- `HyperDex::Admin::Exception` -/
structure Exception where
  status : ReturnCode
  detail : String
  message : String
  deriving DecidableEq, Repr

/-- `Exception#initialize` -/
def Exception.new (codes : ReturnCodes) (rc : ReturnCode) (detail : String) : Exception :=
  ⟨rc, detail, codes.toString rc ++ " (" ++ toString (codes.number rc) ++ "): " ++ detail⟩

inductive Exn where
  | admin (e : Exception)
  | nameError (message : String)
  | nullPointerError (message : String)
  deriving DecidableEq, Repr

/-- `HyperDex::Admin::EXCEPTION`: no code of the enumeration is made a constant of the module. -/
def exceptionConstant : Except Exn ReturnCode :=
  .error (.nameError "uninitialized constant HyperDex::Admin::EXCEPTION")

/-- A request, with the bytes of its argument after `to_s`. -/
inductive Request where
  | listSpaces
  | addSpace (definition : Bytes)
  | rmSpace (name : Bytes)
  deriving DecidableEq, Repr

/-- What the library does for one request: the result of the submission with the code it
writes on failure, the result of the loop call with the code in the cell of that call, and the
final code and the listing it stores in the cells of the request that the loop call completes. -/
structure Answers where
  reqid : Int
  submissionCode : ReturnCode
  loopId : Int
  loopCode : ReturnCode
  finalCode : ReturnCode
  listing : Option Bytes
  listing_of_success : finalCode = .success → listing.isSome

inductive Result where
  | nil
  | symbols (names : List Bytes)
  deriving DecidableEq, Repr

/-- A call of the library, with the identifier that it returns. -/
inductive LibraryCall where
  | submission (reqid : Int)
  | loop (id : Int)
  deriving DecidableEq, Repr

/-- What a method comes to, and the calls of the library that it has made. -/
structure Performed (α : Type) where
  outcome : Except Exn α
  made : List LibraryCall

instance : Monad Performed where
  pure a := ⟨.ok a, []⟩
  bind x f :=
    match x.outcome with
    | .error e => ⟨.error e, x.made⟩
    | .ok a => ⟨(f a).outcome, x.made ++ (f a).made⟩

namespace Performed
variable {α β : Type}

def ofExcept (x : Except Exn α) : Performed α := ⟨x, []⟩

def raise (e : Exn) : Performed α := ofExcept (.error e)

theorem bind_of_ok {x : Performed α} {a : α} (h : x.outcome = .ok a) (f : α → Performed β) :
    x >>= f = ⟨(f a).outcome, x.made ++ (f a).made⟩ := by
  simp only [bind, h]

theorem bind_of_error {x : Performed α} {e : Exn} (h : x.outcome = .error e)
    (f : α → Performed β) : x >>= f = ⟨.error e, x.made⟩ := by
  simp only [bind, h]

end Performed

def submission (a : Answers) : Performed Int := ⟨.ok a.reqid, [.submission a.reqid]⟩

/-- `hyperdex_admin_loop` -/
def loop (a : Answers) : Performed Int := ⟨.ok a.loopId, [.loop a.loopId]⟩

variable (codes : ReturnCodes)

def waitForResponse (a : Answers) (reqid : Int) : Performed Result := do
  let ri ← loop a
  if ri ≠ reqid then do
    let status ← Performed.ofExcept exceptionConstant
    .raise (.admin (Exception.new codes status
      ("CAN'T HAPPEN: hyperdex_admin_loop() returned an unknown reqid (expected " ++
        toString reqid ++ ", got " ++ toString ri ++ ")")))
  else if ri < 0 then
    .raise (.admin (Exception.new codes a.loopCode "hyperdex_admin_loop failed"))
  else return .nil

def makeRequest (a : Answers) (f : String) : Performed Result := do
  let reqid ← submission a
  if reqid < 0 then
    .raise (.admin (Exception.new codes a.submissionCode ("hyperdex_admin_" ++ f ++ " failed")))
  else waitForResponse codes a reqid

/-- `String#split("\n")`, without the empty strings at the end. -/
def splitLines (b : Bytes) : List Bytes :=
  ((b.splitOn 10).reverse.dropWhile (· = [])).reverse

def listSpaces (a : Answers) : Performed Result := do
  let _ ← makeRequest codes a "list_spaces"
  match a.listing with
  | none => .raise (.nullPointerError "invalid memory read at address=0x0000000000000000")
  | some text => return .symbols (splitLines (cString text))

def addSpace (a : Answers) : Performed Result := makeRequest codes a "add_space"

def rmSpace (a : Answers) : Performed Result := makeRequest codes a "rm_space"

def perform (request : Request) (a : Answers) : Performed Result :=
  match request with
  | .listSpaces => listSpaces codes a
  | .addSpace _ => addSpace codes a
  | .rmSpace _ => rmSpace codes a

def call (request : Request) (a : Answers) : Except Exn Result :=
  (perform codes request a).outcome

theorem makeRequest_of_rejected {a : Answers} (h : a.reqid < 0) (f : String) :
    makeRequest codes a f =
      ⟨.error (.admin (Exception.new codes a.submissionCode ("hyperdex_admin_" ++ f ++ " failed"))),
        [.submission a.reqid]⟩ := by
  have hsubmitted : (submission a).outcome = .ok a.reqid := rfl
  rw [makeRequest, Performed.bind_of_ok hsubmitted, if_pos h]
  rfl

theorem makeRequest_of_accepted {a : Answers} (h : 0 ≤ a.reqid) (f : String) :
    makeRequest codes a f =
      ⟨(waitForResponse codes a a.reqid).outcome, [.submission a.reqid, .loop a.loopId]⟩ := by
  have hsubmitted : (submission a).outcome = .ok a.reqid := rfl
  have hlooped : (loop a).outcome = .ok a.loopId := rfl
  have hmade : (waitForResponse codes a a.reqid).made = [.loop a.loopId] := by
    rw [waitForResponse, Performed.bind_of_ok hlooped]
    split
    · rfl
    · split <;> rfl
  rw [makeRequest, Performed.bind_of_ok hsubmitted, if_neg (Int.not_lt.mpr h), hmade]
  rfl

theorem waitForResponse_of_other {a : Answers} {reqid : Int} (h : a.loopId ≠ reqid) :
    (waitForResponse codes a reqid).outcome =
      .error (.nameError "uninitialized constant HyperDex::Admin::EXCEPTION") := by
  have hlooped : (loop a).outcome = .ok a.loopId := rfl
  rw [waitForResponse, Performed.bind_of_ok hlooped, if_pos h]
  rfl

theorem waitForResponse_of_own {a : Answers} {reqid : Int} (h : a.loopId = reqid)
    (hpos : 0 ≤ reqid) : (waitForResponse codes a reqid).outcome = .ok .nil := by
  have hlooped : (loop a).outcome = .ok a.loopId := rfl
  rw [waitForResponse, Performed.bind_of_ok hlooped, if_neg (not_not.mpr h),
    if_neg (Int.not_lt.mpr (h ▸ hpos))]
  rfl

theorem makeRequest_ok_iff (a : Answers) (f : String) (r : Result) :
    (makeRequest codes a f).outcome = .ok r ↔
      (0 ≤ a.reqid ∧ a.loopId = a.reqid) ∧ r = .nil := by
  by_cases hsubmitted : a.reqid < 0
  · simp [makeRequest_of_rejected codes hsubmitted, Int.not_le.mpr hsubmitted]
  · have hpos := Int.not_lt.mp hsubmitted
    rw [makeRequest_of_accepted codes hpos]
    by_cases hid : a.loopId = a.reqid
    · simp [waitForResponse_of_own codes hid hpos, hpos, hid, eq_comm]
    · simp [waitForResponse_of_other codes hid, hid]

/-- A request makes one submission and, when it is accepted, one loop call. -/
theorem perform_made (request : Request) (a : Answers) : (perform codes request a).made =
    if a.reqid < 0 then [.submission a.reqid] else [.submission a.reqid, .loop a.loopId] := by
  have hmake (f : String) : (makeRequest codes a f).made =
      if a.reqid < 0 then [.submission a.reqid] else [.submission a.reqid, .loop a.loopId] := by
    split
    · next hreqid => rw [makeRequest_of_rejected codes hreqid]
    · next hreqid => rw [makeRequest_of_accepted codes (Int.not_lt.mp hreqid)]
  cases request with
  | listSpaces =>
    rw [← hmake "list_spaces", perform, listSpaces]
    cases hmade : (makeRequest codes a "list_spaces").outcome with
    | error e => rw [Performed.bind_of_error hmade]
    | ok r =>
      rw [Performed.bind_of_ok hmade]
      cases a.listing <;> exact List.append_nil _
  | addSpace definition => exact hmake _
  | rmSpace name => exact hmake _

/-- The final code of the operation has no part in the answer, but for the listing. -/
theorem call_ok_iff (request : Request) (a : Answers) :
    (∃ r, call codes request a = .ok r) ↔
      (0 ≤ a.reqid ∧ a.loopId = a.reqid) ∧ (request = .listSpaces → a.listing.isSome) := by
  cases request with
  | listSpaces =>
    simp only [call, perform, listSpaces, forall_const]
    cases hmake : (makeRequest codes a "list_spaces").outcome with
    | error e =>
      have hnot : ¬ (0 ≤ a.reqid ∧ a.loopId = a.reqid) := by
        intro h
        have hok := (makeRequest_ok_iff codes a "list_spaces" .nil).mpr ⟨h, rfl⟩
        simp [hmake] at hok
      simp [Performed.bind_of_error hmake, hnot]
    | ok r =>
      have hcompleted := ((makeRequest_ok_iff codes a _ r).mp hmake).1
      rw [Performed.bind_of_ok hmake]
      cases a.listing with
      | none => simp [Performed.raise, Performed.ofExcept]
      | some text => exact iff_of_true ⟨_, rfl⟩ ⟨hcompleted, rfl⟩
  | addSpace definition => simp [call, perform, addSpace, makeRequest_ok_iff]
  | rmSpace name => simp [call, perform, rmSpace, makeRequest_ok_iff]

/-- The function of the library behind a request. -/
def Request.function : Request → String
  | .listSpaces => "list_spaces"
  | .addSpace _ => "add_space"
  | .rmSpace _ => "rm_space"

theorem call_of_error {request : Request} {a : Answers} {e : Exn}
    (h : (makeRequest codes a request.function).outcome = .error e) :
    call codes request a = .error e := by
  cases request with
  | listSpaces =>
    rw [Request.function] at h
    rw [call, perform, listSpaces, Performed.bind_of_error h]
  | addSpace definition => exact h
  | rmSpace name => exact h

theorem call_of_rejected (request : Request) (a : Answers) (h : a.reqid < 0) :
    ∃ e, call codes request a = .error (.admin e) ∧ e.status = a.submissionCode :=
  ⟨_, call_of_error codes (congrArg Performed.outcome (makeRequest_of_rejected codes h _)), rfl⟩

/-- Any other result of the loop call ends in the constant that does not exist. -/
theorem call_of_other_id (request : Request) (a : Answers) (hreqid : 0 ≤ a.reqid)
    (hid : a.loopId ≠ a.reqid) : ∃ message, call codes request a = .error (.nameError message) := by
  refine ⟨"uninitialized constant HyperDex::Admin::EXCEPTION", call_of_error codes ?_⟩
  rw [makeRequest_of_accepted codes hreqid]
  exact waitForResponse_of_other codes hid

theorem call_of_completed (request : Request) (a : Answers) (hreqid : 0 ≤ a.reqid)
    (hid : a.loopId = a.reqid) (e : Exception) : call codes request a ≠ .error (.admin e) := by
  have hmake (f : String) : (makeRequest codes a f).outcome = .ok .nil :=
    (makeRequest_ok_iff codes a f .nil).mpr ⟨⟨hreqid, hid⟩, rfl⟩
  cases request with
  | listSpaces =>
    rw [call, perform, listSpaces, Performed.bind_of_ok (hmake _)]
    cases a.listing <;> simp [Performed.raise, Performed.ofExcept, pure]
  | addSpace definition => simp [call, perform, addSpace, hmake]
  | rmSpace name => simp [call, perform, rmSpace, hmake]

/-- A call returns exactly after three successful stages, and otherwise raises the exception
of the module with the code of the stage that failed. -/
structure RequestLaw (request : Request) (a : Answers) : Prop where
  returns_iff : (∃ r, call codes request a = .ok r) ↔
    0 ≤ a.reqid ∧ a.loopId = a.reqid ∧ a.finalCode = .success
  submission : a.reqid < 0 →
    ∃ e, call codes request a = .error (.admin e) ∧ e.status = a.submissionCode
  loop : 0 ≤ a.reqid → a.loopId < 0 →
    ∃ e, call codes request a = .error (.admin e) ∧ e.status = a.loopCode
  other : 0 ≤ a.reqid → 0 ≤ a.loopId → a.loopId ≠ a.reqid →
    ∃ e, call codes request a = .error (.admin e)
  operation : 0 ≤ a.reqid → a.loopId = a.reqid → a.finalCode ≠ .success →
    ∃ e, call codes request a = .error (.admin e) ∧ e.status = a.finalCode

/-- The law holds only where the submission is rejected or nothing fails behind it. -/
theorem requestLaw_iff (request : Request) (a : Answers) :
    RequestLaw codes request a ↔
      a.reqid < 0 ∨ (a.loopId = a.reqid ∧ a.finalCode = .success) := by
  constructor
  · intro hlaw
    by_cases hreqid : a.reqid < 0
    · exact Or.inl hreqid
    have hpos : 0 ≤ a.reqid := by omega
    by_cases hid : a.loopId = a.reqid
    · refine Or.inr ⟨hid, Classical.byContradiction fun hfinal => ?_⟩
      rcases hlaw.operation hpos hid hfinal with ⟨e, he, -⟩
      exact call_of_completed codes request a hpos hid e he
    · rcases call_of_other_id codes request a hpos hid with ⟨message, hname⟩
      by_cases hloop : a.loopId < 0
      · rcases hlaw.loop hpos hloop with ⟨e, he, -⟩
        simp [hname] at he
      · rcases hlaw.other hpos (by omega) hid with ⟨e, he⟩
        simp [hname] at he
  · rintro (hreqid | ⟨hid, hfinal⟩)
    · refine ⟨?_, fun _ => call_of_rejected codes request a hreqid, ?_, ?_, ?_⟩
      · rw [call_ok_iff]
        omega
      all_goals
        intro hpos
        omega
    · refine ⟨?_, call_of_rejected codes request a, ?_, ?_, ?_⟩
      · rw [call_ok_iff]
        have hlisting := a.listing_of_success hfinal
        simp [hid, hfinal, hlisting]
      · intro hpos hloop
        omega
      · intro _ _ hne
        exact absurd hid hne
      · intro _ _ hne
        exact absurd hfinal hne

/-- `rm_space` of a space that does not exist. -/
def notFoundAnswers : Answers where
  reqid := 1
  submissionCode := .garbage
  loopId := 1
  loopCode := .success
  finalCode := .notfound
  listing := none
  listing_of_success := by simp

/-- A library that numbers its codes as they are listed. -/
def plainCodes : ReturnCodes where
  number
    | .success => 0
    | .nomem => 1
    | .nonepending => 2
    | .pollfailed => 3
    | .timeout => 4
    | .interrupted => 5
    | .servererror => 6
    | .coordfail => 7
    | .badspace => 8
    | .duplicate => 9
    | .notfound => 10
    | .localerror => 11
    | .internal => 12
    | .exception => 13
    | .garbage => 14
    | .other code => code
  toString
    | .success => "HYPERDEX_ADMIN_SUCCESS"
    | .nomem => "HYPERDEX_ADMIN_NOMEM"
    | .nonepending => "HYPERDEX_ADMIN_NONEPENDING"
    | .pollfailed => "HYPERDEX_ADMIN_POLLFAILED"
    | .timeout => "HYPERDEX_ADMIN_TIMEOUT"
    | .interrupted => "HYPERDEX_ADMIN_INTERRUPTED"
    | .servererror => "HYPERDEX_ADMIN_SERVERERROR"
    | .coordfail => "HYPERDEX_ADMIN_COORDFAIL"
    | .badspace => "HYPERDEX_ADMIN_BADSPACE"
    | .duplicate => "HYPERDEX_ADMIN_DUPLICATE"
    | .notfound => "HYPERDEX_ADMIN_NOTFOUND"
    | .localerror => "HYPERDEX_ADMIN_LOCALERROR"
    | .internal => "HYPERDEX_ADMIN_INTERNAL"
    | .exception => "HYPERDEX_ADMIN_EXCEPTION"
    | .garbage => "HYPERDEX_ADMIN_GARBAGE"
    | .other _ => "unknown"

/-- The request that failed returns as if it had succeeded. -/
theorem rmSpace_notfound_returns :
    call plainCodes (.rmSpace [116]) notFoundAnswers = .ok .nil ∧
      ¬ RequestLaw plainCodes (.rmSpace [116]) notFoundAnswers := by
  have hok : call plainCodes (.rmSpace [116]) notFoundAnswers = .ok .nil := rfl
  refine ⟨hok, fun hlaw => ?_⟩
  rcases hlaw.operation (by decide) rfl (by decide) with ⟨e, he, -⟩
  rw [hok] at he
  cases he

end HyperDex.Admin
