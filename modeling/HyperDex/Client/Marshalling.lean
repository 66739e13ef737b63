import HyperDex.Client.Delivery
import Mathlib.Data.List.Forall2

/-!
# The outputs of a request

The template of a request marks the outputs that the library fills; one reader
picks the cells by these marks. It follows the pointer to an attribute array,
but reads a description out of the pointer cell itself and a count as a signed
number.
-/
namespace HyperDex.Client
open General Ruby Conversion Decoding

variable {Obj : Type} (env : Env Obj)

/-- All attributes of the array, decoded, under their names; of two of one name the later one. -/
def HashOf (attrs : List Attribute) (h : OrderedMap Bytes Value) : Prop :=
  ∃ values, List.Forall₂ (fun attr value => buildAttribute env attr = .ok value) attrs values ∧
    h = OrderedMap.ofBindings ((attrs.map fun attr => cString attr.attr).zip values)

theorem foldlM_encode_eq_ok_iff (attrs : List Attribute) (m h : OrderedMap Bytes Value) :
    attrs.foldlM (fun h attr => do
      let k := cString attr.attr
      let v ← buildAttribute env attr
      return h.insert k v) m = .ok h ↔
    ∃ values, List.Forall₂ (fun attr value => buildAttribute env attr = .ok value) attrs values ∧
      h = ((attrs.map fun attr => cString attr.attr).zip values).foldl
        (fun m p => m.insert p.1 p.2) m := by
  induction attrs generalizing m with
  | nil => simp [pure, Except.pure, eq_comm]
  | cons attr attrs ih =>
    rw [List.foldlM_cons]
    cases hbuild : buildAttribute env attr with
    | error e => simp [bind, Except.bind, hbuild, List.forall₂_cons_left_iff]
    | ok v =>
      simp only [bind, Except.bind, pure, Except.pure] at ih ⊢
      rw [ih]
      constructor
      · rintro ⟨values, hvalues, rfl⟩
        exact ⟨v :: values, .cons hbuild hvalues, rfl⟩
      · rintro ⟨_, hvalues, hh⟩
        cases hvalues with
        | @cons _ v' _ values hv hvalues =>
          obtain rfl : v = v' := Except.ok.inj (hbuild.symm.trans hv)
          exact ⟨values, hvalues, hh⟩

theorem encodeAttributes_eq_ok_iff (attrs : List Attribute) (h : OrderedMap Bytes Value) :
    encodeAttributes env attrs = .ok h ↔ HashOf env attrs h :=
  foldlM_encode_eq_ok_iff env attrs .empty h

/-- The response object of an accepted request, with what the library left in its cells. -/
def Call.response (call : Call) (reqid : Int) (cells : Cells) : Response :=
  { (Response.new call.kind).accept call.outputs reqid with cells }

/-- The array that the cells point to; for an array of none the pointer may be null. -/
def World.PointsTo (w : World) (cells : Cells) (attrs : List Attribute) : Prop :=
  cells.attrsSz = attrs.length ∧
    ((∃ a, cells.attrs = some a ∧ w.lib.arrays[a]? = some (some attrs)) ∨
      (cells.attrs = none ∧ attrs = []))

/-- Cells with one status and one content of the outputs that the request has. -/
def Outputs.Agree (outputs : Outputs) (c c' : Cells) : Prop :=
  c.status = c'.status ∧
    match outputs with
    | .status => True
    | .attributes => c.attrs = c'.attrs ∧ c.attrsSz = c'.attrsSz
    | .description => c.description = c'.description
    | .count => c.count = c'.count

/-- What a request returns of the cells that the library filled; `memory` is the NUL-terminated
string that begins at an address. -/
structure Marshals (memory : UInt64 → Bytes) (call : Call) (reqid : Int) (cells : Cells)
    (w : World) : Prop where
  attributes : cells.status = .success → call.outputs = .attributes →
    ∀ attrs, w.PointsTo cells attrs →
      (∀ h, HashOf env attrs h →
        (encodeReturn env (call.response reqid cells) w).1 = .returned (hashOf h)) ∧
      ((∀ h, ¬ HashOf env attrs h) →
        ∃ e, (encodeReturn env (call.response reqid cells) w).1 = .raised e)
  description : cells.status = .success → call.outputs = .description →
    (encodeReturn env (call.response reqid cells) w).1 =
      .returned (.string (memory cells.description))
  count : cells.status = .success → call.outputs = .count →
    (encodeReturn env (call.response reqid cells) w).1 = .returned (.integer cells.count.toNat)
  status : cells.status = .success → call.outputs = .status →
    (encodeReturn env (call.response reqid cells) w).1 = .returned .true
  notfound : cells.status = .notfound →
    (encodeReturn env (call.response reqid cells) w).1 = .returned .nil
  cmpfail : cells.status = .cmpfail →
    (encodeReturn env (call.response reqid cells) w).1 = .returned .false
  others : cells.status ≠ .success → cells.status ≠ .notfound → cells.status ≠ .cmpfail →
    ∃ e, (encodeReturn env (call.response reqid cells) w).1 = .raised e
  independent : ∀ cells', call.outputs.Agree cells cells' →
    (encodeReturn env (call.response reqid cells') w).1 =
      (encodeReturn env (call.response reqid cells) w).1

section Reading
variable {env} {call : Call} {reqid : Int} {cells : Cells} {w : World}

/-- The cells that count are those of the outputs of the call. -/
theorem encodeReturn_success (hstatus : cells.status = .success) :
    encodeReturn env (call.response reqid cells) w =
      match call.outputs with
      | .status => (.returned .true, w)
      | .attributes => takeAttributes env cells.attrs cells.attrsSz w
      | .description => (.returned (.string (readDescription cells)), w)
      | .count => (.returned (.integer (readCount cells)), w) := by
  cases houtputs : call.outputs <;>
    simp [encodeReturn, Call.response, Response.accept, hstatus, houtputs]

theorem encodeReturn_independent {cells' : Cells} (h : call.outputs.Agree cells cells') :
    (encodeReturn env (call.response reqid cells') w).1 =
      (encodeReturn env (call.response reqid cells) w).1 := by
  rcases h with ⟨hstatus, houtput⟩
  by_cases hok : cells.status = .success
  · rw [encodeReturn_success hok, encodeReturn_success (hstatus ▸ hok)]
    cases houtputs : call.outputs with
    | status => rfl
    | attributes =>
      rw [houtputs] at houtput
      simp only [houtput.1, houtput.2]
    | description =>
      rw [houtputs] at houtput
      simp only [readDescription, show cells.description = cells'.description from houtput]
    | count =>
      rw [houtputs] at houtput
      simp only [readCount, show cells.count = cells'.count from houtput]
  · simp only [encodeReturn, Call.response, ← hstatus]
    cases hcase : cells.status <;> first | rfl | exact absurd hcase hok

theorem takeAttributes_pointsTo {attrs : List Attribute} (h : w.PointsTo cells attrs) :
    (takeAttributes env cells.attrs cells.attrsSz w).1 =
      match encodeAttributes env attrs with
      | .error e => .raised e
      | .ok h => .returned (hashOf h) := by
  rcases h with ⟨hsz, ⟨a, hattrs, ha⟩ | ⟨hattrs, rfl⟩⟩
  · rw [hsz, hattrs, takeAttributes_alive env ha]
    cases encodeAttributes env attrs <;> rfl
  · have hread : (w.log (.decoded none)).lib.readArray none 0 = some [] := by
      simp [Library.readArray]
    have hempty : encodeAttributes env [] = .ok .empty := rfl
    rw [hsz, hattrs, List.length_nil]
    simp only [takeAttributes, hread, hempty, World.destroyAttrs, Outcome.andThen]

theorem readCount_iff (cells : Cells) :
    readCount cells = (cells.count.toNat : Int) ↔ cells.count.toNat < 2 ^ 63 := by
  have hlt := cells.count.toNat_lt
  have hsigned : readCount cells = cells.count.toBitVec.toInt := rfl
  rw [hsigned, BitVec.toInt_eq_toNat_cond, UInt64.toNat_toBitVec]
  split <;> omega

end Reading

/-- A request returns what the library produced unless it describes a search, or counts more
objects than a signed number holds: then exactly if the pointer's own bytes are the text. -/
theorem marshals_iff (memory : UInt64 → Bytes) (call : Call) (reqid : Int) (cells : Cells)
    (w : World) :
    Marshals env memory call reqid cells w ↔ (cells.status = .success →
      (call.outputs = .description →
        cString (PrefixCode.toLittleEndian 8 cells.description.toNat) =
          memory cells.description) ∧
      (call.outputs = .count → cells.count.toNat < 2 ^ 63)) := by
  constructor
  · intro hlaw hok
    constructor
    · intro houtputs
      have hresult := hlaw.description hok houtputs
      rw [encodeReturn_success hok, houtputs] at hresult
      exact Value.string.inj (Outcome.returned.inj hresult)
    · intro houtputs
      have hresult := hlaw.count hok houtputs
      rw [encodeReturn_success hok, houtputs] at hresult
      exact (readCount_iff cells).mp (Value.integer.inj (Outcome.returned.inj hresult))
  · intro h
    constructor
    · intro hok houtputs attrs hpoints
      have hresult : (encodeReturn env (call.response reqid cells) w).1 =
          match encodeAttributes env attrs with
          | .error e => .raised e
          | .ok h => .returned (hashOf h) := by
        rw [encodeReturn_success hok, houtputs]
        exact takeAttributes_pointsTo hpoints
      constructor
      · intro m hm
        rw [hresult, (encodeAttributes_eq_ok_iff env attrs m).mpr hm]
      · intro hnone
        cases hencode : encodeAttributes env attrs with
        | error e => exact ⟨e, by rw [hresult, hencode]⟩
        | ok m => exact absurd ((encodeAttributes_eq_ok_iff env attrs m).mp hencode) (hnone m)
    · intro hok houtputs
      rw [encodeReturn_success hok, houtputs]
      exact congrArg (fun b => Outcome.returned (Value.string b)) ((h hok).1 houtputs)
    · intro hok houtputs
      rw [encodeReturn_success hok, houtputs]
      exact congrArg (fun i => Outcome.returned (Value.integer i))
        ((readCount_iff cells).mpr ((h hok).2 houtputs))
    · intro hok houtputs
      rw [encodeReturn_success hok, houtputs]
    · intro hstatus
      simp only [encodeReturn, Call.response, hstatus]
    · intro hstatus
      simp only [encodeReturn, Call.response, hstatus]
    · intro hok hnotfound hcmpfail
      simp only [encodeReturn, Call.response]
      exact ⟨_, rfl⟩
    · exact fun cells' hagree => encodeReturn_independent hagree

def describeCall : Call := .spacenamePredicatesStatusDescription (.string [115]) (.hash [])

/-- A description was stored at the address `0x55810a2b3c40`. -/
def describedCells : Cells :=
  { Cells.initial with status := .success, description := 94012709747776 }

/-- The result is the address, byte by byte, and not the text at the address. -/
theorem describe_returns_address :
    (encodeReturn packedEnv (describeCall.response 1 describedCells) .initial).1 =
      .returned (.string [64, 60, 43, 10, 129, 85]) ∧
    ¬ Marshals packedEnv (fun _ => [115, 101, 97, 114, 99, 104]) describeCall 1 describedCells
      .initial := by
  have hresult : (encodeReturn packedEnv (describeCall.response 1 describedCells) .initial).1 =
    .returned (.string [64, 60, 43, 10, 129, 85]) := rfl
  refine ⟨hresult, fun hlaw => ?_⟩
  have hdescription := hlaw.description rfl rfl
  rw [hresult] at hdescription
  simp at hdescription

end HyperDex.Client
