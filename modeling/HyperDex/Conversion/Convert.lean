import HyperDex.Conversion.DataStructures
import HyperDex.General.Outcome
import Mathlib.Algebra.Group.Int.Defs
import Mathlib.Algebra.Group.Nat.Defs

/-!
# Conversion of Ruby arguments

The converters of the extension, one definition each. They read arrays through
the unchecked accessors of the Ruby C API, whose use on any other value is
`undefined`, and hand strings to the library either with a length or as C
strings.
-/
namespace HyperDex.Conversion
open General Ruby Client

abbrev Conv (α : Type) := Outcome Exn α

def typeError (message : String) : Exn := .core .typeError message

def outOfMemory : Exn := .core .noMemoryError "failed to allocate memory"

def orOutOfMemory {α : Type} : Option α → Conv α
  | some a => .returned a
  | none => .raised outOfMemory

/-- `RARRAY_LEN` -/
def rarrayLen : Value → Conv ℕ
  | .array xs => .returned xs.length
  | _ => .undefined

/-- `rb_ary_entry`, which is `nil` past the end. -/
def rbAryEntry : Value → ℕ → Conv Value
  | .array xs, i => .returned (xs.getD i .nil)
  | _, _ => .undefined

def pairToArray (p : Value × Value) : Value := .array [p.1, p.2]

@[simp] theorem rbAryEntry_pair_zero (p : Value × Value) :
    rbAryEntry (pairToArray p) 0 = .returned p.1 := rfl

@[simp] theorem rbAryEntry_pair_one (p : Value × Value) :
    rbAryEntry (pairToArray p) 1 = .returned p.2 := rfl

/-- `rb_funcall(x, rb_intern("to_a"), 0)` -/
def toA : Value → Conv Value
  | .nil => .returned (.array [])
  | .array xs => .returned (.array xs)
  | .hash pairs => .returned (.array (pairs.map pairToArray))
  | .set elems => .returned (.array elems)
  | .object result => .ofExcept result
  | _ => .raised (.core .noMethodError "undefined method `to_a'")

@[simp] theorem toA_hash (pairs : List (Value × Value)) :
    toA (.hash pairs) = .returned (.array (pairs.map pairToArray)) := rfl

@[simp] theorem toA_set (elems : List Value) : toA (.set elems) = .returned (.array elems) := rfl

/-- `for (i = 0; i < RARRAY_LEN(x); ++i)` with `rb_ary_entry(x, i)` as the body's entry. -/
def forEntries {σ : Type} (x : Value) (body : σ → Value → Conv σ) (s : σ) : Conv σ := do
  let n ← rarrayLen x
  Outcome.forLoop (fun s i => do body s (← rbAryEntry x i)) n 0 s

@[simp] theorem forEntries_array {σ : Type} (xs : List Value) (body : σ → Value → Conv σ) (s : σ) :
    forEntries (.array xs) body s = xs.foldlM body s :=
  Outcome.forLoop_getD_eq_foldlM body .nil xs [] s

def convertCstring (x : Value) (errorMessage : String) : Conv Bytes :=
  match x with
  | .symbol name => .returned name
  | .string b =>
    if (0 : UInt8) ∈ b then .raised (.core .argumentError "string contains null byte")
    else .returned b
  | _ => .raised (typeError errorMessage)

/-- `NUM2LL` of an integer object. -/
def num2ll (i : Int) : Conv Int64 :=
  if -2 ^ 63 ≤ i ∧ i < 2 ^ 63 then .returned (Int64.ofInt i)
  else .raised (.core .rangeError "bignum too big to convert into `long long'")

/-- `HDRB_HANDLE_ELEM_ERROR` -/
def handleElemError (type : String) : DsReturnCode → Exn
  | .nomem => outOfMemory
  | .mixedTypes => typeError ("Cannot add " ++ type ++ " to a heterogenous container")
  | _ => typeError ("Cannot convert " ++ type ++ " to a HyperDex type")

def elemResult {Obj : Type} (type : String) : Except DsReturnCode Obj → Conv Obj
  | .ok x => .returned x
  | .error code => .raised (handleElemError type code)

variable {Obj : Type}

def convertElem (e : Value) (x : Obj) (fString : Obj → Bytes → Except DsReturnCode Obj)
    (fInt : Obj → Int64 → Except DsReturnCode Obj)
    (fFloat : Obj → UInt64 → Except DsReturnCode Obj) : Conv Obj :=
  match e with
  | .symbol name => elemResult "string" (fString x (cString name))
  | .string b => elemResult "string" (fString x b)
  | .integer i => do
    let tmpI ← num2ll i
    elemResult "integer" (fInt x tmpI)
  | .float d => elemResult "float" (fFloat x d)
  | _ => .raised (typeError "Cannot convert object to a HyperDex container element")

/-- The three functions of a family passed to `convertElem`, as every caller passes them. -/
def convertElemWith (e : Value) (x : Obj)
    (f : (p : Prim) → Obj → p.Elem → Except DsReturnCode Obj) : Conv Obj :=
  convertElem e x (f .string) (f .int64) (f .float)

variable (ds : DataStructures Obj)

def convertList (x : Value) : Conv Packed := do
  let list ← orOutOfMemory ds.allocateList
  let list ← forEntries x (fun list entry => convertElemWith entry list ds.listAppend) list
  orOutOfMemory (ds.listFinalize list)

def convertSet (x : Value) : Conv Packed := do
  let x ← toA x
  let set ← orOutOfMemory ds.allocateSet
  let set ← forEntries x (fun set entry => convertElemWith entry set ds.setInsert) set
  orOutOfMemory (ds.setFinalize set)

def convertMap (x : Value) : Conv Packed := do
  let x ← toA x
  let map ← orOutOfMemory ds.allocateMap
  let map ← forEntries x (fun map entry => do
    let key ← rbAryEntry entry 0
    let val ← rbAryEntry entry 1
    let map ← convertElemWith key map ds.mapInsertKey
    convertElemWith val map ds.mapInsertVal) map
  orOutOfMemory (ds.mapFinalize map)

/-- `Qtrue` of a Ruby with immediate floats. -/
def qtrue : ℕ := 20

/-- `rb_obj_is_kind_of(x, Set)`: `Qtrue` or `Qfalse`. -/
def rbObjIsKindOfSet : Value → ℕ
  | .set _ => qtrue
  | _ => 0

/-- The `!` of C. -/
def cNot (v : ℕ) : ℕ := if v = 0 then 1 else 0

def copied (type : Prim) (value : Option Buffer) : Conv Packed := do
  let value ← orOutOfMemory value
  return ⟨value, .prim type⟩

def convertType (x : Value) : Conv Packed :=
  match x with
  | .symbol name => copied .string (ds.copyString (cString name))
  | .string b => copied .string (ds.copyString b)
  | .integer i => do
    let tmpI ← num2ll i
    copied .int64 (ds.copyInt tmpI)
  | .float d => copied .float (ds.copyFloat d)
  | .array _ => convertList ds x
  | .hash _ => convertMap ds x
  | .set _ | .object _ =>
    -- the test is `!rb_obj_is_kind_of(x, Set) == Qtrue`, which compares a C truth value
    if cNot (rbObjIsKindOfSet x) = qtrue then
      .raised (typeError "Cannot convert object to a HyperDex type")
    else convertSet ds x
  | _ => .raised (typeError "Cannot convert object to a HyperDex type")

/-- The test lets sets pass. -/
theorem convertType_set (elems : List Value) :
    convertType ds (.set elems) = convertSet ds (.set elems) := by
  have htest : cNot (rbObjIsKindOfSet (.set elems)) ≠ qtrue := by
    simp [rbObjIsKindOfSet, cNot, qtrue]
  rw [convertType, if_neg htest]

/-- It lets all other objects pass too. -/
theorem convertType_object (toA : Except Exn Value) :
    convertType ds (.object toA) = convertSet ds (.object toA) := by
  have htest : cNot (rbObjIsKindOfSet (.object toA)) ≠ qtrue := by
    simp [rbObjIsKindOfSet, cNot, qtrue]
  rw [convertType, if_neg htest]

def convertKey (x : Value) : Conv Buffer := do
  let key ← convertType ds x
  return key.value

def convertAttribute (hashPair : Value) : Conv Attribute := do
  let key ← rbAryEntry hashPair 0
  let val ← rbAryEntry hashPair 1
  let attr ← convertCstring key "Attribute name must be a string or symbol"
  let packed ← convertType ds val
  return ⟨attr, packed.value, packed.datatype⟩

/-- The array is written from slot 0 on, one slot per pair. -/
def convertAttributes (x : Value) : Conv (List Attribute) :=
  match x with
  | .hash _ => do
    let hashPairs ← toA x
    let attrsSz ← rarrayLen hashPairs
    if ds.allocateAttribute attrsSz then
      forEntries hashPairs (fun attrs hashPair => do
        let a ← convertAttribute ds hashPair
        return attrs ++ [a]) []
    else .raised outOfMemory
  | _ => .raised (typeError "Attributes must be specified as a hash")

def convertAttributenames (x : Value) : Conv (List Bytes) := do
  let namesSz ← rarrayLen x
  if ds.malloc namesSz then
    forEntries x (fun names entry => do
      let name ← convertCstring entry "Attribute name must be a string or symbol"
      return names ++ [name]) []
  else .raised outOfMemory

def convertSortby (x : Value) : Conv Bytes :=
  convertCstring x "sortby must be a string or symbol"

def convertSpacename (x : Value) : Conv Bytes :=
  convertCstring x "spacename must be a string or symbol"

def convertMaxmin (x : Value) : ℕ :=
  match x with
  | .true => 1
  | _ => 0

def truncate (bits : UInt64) : Option Int :=
  let exponent := (bits.toNat / 2 ^ 52) % 2 ^ 11
  let fraction := bits.toNat % 2 ^ 52
  if exponent = 2047 then none
  else
    let magnitude : ℕ :=
      if 1075 ≤ exponent then (fraction + 2 ^ 52) * 2 ^ (exponent - 1075)
      else (fraction + 2 ^ 52) / 2 ^ (1075 - exponent)
    some (if bits.toNat / 2 ^ 63 = 1 then -magnitude else magnitude)

def toUnsignedLong (i : Int) : Conv UInt64 :=
  if -2 ^ 63 ≤ i ∧ i < 2 ^ 64 then .returned (UInt64.ofNat (i % 2 ^ 64).toNat)
  else .raised (.core .rangeError "out of range of unsigned long")

/-- `rb_num2ulong`; a negative number wraps around. -/
def rbNum2ulong : Value → Conv UInt64
  | .nil => .raised (typeError "no implicit conversion from nil to integer")
  | .integer i => toUnsignedLong i
  | .float bits =>
    match truncate bits with
    | some i => toUnsignedLong i
    | none => .raised (.core .rangeError "out of range of unsigned long")
  | _ => .raised (typeError "no implicit conversion into Integer")

def convertLimit (x : Value) : Conv UInt64 := rbNum2ulong x

end HyperDex.Conversion
