import HyperDex.General.Tape
import HyperDex.Ruby.Value

/-!
# The data-structure library behind the conversions

The `hyperdex_ds` functions are the boundary of the model: a record of
functions over the library's own container objects, and the documented
behaviour that the round trip relies on. The names with a scalar kind as a
parameter stand for the three or nine functions that differ in it.
-/
namespace HyperDex.Conversion
open General Ruby

/-- The scalar kinds, as keys, values and elements of containers. -/
inductive Prim where
  | string | int64 | float
  deriving DecidableEq, Repr

/-- What an append or insert function of the kind takes. -/
def Prim.Elem : Prim → Type
  | .string => Bytes
  | .int64 => Int64
  | .float => UInt64

/-- What an iterator of the kind stores: a pointer, which may be null, an integer or a double. -/
def Prim.Cell : Prim → Type
  | .string => Option Bytes
  | .int64 => Int64
  | .float => UInt64

def Prim.cell : (p : Prim) → p.Elem → p.Cell
  | .string, b => some b
  | .int64, i => i
  | .float, d => d

/-- `hyperdatatype`, with the codes the enumeration does not name. -/
inductive Datatype where
  | generic
  | prim (p : Prim)
  | listGeneric
  | list (p : Prim)
  | setGeneric
  | set (p : Prim)
  | mapGeneric
  | mapKeyonly (k : Prim)
  | map (k v : Prim)
  | document
  | garbage
  | unknown (code : Int)
  deriving DecidableEq, Repr

/-- `hyperdex_ds_returncode` -/
inductive DsReturnCode where
  | success | nomem | stringTooLong | wrongState | mixedTypes
  | other (code : Int)
  deriving DecidableEq, Repr

/-- A pointer with a size: the bytes that may be read from it are at least that many. -/
structure Buffer where
  bytes : Bytes
  size : ℕ
  size_le : size ≤ bytes.length

/-- `pointer.read_string(size)` -/
def Buffer.readString (b : Buffer) : Bytes := b.bytes.take b.size

@[simp] theorem Buffer.length_readString (b : Buffer) : b.readString.length = b.size := by
  simp [readString, b.size_le]

def Buffer.ofBytes (b : Bytes) : Buffer := ⟨b, b.length, Nat.le_refl _⟩

@[simp] theorem Buffer.readString_ofBytes (b : Bytes) : (ofBytes b).readString = b := by
  simp [readString, ofBytes]

/-- A converted value. -/
structure Packed where
  value : Buffer
  datatype : Datatype

/-- `hyperdex_client_attribute` -/
structure Attribute where
  attr : Bytes
  value : Buffer
  datatype : Datatype

/-- `hyperdex_ds_iterator` after its initialisation. -/
structure DsIterator where
  datatype : Datatype
  value : Bytes
  len : ℕ

/-- `HyperDex.init_ds_iterator(type, value)`: a NUL-terminated copy and the length. -/
def initDsIterator (type : Datatype) (value : Bytes) : DsIterator :=
  ⟨type, value ++ [0], value.length⟩

/-- The functions of the library, over its container objects. An allocation, a copy or a
finalisation may fail; an append reports the code of its failure. -/
structure DataStructures (Obj : Type) where
  copyString : Bytes → Option Buffer
  copyInt : Int64 → Option Buffer
  copyFloat : UInt64 → Option Buffer
  allocateList : Option Obj
  listAppend : (p : Prim) → Obj → p.Elem → Except DsReturnCode Obj
  listFinalize : Obj → Option Packed
  allocateSet : Option Obj
  setInsert : (p : Prim) → Obj → p.Elem → Except DsReturnCode Obj
  setFinalize : Obj → Option Packed
  allocateMap : Option Obj
  mapInsertKey : (p : Prim) → Obj → p.Elem → Except DsReturnCode Obj
  mapInsertVal : (p : Prim) → Obj → p.Elem → Except DsReturnCode Obj
  mapFinalize : Obj → Option Packed
  allocateAttribute : ℕ → Bool
  allocateAttributeCheck : ℕ → Bool
  allocateMapAttribute : ℕ → Bool
  malloc : ℕ → Bool
  unpackInt : Buffer → Option Int64
  unpackFloat : Buffer → Option UInt64
  iterateList : (p : Prim) → DsIterator → Tape p.Cell
  iterateSet : (p : Prim) → DsIterator → Tape p.Cell
  iterateMap : (k v : Prim) → DsIterator → Tape (k.Cell × v.Cell)

variable {Obj : Type}

/-- An iterator of the type whose first `value.size` bytes are those of `value`. -/
def DsIterator.Over (iter : DsIterator) (value : Packed) : Prop :=
  iter.datatype = value.datatype ∧ iter.len = value.value.size ∧
    iter.value.take iter.len = value.value.readString

theorem initDsIterator_over (value : Packed) :
    (initDsIterator value.datatype value.value.readString).Over value := by
  refine ⟨rfl, Buffer.length_readString _, ?_⟩
  simp only [initDsIterator, List.take_left']

/-- The documented behaviour of the library when memory suffices: copies unpack to
what was copied, and a container filled with elements of one kind is typed by that kind and
iterates over what was put in, a list in order, a set and a map in an order of their own. -/
structure DataStructures.Lawful (ds : DataStructures Obj) : Prop where
  copyString (b : Bytes) : ∃ buf, ds.copyString b = some buf ∧ buf.readString = b
  copyInt (i : Int64) : ∃ buf, ds.copyInt i = some buf ∧
    ∀ b : Buffer, b.readString = buf.readString → ds.unpackInt b = some i
  copyFloat (d : UInt64) : ∃ buf, ds.copyFloat d = some buf ∧
    ∀ b : Buffer, b.readString = buf.readString → ds.unpackFloat b = some d
  allocateAttribute (n : ℕ) : ds.allocateAttribute n = true
  list (p : Prim) (xs : List p.Elem) (hxs : xs ≠ []) :
    ∃ empty full packed, ds.allocateList = some empty ∧
      xs.foldlM (ds.listAppend p) empty = .ok full ∧
      ds.listFinalize full = some packed ∧ packed.datatype = .list p ∧
      ∀ iter : DsIterator, iter.Over packed →
        (ds.iterateList p iter).Delivers (xs.map p.cell)
  set (p : Prim) (xs : List p.Elem) (hxs : xs ≠ []) :
    ∃ empty full packed, ds.allocateSet = some empty ∧
      xs.foldlM (ds.setInsert p) empty = .ok full ∧
      ds.setFinalize full = some packed ∧ packed.datatype = .set p ∧
      ∃ ys : List p.Elem, (∀ y, y ∈ ys ↔ y ∈ xs) ∧
        ∀ iter : DsIterator, iter.Over packed →
          (ds.iterateSet p iter).Delivers (ys.map p.cell)
  map (k v : Prim) (ps : List (k.Elem × v.Elem)) (hps : ps ≠ [])
      (hkeys : (ps.map Prod.fst).Nodup) :
    ∃ empty full packed, ds.allocateMap = some empty ∧
      ps.foldlM (fun m e => ds.mapInsertKey k m e.1 >>= fun m => ds.mapInsertVal v m e.2) empty =
        .ok full ∧
      ds.mapFinalize full = some packed ∧ packed.datatype = .map k v ∧
      ∃ qs : List (k.Elem × v.Elem), qs.Perm ps ∧
        ∀ iter : DsIterator, iter.Over packed →
          (ds.iterateMap k v iter).Delivers (qs.map (fun q => (k.cell q.1, v.cell q.2)))

end HyperDex.Conversion
