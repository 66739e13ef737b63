import HyperDex.Client.Exception
import Mathlib.Data.List.TakeWhile

/-!
# Ruby values as the extension sees them

One constructor for each case that a `TYPE` switch or a class test of the
extension can tell apart. Strings and symbols are their bytes; a float is its
64-bit pattern and is compared as such, also as a member of a set or a key of a
hash, where Ruby's `eql?` takes 0.0 and -0.0 for one and no NaN for another.
Hashes and sets answer to `to_a` as their core classes do.
-/
namespace HyperDex.Ruby
open Client

abbrev Bytes := List UInt8

/-- What a C callee without a length argument reads: the bytes up to the first NUL. -/
def cString (b : Bytes) : Bytes := b.takeWhile (· ≠ 0)

theorem cString_of_nulFree (b : Bytes) (h : (0 : UInt8) ∉ b) : cString b = b := by
  rw [cString, List.takeWhile_eq_self_iff]
  intro x hx
  simpa using fun hx0 : x = 0 => h (hx0 ▸ hx)

/-- `hyperpredicate`, with the codes the enumeration does not name. -/
inductive Hyperpredicate where
  | fail | equals | lessThan | lessEqual | greaterEqual | greaterThan
  | regex | lengthEquals | lengthLessEqual | lengthGreaterEqual | contains
  | other (code : Int)
  deriving DecidableEq, Repr

inductive Value where
  | nil
  | true
  | false
  | symbol (name : Bytes)
  | string (bytes : Bytes)
  | integer (i : Int)
  | float (bits : UInt64)
  | array (xs : List Value)
  | hash (pairs : List (Value × Value))
  /-- an instance of `Set` or of a subclass, a `T_OBJECT` -/
  | set (elems : List Value)
  /-- any other `T_OBJECT`, with what its `to_a` returns or raises -/
  | object (toA : Except Exn Value)
  /-- a `T_DATA` that wraps a predicate, with its checks -/
  | predicate (checks : List (Hyperpredicate × Value))
  /-- a value of any other type -/
  | other (className : String)

/-- The scalars a decoder reads out of a cell; `nil` stands for a null pointer. -/
inductive Scalar where
  | nil
  | string (bytes : Bytes)
  | integer (i : Int)
  | float (bits : UInt64)
  deriving DecidableEq, Repr

def Value.ofScalar : Scalar → Value
  | .nil => .nil
  | .string b => .string b
  | .integer i => .integer i
  | .float bits => .float bits

theorem Value.ofScalar_injective : Function.Injective Value.ofScalar := by
  intro a b h
  cases a <;> cases b <;> simp_all [Value.ofScalar]

def upperHex (n : UInt8) : Char :=
  if n < 10 then Char.ofNat (48 + n.toNat) else Char.ofNat (55 + n.toNat)

/-- How `String#inspect` writes one byte of a binary string, given the byte after it. -/
def inspectByte (b : UInt8) (next : Option UInt8) : String :=
  if b = 34 then "\\\"" else if b = 92 then "\\\\"
  else if b = 10 then "\\n" else if b = 13 then "\\r" else if b = 9 then "\\t"
  else if b = 12 then "\\f" else if b = 11 then "\\v" else if b = 8 then "\\b"
  else if b = 7 then "\\a" else if b = 27 then "\\e"
  -- `#` is escaped only where it would start an interpolation
  else if b = 35 ∧ (next = some 123 ∨ next = some 36 ∨ next = some 64) then "\\#"
  else if 32 ≤ b ∧ b ≤ 126 then String.singleton (Char.ofNat b.toNat)
  else "\\x" ++ String.ofList [upperHex (b / 16), upperHex (b % 16)]

def inspectBody : Bytes → String
  | [] => ""
  | b :: bs => inspectByte b bs.head? ++ inspectBody bs

/-- `String#inspect` of a binary string. -/
def inspect (b : Bytes) : String := "\"" ++ inspectBody b ++ "\""

end HyperDex.Ruby
