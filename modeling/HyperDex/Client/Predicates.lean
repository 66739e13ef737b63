import HyperDex.Client.Arguments
import HyperDex.Conversion.PackedFormat
import HyperDex.Decoding.RoundTrip

/-!
# Predicates as the library reads them

A check goes to the library with a pointer to its attribute's name, which is read
up to the first NUL. A name that is a string has none, or its conversion raises;
the name of a symbol is passed on without a test. So the checks of a converted
hash are those of its flattening unless one of them goes by a symbol with a NUL.
-/
namespace HyperDex.Client
open General Ruby Conversion Decoding

variable {Obj : Type} (ds : DataStructures Obj)

/-- The checks of an array as the library reads them, with names up to NUL. -/
def readChecks (slots : List (ℕ × AttributeCheck)) : List AttributeCheck :=
  slots.map fun s => { s.2 with attr := cString s.2.attr }

/-- Nothing in the hash makes its conversion raise. -/
structure Convertible (pairs : List (Value × Value)) : Prop where
  asserts : ∀ p ∈ pairs, AssertsHold p.2
  allocation : ds.allocateAttributeCheck (flattenPredicates pairs).length = true
  names : ∀ p ∈ pairs, ∃ attr,
    convertCstring p.1 "Attribute name must be a string or symbol" = .returned attr
  values : ∀ p ∈ pairs, ∀ c ∈ checksOf p.2, ∃ packed, convertType ds c.2 = .returned packed

/-- No check goes by a symbol with a NUL. -/
def NamesWhole (pairs : List (Value × Value)) : Prop :=
  ∀ e ∈ flattenPredicates pairs, ∀ name, e.1 = .symbol name → (0 : UInt8) ∉ name

theorem nulFree_of_convertCstring {x : Value} {b : Bytes} {message : String}
    (h : convertCstring x message = .returned b)
    (hwhole : ∀ name, x = .symbol name → (0 : UInt8) ∉ name) : (0 : UInt8) ∉ b := by
  cases x with
  | symbol name =>
    obtain rfl := Outcome.returned.inj h
    exact hwhole name rfl
  | string bytes =>
    rw [convertCstring] at h
    split at h
    · cases h
    · next h0 => exact Outcome.returned.inj h ▸ h0
  | _ => cases h

variable {ds} {pairs : List (Value × Value)}

theorem readChecks_eq {result : ℕ × List (ℕ × AttributeCheck)}
    (h : WritesChecks ds pairs result) (hwhole : NamesWhole pairs) :
    readChecks result.2 = result.2.map Prod.snd := by
  have hread : ∀ c ∈ result.2.map Prod.snd, cString c.attr = c.attr := by
    intro c hc
    rcases List.mem_iff_getElem.mp hc with ⟨i, hi, rfl⟩
    have hlength := h.checks.length_eq
    have hcheck := (List.forall₂_iff_get.mp h.checks).2 i (hlength ▸ hi) hi
    exact cString_of_nulFree _ (nulFree_of_convertCstring hcheck.attr
      (hwhole _ (List.get_mem _ _)))
  rw [readChecks]
  apply List.map_congr_left
  intro s hs
  rw [hread s.2 (List.mem_map_of_mem hs)]

end HyperDex.Client
