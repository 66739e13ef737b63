import HyperDex.Conversion.PackedFormat
import HyperDex.Conversion.Convert
import Mathlib.Algebra.GroupWithZero.Nat

/-!
# Map attributes

A counting pass sizes the array; a nested loop then fills it through an index
of its own. The bound of the inner loop tests the length of the inner pairs and
not the loop variable, so only an empty inner hash lets it end.
-/
namespace HyperDex.Conversion
open General Ruby

/-- `hyperdex_client_map_attribute` -/
structure MapAttribute where
  attr : Bytes
  mapKey : Packed
  value : Packed

/-- The running index and the slots written so far, oldest first. -/
structure Filling where
  mapattrsIdx : ℕ
  slots : List (ℕ × MapAttribute)

structure MapAttributes where
  mapattrsSz : ℕ
  slots : List (ℕ × MapAttribute)

def mapAttributesError : Client.Exn := typeError "Map attributes must be specified as a hash"

/-- `RHASH_SIZE`, after the check of the type. -/
def rhashSize : Value → Conv ℕ
  | .hash pairs => .returned pairs.length
  | _ => .raised mapAttributesError

def countMapattributes (outerPairs : Value) : Conv ℕ :=
  forEntries outerPairs (fun mapattrsSz outerPair => do
    let innerPairs ← rbAryEntry outerPair 1
    let n ← rhashSize innerPairs
    return mapattrsSz + n) 0

variable {Obj : Type} (ds : DataStructures Obj)

def convertMapattribute (attr innerPair : Value) (s : Filling) : Conv Filling := do
  let key ← rbAryEntry innerPair 0
  let val ← rbAryEntry innerPair 1
  let attr ← convertCstring attr "Attribute name must be a string or symbol"
  let mapKey ← convertType ds key
  let value ← convertType ds val
  return ⟨s.mapattrsIdx + 1, s.slots ++ [(s.mapattrsIdx, ⟨attr, mapKey, value⟩)]⟩

/-- `for (j = 0; RARRAY_LEN(inner_pairs); ++j)` -/
def fillInner (rounds : ℕ) (attr innerPairs : Value) (s : Filling) : Conv Filling :=
  Outcome.forWhile
    (fun _ => do
      let n ← rarrayLen innerPairs
      return n ≠ 0)
    (fun s j => do
      let innerPair ← rbAryEntry innerPairs j
      convertMapattribute ds attr innerPair s)
    rounds 0 s

def fillOuter (rounds : ℕ) (outerPairs : Value) (s : Filling) : Conv Filling :=
  forEntries outerPairs (fun s outerPair => do
    let attr ← rbAryEntry outerPair 0
    let innerPairs ← rbAryEntry outerPair 1
    let innerPairs ← toA innerPairs
    fillInner ds rounds attr innerPairs s) s

/-- The conversion, observed for so many rounds of each inner loop. -/
def convertMapattributes (rounds : ℕ) (x : Value) : Conv MapAttributes :=
  match x with
  | .hash _ => do
    let outerPairs ← toA x
    let mapattrsSz ← countMapattributes outerPairs
    if ds.allocateMapAttribute mapattrsSz then do
      let s ← fillOuter ds rounds outerPairs ⟨0, []⟩
      return ⟨mapattrsSz, s.slots⟩
    else .raised outOfMemory
  | _ => .raised mapAttributesError

/-- A hash from attribute names to hashes. -/
abbrev NestedPairs := List (Value × List (Value × Value))

def NestedPairs.toHash (outer : NestedPairs) : Value :=
  .hash (outer.map fun p => (p.1, .hash p.2))

/-- The inner pairs with their attribute names, in iteration order. -/
def NestedPairs.flatten (outer : NestedPairs) : List (Value × Value × Value) :=
  outer.flatMap fun p => p.2.map fun q => (p.1, q.1, q.2)

def NestedPairs.size (outer : NestedPairs) : ℕ := (outer.map fun p => p.2.length).sum

/-- The entry of one inner pair. -/
structure Converts (pair : Value × Value × Value) (m : MapAttribute) : Prop where
  attr : convertCstring pair.1 "Attribute name must be a string or symbol" = .returned m.attr
  mapKey : convertType ds pair.2.1 = .returned m.mapKey
  value : convertType ds pair.2.2 = .returned m.value

/-- Every slot of the array is written once, in order, and holds the entry of its pair. -/
structure Flattens (outer : NestedPairs) (result : MapAttributes) : Prop where
  size : result.mapattrsSz = outer.size
  slots : result.slots.map Prod.fst = List.range result.mapattrsSz
  entries : List.Forall₂ (Converts ds) outer.flatten (result.slots.map Prod.snd)

/-- The arguments the conversion is meant for. -/
structure NestedPairs.Convertible (outer : NestedPairs) : Prop where
  names : ∀ p ∈ outer, ∃ attr,
    convertCstring p.1 "Attribute name must be a string or symbol" = .returned attr
  keys : ∀ p ∈ outer, ∀ q ∈ p.2, ∃ packed, convertType ds q.1 = .returned packed
  values : ∀ p ∈ outer, ∀ q ∈ p.2, ∃ packed, convertType ds q.2 = .returned packed

theorem countMapattributes_toHash (outer : NestedPairs) :
    countMapattributes (.array (outer.map fun p => pairToArray (p.1, .hash p.2))) =
      .returned outer.size := by
  rw [countMapattributes, forEntries_array, List.foldlM_map]
  simp only [rbAryEntry_pair_one, Outcome.returned_bind]
  have hsize (p : Value × List (Value × Value)) (_ : p ∈ outer) :
      rhashSize (.hash p.2) = .returned p.2.length := rfl
  rw [Outcome.foldlM_sum outer hsize, Nat.zero_add]
  rfl

theorem fillInner_nil (rounds : ℕ) (attr : Value) (s : Filling) :
    fillInner ds (rounds + 1) attr (.array []) s = .returned s :=
  Outcome.forWhile_of_false _ _ rounds 0 s rfl

/-- Past its last pair the inner loop goes on. -/
theorem fillInner_cons_ne_returned (rounds : ℕ) (attr x : Value) (xs : List Value)
    (s t : Filling) : fillInner ds rounds attr (.array (x :: xs)) s ≠ .returned t :=
  Outcome.forWhile_ne_returned _ _ (fun _ => by simp [rarrayLen]) rounds 0 s t

/-- The outer loop ends only over empty inner hashes, and then writes nothing. -/
theorem fill_returned (rounds : ℕ) (outer : NestedPairs) (s t : Filling)
    (h : fillOuter ds rounds (.array (outer.map fun p => pairToArray (p.1, .hash p.2))) s =
      .returned t) : (∀ p ∈ outer, p.2 = []) ∧ t = s := by
  rw [fillOuter, forEntries_array] at h
  induction outer generalizing s with
  | nil => simpa [eq_comm] using h
  | cons p outer ih =>
    rcases p with ⟨attr, inner⟩
    rw [List.map_cons, List.foldlM_cons] at h
    rcases Outcome.bind_eq_returned.mp h with ⟨u, hu, hrest⟩
    simp only [rbAryEntry_pair_zero, rbAryEntry_pair_one, toA_hash, Outcome.returned_bind] at hu
    cases inner with
    | nil =>
      cases rounds with
      | zero => simp [fillInner, Outcome.forWhile] at hu
      | succ rounds =>
        rw [List.map_nil, fillInner_nil] at hu
        obtain rfl : s = u := by simpa using hu
        simpa using ih s hrest
    | cons q inner =>
      exact absurd hu (fillInner_cons_ne_returned ds rounds attr _ _ s u)

theorem fill_of_empty (rounds : ℕ) (outer : NestedPairs) (s : Filling)
    (h : ∀ p ∈ outer, p.2 = []) :
    fillOuter ds (rounds + 1) (.array (outer.map fun p => pairToArray (p.1, .hash p.2))) s =
      .returned s := by
  rw [fillOuter, forEntries_array]
  induction outer with
  | nil => rfl
  | cons p outer ih =>
    have hp : p.2 = [] := h p (by simp)
    rw [List.map_cons, List.foldlM_cons]
    simp only [rbAryEntry_pair_zero, rbAryEntry_pair_one, toA_hash, hp, List.map_nil,
      fillInner_nil, Outcome.returned_bind]
    exact ih fun q hq => h q (by simp [hq])

/-- Behind the counting pass and the allocation the conversion is the outer loop. -/
theorem convertMapattributes_toHash (hmemory : ∀ n, ds.allocateMapAttribute n = true)
    (rounds : ℕ) (outer : NestedPairs) : convertMapattributes ds rounds outer.toHash = (do
      let s ← fillOuter ds rounds
        (.array (outer.map fun p => pairToArray (p.1, .hash p.2))) ⟨0, []⟩
      return ⟨outer.size, s.slots⟩) := by
  simp only [convertMapattributes, NestedPairs.toHash, toA_hash, List.map_map,
    Outcome.returned_bind, Function.comp_def, countMapattributes_toHash, hmemory, if_true]

/-- The counting pass gets past hashes of hashes only. -/
theorem exists_nestedPairs {pairs : List (Value × Value)} {n : ℕ}
    (h : countMapattributes (.array (pairs.map pairToArray)) = .returned n) :
    ∃ outer : NestedPairs, pairs = outer.map fun p => (p.1, .hash p.2) := by
  rw [countMapattributes, forEntries_array, List.foldlM_map] at h
  simp only [rbAryEntry_pair_one, Outcome.returned_bind] at h
  generalize 0 = m at h
  induction pairs generalizing m with
  | nil => exact ⟨[], rfl⟩
  | cons p pairs ih =>
    rw [List.foldlM_cons] at h
    rcases Outcome.bind_eq_returned.mp h with ⟨k, hk, hrest⟩
    rcases Outcome.bind_eq_returned.mp hk with ⟨size, hsize, -⟩
    rcases ih k hrest with ⟨outer, rfl⟩
    rcases p with ⟨attr, inner⟩
    cases inner with
    | hash q => exact ⟨(attr, q) :: outer, rfl⟩
    | _ => cases hsize

/-- Only a hash of empty hashes is converted. -/
theorem convertMapattributes_returned {rounds : ℕ} {x : Value} {result : MapAttributes}
    (h : convertMapattributes ds rounds x = .returned result) :
    ∃ pairs, x = .hash pairs ∧ ∀ p ∈ pairs, p.2 = .hash [] := by
  cases x with
  | hash pairs =>
    rw [convertMapattributes, toA_hash, Outcome.returned_bind] at h
    rcases Outcome.bind_eq_returned.mp h with ⟨n, hn, h⟩
    rcases exists_nestedPairs hn with ⟨outer, rfl⟩
    split at h
    · rcases Outcome.bind_eq_returned.mp h with ⟨s, hs, -⟩
      rw [List.map_map] at hs
      have hempty := (fill_returned ds rounds outer ⟨0, []⟩ s hs).1
      refine ⟨_, rfl, List.forall_mem_map.mpr fun p hp => ?_⟩
      rw [hempty p hp]
    · cases h
  | _ => cases h

/-- The conversion ends with the flattening of its argument exactly when there is nothing to
flatten. -/
theorem convertMapattributes_flattens_iff (hmemory : ∀ n, ds.allocateMapAttribute n = true)
    (outer : NestedPairs) :
    (∃ rounds result, convertMapattributes ds rounds outer.toHash = .returned result ∧
      Flattens ds outer result) ↔ ∀ p ∈ outer, p.2 = [] := by
  constructor
  · rintro ⟨rounds, result, hresult, -⟩
    rw [convertMapattributes_toHash ds hmemory] at hresult
    rcases Outcome.bind_eq_returned.mp hresult with ⟨s, hs, -⟩
    exact (fill_returned ds rounds outer ⟨0, []⟩ s hs).1
  · intro h
    have hsize : outer.size = 0 := by
      rw [NestedPairs.size, List.sum_eq_zero_iff_forall_eq_nat]
      intro n hn
      rcases List.mem_map.mp hn with ⟨p, hp, rfl⟩
      simp [h p hp]
    have hflatten : outer.flatten = [] := by
      simpa [NestedPairs.flatten, List.flatMap_eq_nil_iff] using h
    refine ⟨1, ⟨outer.size, []⟩, ?_, ⟨rfl, ?_, ?_⟩⟩
    · rw [convertMapattributes_toHash ds hmemory, fill_of_empty ds 0 outer ⟨0, []⟩ h]
      rfl
    · simp [hsize]
    · simp [hflatten]

/-- `{a: {}, b: {}}` -/
theorem convertMapattributes_flattens_packedFormat :
    ∃ rounds result,
      convertMapattributes packedFormat rounds
        (NestedPairs.toHash [(.symbol [97], []), (.symbol [98], [])]) = .returned result ∧
      Flattens packedFormat [(.symbol [97], []), (.symbol [98], [])] result :=
  (convertMapattributes_flattens_iff packedFormat (fun _ => rfl)
    [(.symbol [97], []), (.symbol [98], [])]).mpr (by simp)

/-- `{a: {1 => 2}}` is convertible, but its conversion reads past the inner pairs. -/
theorem convertMapattributes_single_pair :
    NestedPairs.Convertible packedFormat [(.symbol [97], [(.integer 1, .integer 2)])] ∧
      convertMapattributes packedFormat 2
        (NestedPairs.toHash [(.symbol [97], [(.integer 1, .integer 2)])]) = .undefined ∧
      ∀ rounds result, convertMapattributes packedFormat rounds
        (NestedPairs.toHash [(.symbol [97], [(.integer 1, .integer 2)])]) ≠ .returned result := by
  refine ⟨⟨?_, ?_, ?_⟩, rfl, fun rounds result hresult => ?_⟩
  · intro p hp
    rw [List.mem_singleton.mp hp]
    exact ⟨[97], rfl⟩
  · intro p hp q hq
    obtain rfl := List.mem_singleton.mp hp
    obtain rfl := List.mem_singleton.mp hq
    exact ⟨_, rfl⟩
  · intro p hp q hq
    obtain rfl := List.mem_singleton.mp hp
    obtain rfl := List.mem_singleton.mp hq
    exact ⟨_, rfl⟩
  · rw [convertMapattributes_toHash packedFormat (fun _ => rfl)] at hresult
    rcases Outcome.bind_eq_returned.mp hresult with ⟨s, hs, -⟩
    have hempty := (fill_returned packedFormat rounds
      [(.symbol [97], [(.integer 1, .integer 2)])] ⟨0, []⟩ s hs).1
    simp at hempty

end HyperDex.Conversion
