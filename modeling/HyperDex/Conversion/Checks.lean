import HyperDex.Conversion.Predicates
import Mathlib.Data.List.Forall2
import Mathlib.Data.Set.List

/-!
# What the checks of a predicates hash are

Both passes of the conversion follow one list: the checks of the values of the
hash, in order. The sizing pass computes its length and rejects what the second
pass could not write; the second pass writes it slot by slot. The checks then
say of an object what the predicates say of its attributes.
-/
namespace HyperDex.Conversion
open General Ruby

/-- A predicate's checks; any other value stands for one test of equality. -/
def objectChecks (x : Value) : PredicateChecks :=
  match x with
  | .predicate checks => checks
  | _ => [(.equals, x)]

def checksOf (x : Value) : PredicateChecks :=
  match x with
  | .array (first :: rest) =>
    if isPredicate first then (first :: rest).flatMap objectChecks else [(.equals, x)]
  | _ => objectChecks x

def flattenPredicates (pairs : List (Value × Value)) : List (Value × Hyperpredicate × Value) :=
  pairs.flatMap fun p => (checksOf p.2).map fun c => (p.1, c)

/-- The elements of an array that starts with a predicate. -/
def predicateArray : Value → List Value
  | .array (first :: rest) => if isPredicate first then first :: rest else []
  | _ => []

/-- The asserts in the conversion of a value: what it takes for a predicate is one. -/
def AssertsHold (x : Value) : Prop := ∀ pred ∈ predicateArray x, isPredicate pred = true

variable {Obj : Type} (ds : DataStructures Obj)

/-- The check written for one entry of the flattening. -/
structure CheckFor (entry : Value × Hyperpredicate × Value) (check : AttributeCheck) : Prop where
  attr : convertCstring entry.1 "Attribute name must be a string or symbol" = .returned check.attr
  predicate : check.predicate = entry.2.1
  value : convertType ds entry.2.2 = .returned check.value

/-- Every slot of the array is written once, in order, and holds the check of its entry. -/
structure WritesChecks (pairs : List (Value × Value))
    (result : ℕ × List (ℕ × AttributeCheck)) : Prop where
  size : result.2.length = result.1
  slots : result.2.map Prod.fst = List.range result.1
  checks : List.Forall₂ (CheckFor ds) (flattenPredicates pairs) (result.2.map Prod.snd)

/-- "figure out how many checks to allocate" -/
def sizePredicates (hashPairs : Value) : Conv ℕ :=
  forEntries hashPairs (fun checksSz hashPair => do
    let val ← rbAryEntry hashPair 1
    let n ← estimatePredicateSize val
    return checksSz + n) 0

def mixedArrayError : Client.Exn := typeError "Cannot convert predicate to a HyperDex type"

theorem objectChecks_of_isPredicate {x : Value} (h : isPredicate x = true) :
    x = .predicate (objectChecks x) := by
  cases x <;> first | rfl | exact nomatch h

theorem numChecks_of_isPredicate {x : Value} (h : isPredicate x = true) :
    numChecks x = .returned (objectChecks x).length := by
  rw [objectChecks_of_isPredicate h]
  rfl

theorem numChecks_of_not_isPredicate {x : Value} (h : isPredicate x = false) :
    numChecks x = .raised mixedArrayError := by
  cases x <;> first | rfl | exact nomatch h

/-- A value is an array that starts with a predicate, or the conversion takes it as a whole. -/
theorem predicateArray_cases (x : Value) :
    (∃ first rest, x = .array (first :: rest) ∧ isPredicate first = true ∧
      predicateArray x = first :: rest) ∨
    (predicateArray x = [] ∧ estimatePredicateSize x = .returned (checksOf x).length) := by
  cases x with
  | array xs =>
    cases xs with
    | nil => exact .inr ⟨rfl, rfl⟩
    | cons first rest =>
      cases hfirst : isPredicate first with
      | false =>
        refine .inr ⟨?_, ?_⟩
        · simp [predicateArray, hfirst]
        · simp [estimatePredicateSize, checksOf, hfirst]
      | true => exact .inl ⟨first, rest, rfl, hfirst, by simp [predicateArray, hfirst]⟩
  | _ => exact .inr ⟨rfl, rfl⟩

theorem estimatePredicateSize_of_asserts {x : Value} (h : AssertsHold x) :
    estimatePredicateSize x = .returned (checksOf x).length := by
  rcases predicateArray_cases x with ⟨first, rest, rfl, hfirst, harray⟩ | ⟨-, hsize⟩
  · rw [AssertsHold, harray] at h
    simp only [estimatePredicateSize, checksOf, hfirst, if_true, forEntries_array]
    rw [Outcome.foldlM_sum _ fun pred hpred => numChecks_of_isPredicate (h pred hpred),
      Nat.zero_add, List.length_flatMap]
  · exact hsize

theorem estimatePredicateSize_of_mixed {x : Value} (h : ¬ AssertsHold x) :
    estimatePredicateSize x = .raised mixedArrayError := by
  rcases predicateArray_cases x with ⟨first, rest, rfl, hfirst, harray⟩ | ⟨harray, -⟩
  · simp only [AssertsHold, harray, not_forall, Bool.not_eq_true] at h
    rcases h with ⟨pred, hpred, hmixed⟩
    simp only [estimatePredicateSize, hfirst, if_true, forEntries_array]
    refine Outcome.foldlM_raised _ (fun y _ s => ?_) ⟨pred, hpred, fun s => ?_⟩ 0
    · cases hy : isPredicate y with
      | false => exact .inr (by rw [numChecks_of_not_isPredicate hy]; rfl)
      | true => exact .inl ⟨_, by rw [numChecks_of_isPredicate hy]; rfl⟩
    · rw [numChecks_of_not_isPredicate hmixed]
      rfl
  · exact absurd (by simp [AssertsHold, harray]) h

theorem sizePredicates_of_asserts {pairs : List (Value × Value)}
    (h : ∀ p ∈ pairs, AssertsHold p.2) :
    sizePredicates (.array (pairs.map pairToArray)) =
      .returned (flattenPredicates pairs).length := by
  rw [sizePredicates, forEntries_array, List.foldlM_map]
  simp only [rbAryEntry_pair_one, Outcome.returned_bind]
  rw [Outcome.foldlM_sum pairs fun p hp => estimatePredicateSize_of_asserts (h p hp), Nat.zero_add,
    flattenPredicates, List.length_flatMap]
  simp only [List.length_map]

theorem sizePredicates_of_mixed {pairs : List (Value × Value)}
    (h : ∃ p ∈ pairs, ¬ AssertsHold p.2) :
    sizePredicates (.array (pairs.map pairToArray)) = .raised mixedArrayError := by
  rw [sizePredicates, forEntries_array, List.foldlM_map]
  simp only [rbAryEntry_pair_one, Outcome.returned_bind]
  rcases h with ⟨p, hp, hmixed⟩
  refine Outcome.foldlM_raised _ (fun q _ s => ?_) ⟨p, hp, fun s => ?_⟩ 0
  · by_cases hq : AssertsHold q.2
    · exact .inl ⟨_, by rw [estimatePredicateSize_of_asserts hq]; rfl⟩
    · exact .inr (by rw [estimatePredicateSize_of_mixed hq]; rfl)
  · rw [estimatePredicateSize_of_mixed hmixed]
    rfl

/-- "turn the predicate into checks" -/
def writePredicates (hashPairs : Value) : Conv Checks :=
  forEntries hashPairs (fun s hashPair => do
    let key ← rbAryEntry hashPair 0
    let val ← rbAryEntry hashPair 1
    let attr ← convertCstring key "Attribute name must be a string or symbol"
    convertPredicate ds attr val s) ⟨0, []⟩

/-- The checks that a part of the second pass adds, and where the index then stands. -/
structure Written (entries : List (Value × Hyperpredicate × Value)) (s t : Checks) : Prop where
  idx : t.checksIdx = s.checksIdx + entries.length
  slots : ∃ new, t.slots = s.slots ++ new ∧
    new.map Prod.fst = List.range' s.checksIdx entries.length ∧
    List.Forall₂ (CheckFor ds) entries (new.map Prod.snd)

theorem Written.nil (s : Checks) : Written ds [] s s :=
  ⟨rfl, [], by simp, rfl, .nil⟩

theorem Written.append {xs ys : List (Value × Hyperpredicate × Value)} {s t u : Checks}
    (h : Written ds xs s t) (h' : Written ds ys t u) : Written ds (xs ++ ys) s u := by
  rcases h.slots with ⟨new, hnew, hslots, hchecks⟩
  rcases h'.slots with ⟨new', hnew', hslots', hchecks'⟩
  refine ⟨by rw [h'.idx, h.idx, List.length_append, Nat.add_assoc], new ++ new', ?_, ?_, ?_⟩
  · rw [hnew', hnew, List.append_assoc]
  · rw [List.map_append, hslots, hslots', h.idx, List.length_append, List.range'_append_1]
  · rw [List.map_append]
    exact List.rel_append hchecks hchecks'

section Writing
variable {ds}

theorem Written.foldlM {α : Type} {body : Checks → α → Conv Checks}
    {entries : α → List (Value × Hyperpredicate × Value)} (xs : List α)
    (hbody : ∀ x ∈ xs, ∀ s t, body s x = .returned t → Written ds (entries x) s t)
    {s t : Checks} (h : xs.foldlM body s = .returned t) : Written ds (xs.flatMap entries) s t := by
  induction xs generalizing s with
  | nil =>
    obtain rfl : s = t := by simpa using h
    exact .nil ds s
  | cons x xs ih =>
    rw [List.foldlM_cons] at h
    rcases Outcome.bind_eq_returned.mp h with ⟨u, hu, hrest⟩
    rw [List.flatMap_cons]
    exact (hbody x List.mem_cons_self s u hu).append ds
      (ih (fun y hy => hbody y (List.mem_cons_of_mem x hy)) hrest)

variable {key : Value} {attr : Bytes} {s t : Checks}
  (hkey : convertCstring key "Attribute name must be a string or symbol" = .returned attr)

include hkey

theorem convertCheck_written {check : Hyperpredicate × Value}
    (h : convertCheck ds attr s check = .returned t) : Written ds [(key, check)] s t := by
  rcases Outcome.bind_eq_returned.mp h with ⟨value, hvalue, ht⟩
  obtain rfl := Outcome.returned.inj ht
  exact ⟨rfl, _, rfl, rfl, .cons ⟨hkey, rfl, hvalue⟩ .nil⟩

theorem convertPredicateObject_written {x : Value}
    (h : convertPredicateObject ds attr x s = .returned t) :
    Written ds ((objectChecks x).map (Prod.mk key)) s t := by
  cases x with
  | predicate checks =>
    rw [objectChecks, List.map_eq_flatMap]
    apply Written.foldlM checks _ h
    intro check _ s t hst
    exact convertCheck_written hkey hst
  | _ => exact nomatch h

theorem convertPredicate_written {x : Value} (h : convertPredicate ds attr x s = .returned t) :
    Written ds ((checksOf x).map (Prod.mk key)) s t := by
  cases x with
  | predicate checks =>
    rw [convertPredicate] at h
    exact convertPredicateObject_written hkey h
  | array xs =>
    cases xs with
    | nil => exact convertCheck_written hkey h
    | cons first rest =>
      cases hfirst : isPredicate first with
      | false =>
        simp only [convertPredicate, checksOf, hfirst, Bool.false_eq_true, if_false] at h ⊢
        exact convertCheck_written hkey h
      | true =>
        simp only [convertPredicate, checksOf, hfirst, if_true, forEntries_array] at h ⊢
        rw [List.map_flatMap]
        apply Written.foldlM (first :: rest) _ h
        intro pred _ s t hst
        exact convertPredicateObject_written hkey hst
  | _ => exact convertCheck_written hkey h

end Writing

theorem writePredicates_written {pairs : List (Value × Value)} {t : Checks}
    (h : writePredicates ds (.array (pairs.map pairToArray)) = .returned t) :
    Written ds (flattenPredicates pairs) ⟨0, []⟩ t := by
  rw [writePredicates, forEntries_array, List.foldlM_map] at h
  apply Written.foldlM pairs _ h
  intro p _ s t hst
  simp only [rbAryEntry_pair_zero, rbAryEntry_pair_one, Outcome.returned_bind] at hst
  rcases Outcome.bind_eq_returned.mp hst with ⟨attr, hattr, hst⟩
  exact convertPredicate_written hattr hst

/-- Behind the sizing pass the conversion is the second pass. -/
theorem convertPredicates_hash (pairs : List (Value × Value)) :
    convertPredicates ds (.hash pairs) = (do
      let checksSz ← sizePredicates (.array (pairs.map pairToArray))
      if ds.allocateAttributeCheck checksSz then do
        let s ← writePredicates ds (.array (pairs.map pairToArray))
        return (checksSz, s.slots)
      else .raised outOfMemory) := rfl

theorem asserts_of_sizePredicates {pairs : List (Value × Value)} {n : ℕ}
    (h : sizePredicates (.array (pairs.map pairToArray)) = .returned n) :
    ∀ p ∈ pairs, AssertsHold p.2 := by
  by_contra hmixed
  push Not at hmixed
  rw [sizePredicates_of_mixed hmixed] at h
  cases h

theorem convertPredicates_writes {pairs : List (Value × Value)}
    {result : ℕ × List (ℕ × AttributeCheck)}
    (h : convertPredicates ds (.hash pairs) = .returned result) : WritesChecks ds pairs result := by
  rw [convertPredicates_hash] at h
  rcases Outcome.bind_eq_returned.mp h with ⟨checksSz, hsize, h⟩
  rw [sizePredicates_of_asserts (asserts_of_sizePredicates hsize)] at hsize
  obtain rfl := Outcome.returned.inj hsize
  split at h
  · rcases Outcome.bind_eq_returned.mp h with ⟨t, ht, hresult⟩
    obtain rfl := Outcome.returned.inj hresult
    rcases (writePredicates_written ds ht).slots with ⟨new, hnew, hslots, hchecks⟩
    obtain rfl : t.slots = new := hnew
    have hlength : t.slots.length = (flattenPredicates pairs).length := by
      simpa using congrArg List.length hslots
    exact ⟨hlength, hslots.trans List.range_eq_range'.symm, hchecks⟩
  · cases h

/-- How the server compares the value of an attribute with the argument of a check. -/
structure Semantics (V : Type) where
  read : Packed → V
  le : V → V → Prop
  lt : V → V → Prop
  regex : V → V → Prop
  lengthEquals : V → V → Prop
  lengthLessEqual : V → V → Prop
  lengthGreaterEqual : V → V → Prop
  contains : V → V → Prop

section Meaning
variable {V : Type} (sem : Semantics V)

def Semantics.holds (predicate : Hyperpredicate) (v arg : V) : Prop :=
  match predicate with
  | .equals => v = arg
  | .lessThan => sem.lt v arg
  | .lessEqual => sem.le v arg
  | .greaterEqual => sem.le arg v
  | .greaterThan => sem.lt arg v
  | .regex => sem.regex v arg
  | .lengthEquals => sem.lengthEquals v arg
  | .lengthLessEqual => sem.lengthLessEqual v arg
  | .lengthGreaterEqual => sem.lengthGreaterEqual v arg
  | .contains => sem.contains v arg
  | .fail | .other _ => False

/-- The conjunction of the checks over an object. -/
def Semantics.Satisfies (object : Bytes → V) (checks : List AttributeCheck) : Prop :=
  ∀ c ∈ checks, sem.holds c.predicate (object c.attr) (sem.read c.value)

def Semantics.Relates (x : Value) (r : V → Prop) : Prop :=
  ∃ packed, convertType ds x = .returned packed ∧ r (sem.read packed)

theorem Semantics.relates_single (predicate : Hyperpredicate) (x : Value) (v : V) :
    (∀ c ∈ [(predicate, x)], sem.Relates ds c.2 (sem.holds c.1 v)) ↔
      sem.Relates ds x (sem.holds predicate v) :=
  List.forall_mem_singleton

/-- What a predicate says of the value `v`. -/
def Predicate.Means (p : Predicate) (v : V) : Prop :=
  match p with
  | .predicate _ => False
  | .equals a => sem.Relates ds a (v = ·)
  | .lessEqual a => sem.Relates ds a (sem.le v ·)
  | .greaterEqual a => sem.Relates ds a (sem.le · v)
  | .lessThan a => sem.Relates ds a (sem.lt v ·)
  | .greaterThan a => sem.Relates ds a (sem.lt · v)
  | .range lower upper => sem.Relates ds lower fun l => sem.Relates ds upper fun u =>
      sem.le l v ∧ sem.le v u
  | .regex a => sem.Relates ds a (sem.regex v ·)
  | .lengthEquals a => sem.Relates ds a (sem.lengthEquals v ·)
  | .lengthLessEqual a => sem.Relates ds a (sem.lengthLessEqual v ·)
  | .lengthGreaterEqual a => sem.Relates ds a (sem.lengthGreaterEqual v ·)
  | .contains a => sem.Relates ds a (sem.contains v ·)

/-- A value of a predicates hash: a plain value, a predicate, or an array of predicates. -/
inductive Condition where
  | equal (x : Value) (plain : isPredicate x = false ∧ predicateArray x = [])
  | predicate (p : Predicate)
  | all (first : Predicate) (rest : List Predicate)

def Condition.toValue : Condition → Value
  | .equal x _ => x
  | .predicate p => p.toValue
  | .all first rest => .array ((first :: rest).map Predicate.toValue)

/-- The per-attribute predicate that a value of the hash stands for. -/
def Condition.Means (c : Condition) (v : V) : Prop :=
  match c with
  | .equal x _ => sem.Relates ds x (v = ·)
  | .predicate p => p.Means ds sem v
  | .all first rest => ∀ p ∈ first :: rest, p.Means ds sem v

/-- A predicate says what the conjunction of its checks says. -/
theorem Predicate.means_iff (p : Predicate) (v : V) :
    p.Means ds sem v ↔ ∀ c ∈ p.checks, sem.Relates ds c.2 (sem.holds c.1 v) := by
  cases p with
  | predicate a => simp [Means, checks, predicateInit, initCheck, predicateAlloc1, zeroedChecks,
      Semantics.Relates, Semantics.holds]
  | range lower upper =>
    have hchecks : (Predicate.range lower upper).checks =
      [(.greaterEqual, lower), (.lessEqual, upper)] := rfl
    rw [hchecks, List.forall_mem_cons, Semantics.relates_single]
    constructor
    · rintro ⟨l, hl, u, hu, hlv, hvu⟩
      exact ⟨⟨l, hl, hlv⟩, ⟨u, hu, hvu⟩⟩
    · rintro ⟨⟨l, hl, hlv⟩, ⟨u, hu, hvu⟩⟩
      exact ⟨l, hl, u, hu, hlv, hvu⟩
  | equals a => exact (sem.relates_single ds .equals a v).symm
  | lessEqual a => exact (sem.relates_single ds .lessEqual a v).symm
  | greaterEqual a => exact (sem.relates_single ds .greaterEqual a v).symm
  | lessThan a => exact (sem.relates_single ds .lessThan a v).symm
  | greaterThan a => exact (sem.relates_single ds .greaterThan a v).symm
  | regex a => exact (sem.relates_single ds .regex a v).symm
  | lengthEquals a => exact (sem.relates_single ds .lengthEquals a v).symm
  | lengthLessEqual a => exact (sem.relates_single ds .lengthLessEqual a v).symm
  | lengthGreaterEqual a => exact (sem.relates_single ds .lengthGreaterEqual a v).symm
  | contains a => exact (sem.relates_single ds .contains a v).symm

theorem checksOf_of_plain {x : Value} (hx : isPredicate x = false)
    (harray : predicateArray x = []) : checksOf x = [(.equals, x)] := by
  cases x with
  | predicate checks => exact nomatch hx
  | array xs =>
    cases xs with
    | nil => rfl
    | cons first rest =>
      cases hfirst : isPredicate first with
      | false => simp [checksOf, hfirst]
      | true => simp [predicateArray, hfirst] at harray
  | _ => rfl

theorem checksOf_all (first : Predicate) (rest : List Predicate) :
    checksOf (Condition.all first rest).toValue = (first :: rest).flatMap Predicate.checks := by
  simp only [Condition.toValue, List.map_cons, checksOf, Predicate.toValue, isPredicate, if_true]
  simp [List.flatMap_map, objectChecks, Predicate.toValue]

theorem Condition.means_iff (c : Condition) (v : V) :
    c.Means ds sem v ↔ ∀ k ∈ checksOf c.toValue, sem.Relates ds k.2 (sem.holds k.1 v) := by
  cases c with
  | equal x plain =>
    rw [toValue, checksOf_of_plain plain.1 plain.2]
    exact (sem.relates_single ds .equals x v).symm
  | predicate p => exact p.means_iff ds sem v
  | all first rest =>
    rw [checksOf_all]
    simp only [Means, Predicate.means_iff, List.mem_flatMap]
    constructor
    · rintro h k ⟨p, hp, hk⟩
      exact h p hp k hk
    · exact fun h p hp k hk => h k ⟨p, hp, hk⟩

theorem Condition.checksOf_ne_nil (c : Condition) : checksOf c.toValue ≠ [] := by
  have hchecks (p : Predicate) : p.checks ≠ [] := by
    cases p <;> exact List.cons_ne_nil _ _
  cases c with
  | equal x plain =>
    rw [toValue, checksOf_of_plain plain.1 plain.2]
    exact List.cons_ne_nil _ _
  | predicate p => exact hchecks p
  | all first rest =>
    rw [checksOf_all, List.flatMap_cons]
    exact List.append_ne_nil_of_left_ne_nil (hchecks first) _

/-- The checks that are written say of an object what the conditions say of its attributes. -/
theorem WritesChecks.satisfies_iff {conditions : List (Value × Condition)}
    {result : ℕ × List (ℕ × AttributeCheck)}
    (h : WritesChecks ds (conditions.map fun q => (q.1, q.2.toValue)) result)
    (object : Bytes → V) :
    sem.Satisfies object (result.2.map Prod.snd) ↔ ∀ q ∈ conditions, ∃ name,
      convertCstring q.1 "Attribute name must be a string or symbol" = .returned name ∧
        q.2.Means ds sem (object name) := by
  have hentry (entries : List (Value × Hyperpredicate × Value)) (checks : List AttributeCheck)
      (hchecks : List.Forall₂ (CheckFor ds) entries checks) :
      sem.Satisfies object checks ↔ ∀ e ∈ entries, ∃ name,
        convertCstring e.1 "Attribute name must be a string or symbol" = .returned name ∧
          sem.Relates ds e.2.2 (sem.holds e.2.1 (object name)) := by
    induction hchecks with
    | nil => simp [Semantics.Satisfies]
    | @cons e c entries checks hcheck _ ih =>
      have hone : sem.holds c.predicate (object c.attr) (sem.read c.value) ↔ ∃ name,
          convertCstring e.1 "Attribute name must be a string or symbol" = .returned name ∧
            sem.Relates ds e.2.2 (sem.holds e.2.1 (object name)) := by
        simp [Semantics.Relates, hcheck.attr, hcheck.predicate, hcheck.value]
      rw [Semantics.Satisfies, List.forall_mem_cons, List.forall_mem_cons, ← ih, hone]
      rfl
  rw [hentry _ _ h.checks]
  simp only [flattenPredicates, List.flatMap_map, List.mem_flatMap, List.mem_map,
    Condition.means_iff]
  constructor
  · intro hall q hq
    rcases List.exists_mem_of_ne_nil _ q.2.checksOf_ne_nil with ⟨k, hk⟩
    rcases hall (q.1, k) ⟨q, hq, k, hk, rfl⟩ with ⟨name, hname, -⟩
    refine ⟨name, hname, fun k' hk' => ?_⟩
    rcases hall (q.1, k') ⟨q, hq, k', hk', rfl⟩ with ⟨name', hname', hrelates⟩
    obtain rfl : name = name' := Outcome.returned.inj (hname.symm.trans hname')
    exact hrelates
  · rintro hall _ ⟨q, hq, k, hk, rfl⟩
    rcases hall q hq with ⟨name, hname, hmeans⟩
    exact ⟨name, hname, hmeans k hk⟩

end Meaning

end HyperDex.Conversion
