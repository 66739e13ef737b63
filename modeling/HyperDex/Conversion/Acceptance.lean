import HyperDex.Conversion.Convert
import HyperDex.Conversion.PackedFormat

/-!
# Which values can be converted

A scalar has a kind, and a container is accepted when its elements are scalars
of one kind. The converters find this out element by element, from the type of
the element and from what the library answers; the first element that does not
fit decides the exception. Objects are an exception of their own: the test that
should reject all but sets rejects none.
-/
namespace HyperDex.Conversion
open General Ruby Client

def InRange (i : Int) : Prop := -2 ^ 63 ≤ i ∧ i < 2 ^ 63

instance (i : Int) : Decidable (InRange i) := by
  unfold InRange
  infer_instance

def scalarType : Value → Option Prim
  | .symbol _ | .string _ => some .string
  | .integer _ => some .int64
  | .float _ => some .float
  | _ => none

def hugeInteger : Value → Bool
  | .integer i => ¬ InRange i
  | _ => false

/-- The kind of a scalar that has a representation. -/
def scalarKind (x : Value) : Option Prim := if hugeInteger x then none else scalarType x

/-- A scalar, or an array, a set or a hash whose elements are of one kind; of a hash the keys and
the values, each side separately. -/
def AcceptableFor (kind : Value → Option Prim) : Value → Prop
  | .array xs | .set xs => ∃ p, ∀ x ∈ xs, kind x = some p
  | .hash pairs => (∃ k, ∀ q ∈ pairs, kind q.1 = some k) ∧ ∃ v, ∀ q ∈ pairs, kind q.2 = some v
  | x => kind x ≠ none

abbrev Acceptable : Value → Prop := AcceptableFor scalarKind

def parts : Value → List Value
  | .array xs | .set xs => xs
  | .hash pairs => pairs.flatMap fun q => [q.1, q.2]
  | x => [x]

def elementFault (k : Option Prim) (x : Value) : Option CoreClass :=
  if hugeInteger x then some .rangeError
  else match scalarType x with
    | none => some .typeError
    | some p => if k = none ∨ k = some p then none else some .typeError

def scan {κ α : Type} (fault : κ → α → Option CoreClass) (next : α → κ) :
    κ → List α → Option CoreClass
  | _, [] => none
  | k, x :: xs => (fault k x).or (scan fault next (next x) xs)

def scanElements : List Value → Option CoreClass := scan elementFault scalarType none

def pairFault (k : Option Prim × Option Prim) (q : Value × Value) : Option CoreClass :=
  (elementFault k.1 q.1).or (elementFault k.2 q.2)

def scanPairs : List (Value × Value) → Option CoreClass :=
  scan pairFault (fun q => (scalarType q.1, scalarType q.2)) (none, none)

def valueFault : Value → Option CoreClass
  | .array xs | .set xs => scanElements xs
  | .hash pairs => scanPairs pairs
  | x => elementFault none x

theorem scan_eq_none_iff_of_state {κ α : Type} {fault : κ → α → Option CoreClass} {next : α → κ}
    (k : κ) (xs : List α) (h : ∀ x ∈ xs, fault k x = none → next x = k) :
    scan fault next k xs = none ↔ ∀ x ∈ xs, fault k x = none := by
  induction xs with
  | nil => simp [scan]
  | cons x xs ih =>
    rw [scan, List.forall_mem_cons]
    cases hx : fault k x with
    | some cls => simp
    | none =>
      rw [Option.none_or, h x List.mem_cons_self hx, ih fun y hy => h y (List.mem_cons_of_mem x hy)]
      simp

theorem elementFault_eq_none_iff {k : Option Prim} {x : Value} :
    elementFault k x = none ↔ ∃ p, scalarKind x = some p ∧ (k = none ∨ k = some p) := by
  rw [elementFault, scalarKind]
  cases hugeInteger x with
  | true => simp
  | false =>
    cases scalarType x with
    | none => simp
    | some p => by_cases h : k = none ∨ k = some p <;> simp [h]

theorem scalarType_of_scalarKind {x : Value} {p : Prim} (h : scalarKind x = some p) :
    scalarType x = some p := by
  rw [scalarKind] at h
  split at h
  · cases h
  · exact h

/-- A scan finds no fault exactly over scalars of one kind. -/
theorem scanElements_eq_none_iff (xs : List Value) :
    scanElements xs = none ↔ ∃ p, ∀ x ∈ xs, scalarKind x = some p := by
  cases xs with
  | nil => exact iff_of_true rfl ⟨.string, by simp⟩
  | cons x xs =>
    rw [scanElements, scan]
    cases hx : elementFault none x with
    | some cls =>
      refine iff_of_false (by simp) ?_
      rintro ⟨p, hp⟩
      rw [elementFault_eq_none_iff.mpr ⟨p, hp x List.mem_cons_self, .inl rfl⟩] at hx
      cases hx
    | none =>
      rcases elementFault_eq_none_iff.mp hx with ⟨p, hp, -⟩
      have hstate : ∀ y, elementFault (some p) y = none ↔ scalarKind y = some p := fun y => by
        rw [elementFault_eq_none_iff]
        simp [eq_comm]
      rw [Option.none_or, scalarType_of_scalarKind hp, scan_eq_none_iff_of_state]
      · simp only [hstate]
        constructor
        · exact fun h => ⟨p, List.forall_mem_cons.mpr ⟨hp, h⟩⟩
        · rintro ⟨q, hq⟩
          obtain rfl : p = q := Option.some.inj (hp.symm.trans (hq x List.mem_cons_self))
          exact fun y hy => hq y (List.mem_cons_of_mem x hy)
      · exact fun y _ hy => scalarType_of_scalarKind ((hstate y).mp hy)

theorem scan_pairs_eq_none_iff (k v : Option Prim) (pairs : List (Value × Value)) :
    scan pairFault (fun q => (scalarType q.1, scalarType q.2)) (k, v) pairs = none ↔
      scan elementFault scalarType k (pairs.map Prod.fst) = none ∧
        scan elementFault scalarType v (pairs.map Prod.snd) = none := by
  induction pairs generalizing k v with
  | nil => simp [scan]
  | cons q pairs ih =>
    simp only [List.map_cons, scan, pairFault]
    cases elementFault k q.1 with
    | some cls => simp
    | none =>
      cases elementFault v q.2 with
      | some cls => simp
      | none => exact ih _ _

theorem valueFault_eq_none_iff (x : Value) : valueFault x = none ↔ Acceptable x := by
  have hscalar (x : Value) : elementFault none x = none ↔ scalarKind x ≠ none := by
    rw [elementFault_eq_none_iff, Option.ne_none_iff_exists']
    simp
  cases x with
  | array xs => exact scanElements_eq_none_iff xs
  | set xs => exact scanElements_eq_none_iff xs
  | hash pairs =>
    have hkeys := scanElements_eq_none_iff (pairs.map Prod.fst)
    have hvals := scanElements_eq_none_iff (pairs.map Prod.snd)
    simp only [List.forall_mem_map] at hkeys hvals
    rw [valueFault, scanPairs, scan_pairs_eq_none_iff]
    exact and_congr hkeys hvals
  | _ => exact hscalar _

theorem elementFault_eq_some {k : Option Prim} {x : Value} {cls : CoreClass}
    (h : elementFault k x = some cls) :
    (cls = .rangeError ∧ hugeInteger x = true) ∨
      (cls = .typeError ∧ ∀ p, k = none ∨ k = some p → scalarType x ≠ some p) := by
  rw [elementFault] at h
  split at h
  · next hhuge => exact .inl ⟨(Option.some.inj h).symm, hhuge⟩
  · cases htype : scalarType x with
    | none =>
      simp only [htype, Option.some.injEq] at h
      exact .inr ⟨h.symm, fun p _ => by simp⟩
    | some p =>
      simp only [htype] at h
      split at h
      · cases h
      · next hk =>
        refine .inr ⟨(Option.some.inj h).symm, fun q hq hpq => hk ?_⟩
        obtain rfl : p = q := Option.some.inj hpq
        exact hq

theorem scan_eq_some {k : Option Prim} {xs : List Value} {cls : CoreClass}
    (h : scan elementFault scalarType k xs = some cls) :
    (cls = .rangeError ∧ ∃ x ∈ xs, hugeInteger x = true) ∨
      (cls = .typeError ∧ ∀ p, k = none ∨ k = some p → ∃ x ∈ xs, scalarType x ≠ some p) := by
  induction xs generalizing k with
  | nil => cases h
  | cons x xs ih =>
    rw [scan] at h
    cases hx : elementFault k x with
    | some cls' =>
      rw [hx, Option.some_or, Option.some.injEq] at h
      subst h
      rcases elementFault_eq_some hx with ⟨hcls, hhuge⟩ | ⟨hcls, htype⟩
      · exact .inl ⟨hcls, x, List.mem_cons_self, hhuge⟩
      · exact .inr ⟨hcls, fun p hp => ⟨x, List.mem_cons_self, htype p hp⟩⟩
    | none =>
      rw [hx, Option.none_or] at h
      rcases ih h with ⟨hcls, y, hy, hhuge⟩ | ⟨hcls, htype⟩
      · exact .inl ⟨hcls, y, List.mem_cons_of_mem x hy, hhuge⟩
      · refine .inr ⟨hcls, fun p _ => ?_⟩
        by_cases hp : scalarType x = some p
        · rcases htype p (.inr hp) with ⟨y, hy, hne⟩
          exact ⟨y, List.mem_cons_of_mem x hy, hne⟩
        · exact ⟨x, List.mem_cons_self, hp⟩

/-- The first fault of a list of pairs is the first fault of one of its sides. -/
theorem scan_pairs_eq_some {k v : Option Prim} {pairs : List (Value × Value)} {cls : CoreClass}
    (h : scan pairFault (fun q => (scalarType q.1, scalarType q.2)) (k, v) pairs = some cls) :
    scan elementFault scalarType k (pairs.map Prod.fst) = some cls ∨
      scan elementFault scalarType v (pairs.map Prod.snd) = some cls := by
  induction pairs generalizing k v with
  | nil => cases h
  | cons q pairs ih =>
    simp only [List.map_cons, scan, pairFault] at h ⊢
    cases hkey : elementFault k q.1 with
    | some cls' => exact .inl (by simpa [hkey] using h)
    | none =>
      cases hval : elementFault v q.2 with
      | some cls' => exact .inr (by simpa [hkey, hval] using h)
      | none =>
        simp only [hkey, hval, Option.none_or] at h ⊢
        exact ih h

/-- The fault of a value is an integer out of range among its scalars, or lies in their types. -/
theorem valueFault_eq_some {x : Value} {cls : CoreClass} (h : valueFault x = some cls) :
    (cls = .rangeError ∧ ∃ y ∈ parts x, hugeInteger y = true) ∨
      (cls = .typeError ∧ ¬ AcceptableFor scalarType x) := by
  have hscalar {x : Value} (h : elementFault none x = some cls) :
      (cls = .rangeError ∧ ∃ y ∈ [x], hugeInteger y = true) ∨
        (cls = .typeError ∧ ¬ scalarType x ≠ none) := by
    rcases elementFault_eq_some h with ⟨hcls, hhuge⟩ | ⟨hcls, htype⟩
    · exact .inl ⟨hcls, x, List.mem_singleton_self x, hhuge⟩
    · refine .inr ⟨hcls, not_not.mpr (Option.eq_none_iff_forall_ne_some.mpr ?_)⟩
      exact fun p => htype p (.inl rfl)
  have hlist {xs : List Value} (h : scanElements xs = some cls) :
      (cls = .rangeError ∧ ∃ y ∈ xs, hugeInteger y = true) ∨
        (cls = .typeError ∧ ¬ ∃ p, ∀ x ∈ xs, scalarType x = some p) := by
    rcases scan_eq_some h with hrange | ⟨hcls, htype⟩
    · exact .inl hrange
    · refine .inr ⟨hcls, ?_⟩
      rintro ⟨p, hp⟩
      rcases htype p (.inl rfl) with ⟨x, hx, hne⟩
      exact hne (hp x hx)
  cases x with
  | array xs => exact hlist h
  | set xs => exact hlist h
  | hash pairs =>
    have hside (f : Value × Value → Value) (hf : ∀ q, f q = q.1 ∨ f q = q.2)
        (hscan : scanElements (pairs.map f) = some cls) :
        (cls = .rangeError ∧ ∃ y ∈ parts (.hash pairs), hugeInteger y = true) ∨
          (cls = .typeError ∧ ¬ ∃ p, ∀ q ∈ pairs, scalarType (f q) = some p) := by
      rcases hlist hscan with ⟨hcls, y, hy, hhuge⟩ | ⟨hcls, htype⟩
      · rcases List.mem_map.mp hy with ⟨q, hq, rfl⟩
        exact .inl ⟨hcls, f q, List.mem_flatMap.mpr ⟨q, hq, by simpa using hf q⟩, hhuge⟩
      · exact .inr ⟨hcls, by simpa only [List.forall_mem_map] using htype⟩
    rcases scan_pairs_eq_some h with hscan | hscan
    · apply (hside Prod.fst (fun _ => .inl rfl) hscan).imp_right
      exact And.imp_right fun htype hacc => htype hacc.1
    · apply (hside Prod.snd (fun _ => .inr rfl) hscan).imp_right
      exact And.imp_right fun htype hacc => htype hacc.2
  | _ => exact hscalar h

/-- Functions that take an element of kind `p` after none or after elements of that kind, and
refuse it after others; `taken` and `taken'` are the states before and after, by the kind of the
elements. -/
structure Appends {Obj : Type} (f : (p : Prim) → Obj → p.Elem → Except DsReturnCode Obj)
    (taken taken' : Option Prim → Obj → Prop) : Prop where
  accepts : ∀ k x p, taken k x → (k = none ∨ k = some p) →
    ∀ e : p.Elem, ∃ y, f p x e = .ok y ∧ taken' (some p) y
  refuses : ∀ q x p, taken (some q) x → q ≠ p → ∀ e : p.Elem, f p x e = .error .mixedTypes

/-- Memory suffices, and an element is refused, with `MIXED_TYPES`, exactly when its kind differs
from that of the earlier ones. -/
structure DataStructures.Typed {Obj : Type} (ds : DataStructures Obj) : Prop where
  copyString : ∀ b, ∃ buf, ds.copyString b = some buf
  copyInt : ∀ i, ∃ buf, ds.copyInt i = some buf
  copyFloat : ∀ d, ∃ buf, ds.copyFloat d = some buf
  list : ∃ taken : Option Prim → Obj → Prop,
    (∃ x, ds.allocateList = some x ∧ taken none x) ∧ Appends ds.listAppend taken taken ∧
      ∀ k x, taken k x → ∃ packed, ds.listFinalize x = some packed
  set : ∃ taken : Option Prim → Obj → Prop,
    (∃ x, ds.allocateSet = some x ∧ taken none x) ∧ Appends ds.setInsert taken taken ∧
      ∀ k x, taken k x → ∃ packed, ds.setFinalize x = some packed
  map : ∃ taken takenKey : Option Prim → Option Prim → Obj → Prop,
    (∃ x, ds.allocateMap = some x ∧ taken none none x) ∧
      (∀ v, Appends ds.mapInsertKey (taken · v) (takenKey · v)) ∧
      (∀ k, Appends ds.mapInsertVal (takenKey k) (taken k)) ∧
      ∀ k v x, taken k v x → ∃ packed, ds.mapFinalize x = some packed

/-- The end that a fault stands for; without a fault the result has the property. -/
def Ends {α : Type} (P : α → Prop) (x : Conv α) : Option CoreClass → Prop
  | none => ∃ a, x = .returned a ∧ P a
  | some cls => ∃ message, x = .raised (.core cls message)

section Loops
variable {Obj : Type}

theorem Ends.bind {α β : Type} {P : α → Prop} {Q : β → Prop} {x : Conv α} {f : α → Conv β}
    {fault fault' : Option CoreClass} (hx : Ends P x fault) (hf : ∀ a, P a → Ends Q (f a) fault') :
    Ends Q (x >>= f) (fault.or fault') := by
  cases fault with
  | some cls =>
    rcases hx with ⟨message, rfl⟩
    exact ⟨message, rfl⟩
  | none =>
    rcases hx with ⟨a, rfl, ha⟩
    exact hf a ha

theorem Ends.foldlM {κ α : Type} {fault : κ → α → Option CoreClass} (next : α → κ)
    (taken : κ → Obj → Prop) {body : Obj → α → Conv Obj}
    (hbody : ∀ k x a, taken k x → Ends (taken (next a)) (body x a) (fault k a)) (k : κ) {x : Obj}
    (hx : taken k x) (xs : List α) :
    Ends (fun y => ∃ k', taken k' y) (xs.foldlM body x) (scan fault next k xs) := by
  induction xs generalizing k x with
  | nil => exact ⟨x, rfl, k, hx⟩
  | cons a xs ih =>
    rw [List.foldlM_cons, scan]
    exact (hbody k x a hx).bind fun y hy => ih (next a) hy

theorem num2ll_of_inRange {i : Int} (h : InRange i) : num2ll i = .returned (Int64.ofInt i) :=
  if_pos h

theorem num2ll_of_not_inRange {i : Int} (h : ¬ InRange i) :
    ∃ message, num2ll i = .raised (.core .rangeError message) :=
  ⟨_, if_neg h⟩

variable {f : (p : Prim) → Obj → p.Elem → Except DsReturnCode Obj}
  {taken taken' : Option Prim → Obj → Prop}

/-- An element of kind `p` meets what the library says of the kind. -/
theorem Appends.ends (hf : Appends f taken taken') {k : Option Prim} {x : Obj} (hx : taken k x)
    (type : String) (p : Prim) (e : p.Elem) :
    Ends (taken' (some p)) (elemResult type (f p x e))
      (if k = none ∨ k = some p then none else some .typeError) := by
  by_cases hk : k = none ∨ k = some p
  · rcases hf.accepts k x p hx hk e with ⟨y, hy, htaken⟩
    rw [if_pos hk, hy]
    exact ⟨y, rfl, htaken⟩
  · rw [if_neg hk]
    cases k with
    | none => exact absurd (.inl rfl) hk
    | some q =>
      rw [hf.refuses q x p hx fun hq => hk (.inr (congrArg some hq))]
      exact ⟨_, rfl⟩

theorem convertElemWith_ends (hf : Appends f taken taken') {k : Option Prim} {x : Obj}
    (hx : taken k x) (e : Value) :
    Ends (taken' (scalarType e)) (convertElemWith e x f) (elementFault k e) := by
  cases e with
  | symbol name => exact hf.ends hx "string" .string (cString name)
  | string b => exact hf.ends hx "string" .string b
  | float d => exact hf.ends hx "float" .float d
  | integer i =>
    by_cases hi : InRange i
    · simp only [convertElemWith, convertElem, num2ll_of_inRange hi, Outcome.returned_bind]
      have hfault : elementFault k (.integer i) =
          if k = none ∨ k = some .int64 then none else some .typeError := by
        simp [elementFault, hugeInteger, hi, scalarType]
      rw [hfault]
      exact hf.ends hx "integer" .int64 (Int64.ofInt i)
    · rcases num2ll_of_not_inRange hi with ⟨message, hraised⟩
      simp only [convertElemWith, convertElem, hraised, Outcome.raised_bind]
      have hfault : elementFault k (.integer i) = some .rangeError := by
        simp [elementFault, hugeInteger, hi]
      rw [hfault]
      exact ⟨message, rfl⟩
  | _ => exact ⟨_, rfl⟩

theorem fill_ends {finalize : Obj → Option Packed} {empty : Obj} (hempty : taken none empty)
    (hf : Appends f taken taken) (hfinalize : ∀ k x, taken k x → ∃ packed, finalize x = some packed)
    (xs : List Value) :
    Ends (fun _ => True) (do
      let x ← forEntries (.array xs) (fun x entry => convertElemWith entry x f) empty
      orOutOfMemory (finalize x)) (scanElements xs) := by
  have hloop := Ends.foldlM scalarType taken (fun k x e hx => convertElemWith_ends hf hx e) none
    hempty xs
  rw [forEntries_array, ← Option.or_none (o := scanElements xs)]
  apply hloop.bind
  intro y hy
  rcases hy with ⟨k, hk⟩
  rcases hfinalize k y hk with ⟨packed, hpacked⟩
  exact ⟨packed, by rw [hpacked]; rfl, trivial⟩

end Loops

section Values
variable {Obj : Type} {ds : DataStructures Obj} (hds : ds.Typed)

include hds

theorem convertList_ends (xs : List Value) :
    Ends (fun _ => True) (convertList ds (.array xs)) (scanElements xs) := by
  rcases hds.list with ⟨taken, ⟨empty, hallocate, hempty⟩, hf, hfinalize⟩
  simp only [convertList, hallocate, orOutOfMemory, Outcome.returned_bind]
  exact fill_ends hempty hf hfinalize xs

theorem convertSet_ends {x : Value} {xs : List Value} (hx : toA x = .returned (.array xs)) :
    Ends (fun _ => True) (convertSet ds x) (scanElements xs) := by
  rcases hds.set with ⟨taken, ⟨empty, hallocate, hempty⟩, hf, hfinalize⟩
  simp only [convertSet, hx, hallocate, orOutOfMemory, Outcome.returned_bind]
  exact fill_ends hempty hf hfinalize xs

theorem convertMap_ends (pairs : List (Value × Value)) :
    Ends (fun _ => True) (convertMap ds (.hash pairs)) (scanPairs pairs) := by
  rcases hds.map with ⟨taken, takenKey, ⟨empty, hallocate, hempty⟩, hkey, hval, hfinalize⟩
  simp only [convertMap, toA_hash, hallocate, orOutOfMemory, Outcome.returned_bind,
    forEntries_array, List.foldlM_map, rbAryEntry_pair_zero, rbAryEntry_pair_one]
  have hpair (kv : Option Prim × Option Prim) (map : Obj) (q : Value × Value)
      (hmap : taken kv.1 kv.2 map) : Ends (taken (scalarType q.1) (scalarType q.2)) (do
        let map ← convertElemWith q.1 map ds.mapInsertKey
        convertElemWith q.2 map ds.mapInsertVal) (pairFault kv q) :=
    (convertElemWith_ends (hkey kv.2) hmap q.1).bind fun y hy =>
      convertElemWith_ends (hval (scalarType q.1)) hy q.2
  have hloop := Ends.foldlM (fun q => (scalarType q.1, scalarType q.2))
    (fun kv : Option Prim × Option Prim => taken kv.1 kv.2) hpair (none, none) hempty pairs
  rw [← Option.or_none (o := scanPairs pairs)]
  apply hloop.bind
  intro y hy
  rcases hy with ⟨kv, hkv⟩
  rcases hfinalize kv.1 kv.2 y hkv with ⟨packed, hpacked⟩
  exact ⟨packed, by rw [hpacked], trivial⟩

/-- A value that is no plain object ends as its first fault says. -/
theorem convertType_ends (x : Value) (hx : ∀ toA, x ≠ .object toA) :
    Ends (fun _ => True) (convertType ds x) (valueFault x) := by
  cases x with
  | symbol name =>
    rcases hds.copyString (cString name) with ⟨buf, hcopy⟩
    exact ⟨_, by simp only [convertType, copied, hcopy]; rfl, trivial⟩
  | string b =>
    rcases hds.copyString b with ⟨buf, hcopy⟩
    exact ⟨_, by simp only [convertType, copied, hcopy]; rfl, trivial⟩
  | float d =>
    rcases hds.copyFloat d with ⟨buf, hcopy⟩
    exact ⟨_, by simp only [convertType, copied, hcopy]; rfl, trivial⟩
  | integer i =>
    by_cases hi : InRange i
    · have hfault : valueFault (.integer i) = none := by
        simp [valueFault, elementFault, hugeInteger, hi, scalarType]
      rcases hds.copyInt (Int64.ofInt i) with ⟨buf, hcopy⟩
      rw [hfault]
      refine ⟨⟨buf, .prim .int64⟩, ?_, trivial⟩
      simp only [convertType, num2ll_of_inRange hi, Outcome.returned_bind, copied, hcopy]
      rfl
    · have hfault : valueFault (.integer i) = some .rangeError := by
        simp [valueFault, elementFault, hugeInteger, hi]
      rcases num2ll_of_not_inRange hi with ⟨message, hraised⟩
      rw [hfault]
      exact ⟨message, by simp only [convertType, hraised, Outcome.raised_bind]⟩
  | array xs => exact convertList_ends hds xs
  | hash pairs => exact convertMap_ends hds pairs
  | set xs =>
    rw [convertType_set]
    exact convertSet_ends hds (toA_set xs)
  | object toA => exact absurd rfl (hx toA)
  | _ => exact ⟨_, rfl⟩

/-- What an object's `to_a` returns is all that decides about it. -/
theorem convertType_object_ends (toA : Except Exn Value) :
    (∀ e, toA = .error e → convertType ds (.object toA) = .raised e) ∧
    (∀ xs, toA = .ok (.array xs) →
      Ends (fun _ => True) (convertType ds (.object toA)) (scanElements xs)) ∧
    (∀ x, toA = .ok x → (∀ xs, x ≠ .array xs) → convertType ds (.object toA) = .undefined) := by
  rw [convertType_object]
  refine ⟨?_, ?_, ?_⟩
  · rintro e rfl
    rfl
  · rintro xs rfl
    exact convertSet_ends hds rfl
  · rintro x rfl hx
    rcases hds.set with ⟨taken, ⟨empty, hallocate, -⟩, -⟩
    have htoA : Conversion.toA (.object (.ok x)) = .returned x := rfl
    simp only [convertSet, htoA, hallocate, orOutOfMemory, Outcome.returned_bind, forEntries]
    cases x with
    | array xs => exact absurd rfl (hx xs)
    | _ => rfl

end Values

variable {Obj : Type} (ds : DataStructures Obj)

/-- A value is converted exactly if it is acceptable. Any other is rejected: with `RangeError`
where the range of an integer is all that is wrong, with `TypeError` where no integer is out of
range. -/
structure ConversionLaw (x : Value) : Prop where
  accepts : (∃ packed, convertType ds x = .returned packed) ↔ Acceptable x
  rejects : ¬ Acceptable x → ∃ cls message, convertType ds x = .raised (.core cls message) ∧
    ((cls = .rangeError ∧ ∃ y ∈ parts x, hugeInteger y = true) ∨
      (cls = .typeError ∧ ¬ AcceptableFor scalarType x))

/-- No plain object, or one that is rejected for what its `to_a` does: it raises `TypeError`, or
it returns an array with a fault other than an integer out of range. -/
def NoObjectTaken (x : Value) : Prop :=
  ∀ toA, x = .object toA → (∃ message, toA = .error (typeError message)) ∨
    ∃ xs, toA = .ok (.array xs) ∧ scanElements xs = some .typeError

variable {ds}

theorem conversionLaw_of_ends {x : Value}
    (h : Ends (fun _ => True) (convertType ds x) (valueFault x)) : ConversionLaw ds x := by
  have hacceptable := valueFault_eq_none_iff x
  cases hfault : valueFault x with
  | none =>
    rw [hfault] at h
    rcases h with ⟨packed, hpacked, -⟩
    have hx := hacceptable.mp hfault
    exact ⟨iff_of_true ⟨packed, hpacked⟩ hx, fun hnot => absurd hx hnot⟩
  | some cls =>
    rw [hfault] at h
    rcases h with ⟨message, hraised⟩
    have hnot : ¬ Acceptable x := fun hx => by
      rw [hacceptable.mpr hx] at hfault
      cases hfault
    refine ⟨iff_of_false (by simp [hraised]) hnot, fun _ => ⟨cls, message, hraised, ?_⟩⟩
    exact valueFault_eq_some hfault

/-- The law for a plain object asks for `TypeError`. -/
theorem conversionLaw_object_iff (toA : Except Exn Value) :
    ConversionLaw ds (.object toA) ↔
      ∃ message, convertType ds (.object toA) = .raised (typeError message) := by
  have hnot : ¬ Acceptable (.object toA) := by
    simp [Acceptable, AcceptableFor, scalarKind, hugeInteger, scalarType]
  have htype : ¬ AcceptableFor scalarType (.object toA) := by
    simp [AcceptableFor, scalarType]
  constructor
  · intro hlaw
    rcases hlaw.rejects hnot with ⟨cls, message, hraised, ⟨-, hhuge⟩ | ⟨rfl, -⟩⟩
    · simp [parts, hugeInteger] at hhuge
    · exact ⟨message, hraised⟩
  · rintro ⟨message, hraised⟩
    refine ⟨iff_of_false (by simp [hraised]) hnot, fun _ => ⟨_, message, hraised, ?_⟩⟩
    exact .inr ⟨rfl, htype⟩

/-- Over a library that tells the kinds apart, the law holds of every value but the objects that
are taken for sets. -/
theorem conversionLaw_iff (hds : ds.Typed) (x : Value) : ConversionLaw ds x ↔ NoObjectTaken x := by
  by_cases hx : ∀ toA, x ≠ .object toA
  · exact iff_of_true (conversionLaw_of_ends (convertType_ends hds x hx))
      fun toA htoA => absurd htoA (hx toA)
  · simp only [not_forall, not_not] at hx
    rcases hx with ⟨toA, rfl⟩
    rcases convertType_object_ends hds toA with ⟨herror, harray, hother⟩
    rw [conversionLaw_object_iff]
    constructor
    · rintro ⟨message, hraised⟩ toA' heq
      obtain rfl : toA = toA' := Value.object.inj heq
      cases htoA : toA with
      | error e =>
        rw [herror e htoA] at hraised
        exact .inl ⟨message, congrArg Except.error (Outcome.raised.inj hraised)⟩
      | ok y =>
        by_cases hy : ∃ xs, y = .array xs
        · rcases hy with ⟨xs, rfl⟩
          have hends := harray xs htoA
          rw [hraised] at hends
          cases hfault : scanElements xs with
          | none =>
            rw [hfault] at hends
            rcases hends with ⟨packed, hpacked, -⟩
            cases hpacked
          | some cls =>
            rw [hfault] at hends
            rcases hends with ⟨message', hmessage⟩
            obtain ⟨rfl, -⟩ := Exn.core.inj (Outcome.raised.inj hmessage)
            exact .inr ⟨xs, rfl, hfault⟩
        · rw [hother y htoA fun xs hxs => hy ⟨xs, hxs⟩] at hraised
          cases hraised
    · intro h
      rcases h toA rfl with ⟨message, htoA⟩ | ⟨xs, htoA, hfault⟩
      · exact ⟨message, herror _ htoA⟩
      · have hends := harray xs htoA
        rw [hfault] at hends
        exact hends

namespace PackedFormat

def OfKind (k : Option Prim) (items : List (Σ p : Prim, p.Elem)) : Prop :=
  k = items.head?.map Sigma.fst ∧ ∀ item ∈ items, some item.1 = k

theorem add_accepts {k : Option Prim} {items : List (Σ p : Prim, p.Elem)} {p : Prim}
    (h : OfKind k items) (hk : k = none ∨ k = some p) (e : p.Elem) :
    ∃ items', add p items e = .ok items' ∧ OfKind (some p) items' := by
  have hall : ∀ item ∈ items, item.1 = p := by
    intro item hitem
    have hitem' := h.2 item hitem
    rcases hk with rfl | rfl
    · cases hitem'
    · exact Option.some.inj hitem'
  refine ⟨items ++ [⟨p, e⟩], by rw [add, if_pos hall], ?_, ?_⟩
  · cases items with
    | nil => rfl
    | cons item items => simp [hall item List.mem_cons_self]
  · intro item hitem
    rcases List.mem_append.mp hitem with hitem | hitem
    · rw [hall item hitem]
    · rw [List.mem_singleton.mp hitem]

theorem add_refuses {q p : Prim} {items : List (Σ p : Prim, p.Elem)} (h : OfKind (some q) items)
    (hne : q ≠ p) (e : p.Elem) : add p items e = .error .mixedTypes := by
  rw [add, if_neg]
  intro hall
  cases items with
  | nil => cases h.1
  | cons item items =>
    have hitem := h.2 item List.mem_cons_self
    exact hne (Option.some.inj (hitem.symm.trans (congrArg some (hall item List.mem_cons_self))))

theorem appends_elems {taken taken' : Option Prim → Container → Prop}
    (hkind : ∀ k c, taken k c → OfKind k c.elems)
    (hnext : ∀ k c p items, taken k c → OfKind (some p) items →
      taken' (some p) { c with elems := items }) :
    Appends packedFormat.listAppend taken taken' where
  accepts k c p h hk e := by
    rcases add_accepts (hkind k c h) hk e with ⟨items, hitems, hitemsKind⟩
    exact ⟨{ c with elems := items }, by simp [packedFormat, hitems, Except.map],
      hnext k c p items h hitemsKind⟩
  refuses q c p h hne e := by
    simp [packedFormat, add_refuses (hkind (some q) c h) hne e, Except.map]

theorem appends_vals {taken taken' : Option Prim → Container → Prop}
    (hkind : ∀ v c, taken v c → OfKind v c.vals)
    (hnext : ∀ v c p items, taken v c → OfKind (some p) items →
      taken' (some p) { c with vals := items }) :
    Appends packedFormat.mapInsertVal taken taken' where
  accepts v c p h hv e := by
    rcases add_accepts (hkind v c h) hv e with ⟨items, hitems, hitemsKind⟩
    exact ⟨{ c with vals := items }, by simp [packedFormat, hitems, Except.map],
      hnext v c p items h hitemsKind⟩
  refuses q c p h hne e := by
    simp [packedFormat, add_refuses (hkind (some q) c h) hne e, Except.map]

theorem ofKind_nil : OfKind none [] := ⟨rfl, by simp⟩

theorem listFinalize_isSome (c : Container) : ∃ packed, listFinalize c = some packed := by
  rw [listFinalize]
  cases c.elems <;> exact ⟨_, rfl⟩

theorem setFinalize_isSome (c : Container) : ∃ packed, setFinalize c = some packed := by
  rw [setFinalize]
  cases c.elems <;> exact ⟨_, rfl⟩

theorem mapFinalize_isSome {k v : Option Prim} {c : Container} (hk : OfKind k c.elems)
    (hv : OfKind v c.vals) (hkv : k = none ↔ v = none) : ∃ packed, mapFinalize c = some packed := by
  rw [hk.1, hv.1] at hkv
  rw [mapFinalize]
  cases helems : c.elems with
  | nil =>
    cases hvals : c.vals with
    | nil => exact ⟨_, rfl⟩
    | cons item items => simp [helems, hvals] at hkv
  | cons item items =>
    cases hvals : c.vals with
    | nil => simp [helems, hvals] at hkv
    | cons item' items' => exact ⟨_, rfl⟩

end PackedFormat

open PackedFormat in
theorem packedFormat_typed : packedFormat.Typed where
  copyString _ := ⟨_, rfl⟩
  copyInt _ := ⟨_, rfl⟩
  copyFloat _ := ⟨_, rfl⟩
  list := ⟨fun k c => OfKind k c.elems, ⟨_, rfl, ofKind_nil⟩,
    appends_elems (fun _ _ h => h) fun _ _ _ _ _ h => h, fun _ c _ => listFinalize_isSome c⟩
  set := ⟨fun k c => OfKind k c.elems, ⟨_, rfl, ofKind_nil⟩,
    appends_elems (fun _ _ h => h) fun _ _ _ _ _ h => h, fun _ c _ => setFinalize_isSome c⟩
  map := by
    -- between pairs neither side is ahead of the other
    refine ⟨fun k v c => OfKind k c.elems ∧ OfKind v c.vals ∧ (k = none ↔ v = none),
      fun k v c => OfKind k c.elems ∧ OfKind v c.vals ∧ k ≠ none, ?_, ?_, ?_, ?_⟩
    · exact ⟨_, rfl, ofKind_nil, ofKind_nil, Iff.rfl⟩
    · exact fun v => appends_elems (fun _ _ h => h.1)
        fun k c p items h hitems => ⟨hitems, h.2.1, Option.some_ne_none p⟩
    · exact fun k => appends_vals (fun _ _ h => h.2.1)
        fun v c p items h hitems => ⟨h.1, hitems, iff_of_false h.2.2 (Option.some_ne_none p)⟩
    · rintro k v c ⟨hk, hv, hkv⟩
      exact mapFinalize_isSome hk hv hkv

/-- A list of integers is within the law. -/
theorem conversionLaw_packedFormat :
    NoObjectTaken (.array [.integer 1, .integer 2]) ∧
      ConversionLaw packedFormat (.array [.integer 1, .integer 2]) := by
  have hx : NoObjectTaken (.array [.integer 1, .integer 2]) := fun toA htoA => by cases htoA
  exact ⟨hx, (conversionLaw_iff packedFormat_typed _).mpr hx⟩

/-- An object that is no set is stored as one if its `to_a` returns an array. -/
theorem object_taken_for_set :
    convertType packedFormat (.object (.ok (.array [.integer 1]))) =
        convertType packedFormat (.set [.integer 1]) ∧
      ¬ ConversionLaw packedFormat (.object (.ok (.array [.integer 1]))) := by
  refine ⟨rfl, fun hlaw => ?_⟩
  rcases conversionLaw_object_iff _ |>.mp hlaw with ⟨message, hraised⟩
  cases hraised

end HyperDex.Conversion
