import HyperDex.Conversion.Convert
import HyperDex.Decoding.BuildAttribute
import Mathlib.Data.List.Forall2

/-!
# The round trip of attributes

The converters and the decoder are inverse over a library that behaves as
documented. The argument follows the format: an element, a container of
elements of one kind, a value, an attribute array.
-/
namespace HyperDex.Decoding
open General Ruby Conversion

/-- A scalar of the kind, as a value or as an element of a container. -/
inductive Storable : Prim → Value → Prop where
  | string (b : Bytes) : Storable .string (.string b)
  | symbol (b : Bytes) : (0 : UInt8) ∉ b → Storable .string (.symbol b)
  | integer (i : Int) : -2 ^ 63 ≤ i → i < 2 ^ 63 → Storable .int64 (.integer i)
  | float (bits : UInt64) : Storable .float (.float bits)

def stringified : Value → Value
  | .symbol b => .string b
  | x => x

def stringifiedPair (p : Value × Value) : Value × Value := (stringified p.1, stringified p.2)

/-- A scalar, or a container that is not empty and homogeneous, with its keys and its values
each of one kind. -/
inductive Representable : Value → Prop where
  | scalar {p : Prim} {x : Value} : Storable p x → Representable x
  | array {p : Prim} {xs : List Value} : xs ≠ [] → (∀ x ∈ xs, Storable p x) →
      Representable (.array xs)
  | set {p : Prim} {xs : List Value} : xs ≠ [] → (∀ x ∈ xs, Storable p x) → Representable (.set xs)
  | hash {k v : Prim} {ps : List (Value × Value)} : ps ≠ [] →
      (∀ q ∈ ps, Storable k q.1 ∧ Storable v q.2) → (ps.map fun q => stringified q.1).Nodup →
      Representable (.hash ps)

/-- An array in order, a set and a hash with the same content. -/
inductive DecodesTo : Value → Value → Prop where
  | scalar {p : Prim} {x : Value} : Storable p x → DecodesTo x (stringified x)
  | array (xs : List Value) : DecodesTo (.array xs) (.array (xs.map stringified))
  | set {xs ys : List Value} : ys.Nodup → (∀ y, y ∈ ys ↔ y ∈ xs.map stringified) →
      DecodesTo (.set xs) (.set ys)
  | hash {ps qs : List (Value × Value)} : qs.Perm (ps.map stringifiedPair) →
      DecodesTo (.hash ps) (.hash qs)

def keyName : Value → Option Bytes
  | .string b => some b
  | .symbol b => some b
  | _ => none

/-- Keys with distinct names without NUL, and representable values. -/
structure StorableHash (h : List (Value × Value)) : Prop where
  keys : ∀ q ∈ h, ∃ b, keyName q.1 = some b ∧ (0 : UInt8) ∉ b
  distinct : (h.map fun q => keyName q.1).Nodup
  values : ∀ q ∈ h, Representable q.2

/-- The same name, bytes, size and type, wherever the bytes lie. -/
structure SameAttribute (a b : Attribute) : Prop where
  attr : a.attr = b.attr
  bytes : a.value.readString = b.value.readString
  size : a.value.size = b.value.size
  datatype : a.datatype = b.datatype

/-- What the conversion of a storable scalar hands to the library. -/
def elemOf : (p : Prim) → Value → p.Elem
  | .string, .string b => b
  | .string, .symbol b => b
  | .int64, .integer i => Int64.ofInt i
  | .float, .float bits => bits
  | .string, _ => []
  | .int64, _ => (0 : Int64)
  | .float, _ => (0 : UInt64)

theorem readCell_elemOf {p : Prim} {x : Value} (hx : Storable p x) :
    Value.ofScalar (readCell p (p.cell (elemOf p x))) = stringified x := by
  cases hx with
  | string b => rfl
  | symbol b _ => rfl
  | integer i hlo hhi =>
    simp only [readCell, Prim.cell, elemOf, Value.ofScalar, stringified]
    rw [Int64.toInt_ofInt_of_le hlo hhi]
  | float bits => rfl

theorem num2ll_of_range {i : Int} (hlo : -2 ^ 63 ≤ i) (hhi : i < 2 ^ 63) :
    num2ll i = .returned (Int64.ofInt i) :=
  if_pos ⟨hlo, hhi⟩

variable {Obj : Type}

theorem convertElemWith_storable {p : Prim} {e : Value} (he : Storable p e) {x y : Obj}
    {f : (p : Prim) → Obj → p.Elem → Except DsReturnCode Obj} (hf : f p x (elemOf p e) = .ok y) :
    convertElemWith e x f = .returned y := by
  cases he with
  | string b =>
    simp only [elemOf] at hf
    simp only [convertElemWith, convertElem, hf, elemResult]
  | symbol b hb =>
    simp only [elemOf] at hf
    simp only [convertElemWith, convertElem, cString_of_nulFree b hb, hf, elemResult]
  | integer i hlo hhi =>
    simp only [elemOf] at hf
    simp only [convertElemWith, convertElem, num2ll_of_range hlo hhi, Outcome.returned_bind, hf,
      elemResult]
  | float bits =>
    simp only [elemOf] at hf
    simp only [convertElemWith, convertElem, hf, elemResult]

theorem foldlM_returned {α β σ ε : Type} (body : σ → α → Conv σ) (g : σ → β → Except ε σ)
    (f : α → β) (xs : List α) (hbody : ∀ x ∈ xs, ∀ s t, g s (f x) = .ok t → body s x = .returned t)
    (s t : σ) (h : (xs.map f).foldlM g s = .ok t) : xs.foldlM body s = .returned t := by
  induction xs generalizing s with
  | nil =>
    obtain rfl : s = t := by simpa [pure, Except.pure] using h
    rfl
  | cons x xs ih =>
    rw [List.map_cons, List.foldlM_cons] at h
    rw [List.foldlM_cons]
    cases hx : g s (f x) with
    | error e => simp [hx, bind, Except.bind] at h
    | ok u =>
      rw [hx] at h
      rw [hbody x (by simp) s u hx, Outcome.returned_bind]
      exact ih (fun y hy => hbody y (by simp [hy])) u h

variable (env : Env Obj)

/-- Any attribute with the bytes and the type of the packed value decodes to the value. -/
def Decodable (x : Value) (packed : Packed) : Prop :=
  ∀ attr : Attribute, attr.value.readString = packed.value.readString →
    attr.datatype = packed.datatype → ∃ y, buildAttribute env attr = .ok y ∧ DecodesTo x y

theorem initDsIterator_over_copy {packed : Packed} {attr : Attribute}
    (hbytes : attr.value.readString = packed.value.readString) :
    (initDsIterator packed.datatype attr.value.readString).Over packed :=
  hbytes ▸ initDsIterator_over packed

theorem scalar_roundtrip (hds : env.ds.Lawful) {p : Prim} {x : Value} (hx : Storable p x) :
    ∃ packed, convertType env.ds x = .returned packed ∧ Decodable env x packed := by
  have hdecodes := DecodesTo.scalar hx
  cases hx with
  | string b =>
    rcases hds.copyString b with ⟨buf, hcopy, hbuf⟩
    refine ⟨⟨buf, .prim .string⟩, by simp [convertType, copied, hcopy, orOutOfMemory], ?_⟩
    intro attr hbytes htype
    refine ⟨.string b, ?_, hdecodes⟩
    simp only [buildAttribute, htype, hbytes, hbuf]
  | symbol b hb =>
    rcases hds.copyString b with ⟨buf, hcopy, hbuf⟩
    refine ⟨⟨buf, .prim .string⟩,
      by simp [convertType, copied, cString_of_nulFree b hb, hcopy, orOutOfMemory], ?_⟩
    intro attr hbytes htype
    refine ⟨.string b, ?_, hdecodes⟩
    simp only [buildAttribute, htype, hbytes, hbuf]
  | integer i hlo hhi =>
    rcases hds.copyInt (Int64.ofInt i) with ⟨buf, hcopy, hunpack⟩
    refine ⟨⟨buf, .prim .int64⟩,
      by simp [convertType, copied, num2ll_of_range hlo hhi, hcopy, orOutOfMemory], ?_⟩
    intro attr hbytes htype
    refine ⟨.integer i, ?_, hdecodes⟩
    simp only [buildAttribute, htype, hunpack attr.value hbytes, Int64.toInt_ofInt_of_le hlo hhi]
  | float bits =>
    rcases hds.copyFloat bits with ⟨buf, hcopy, hunpack⟩
    refine ⟨⟨buf, .prim .float⟩, by simp [convertType, copied, hcopy, orOutOfMemory], ?_⟩
    intro attr hbytes htype
    refine ⟨.float bits, ?_, hdecodes⟩
    simp only [buildAttribute, htype, hunpack attr.value hbytes]

theorem array_roundtrip (hds : env.ds.Lawful) {p : Prim} {xs : List Value} (hne : xs ≠ [])
    (hxs : ∀ x ∈ xs, Storable p x) : ∃ packed,
      convertType env.ds (.array xs) = .returned packed ∧ Decodable env (.array xs) packed := by
  obtain ⟨empty, full, packed, hempty, hfull, hpacked, htype, hdelivers⟩ :=
    hds.list p (xs.map (elemOf p)) (by simpa using hne)
  have hloop : xs.foldlM (fun list entry => convertElemWith entry list env.ds.listAppend) empty =
      .returned full :=
    foldlM_returned _ _ _ xs (fun x hx s t hst => convertElemWith_storable (hxs x hx) hst) _ _ hfull
  refine ⟨packed, ?_, ?_⟩
  · simp only [convertType, convertList, hempty, orOutOfMemory, Outcome.returned_bind,
      forEntries_array, hloop, hpacked]
  · intro attr hbytes hdatatype
    rcases buildAttribute_list env (hdatatype.trans htype) with ⟨message, hbuild⟩
    have hproduced := (hdelivers _ (htype ▸ initDsIterator_over_copy hbytes)).1
    rw [hbuild, buildList_eq, hproduced]
    refine ⟨_, rfl, ?_⟩
    have hread : ((xs.map (elemOf p)).map p.cell).map (Value.ofScalar ∘ readCell p) =
        xs.map stringified := by
      simp only [List.map_map]
      exact List.map_congr_left fun x hx => readCell_elemOf (hxs x hx)
    rw [hread]
    exact DecodesTo.array xs

theorem set_roundtrip (hds : env.ds.Lawful) {p : Prim} {xs : List Value} (hne : xs ≠ [])
    (hxs : ∀ x ∈ xs, Storable p x) : ∃ packed,
      convertType env.ds (.set xs) = .returned packed ∧ Decodable env (.set xs) packed := by
  obtain ⟨empty, full, packed, hempty, hfull, hpacked, htype, ys, hys, hdelivers⟩ :=
    hds.set p (xs.map (elemOf p)) (by simpa using hne)
  have hloop : xs.foldlM (fun set entry => convertElemWith entry set env.ds.setInsert) empty =
      .returned full :=
    foldlM_returned _ _ _ xs (fun x hx s t hst => convertElemWith_storable (hxs x hx) hst) _ _ hfull
  refine ⟨packed, ?_, ?_⟩
  · rw [convertType_set]
    simp only [convertSet, toA_set, hempty, orOutOfMemory, Outcome.returned_bind,
      forEntries_array, hloop, hpacked]
  · intro attr hbytes hdatatype
    rcases buildAttribute_set env (hdatatype.trans htype) with ⟨message, hbuild⟩
    have hproduced := (hdelivers _ (htype ▸ initDsIterator_over_copy hbytes)).1
    rw [hbuild, buildSet_eq, hproduced]
    refine ⟨_, rfl, DecodesTo.set ?_ fun y => ?_⟩
    · exact (OrderedSet.nodup _).map Value.ofScalar_injective
    · simp only [List.mem_map, OrderedSet.mem_ofList, hys]
      constructor
      · rintro ⟨_, ⟨_, ⟨_, ⟨x, hx, rfl⟩, rfl⟩, rfl⟩, rfl⟩
        exact ⟨x, hx, (readCell_elemOf (hxs x hx)).symm⟩
      · rintro ⟨x, hx, rfl⟩
        exact ⟨_, ⟨_, ⟨_, ⟨x, hx, rfl⟩, rfl⟩, rfl⟩, readCell_elemOf (hxs x hx)⟩

theorem ofPair_readCells {k v : Prim} {q : Value × Value} (hq : Storable k q.1 ∧ Storable v q.2) :
    ofPair (readCells k v (k.cell (elemOf k q.1), v.cell (elemOf v q.2))) = stringifiedPair q :=
  Prod.ext (readCell_elemOf hq.1) (readCell_elemOf hq.2)

theorem hash_roundtrip (hds : env.ds.Lawful) {k v : Prim} {ps : List (Value × Value)}
    (hne : ps ≠ []) (hps : ∀ q ∈ ps, Storable k q.1 ∧ Storable v q.2)
    (hdistinct : (ps.map fun q => stringified q.1).Nodup) : ∃ packed,
      convertType env.ds (.hash ps) = .returned packed ∧ Decodable env (.hash ps) packed := by
  let elems : List (k.Elem × v.Elem) := ps.map fun q => (elemOf k q.1, elemOf v q.2)
  let read : k.Elem × v.Elem → Scalar × Scalar := fun e => readCells k v (k.cell e.1, v.cell e.2)
  have hread : (elems.map read).map ofPair = ps.map stringifiedPair := by
    simp only [elems, read, List.map_map]
    exact List.map_congr_left fun q hq => ofPair_readCells (hps q hq)
  have hkeys : ((elems.map read).map Prod.fst).Nodup := by
    refine List.Nodup.of_map Value.ofScalar ?_
    have hfst : ((elems.map read).map Prod.fst).map Value.ofScalar =
        ((elems.map read).map ofPair).map Prod.fst := by
      simp only [List.map_map]
      rfl
    rw [hfst, hread, List.map_map]
    exact hdistinct
  have helems : (elems.map Prod.fst).Nodup := by
    refine List.Nodup.of_map (fun e => readCell k (k.cell e)) ?_
    rw [List.map_map] at hkeys ⊢
    exact hkeys
  obtain ⟨empty, full, packed, hempty, hfull, hpacked, htype, qs, hqs, hdelivers⟩ :=
    hds.map k v elems (by simpa [elems] using hne) helems
  have hloop : (ps.map pairToArray).foldlM (fun map entry => do
      let key ← rbAryEntry entry 0
      let val ← rbAryEntry entry 1
      let map ← convertElemWith key map env.ds.mapInsertKey
      convertElemWith val map env.ds.mapInsertVal) empty = .returned full := by
    rw [List.foldlM_map]
    refine foldlM_returned _ _ _ ps (fun q hq s t hst => ?_) _ _ hfull
    cases hkey : env.ds.mapInsertKey k s (elemOf k q.1) with
    | error code => simp [hkey, bind, Except.bind] at hst
    | ok u =>
      rw [hkey] at hst
      simp only [rbAryEntry_pair_zero, rbAryEntry_pair_one, Outcome.returned_bind,
        convertElemWith_storable (hps q hq).1 hkey]
      exact convertElemWith_storable (hps q hq).2 hst
  refine ⟨packed, ?_, ?_⟩
  · simp only [convertType, convertMap, toA_hash, hempty, orOutOfMemory, Outcome.returned_bind,
      forEntries_array, hloop, hpacked]
  · intro attr hbytes hdatatype
    rcases buildAttribute_map env (hdatatype.trans htype) with ⟨message, hbuild⟩
    have hproduced := (hdelivers _ (htype ▸ initDsIterator_over_copy hbytes)).1
    have hperm : (qs.map read).Perm (elems.map read) := hqs.map read
    rw [hbuild, buildMap_eq, hproduced, List.map_map, OrderedMap.entries_ofBindings]
    · refine ⟨_, rfl, DecodesTo.hash ?_⟩
      rw [← hread]
      exact hperm.map ofPair
    · exact (hperm.map Prod.fst).nodup_iff.mpr hkeys

theorem convertType_roundtrip (hds : env.ds.Lawful) {x : Value} (hx : Representable x) :
    ∃ packed, convertType env.ds x = .returned packed ∧ Decodable env x packed := by
  cases hx with
  | scalar hx => exact scalar_roundtrip env hds hx
  | array hne hxs => exact array_roundtrip env hds hne hxs
  | set hne hxs => exact set_roundtrip env hds hne hxs
  | hash hne hps hdistinct => exact hash_roundtrip env hds hne hps hdistinct

/-- The attribute that stores a pair of the hash. -/
structure Stores (q : Value × Value) (attr : Attribute) : Prop where
  name : keyName q.1 = some attr.attr
  nulFree : (0 : UInt8) ∉ attr.attr
  value : Decodable env q.2 ⟨attr.value, attr.datatype⟩

/-- The entry of the decoded hash for a pair of the original one. -/
def Restores (q : Value × Value) (entry : Bytes × Value) : Prop :=
  keyName q.1 = some entry.1 ∧ DecodesTo q.2 entry.2

theorem convertCstring_of_keyName {x : Value} {b : Bytes} (hx : keyName x = some b)
    (hb : (0 : UInt8) ∉ b) (message : String) : convertCstring x message = .returned b := by
  cases x with
  | symbol name =>
    obtain rfl : name = b := Option.some.inj hx
    rfl
  | string bytes =>
    obtain rfl : bytes = b := Option.some.inj hx
    exact if_neg hb
  | _ => simp [keyName] at hx

theorem convertAttribute_stores (hds : env.ds.Lawful) {h : List (Value × Value)}
    (hh : StorableHash h) {q : Value × Value} (hq : q ∈ h) :
    ∃ attr, convertAttribute env.ds (pairToArray q) = .returned attr ∧ Stores env q attr := by
  rcases hh.keys q hq with ⟨b, hname, hb⟩
  rcases convertType_roundtrip env hds (hh.values q hq) with ⟨packed, hconvert, hdecodable⟩
  refine ⟨⟨b, packed.value, packed.datatype⟩, ?_, hname, hb, hdecodable⟩
  simp only [convertAttribute, rbAryEntry_pair_zero, rbAryEntry_pair_one, Outcome.returned_bind,
    convertCstring_of_keyName hname hb, hconvert, Outcome.pure_eq]

/-- A loop that appends one converted entry per round. -/
theorem foldlM_snoc {α β : Type} {R : α → β → Prop} (g : α → Conv β) (xs : List α)
    (hg : ∀ x ∈ xs, ∃ b, g x = .returned b ∧ R x b) (pre : List β) :
    ∃ bs, xs.foldlM (fun acc x => do
        let b ← g x
        return acc ++ [b]) pre = .returned (pre ++ bs) ∧ List.Forall₂ R xs bs := by
  induction xs generalizing pre with
  | nil => exact ⟨[], by simp, List.Forall₂.nil⟩
  | cons x xs ih =>
    rcases hg x (by simp) with ⟨b, hb, hr⟩
    rcases ih (fun y hy => hg y (by simp [hy])) (pre ++ [b]) with ⟨bs, hbs, hrs⟩
    refine ⟨b :: bs, ?_, List.Forall₂.cons hr hrs⟩
    rw [List.foldlM_cons, hb]
    simpa using hbs

/-- The decoder binds the entries of a stored hash one after the other. -/
theorem encodeAttributes_stores {h : List (Value × Value)} {attrs attrs' : List Attribute}
    (hstores : List.Forall₂ (Stores env) h attrs)
    (hsame : List.Forall₂ SameAttribute attrs attrs') :
    ∃ es, encodeAttributes env attrs' = .ok (OrderedMap.ofBindings es) ∧
      List.Forall₂ Restores h es := by
  have hfold : ∃ es, List.Forall₂ Restores h es ∧ ∀ m : OrderedMap Bytes Value,
      attrs'.foldlM (fun h attr => do
        let k := cString attr.attr
        let v ← buildAttribute env attr
        return h.insert k v) m = .ok (es.foldl (fun m e => m.insert e.1 e.2) m) := by
    induction hstores generalizing attrs' with
    | nil =>
      cases hsame
      exact ⟨[], List.Forall₂.nil, fun m => rfl⟩
    | @cons q attr h attrs hq _ ih =>
      cases hsame with
      | @cons _ attr' _ rest hs hrest =>
        rcases ih hrest with ⟨es, hes, hm⟩
        rcases hq.value attr' hs.bytes.symm hs.datatype.symm with ⟨y, hbuild, hy⟩
        have hname : cString attr'.attr = attr.attr := by
          rw [← hs.attr, cString_of_nulFree _ hq.nulFree]
        refine ⟨(attr.attr, y) :: es, List.Forall₂.cons ⟨hq.name, hy⟩ hes, fun m => ?_⟩
        rw [List.foldlM_cons, hbuild, hname]
        exact hm (m.insert attr.attr y)
  rcases hfold with ⟨es, hes, hm⟩
  exact ⟨es, hm .empty, hes⟩

/-- A storable hash is converted, and whatever copy of the attributes comes back decodes to
the hash of the same keys and values, in the same order. -/
theorem convertAttributes_roundtrip (hds : env.ds.Lawful) (h : List (Value × Value))
    (hh : StorableHash h) : ∃ attrs, convertAttributes env.ds (.hash h) = .returned attrs ∧
      ∀ attrs', List.Forall₂ SameAttribute attrs attrs' →
        ∃ m, encodeAttributes env attrs' = .ok m ∧ List.Forall₂ Restores h m.entries := by
  obtain ⟨attrs, hattrs, hstores⟩ :=
    foldlM_snoc (fun q => convertAttribute env.ds (pairToArray q)) h
      (fun q hq => convertAttribute_stores env hds hh hq) []
  refine ⟨attrs, ?_, fun attrs' hsame => ?_⟩
  · simp only [convertAttributes, toA_hash, rarrayLen, Outcome.returned_bind,
      hds.allocateAttribute, if_true, forEntries_array, List.foldlM_map]
    exact hattrs
  · rcases encodeAttributes_stores env hstores hsame with ⟨es, hdecode, hes⟩
    refine ⟨_, hdecode, ?_⟩
    rw [OrderedMap.entries_ofBindings]
    · exact hes
    · have hnames : (es.map Prod.fst).map some = h.map fun q => keyName q.1 := by
        clear hdecode hh hstores hattrs
        induction hes with
        | nil => rfl
        | cons hq _ ih => simp [ih, hq.1]
      exact List.Nodup.of_map some (hnames ▸ hh.distinct)

/-- `{a: "v", "n" => -1, l: [:p, "q"], m: {1 => 0.0, 2 => 0.0}}` -/
def sampleHash : List (Value × Value) :=
  [(.symbol [97], .string [118]), (.string [110], .integer (-1)),
    (.symbol [108], .array [.symbol [112], .string [113]]),
    (.symbol [109], .hash [(.integer 1, .float 0), (.integer 2, .float 0)])]

theorem sampleHash_storable : StorableHash sampleHash where
  keys := by simp [sampleHash, keyName]
  distinct := by simp [sampleHash, keyName]
  values := by
    have hstring : Representable (.string [118]) := .scalar (.string [118])
    have hinteger : Representable (.integer (-1)) := .scalar (.integer (-1) (by decide) (by decide))
    have harray : Representable (.array [.symbol [112], .string [113]]) := by
      refine Representable.array (p := .string) (by simp) ?_
      simpa using ⟨Storable.symbol [112] (by decide), Storable.string [113]⟩
    have hhash : Representable (.hash [(.integer 1, .float 0), (.integer 2, .float 0)]) := by
      refine Representable.hash (k := .int64) (v := .float) (by simp) ?_ (by simp [stringified])
      simpa using ⟨⟨Storable.integer 1 (by decide) (by decide), Storable.float 0⟩,
        Storable.integer 2 (by decide) (by decide), Storable.float 0⟩
    simp [sampleHash, hstring, hinteger, harray, hhash]

theorem convertAttributes_roundtrip_sampleHash :
    ∃ attrs, convertAttributes packedEnv.ds (.hash sampleHash) = .returned attrs ∧
      ∀ attrs', List.Forall₂ SameAttribute attrs attrs' →
        ∃ m, encodeAttributes packedEnv attrs' = .ok m ∧
          List.Forall₂ Restores sampleHash m.entries :=
  convertAttributes_roundtrip packedEnv packedFormat_lawful sampleHash sampleHash_storable

end HyperDex.Decoding
