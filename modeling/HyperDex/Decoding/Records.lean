import HyperDex.Decoding.WriteBack
import Mathlib.Data.List.Perm.Basic

/-!
# Records of a store

A store keeps a record of packed attributes under the bytes of a key, and a caller
thinks of an object with named values under a Ruby value. Both agree when every
attribute can be decoded to the value of its name. The agreement survives that a
hash is put on top of the object, and shows when the record is read.
-/
namespace HyperDex.Decoding
open General Ruby Conversion

variable {Obj : Type} (env : Env Obj)

theorem DecodesTo.eq_stringified {p : Prim} {x y : Value} (hx : Storable p x)
    (h : DecodesTo x y) : y = stringified x := by
  cases h with
  | scalar _ => rfl
  | _ => cases hx

theorem convertType_stringified (ds : DataStructures Obj) {p : Prim} {x : Value}
    (hx : Storable p x) : convertType ds (stringified x) = convertType ds x := by
  cases hx with
  | symbol b hb => simp only [stringified, convertType, cString_of_nulFree b hb]
  | _ => rfl

theorem convertType_datatype {ds : DataStructures Obj} {p : Prim} {x : Value} (hx : Storable p x)
    {packed : Packed} (h : convertType ds x = .returned packed) : packed.datatype = .prim p := by
  have hcopied {value : Option Buffer} (h : copied p value = .returned packed) :
      packed.datatype = .prim p := by
    cases value with
    | none => exact nomatch h
    | some buf => exact (Outcome.returned.inj h) ▸ rfl
  cases hx with
  | string b => exact hcopied h
  | symbol b _ => exact hcopied h
  | integer i hlo hhi =>
    simp only [convertType, num2ll_of_range hlo hhi, Outcome.returned_bind] at h
    exact hcopied h
  | float bits => exact hcopied h

theorem convertKey_decodable (hds : env.ds.Lawful) {p : Prim} {x : Value} (hx : Storable p x) :
    ∃ key, convertKey env.ds x = .returned key ∧ Decodable env x ⟨key, .prim p⟩ := by
  rcases scalar_roundtrip env hds hx with ⟨packed, hconvert, hdecodable⟩
  refine ⟨packed.value, by simp [convertKey, hconvert], ?_⟩
  rwa [← convertType_datatype hx hconvert]

/-- Two keys of one kind have the same bytes exactly if they are the same value, a symbol being
the string of its name. -/
theorem key_bytes_iff (hds : env.ds.Lawful) {p : Prim} {x x' : Value} (hx : Storable p x)
    (hx' : Storable p x') {key key' : Buffer} (hkey : convertKey env.ds x = .returned key)
    (hkey' : convertKey env.ds x' = .returned key') :
    key.readString = key'.readString ↔ stringified x = stringified x' := by
  constructor
  · intro hbytes
    rcases convertKey_decodable env hds hx with ⟨_, hconvert, hdecodable⟩
    obtain rfl := Outcome.returned.inj (hkey.symm.trans hconvert)
    rcases convertKey_decodable env hds hx' with ⟨_, hconvert', hdecodable'⟩
    obtain rfl := Outcome.returned.inj (hkey'.symm.trans hconvert')
    rcases hdecodable ⟨[], key, .prim p⟩ rfl rfl with ⟨y, hbuild, hy⟩
    rcases hdecodable' ⟨[], key, .prim p⟩ hbytes rfl with ⟨y', hbuild', hy'⟩
    obtain rfl := Except.ok.inj (hbuild.symm.trans hbuild')
    rw [← hy.eq_stringified hx, hy'.eq_stringified hx']
  · intro hsame
    have hconvert : convertKey env.ds x = convertKey env.ds x' := by
      rw [convertKey, convertKey, ← convertType_stringified env.ds hx, hsame,
        convertType_stringified env.ds hx']
    rw [Outcome.returned.inj (hkey.symm.trans (hconvert.trans hkey'))]

/-- What a store keeps under a key. -/
abbrev Record := OrderedMap Bytes Packed

abbrev Object := OrderedMap Bytes Value

def nameOf (x : Value) : Bytes := (keyName x).getD []

def Record.put (r : Record) (attrs : List Attribute) : Record :=
  attrs.foldl (fun r attr => r.insert (cString attr.attr) ⟨attr.value, attr.datatype⟩) r

def Object.put (o : Object) (h : List (Value × Value)) : Object :=
  h.foldl (fun o q => o.insert (nameOf q.1) q.2) o

/-- Attributes that are there are changed one after the other, each by what a request brings for
it. -/
def Record.modify (apply : Packed → Packed → Option Packed) (r : Record) (attrs : List Attribute) :
    Option Record :=
  attrs.foldlM (fun r attr => do
    let old ← r.lookup (cString attr.attr)
    let new ← apply old ⟨attr.value, attr.datatype⟩
    return r.insert (cString attr.attr) new) r

def Object.modify (apply : Value → Value → Option Value) (o : Object) (h : List (Value × Value)) :
    Option Object :=
  h.foldlM (fun o q => do
    let old ← o.lookup (nameOf q.1)
    let new ← apply old q.2
    return o.insert (nameOf q.1) new) o

def Record.part (r : Record) (names : List Bytes) : Option Record :=
  if ∀ name ∈ names, (r.lookup name).isSome then some (r.restrict (· ∈ names)) else none

def Object.part (o : Object) (names : List Value) : Option Object :=
  if ∀ name ∈ names, (o.lookup (nameOf name)).isSome then
    some (o.restrict (· ∈ names.map nameOf))
  else none

def Record.attributes (r : Record) : List Attribute :=
  r.entries.map fun e => ⟨e.1, e.2.value, e.2.datatype⟩

/-- Every attribute of the record can be decoded to the value of the object. -/
structure Keeps (r : Record) (o : Object) : Prop where
  related : r.Related (fun packed x => Decodable env x packed) o
  nulFree : ∀ e ∈ o.entries, (0 : UInt8) ∉ e.1

variable {env}

theorem keeps_empty : Keeps env OrderedMap.empty OrderedMap.empty :=
  ⟨OrderedMap.related_empty, by simp [OrderedMap.empty]⟩

theorem Keeps.insert {r : Record} {o : Object} (h : Keeps env r o) {q : Value × Value}
    {attr : Attribute} (hq : Stores env q attr) :
    Keeps env (r.insert (cString attr.attr) ⟨attr.value, attr.datatype⟩)
      (o.insert (nameOf q.1) q.2) := by
  have hname : nameOf q.1 = cString attr.attr := by
    rw [nameOf, hq.name, cString_of_nulFree _ hq.nulFree, Option.getD_some]
  rw [hname]
  refine ⟨h.related.insert _ hq.value, fun e he => ?_⟩
  rcases OrderedMap.mem_rebind he with rfl | he
  · rw [cString_of_nulFree _ hq.nulFree]
    exact hq.nulFree
  · exact h.nulFree e he

theorem Keeps.put {r : Record} {o : Object} (h : Keeps env r o) {pairs : List (Value × Value)}
    {attrs : List Attribute} (hpairs : List.Forall₂ (Stores env) pairs attrs) :
    Keeps env (r.put attrs) (o.put pairs) := by
  induction hpairs generalizing r o with
  | nil => exact h
  | cons hq _ ih => exact ih (h.insert hq)

/-- Changes of packed values and of what they are decoded to. -/
def Matching (env : Env Obj) (apply : Packed → Packed → Option Packed)
    (applyValue : Value → Value → Option Value) : Prop :=
  ∀ p x q y, Decodable env x p → Decodable env y q →
    Option.Rel (fun packed x => Decodable env x packed) (apply p q) (applyValue x y)

theorem Keeps.modify {r : Record} {o : Object} (h : Keeps env r o)
    {apply : Packed → Packed → Option Packed} {applyValue : Value → Value → Option Value}
    (happly : Matching env apply applyValue) {pairs : List (Value × Value)}
    {attrs : List Attribute} (hpairs : List.Forall₂ (Stores env) pairs attrs) :
    Option.Rel (Keeps env) (r.modify apply attrs) (o.modify applyValue pairs) := by
  rw [Record.modify, Object.modify]
  induction hpairs generalizing r o with
  | nil => exact .some h
  | @cons q attr pairs attrs hq _ ih =>
    have hname : nameOf q.1 = cString attr.attr := by
      rw [nameOf, hq.name, cString_of_nulFree _ hq.nulFree, Option.getD_some]
    have hold := h.related.lookup (cString attr.attr)
    rw [List.foldlM_cons, List.foldlM_cons, hname]
    generalize r.lookup (cString attr.attr) = old at hold
    generalize o.lookup (cString attr.attr) = x at hold
    cases hold with
    | none => exact .none
    | @some old x hx =>
      have hnew := happly old x _ q.2 hx hq.value
      simp only [Option.bind_eq_bind, Option.bind_some]
      generalize apply old ⟨attr.value, attr.datatype⟩ = new at hnew
      generalize applyValue x q.2 = y at hnew
      cases hnew with
      | none => exact .none
      | @some new y hy =>
        have hstores : Stores env (q.1, y) ⟨attr.attr, new.value, new.datatype⟩ :=
          ⟨hq.name, hq.nulFree, hy⟩
        have hinsert := h.insert hstores
        rw [hname] at hinsert
        exact ih hinsert

theorem Keeps.part {r : Record} {o : Object} (h : Keeps env r o) (names : List Value) :
    Option.Rel (Keeps env) (r.part (names.map nameOf)) (o.part names) := by
  have hsome (name : Bytes) : (r.lookup name).isSome = (o.lookup name).isSome := by
    have hlookup := h.related.lookup name
    generalize r.lookup name = packed at hlookup
    generalize o.lookup name = x at hlookup
    cases hlookup <;> rfl
  simp only [Record.part, Object.part, List.forall_mem_map, hsome]
  split
  · refine .some ⟨h.related.restrict _, fun e he => h.nulFree e ?_⟩
    exact (List.mem_filter.mp he).1
  · exact .none

theorem Keeps.stores {r : Record} {o : Object} (h : Keeps env r o) :
    List.Forall₂ (fun e attr => Stores env (.symbol e.1, e.2) attr) o.entries r.attributes := by
  rcases h with ⟨hrelated, hnulFree⟩
  rw [Record.attributes, List.forall₂_map_right_iff]
  rw [OrderedMap.Related] at hrelated
  generalize r.entries = rs at hrelated
  generalize o.entries = os at hrelated hnulFree
  induction hrelated with
  | nil => exact .nil
  | @cons e e' es es' he _ ih =>
    rw [List.forall_mem_cons] at hnulFree
    exact .cons ⟨congrArg some he.1.symm, he.1 ▸ hnulFree.1, he.2⟩ (ih hnulFree.2)

/-- A record that is read in any order of its attributes is the object in that order. -/
theorem Keeps.read {r : Record} {o : Object} (h : Keeps env r o) {attrs attrs' : List Attribute}
    (hperm : r.attributes.Perm attrs) (hsame : List.Forall₂ SameAttribute attrs attrs') :
    ∃ m, encodeAttributes env attrs' = .ok m ∧
      ∃ es, es.Perm o.entries ∧ List.Forall₂ SameContent es m.entries := by
  rcases List.perm_comp_forall₂ hperm.symm h.stores.flip with ⟨es, hes, hentries⟩
  have hnodup : (es.map Prod.fst).Nodup := (hentries.map Prod.fst).nodup_iff.mpr o.nodup
  rcases encodeAttributes_sameContent env hnodup hes.flip hsame with ⟨m, hdecode, hcontent⟩
  exact ⟨m, hdecode, es, hentries, hcontent⟩

end HyperDex.Decoding
