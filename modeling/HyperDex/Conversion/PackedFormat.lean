import HyperDex.Conversion.DataStructures
import HyperDex.General.PrefixCode

/-!
# A packed format

An instance of the data-structure library: words are eight bytes, least
significant first, strings in containers stand behind a four-byte length, and a
container is the concatenation of its elements. It behaves as documented, so
the assumptions about the library can be met.
-/
namespace HyperDex.Conversion
open General Ruby

namespace PackedFormat

instance decidableEqElem (p : Prim) : DecidableEq p.Elem :=
  match p with
  | .string => inferInstanceAs (DecidableEq (List UInt8))
  | .int64 => inferInstanceAs (DecidableEq Int64)
  | .float => inferInstanceAs (DecidableEq UInt64)

/-- A container under construction; the values are those of a map. -/
structure Container where
  elems : List (Σ p : Prim, p.Elem)
  vals : List (Σ p : Prim, p.Elem)

def add (p : Prim) (items : List (Σ p : Prim, p.Elem)) (e : p.Elem) :
    Except DsReturnCode (List (Σ p : Prim, p.Elem)) :=
  if ∀ item ∈ items, item.1 = p then .ok (items ++ [⟨p, e⟩]) else .error .mixedTypes

def ofKind (p : Prim) (items : List (Σ p : Prim, p.Elem)) : List p.Elem :=
  items.filterMap fun item => if h : item.1 = p then some (h ▸ item.2) else none

def int64Code : PrefixCode UInt8 Int64 :=
  PrefixCode.word64.comap Int64.toUInt64 UInt64.toInt64 Int64.toInt64_toUInt64

def code : (p : Prim) → PrefixCode UInt8 p.Elem
  | .string => PrefixCode.block
  | .int64 => int64Code
  | .float => PrefixCode.word64

def junk : (p : Prim) → p.Elem
  | .string => []
  | .int64 => (0 : Int64)
  | .float => (0 : UInt64)

def listFinalize (c : Container) : Option Packed :=
  match c.elems with
  | [] => some ⟨.ofBytes [], .listGeneric⟩
  | ⟨p, _⟩ :: _ => some ⟨.ofBytes ((ofKind p c.elems).flatMap (code p).encode), .list p⟩

def setFinalize (c : Container) : Option Packed :=
  match c.elems with
  | [] => some ⟨.ofBytes [], .setGeneric⟩
  | ⟨p, _⟩ :: _ =>
    some ⟨.ofBytes ((OrderedSet.ofList (ofKind p c.elems)).members.flatMap
      (code p).encode), .set p⟩

def mapFinalize (c : Container) : Option Packed :=
  match c.elems, c.vals with
  | [], [] => some ⟨.ofBytes [], .mapGeneric⟩
  | ⟨k, _⟩ :: _, ⟨v, _⟩ :: _ =>
    some ⟨.ofBytes (((ofKind k c.elems).zip (ofKind v c.vals)).flatMap
      ((code k).prod (code v)).encode), .map k v⟩
  | _, _ => none

def unpack {α : Type} (c : PrefixCode UInt8 α) (b : Buffer) : Option α :=
  match c.decode b.readString with
  | some (a, []) => some a
  | _ => none

def iterate {α β : Type} (c : PrefixCode UInt8 α) (junk : α) (cell : α → β) (iter : DsIterator) :
    Tape β :=
  (c.tape junk iter.len (iter.value.take iter.len)).map fun r => (r.1, cell r.2)

end PackedFormat

open PackedFormat

def packedFormat : DataStructures PackedFormat.Container where
  copyString b := some (.ofBytes b)
  copyInt i := some (.ofBytes (int64Code.encode i))
  copyFloat d := some (.ofBytes (PrefixCode.word64.encode d))
  allocateList := some ⟨[], []⟩
  listAppend p c e := (add p c.elems e).map fun elems => { c with elems }
  listFinalize := listFinalize
  allocateSet := some ⟨[], []⟩
  setInsert p c e := (add p c.elems e).map fun elems => { c with elems }
  setFinalize := setFinalize
  allocateMap := some ⟨[], []⟩
  mapInsertKey p c e := (add p c.elems e).map fun elems => { c with elems }
  mapInsertVal p c e := (add p c.vals e).map fun vals => { c with vals }
  mapFinalize := mapFinalize
  allocateAttribute _ := true
  allocateAttributeCheck _ := true
  allocateMapAttribute _ := true
  malloc _ := true
  unpackInt := unpack int64Code
  unpackFloat := unpack PrefixCode.word64
  iterateList p := iterate (code p) (junk p) p.cell
  iterateSet p := iterate (code p) (junk p) p.cell
  iterateMap k v := iterate ((code k).prod (code v)) (junk k, junk v)
    fun e => (k.cell e.1, v.cell e.2)

namespace PackedFormat

theorem add_ofKind (p : Prim) (xs : List p.Elem) (e : p.Elem) :
    add p (xs.map (Sigma.mk p)) e = .ok ((xs ++ [e]).map (Sigma.mk p)) := by
  rw [add, if_pos, List.map_append, List.map_cons, List.map_nil]
  intro item hitem
  rcases List.mem_map.mp hitem with ⟨x, -, rfl⟩
  rfl

theorem ofKind_map (p : Prim) (xs : List p.Elem) : ofKind p (xs.map (Sigma.mk p)) = xs := by
  simp [ofKind, List.filterMap_map]

/-- Elements of one kind fill a container in order, through any of the insert functions. -/
theorem foldlM_add (p : Prim) (xs pre : List p.Elem) (vals : List (Σ p : Prim, p.Elem)) :
    xs.foldlM (fun c e => (add p c.elems e).map fun elems => ({ c with elems } : Container))
      ⟨pre.map (Sigma.mk p), vals⟩ = .ok ⟨(pre ++ xs).map (Sigma.mk p), vals⟩ := by
  induction xs generalizing pre with
  | nil => simp [pure, Except.pure]
  | cons x xs ih =>
    rw [List.foldlM_cons]
    simp only [add_ofKind, Except.map]
    exact (ih (pre ++ [x])).trans (by rw [List.append_assoc, List.singleton_append])

theorem iterate_delivers {α β : Type} (c : PrefixCode UInt8 α) (junk : α) (cell : α → β)
    (xs : List α) (iter : DsIterator)
    (hiter : iter.value.take iter.len = xs.flatMap c.encode)
    (hlen : iter.len = (xs.flatMap c.encode).length) :
    (iterate c junk cell iter).Delivers (xs.map cell) := by
  rw [iterate, hiter, hlen]
  exact (c.tape_delivers junk xs _ (c.length_le_flatMap_encode xs)).map cell

theorem unpack_encode {α : Type} (c : PrefixCode UInt8 α) (a : α) (b : Buffer)
    (hb : b.readString = (Buffer.ofBytes (c.encode a)).readString) : unpack c b = some a := by
  have hdecode : c.decode (c.encode a) = some (a, []) := by
    simpa using c.decode_encode a []
  rw [unpack, hb, Buffer.readString_ofBytes, hdecode]

theorem foldlM_addPair (k v : Prim) (ps pre : List (k.Elem × v.Elem)) :
    ps.foldlM (fun m e => packedFormat.mapInsertKey k m e.1 >>= fun m =>
        packedFormat.mapInsertVal v m e.2)
      ⟨(pre.map Prod.fst).map (Sigma.mk k), (pre.map Prod.snd).map (Sigma.mk v)⟩ =
    .ok ⟨((pre ++ ps).map Prod.fst).map (Sigma.mk k),
      ((pre ++ ps).map Prod.snd).map (Sigma.mk v)⟩ := by
  induction ps generalizing pre with
  | nil => simp [pure, Except.pure]
  | cons p ps ih =>
    have hstep := ih (pre ++ [p])
    rw [List.append_assoc, List.singleton_append] at hstep
    rw [List.foldlM_cons, ← hstep]
    simp only [packedFormat, add_ofKind, Except.map, bind, Except.bind, List.map_append,
      List.map_cons, List.map_nil]

theorem listFinalize_ofKind (p : Prim) (xs : List p.Elem) (hxs : xs ≠ []) :
    listFinalize ⟨xs.map (Sigma.mk p), []⟩ =
      some ⟨.ofBytes (xs.flatMap (code p).encode), .list p⟩ := by
  rcases List.exists_cons_of_ne_nil hxs with ⟨x, rest, rfl⟩
  have hkind := ofKind_map p (x :: rest)
  rw [List.map_cons] at hkind ⊢
  simp only [listFinalize, hkind]

theorem setFinalize_ofKind (p : Prim) (xs : List p.Elem) (hxs : xs ≠ []) :
    setFinalize ⟨xs.map (Sigma.mk p), []⟩ =
      some ⟨.ofBytes ((OrderedSet.ofList xs).members.flatMap (code p).encode),
        .set p⟩ := by
  rcases List.exists_cons_of_ne_nil hxs with ⟨x, rest, rfl⟩
  have hkind := ofKind_map p (x :: rest)
  rw [List.map_cons] at hkind ⊢
  simp only [setFinalize, hkind]

theorem mapFinalize_ofKind (k v : Prim) (ps : List (k.Elem × v.Elem)) (hps : ps ≠ []) :
    mapFinalize ⟨(ps.map Prod.fst).map (Sigma.mk k), (ps.map Prod.snd).map (Sigma.mk v)⟩ =
      some ⟨.ofBytes (ps.flatMap ((code k).prod (code v)).encode), .map k v⟩ := by
  rcases List.exists_cons_of_ne_nil hps with ⟨p, rest, rfl⟩
  have hkeys := ofKind_map k ((p :: rest).map Prod.fst)
  have hvals := ofKind_map v ((p :: rest).map Prod.snd)
  have hzip : ((p :: rest).map Prod.fst).zip ((p :: rest).map Prod.snd) = p :: rest :=
    (List.zip_of_prod rfl rfl).symm
  simp only [List.map_cons] at hkeys hvals hzip ⊢
  change some (Packed.mk (.ofBytes (((ofKind k _).zip (ofKind v _)).flatMap _)) _) = _
  rw [hkeys, hvals, hzip]

theorem over_encode {α : Type} (c : PrefixCode UInt8 α) (xs : List α) (type : Datatype)
    (iter : DsIterator) (h : iter.Over ⟨.ofBytes (xs.flatMap c.encode), type⟩) :
    iter.value.take iter.len = xs.flatMap c.encode ∧
      iter.len = (xs.flatMap c.encode).length :=
  ⟨h.2.2.trans (Buffer.readString_ofBytes _), h.2.1⟩

end PackedFormat

theorem packedFormat_lawful : packedFormat.Lawful where
  copyString b := ⟨_, rfl, Buffer.readString_ofBytes b⟩
  copyInt i := ⟨_, rfl, unpack_encode int64Code i⟩
  copyFloat d := ⟨_, rfl, unpack_encode PrefixCode.word64 d⟩
  allocateAttribute _ := rfl
  list p xs hxs := by
    refine ⟨_, _, _, rfl, foldlM_add p xs [] [], listFinalize_ofKind p xs hxs, rfl, ?_⟩
    intro iter hiter
    rcases over_encode (code p) xs _ iter hiter with ⟨htake, hlen⟩
    exact iterate_delivers (code p) (junk p) p.cell xs iter htake hlen
  set p xs hxs := by
    refine ⟨_, _, _, rfl, foldlM_add p xs [] [], setFinalize_ofKind p xs hxs, rfl,
      (OrderedSet.ofList xs).members, OrderedSet.mem_ofList xs, fun iter hiter => ?_⟩
    rcases over_encode (code p) _ _ iter hiter with ⟨htake, hlen⟩
    exact iterate_delivers (code p) (junk p) p.cell _ iter htake hlen
  map k v ps hps _ := by
    refine ⟨_, _, _, rfl, foldlM_addPair k v ps [], mapFinalize_ofKind k v ps hps, rfl, ps,
      List.Perm.refl ps, fun iter hiter => ?_⟩
    rcases over_encode ((code k).prod (code v)) ps _ iter hiter with ⟨htake, hlen⟩
    exact iterate_delivers ((code k).prod (code v)) (junk k, junk v)
      (fun e => (k.cell e.1, v.cell e.2)) ps iter htake hlen

end HyperDex.Conversion
