import HyperDex.Decoding.RoundTrip

/-!
# Writing a record back

A record that was read is a hash of symbols, which the converters take again.
What they cannot take are documents, containers without elements and null
strings; a record without these is stored again with the same content, under
the names that were read.
-/
namespace HyperDex.Decoding
open General Ruby Conversion

variable {Obj : Type} (env : Env Obj)

/-- The entry that an attribute adds to the hash. -/
def Adds (attr : Attribute) (entry : Bytes × Value) : Prop :=
  entry.1 = cString attr.attr ∧ buildAttribute env attr = .ok entry.2

theorem foldlM_adds {attrs : List Attribute} {m₀ m : OrderedMap Bytes Value}
    (h : attrs.foldlM (fun h attr => do
      let k := cString attr.attr
      let v ← buildAttribute env attr
      return h.insert k v) m₀ = .ok m) :
    ∃ es, List.Forall₂ (Adds env) attrs es ∧ m = es.foldl (fun m e => m.insert e.1 e.2) m₀ := by
  induction attrs generalizing m₀ with
  | nil => exact ⟨[], .nil, (Except.ok.inj h).symm⟩
  | cons attr attrs ih =>
    rw [List.foldlM_cons] at h
    cases hbuild : buildAttribute env attr with
    | error e => simp [hbuild, bind, Except.bind] at h
    | ok v =>
      rw [hbuild] at h
      rcases ih h with ⟨es, hes, hm⟩
      exact ⟨(cString attr.attr, v) :: es, .cons ⟨rfl, hbuild⟩ hes, hm⟩

/-- A record is decoded attribute by attribute, and a later one replaces an earlier one of the
same name. -/
theorem encodeAttributes_eq_ok {attrs : List Attribute} {m : OrderedMap Bytes Value}
    (h : encodeAttributes env attrs = .ok m) :
    ∃ es, List.Forall₂ (Adds env) attrs es ∧ m = OrderedMap.ofBindings es :=
  foldlM_adds env h

/-- No document, and no container that is empty or has a null string in it. -/
def Plain (attr : Attribute) : Prop :=
  let iter := initDsIterator attr.datatype attr.value.readString
  match attr.datatype with
  | .document => False
  | .list p => (env.ds.iterateList p iter).produced ≠ [] ∧
      ∀ cell ∈ (env.ds.iterateList p iter).produced, readCell p cell ≠ .nil
  | .set p => (env.ds.iterateSet p iter).produced ≠ [] ∧
      ∀ cell ∈ (env.ds.iterateSet p iter).produced, readCell p cell ≠ .nil
  | .map k v => (env.ds.iterateMap k v iter).produced ≠ [] ∧
      ∀ cells ∈ (env.ds.iterateMap k v iter).produced,
        readCell k cells.1 ≠ .nil ∧ readCell v cells.2 ≠ .nil
  | _ => True

theorem storable_readCell {p : Prim} {cell : p.Cell} (h : readCell p cell ≠ .nil) :
    Storable p (Value.ofScalar (readCell p cell)) := by
  cases p with
  | string =>
    cases cell with
    | none => exact absurd rfl h
    | some b => exact .string b
  | int64 => exact .integer _ (Int64.le_toInt cell) (Int64.toInt_lt cell)
  | float => exact .float cell

@[simp] theorem stringified_ofScalar (x : Scalar) :
    stringified (Value.ofScalar x) = Value.ofScalar x := by
  cases x <;> rfl

theorem ofBindings_representable {k v : Prim} {ps : List (Scalar × Scalar)} (hne : ps ≠ [])
    (hps : ∀ q ∈ ps, Storable k (Value.ofScalar q.1) ∧ Storable v (Value.ofScalar q.2)) :
    Representable (.hash ((OrderedMap.ofBindings ps).entries.map ofPair)) := by
  refine .hash (k := k) (v := v) ?_ ?_ ?_
  · simpa using OrderedMap.ofBindings_ne_nil hne
  · intro q hq
    rcases List.mem_map.mp hq with ⟨e, he, rfl⟩
    exact hps e (OrderedMap.mem_of_mem_ofBindings he)
  · have hkeys : ((OrderedMap.ofBindings ps).entries.map ofPair).map (fun q => stringified q.1) =
        ((OrderedMap.ofBindings ps).entries.map Prod.fst).map Value.ofScalar := by
      simp [ofPair]
    rw [hkeys]
    exact (OrderedMap.ofBindings ps).nodup.map Value.ofScalar_injective

theorem buildAttribute_representable {attr : Attribute} {value : Value} (hplain : Plain env attr)
    (h : buildAttribute env attr = .ok value) : Representable value := by
  cases htype : attr.datatype with
  | prim p =>
    cases p with
    | string =>
      simp only [buildAttribute, htype, Except.ok.injEq] at h
      exact h ▸ .scalar (.string _)
    | int64 =>
      simp only [buildAttribute, htype] at h
      cases hunpack : env.ds.unpackInt attr.value with
      | none => simp [hunpack] at h
      | some i =>
        simp only [hunpack, Except.ok.injEq] at h
        exact h ▸ .scalar (.integer _ (Int64.le_toInt i) (Int64.toInt_lt i))
    | float =>
      simp only [buildAttribute, htype] at h
      cases hunpack : env.ds.unpackFloat attr.value with
      | none => simp [hunpack] at h
      | some d =>
        simp only [hunpack, Except.ok.injEq] at h
        exact h ▸ .scalar (.float d)
  | document => simp [Plain, htype] at hplain
  | list p =>
    rcases buildAttribute_list env htype with ⟨message, hbuild⟩
    rw [hbuild, buildList_eq] at h
    simp only [Plain, htype] at hplain
    obtain rfl := Except.ok.inj h
    refine .array (p := p) (by simpa using hplain.1) fun x hx => ?_
    rcases List.mem_map.mp hx with ⟨cell, hcell, rfl⟩
    exact storable_readCell (hplain.2 cell hcell)
  | set p =>
    rcases buildAttribute_set env htype with ⟨message, hbuild⟩
    rw [hbuild, buildSet_eq] at h
    simp only [Plain, htype] at hplain
    obtain rfl := Except.ok.inj h
    refine .set (p := p) ?_ fun x hx => ?_
    · rcases List.exists_mem_of_ne_nil _ hplain.1 with ⟨cell, hcell⟩
      have hmember := (OrderedSet.mem_ofList _ (readCell p cell)).mpr (List.mem_map_of_mem hcell)
      exact List.ne_nil_of_mem (List.mem_map_of_mem hmember)
    · rcases List.mem_map.mp hx with ⟨y, hy, rfl⟩
      rcases List.mem_map.mp ((OrderedSet.mem_ofList _ y).mp hy) with ⟨cell, hcell, rfl⟩
      exact storable_readCell (hplain.2 cell hcell)
  | map k v =>
    rcases buildAttribute_map env htype with ⟨message, hbuild⟩
    rw [hbuild, buildMap_eq] at h
    simp only [Plain, htype] at hplain
    obtain rfl := Except.ok.inj h
    apply ofBindings_representable (k := k) (v := v) (by simpa using hplain.1)
    intro q hq
    rcases List.mem_map.mp hq with ⟨cells, hcells, rfl⟩
    exact ⟨storable_readCell (hplain.2 cells hcells).1, storable_readCell (hplain.2 cells hcells).2⟩
  | _ => simp [buildAttribute, htype] at h

def pairsOf (m : OrderedMap Bytes Value) : List (Value × Value) :=
  m.entries.map fun e => (.symbol e.1, e.2)

theorem exists_adds {attrs : List Attribute} {es : List (Bytes × Value)}
    (hes : List.Forall₂ (Adds env) attrs es) {e : Bytes × Value} (he : e ∈ es) :
    ∃ attr ∈ attrs, Adds env attr e := by
  induction hes with
  | nil => simp at he
  | cons hadds _ ih =>
    rcases List.mem_cons.mp he with rfl | he
    · exact ⟨_, List.mem_cons_self, hadds⟩
    · rcases ih he with ⟨attr, hattr, hadds⟩
      exact ⟨attr, List.mem_cons_of_mem _ hattr, hadds⟩

theorem pairsOf_storable {attrs : List Attribute} {m : OrderedMap Bytes Value}
    (hplain : ∀ attr ∈ attrs, Plain env attr) (h : encodeAttributes env attrs = .ok m) :
    StorableHash (pairsOf m) := by
  rcases encodeAttributes_eq_ok env h with ⟨es, hes, rfl⟩
  have hadded {e : Bytes × Value} (he : e ∈ (OrderedMap.ofBindings es).entries) :
      ∃ attr ∈ attrs, Adds env attr e :=
    exists_adds env hes (OrderedMap.mem_of_mem_ofBindings he)
  constructor
  · intro q hq
    rcases List.mem_map.mp hq with ⟨e, he, rfl⟩
    rcases hadded he with ⟨attr, -, hname, -⟩
    refine ⟨e.1, rfl, ?_⟩
    rw [hname, cString]
    intro hzero
    simpa using List.mem_takeWhile_imp hzero
  · have hnames : (pairsOf (OrderedMap.ofBindings es)).map (fun q => keyName q.1) =
        ((OrderedMap.ofBindings es).entries.map Prod.fst).map some := by
      simp [pairsOf, keyName]
    rw [hnames]
    exact (OrderedMap.ofBindings es).nodup.map fun _ _ => Option.some.inj
  · intro q hq
    rcases List.mem_map.mp hq with ⟨e, he, rfl⟩
    rcases hadded he with ⟨attr, hattr, -, hbuild⟩
    exact buildAttribute_representable env (hplain attr hattr) hbuild

theorem convertAttributes_stores (hds : env.ds.Lawful) {h : List (Value × Value)}
    (hh : StorableHash h) : ∃ attrs, convertAttributes env.ds (.hash h) = .returned attrs ∧
      List.Forall₂ (Stores env) h attrs := by
  obtain ⟨attrs, hattrs, hstores⟩ :=
    foldlM_snoc (fun q => convertAttribute env.ds (pairToArray q)) h
      (fun q hq => convertAttribute_stores env hds hh hq) []
  refine ⟨attrs, ?_, hstores⟩
  simp only [convertAttributes, toA_hash, rarrayLen, Outcome.returned_bind,
    hds.allocateAttribute, if_true, forEntries_array, List.foldlM_map]
  exact hattrs

/-- Lists that are matched by what two functions make of their elements. -/
theorem map_eq_map_of_forall₂ {α β γ : Type} {f : α → γ} {g : β → γ} {xs : List α} {ys : List β}
    (h : List.Forall₂ (fun x y => f x = g y) xs ys) : xs.map f = ys.map g := by
  rw [← List.forall₂_eq_eq_eq, List.forall₂_map_left_iff, List.forall₂_map_right_iff]
  exact h

def SameContent (e e' : Bytes × Value) : Prop := e'.1 = e.1 ∧ DecodesTo e.2 e'.2

/-- Attributes that store bindings of distinct names are read as these bindings. -/
theorem encodeAttributes_sameContent {es : List (Bytes × Value)} {attrs attrs' : List Attribute}
    (hdistinct : (es.map Prod.fst).Nodup)
    (hstores : List.Forall₂ (fun e attr => Stores env (.symbol e.1, e.2) attr) es attrs)
    (hsame : List.Forall₂ SameAttribute attrs attrs') :
    ∃ m, encodeAttributes env attrs' = .ok m ∧ List.Forall₂ SameContent es m.entries := by
  have hpairs : List.Forall₂ (Stores env) (es.map fun e => (.symbol e.1, e.2)) attrs :=
    List.forall₂_map_left_iff.mpr hstores
  rcases encodeAttributes_stores env hpairs hsame with ⟨bindings, hdecode, hbindings⟩
  rw [List.forall₂_map_left_iff] at hbindings
  have hcontent : List.Forall₂ SameContent es bindings :=
    hbindings.imp fun e e' ⟨hname, hvalue⟩ => ⟨(Option.some.inj hname).symm, hvalue⟩
  have hkeys : es.map Prod.fst = bindings.map Prod.fst :=
    map_eq_map_of_forall₂ (hcontent.imp fun _ _ he => he.1.symm)
  refine ⟨_, hdecode, ?_⟩
  rwa [OrderedMap.entries_ofBindings bindings (hkeys ▸ hdistinct)]

/-- A plain record that was read can be written back as it is, under the names that were read,
and is then read with the same names and the same contents. -/
theorem encodeAttributes_writeBack (hds : env.ds.Lawful) {attrs : List Attribute}
    {m : OrderedMap Bytes Value} (hplain : ∀ attr ∈ attrs, Plain env attr)
    (h : encodeAttributes env attrs = .ok m) :
    ∃ attrs', convertAttributes env.ds (.hash (pairsOf m)) = .returned attrs' ∧
      attrs'.map Attribute.attr = m.keys ∧
      ∀ attrs'', List.Forall₂ SameAttribute attrs' attrs'' →
        ∃ m', encodeAttributes env attrs'' = .ok m' ∧
          List.Forall₂ SameContent m.entries m'.entries := by
  rcases convertAttributes_stores env hds (pairsOf_storable env hplain h) with
    ⟨attrs', hconvert, hstores⟩
  rw [pairsOf, List.forall₂_map_left_iff] at hstores
  refine ⟨attrs', hconvert, ?_, fun attrs'' hsame =>
    encodeAttributes_sameContent env m.nodup hstores hsame⟩
  exact (map_eq_map_of_forall₂ (hstores.imp fun _ _ hq => Option.some.inj hq.name)).symm

def sampleRecord : List Attribute :=
  [⟨[110], .ofBytes [7, 0, 0, 0, 0, 0, 0, 0], .prim .int64⟩,
    ⟨[108], .ofBytes [5, 0, 0, 0, 0, 0, 0, 0, 6, 0, 0, 0, 0, 0, 0, 0], .list .int64⟩]

theorem sampleRecord_plain : ∀ attr ∈ sampleRecord, Plain packedEnv attr := by
  have hproduced : (packedEnv.ds.iterateList .int64 (initDsIterator (.list .int64)
      [5, 0, 0, 0, 0, 0, 0, 0, 6, 0, 0, 0, 0, 0, 0, 0])).produced = [(5 : Int64), (6 : Int64)] :=
    rfl
  intro attr hattr
  rcases List.mem_cons.mp hattr with rfl | hattr
  · trivial
  · obtain rfl := List.mem_singleton.mp hattr
    simp only [Plain, Buffer.readString_ofBytes, hproduced]
    exact ⟨nofun, fun cell _ => nofun⟩

theorem encodeAttributes_writeBack_sampleRecord :
    ∃ m, encodeAttributes packedEnv sampleRecord = .ok m ∧
      ∃ attrs', convertAttributes packedEnv.ds (.hash (pairsOf m)) = .returned attrs' ∧
        attrs'.map Attribute.attr = m.keys ∧
        ∀ attrs'', List.Forall₂ SameAttribute attrs' attrs'' →
          ∃ m', encodeAttributes packedEnv attrs'' = .ok m' ∧
            List.Forall₂ SameContent m.entries m'.entries :=
  ⟨_, rfl, encodeAttributes_writeBack packedEnv packedFormat_lawful sampleRecord_plain rfl⟩

end HyperDex.Decoding
