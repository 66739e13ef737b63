import HyperDex.Client.Call
import HyperDex.Conversion.Checks

/-!
# The conversion phase as a row of steps

Whatever a call converts, it takes one after the other some steps that may
raise: tests of a type, conversions of a name or a value, allocations. How the
phase ends is how the first of them ends that does not return. Two steps apply
an array accessor to what a caller supplied without a test: the names of
attributes, and the array that an object's `to_a` should return.
-/
namespace HyperDex.Client
open General Ruby Conversion

inductive NameUse where
  | space
  | attribute
  | sortby
  deriving DecidableEq, Repr

def NameUse.errorMessage : NameUse → String
  | .space => "spacename must be a string or symbol"
  | .attribute => "Attribute name must be a string or symbol"
  | .sortby => "sortby must be a string or symbol"

/-- The steps of a conversion that may end it. -/
inductive Step where
  | name (use : NameUse) (x : Value)
  | key (x : Value)
  | value (x : Value)
  /-- `TYPE(x) != T_HASH` -/
  | hash (x : Value) (errorMessage : String)
  /-- `RARRAY_LEN` of the names of attributes -/
  | names (x : Value)
  /-- the sizing pass over the pairs of a predicates hash -/
  | sizing (pairs : List (Value × Value))
  | allocation (succeeds : Bool)
  | limit (x : Value)

section Steps
variable {Obj : Type} (ds : DataStructures Obj)

def Step.run : Step → Conv Unit
  | .name use x => (convertCstring x use.errorMessage).ending
  | .key x => (convertKey ds x).ending
  | .value x => (convertType ds x).ending
  | .hash x errorMessage =>
    match x with
    | .hash _ => .returned ()
    | _ => .raised (typeError errorMessage)
  | .names x => (rarrayLen x).ending
  | .sizing pairs => (sizePredicates (.array (pairs.map pairToArray))).ending
  | .allocation succeeds => if succeeds then .returned () else .raised outOfMemory
  | .limit x => (convertLimit x).ending

def attributesSteps (x : Value) : List Step :=
  .hash x "Attributes must be specified as a hash" ::
    match x with
    | .hash pairs => .allocation (ds.allocateAttribute pairs.length) ::
        pairs.flatMap fun p => [.name .attribute p.1, .value p.2]
    | _ => []

def attributenamesSteps (x : Value) : List Step :=
  .names x ::
    match x with
    | .array xs => .allocation (ds.malloc xs.length) ::
        xs.flatMap fun name => [.name .attribute name]
    | _ => []

def predicatesSteps (x : Value) : List Step :=
  .hash x "Predicates must be specified as a hash" ::
    match x with
    | .hash pairs => .sizing pairs ::
        .allocation (ds.allocateAttributeCheck (flattenPredicates pairs).length) ::
          pairs.flatMap fun p => .name .attribute p.1 :: (checksOf p.2).map fun c => .value c.2
    | _ => []

def Call.mapattributes : Call → Option Value
  | .spacenameKeyMapattributesStatus _ _ mapattributes => some mapattributes
  | .spacenameKeyPredicatesMapattributesStatus _ _ _ mapattributes => some mapattributes
  | _ => none

/-- The steps of a call in order, as far as its map attributes. -/
def Call.steps : Call → List Step
  | .spacenameKeyStatusAttributes spacename key => [.name .space spacename, .key key]
  | .spacenameKeyAttributenamesStatusAttributes spacename key attributenames =>
    .name .space spacename :: .key key :: attributenamesSteps ds attributenames
  | .spacenameKeyAttributesStatus spacename key attributes =>
    .name .space spacename :: .key key :: attributesSteps ds attributes
  | .spacenameKeyPredicatesAttributesStatus spacename key predicates attributes =>
    .name .space spacename :: .key key ::
      (predicatesSteps ds predicates ++ attributesSteps ds attributes)
  | .spacenameKeyStatus spacename key => [.name .space spacename, .key key]
  | .spacenameKeyPredicatesStatus spacename key predicates =>
    .name .space spacename :: .key key :: predicatesSteps ds predicates
  | .spacenameKeyMapattributesStatus spacename key _ => [.name .space spacename, .key key]
  | .spacenameKeyPredicatesMapattributesStatus spacename key predicates _ =>
    .name .space spacename :: .key key :: predicatesSteps ds predicates
  | .iteratorSpacenamePredicatesStatusAttributes spacename predicates =>
    .name .space spacename :: predicatesSteps ds predicates
  | .spacenamePredicatesStatusDescription spacename predicates =>
    .name .space spacename :: predicatesSteps ds predicates
  | .iteratorSpacenamePredicatesSortbyLimitMaxminStatusAttributes spacename predicates sortby limit
      _ =>
    .name .space spacename ::
      (predicatesSteps ds predicates ++ [.name .sortby sortby, .limit limit])
  | .spacenamePredicatesStatus spacename predicates =>
    .name .space spacename :: predicatesSteps ds predicates
  | .spacenamePredicatesStatusCount spacename predicates =>
    .name .space spacename :: predicatesSteps ds predicates

/-- How a row of steps ends. -/
def endingOf (steps : List Step) : Conv Unit := Outcome.sequence (steps.map (Step.run ds))

theorem endingOf_nil : endingOf ds [] = .returned () := rfl

theorem endingOf_cons (s : Step) (steps : List Step) :
    endingOf ds (s :: steps) = s.run ds >>= fun _ => endingOf ds steps := rfl

theorem endingOf_append (steps steps' : List Step) :
    endingOf ds (steps ++ steps') = endingOf ds steps >>= fun _ => endingOf ds steps' := by
  rw [endingOf, List.map_append, Outcome.sequence_append]
  rfl

theorem endingOf_singleton (s : Step) : endingOf ds [s] = s.run ds := by
  rw [endingOf_cons]
  exact Outcome.bind_unit _

theorem ending_foldlM_steps {σ α : Type} {body : σ → α → Conv σ} {steps : α → List Step}
    (xs : List α) (hbody : ∀ x ∈ xs, ∀ s, (body s x).ending = endingOf ds (steps x)) (s : σ) :
    (xs.foldlM body s).ending = endingOf ds (xs.flatMap steps) := by
  rw [Outcome.ending_foldlM xs hbody s, endingOf, List.map_flatMap]

theorem convertAttribute_ending (p : Value × Value) :
    (convertAttribute ds (pairToArray p)).ending =
      endingOf ds [.name .attribute p.1, .value p.2] := by
  simp only [convertAttribute, rbAryEntry_pair_zero, rbAryEntry_pair_one, Outcome.returned_bind]
  rw [endingOf_cons, endingOf_singleton]
  apply Outcome.ending_bind
  intro attr _
  rw [Step.run]
  cases convertType ds p.2 <;> rfl

theorem convertAttributes_ending (x : Value) :
    (convertAttributes ds x).ending = endingOf ds (attributesSteps ds x) := by
  cases x with
  | hash pairs =>
    simp only [convertAttributes, toA_hash, rarrayLen, List.length_map, Outcome.returned_bind]
    simp only [attributesSteps, endingOf_cons, Step.run, Outcome.returned_bind]
    split
    · rw [forEntries_array, List.foldlM_map, Outcome.returned_bind]
      apply ending_foldlM_steps
      intro p _ attrs
      rw [← convertAttribute_ending]
      cases convertAttribute ds (pairToArray p) <;> rfl
    · rfl
  | _ => rfl

theorem convertAttributenames_ending (x : Value) :
    (convertAttributenames ds x).ending = endingOf ds (attributenamesSteps ds x) := by
  cases x with
  | array xs =>
    simp only [convertAttributenames, rarrayLen, Outcome.returned_bind]
    simp only [attributenamesSteps, endingOf_cons, Step.run, rarrayLen, Outcome.ending_returned,
      Outcome.returned_bind]
    split
    · rw [forEntries_array, Outcome.returned_bind]
      apply ending_foldlM_steps
      intro name _ names
      rw [endingOf_singleton, Step.run, NameUse.errorMessage]
      cases convertCstring name "Attribute name must be a string or symbol" <;> rfl
    · rfl
  | _ => rfl

theorem convertCheck_ending (attr : Bytes) (s : Checks) (check : Hyperpredicate × Value) :
    (convertCheck ds attr s check).ending = endingOf ds [.value check.2] := by
  rw [endingOf_singleton, convertCheck, Step.run]
  cases convertType ds check.2 <;> rfl

theorem convertPredicateObject_ending (attr : Bytes) {x : Value} (hx : isPredicate x = true)
    (s : Checks) : (convertPredicateObject ds attr x s).ending =
      endingOf ds ((objectChecks x).flatMap fun c => [.value c.2]) := by
  rw [objectChecks_of_isPredicate hx]
  exact ending_foldlM_steps ds _ (fun c _ s => convertCheck_ending ds attr s c) s

theorem convertPredicate_ending (attr : Bytes) {x : Value} (hx : AssertsHold x) (s : Checks) :
    (convertPredicate ds attr x s).ending =
      endingOf ds ((checksOf x).flatMap fun c => [.value c.2]) := by
  cases x with
  | predicate checks => exact convertPredicateObject_ending ds attr (x := .predicate checks) rfl s
  | array xs =>
    cases xs with
    | nil => exact convertCheck_ending ds attr s _
    | cons first rest =>
      cases hfirst : isPredicate first with
      | false =>
        simp only [convertPredicate, checksOf, hfirst, Bool.false_eq_true, if_false]
        exact convertCheck_ending ds attr s _
      | true =>
        simp only [AssertsHold, predicateArray, hfirst, if_true] at hx
        simp only [convertPredicate, checksOf, hfirst, if_true, forEntries_array]
        rw [List.flatMap_assoc]
        apply ending_foldlM_steps
        intro pred hpred s
        exact convertPredicateObject_ending ds attr (hx pred hpred) s
  | _ => exact convertCheck_ending ds attr s _

theorem writePredicates_ending {pairs : List (Value × Value)} (h : ∀ p ∈ pairs, AssertsHold p.2) :
    (writePredicates ds (.array (pairs.map pairToArray))).ending =
      endingOf ds (pairs.flatMap fun p =>
        .name .attribute p.1 :: (checksOf p.2).map fun c => .value c.2) := by
  rw [writePredicates, forEntries_array, List.foldlM_map]
  apply ending_foldlM_steps
  intro p hp s
  simp only [rbAryEntry_pair_zero, rbAryEntry_pair_one, Outcome.returned_bind]
  rw [endingOf_cons]
  apply Outcome.ending_bind
  intro attr _
  rw [convertPredicate_ending ds attr (h p hp), List.map_eq_flatMap]

theorem convertPredicates_ending (x : Value) :
    (convertPredicates ds x).ending = endingOf ds (predicatesSteps ds x) := by
  cases x with
  | hash pairs =>
    rw [convertPredicates_hash]
    simp only [predicatesSteps, endingOf_cons, Step.run, Outcome.returned_bind]
    by_cases hasserts : ∀ p ∈ pairs, AssertsHold p.2
    · rw [sizePredicates_of_asserts hasserts, ← writePredicates_ending ds hasserts]
      simp only [Outcome.returned_bind, Outcome.ending_returned]
      split
      · cases writePredicates ds (.array (pairs.map pairToArray)) <;> rfl
      · rfl
    · push Not at hasserts
      rw [sizePredicates_of_mixed hasserts]
      rfl
  | _ => rfl

theorem ending_mapM_id {α : Type} (xs : List (Conv α)) :
    (xs.mapM id).ending = Outcome.sequence (xs.map Outcome.ending) := by
  induction xs with
  | nil => rfl
  | cons x xs ih =>
    rw [List.mapM_cons, List.map_cons, Outcome.sequence, ← ih]
    apply Outcome.ending_bind
    intro a _
    cases xs.mapM id <;> rfl

theorem spaceArgument_ending (x : Value) :
    (spaceArgument x).ending = (Step.name .space x).run ds := by
  rw [spaceArgument, convertSpacename, Step.run, NameUse.errorMessage]
  cases convertCstring x "spacename must be a string or symbol" <;> rfl

theorem keyArgument_ending (x : Value) : (keyArgument ds x).ending = (Step.key x).run ds := by
  rw [keyArgument, Step.run]
  cases convertKey ds x <;> rfl

theorem attrsArgument_ending (x : Value) :
    (attrsArgument ds x).ending = endingOf ds (attributesSteps ds x) := by
  rw [← convertAttributes_ending, attrsArgument]
  cases convertAttributes ds x <;> rfl

theorem attrnamesArgument_ending (x : Value) :
    (attrnamesArgument ds x).ending = endingOf ds (attributenamesSteps ds x) := by
  rw [← convertAttributenames_ending, attrnamesArgument]
  cases convertAttributenames ds x <;> rfl

theorem checksArgument_ending (x : Value) :
    (checksArgument ds x).ending = endingOf ds (predicatesSteps ds x) := by
  rw [← convertPredicates_ending, checksArgument]
  cases convertPredicates ds x <;> rfl

theorem mapattrsArgument_ending (rounds : ℕ) (x : Value) :
    (mapattrsArgument ds rounds x).ending = (convertMapattributes ds rounds x).ending := by
  rw [mapattrsArgument]
  cases convertMapattributes ds rounds x <;> rfl

theorem sortByArgument_ending (x : Value) :
    (sortByArgument x).ending = (Step.name .sortby x).run ds := by
  rw [sortByArgument, convertSortby, Step.run, NameUse.errorMessage]
  cases convertCstring x "sortby must be a string or symbol" <;> rfl

theorem limitArgument_ending (x : Value) :
    (limitArgument x).ending = (Step.limit x).run ds := by
  rw [limitArgument, Step.run]
  cases convertLimit x <;> rfl

theorem Call.convert_ending (rounds : ℕ) (call : Call) :
    (call.convert ds rounds).ending = endingOf ds (call.steps ds) >>= fun _ =>
      match call.mapattributes with
      | none => .returned ()
      | some x => (convertMapattributes ds rounds x).ending := by
  rw [Call.convert, ending_mapM_id]
  cases call <;>
    simp [Call.conversions, Call.steps, Call.mapattributes, Outcome.sequence, Outcome.bind_unit,
      endingOf_nil, endingOf_cons, endingOf_append, spaceArgument_ending ds, keyArgument_ending,
      attrsArgument_ending, attrnamesArgument_ending, checksArgument_ending,
      mapattrsArgument_ending, sortByArgument_ending ds, limitArgument_ending ds]

def LacksArray (x : Value) : Prop := ∃ y, x = .object (.ok y) ∧ ∀ xs, y ≠ .array xs

/-- An array accessor of the step is applied to a value that is no array. -/
def Step.MissesArray : Step → Prop
  | .names x => ∀ xs, x ≠ .array xs
  | .key x | .value x => LacksArray x
  | _ => False

theorem orOutOfMemory_completes {α : Type} (a : Option α) : (orOutOfMemory a).Completes := by
  cases a with
  | none => exact Outcome.completes_raised _
  | some a => exact Outcome.completes_returned a

theorem num2ll_completes (i : Int) : (num2ll i).Completes := by
  rw [num2ll]
  split
  · exact Outcome.completes_returned _
  · exact Outcome.completes_raised _

theorem convertCstring_completes (x : Value) (errorMessage : String) :
    (convertCstring x errorMessage).Completes := by
  cases x with
  | symbol name => exact Outcome.completes_returned name
  | string b =>
    rw [convertCstring]
    split
    · exact Outcome.completes_raised _
    · exact Outcome.completes_returned b
  | _ => exact Outcome.completes_raised _

theorem convertLimit_completes (x : Value) : (convertLimit x).Completes := by
  have hinteger (i : Int) : (toUnsignedLong i).Completes := by
    rw [toUnsignedLong]
    split
    · exact Outcome.completes_returned _
    · exact Outcome.completes_raised _
  cases x with
  | integer i => exact hinteger i
  | float bits =>
    rw [convertLimit, rbNum2ulong]
    cases truncate bits with
    | none => exact Outcome.completes_raised _
    | some i => exact hinteger i
  | _ => exact Outcome.completes_raised _

theorem convertElemWith_completes (e : Value) (x : Obj)
    (f : (p : Prim) → Obj → p.Elem → Except DsReturnCode Obj) :
    (convertElemWith e x f).Completes := by
  have hresult (type : String) (r : Except DsReturnCode Obj) : (elemResult type r).Completes := by
    cases r with
    | error code => exact Outcome.completes_raised _
    | ok y => exact Outcome.completes_returned y
  cases e with
  | symbol name => exact hresult "string" _
  | string b => exact hresult "string" _
  | integer i => exact (num2ll_completes i).bind fun tmpI => hresult "integer" _
  | float d => exact hresult "float" _
  | _ => exact Outcome.completes_raised _

theorem copied_completes (type : Prim) (value : Option Buffer) : (copied type value).Completes :=
  (orOutOfMemory_completes value).bind fun _ => Outcome.completes_returned _

theorem convertList_completes (xs : List Value) : (convertList ds (.array xs)).Completes := by
  apply (orOutOfMemory_completes _).bind
  intro list
  rw [forEntries_array]
  refine Outcome.Completes.bind ?_ fun list => orOutOfMemory_completes _
  exact Outcome.completes_foldlM (fun list e => convertElemWith_completes e list _) xs list

theorem convertSet_completes {x : Value} {xs : List Value}
    (hx : toA x = .returned (.array xs)) : (convertSet ds x).Completes := by
  rw [convertSet, hx, Outcome.returned_bind]
  apply (orOutOfMemory_completes _).bind
  intro set
  rw [forEntries_array]
  refine Outcome.Completes.bind ?_ fun set => orOutOfMemory_completes _
  exact Outcome.completes_foldlM (fun set e => convertElemWith_completes e set _) xs set

theorem convertMap_completes (pairs : List (Value × Value)) :
    (convertMap ds (.hash pairs)).Completes := by
  rw [convertMap, toA_hash, Outcome.returned_bind]
  apply (orOutOfMemory_completes _).bind
  intro map
  rw [forEntries_array, List.foldlM_map]
  refine Outcome.Completes.bind ?_ fun map => orOutOfMemory_completes _
  apply Outcome.completes_foldlM
  intro map p
  exact (convertElemWith_completes p.1 map _).bind fun map => convertElemWith_completes p.2 map _

theorem convertType_completes {x : Value} (hx : ¬ LacksArray x) : (convertType ds x).Completes := by
  cases x with
  | symbol name => exact copied_completes _ _
  | string b => exact copied_completes _ _
  | integer i => exact (num2ll_completes i).bind fun tmpI => copied_completes _ _
  | float d => exact copied_completes _ _
  | array xs => exact convertList_completes ds xs
  | hash pairs => exact convertMap_completes ds pairs
  | set elems =>
    rw [convertType_set]
    exact convertSet_completes ds (toA_set elems)
  | object toA =>
    rw [convertType_object]
    cases toA with
    | error e => exact Outcome.completes_raised e
    | ok y =>
      cases y with
      | array xs => exact convertSet_completes ds rfl
      | _ => exact absurd ⟨_, rfl, fun xs => Value.noConfusion⟩ hx
  | _ => exact Outcome.completes_raised _

theorem convertType_of_lacksArray {x : Value} (hx : LacksArray x) :
    convertType ds x = .raised outOfMemory ∨ convertType ds x = .undefined := by
  rcases hx with ⟨y, rfl, hy⟩
  have htoA : toA (.object (.ok y)) = .returned y := rfl
  rw [convertType_object, convertSet, htoA, Outcome.returned_bind]
  cases ds.allocateSet with
  | none => exact .inl rfl
  | some set =>
    right
    cases y with
    | array xs => exact absurd rfl (hy xs)
    | _ => rfl

theorem Step.run_completes {s : Step} (hs : ¬ s.MissesArray) : (s.run ds).Completes := by
  cases s with
  | name use x => exact Outcome.completes_ending.mpr (convertCstring_completes x _)
  | key x =>
    refine Outcome.completes_ending.mpr ((convertType_completes ds hs).bind fun key => ?_)
    exact Outcome.completes_returned key.value
  | value x => exact Outcome.completes_ending.mpr (convertType_completes ds hs)
  | hash x errorMessage =>
    cases x with
    | hash pairs => exact Outcome.completes_returned ()
    | _ => exact Outcome.completes_raised _
  | names x =>
    cases x with
    | array xs => exact Outcome.completes_returned ()
    | _ => exact absurd (fun xs => Value.noConfusion) hs
  | sizing pairs =>
    apply Outcome.completes_ending.mpr
    by_cases hasserts : ∀ p ∈ pairs, AssertsHold p.2
    · rw [sizePredicates_of_asserts hasserts]
      exact Outcome.completes_returned _
    · push Not at hasserts
      rw [sizePredicates_of_mixed hasserts]
      exact Outcome.completes_raised _
  | allocation succeeds =>
    cases succeeds with
    | true => exact Outcome.completes_returned ()
    | false => exact Outcome.completes_raised _
  | limit x => exact Outcome.completes_ending.mpr (convertLimit_completes x)

/-- Where an array is missing the step has no meaning, unless memory fails first. -/
theorem Step.run_of_missesArray {s : Step} (hs : s.MissesArray) :
    s.run ds = .raised outOfMemory ∨ s.run ds = .undefined := by
  cases s with
  | key x =>
    rcases convertType_of_lacksArray ds hs with hraised | hundefined
    · exact .inl (by rw [run, convertKey, hraised]; rfl)
    · exact .inr (by rw [run, convertKey, hundefined]; rfl)
  | value x =>
    rcases convertType_of_lacksArray ds hs with hraised | hundefined
    · exact .inl (by rw [run, hraised]; rfl)
    · exact .inr (by rw [run, hundefined]; rfl)
  | names x =>
    cases x with
    | array xs => exact absurd rfl (hs xs)
    | _ => exact .inr rfl
  | _ => exact absurd hs not_false

end Steps

variable {Obj : Type} (ds : DataStructures Obj)

/-- The conversion gets to a step: those before it return. -/
def Call.Reaches (call : Call) (s : Step) : Prop :=
  ∃ pre post, call.steps ds = pre ++ s :: post ∧ ∀ t ∈ pre, t.run ds = .returned ()

/-- The conversion phase of a call returns or raises, and where an array is missing it raises
`TypeError`. -/
structure ArgumentsLaw (rounds : ℕ) (call : Call) : Prop where
  completes : (call.convert ds rounds).Completes
  rejects : ∀ s, call.Reaches ds s → s.MissesArray →
    ∃ message, call.convert ds rounds = .raised (typeError message)

theorem Call.convert_ending_of_plain {call : Call} (hcall : call.mapattributes = none)
    (rounds : ℕ) : (call.convert ds rounds).ending = endingOf ds (call.steps ds) := by
  rw [convert_ending, hcall]
  exact Outcome.bind_unit _

theorem Call.Reaches.ending {call : Call} (hcall : call.mapattributes = none) (rounds : ℕ)
    {s : Step} (hs : call.Reaches ds s) (hrun : s.run ds ≠ .returned ()) :
    (call.convert ds rounds).ending = s.run ds := by
  rcases hs with ⟨pre, post, hsteps, hpre⟩
  rw [convert_ending_of_plain ds hcall, endingOf, hsteps, List.map_append, List.map_cons]
  exact Outcome.sequence_reached (List.forall_mem_map.mpr hpre) hrun

/-- The law holds of a call, other than of the map-attribute family, unless its conversion gets
to a step that misses an array. -/
theorem argumentsLaw_iff (rounds : ℕ) (call : Call) (hcall : call.mapattributes = none) :
    ArgumentsLaw ds rounds call ↔ ∀ s, call.Reaches ds s → ¬ s.MissesArray := by
  constructor
  · intro hlaw s hreach hs
    rcases hlaw.rejects s hreach hs with ⟨message, hraised⟩
    have hrun := Step.run_of_missesArray ds hs
    have hending := hreach.ending ds hcall rounds (by rcases hrun with h | h <;> simp [h])
    rw [hraised, Outcome.ending_raised] at hending
    rcases hrun with hmemory | hundefined
    · rw [hmemory] at hending
      simp [typeError, outOfMemory] at hending
    · rw [hundefined] at hending
      cases hending
  · intro h
    constructor
    · rw [← Outcome.completes_ending, Call.convert_ending_of_plain ds hcall]
      apply Outcome.completes_sequence
      intro pre x post hsteps hpre
      rcases List.map_eq_append_iff.mp hsteps with ⟨before, rest, hsplit, rfl, hrest⟩
      rcases List.map_eq_cons_iff.mp hrest with ⟨s, after, rfl, rfl, rfl⟩
      have hreach : call.Reaches ds s := ⟨before, after, hsplit, List.forall_mem_map.mp hpre⟩
      exact Step.run_completes ds (h s hreach)
    · intro s hreach hs
      exact absurd hs (h s hreach)

def getPartial (attributenames : Value) : Call :=
  .spacenameKeyAttributenamesStatusAttributes (.string [115]) (.string [107]) attributenames

/-- With an array of names the law holds. -/
theorem argumentsLaw_getPartial :
    ArgumentsLaw packedFormat 0 (getPartial (.array [.symbol [97]])) := by
  apply (argumentsLaw_iff packedFormat 0 _ rfl).mpr
  rintro s ⟨pre, post, hsteps, -⟩
  have hmem : s ∈ (getPartial (.array [.symbol [97]])).steps packedFormat := by simp [hsteps]
  simp only [getPartial, Call.steps, attributenamesSteps, List.flatMap_cons, List.flatMap_nil,
    List.mem_cons, List.append_nil, List.not_mem_nil, or_false] at hmem
  rcases hmem with rfl | rfl | rfl | rfl | rfl <;> simp [Step.MissesArray, LacksArray]

/-- An integer in place of the names, and a key whose `to_a` returns an integer, are read as
arrays. -/
theorem getPartial_integer_undefined :
    (getPartial (.integer 5)).convert packedFormat 0 = .undefined ∧
      ¬ ArgumentsLaw packedFormat 0 (getPartial (.integer 5)) ∧
      (Call.spacenameKeyStatus (.string [115]) (.object (.ok (.integer 5)))).convert
        packedFormat 0 = .undefined := by
  refine ⟨rfl, fun hlaw => ?_, rfl⟩
  have hundefined : (getPartial (.integer 5)).convert packedFormat 0 = .undefined := rfl
  rcases hlaw.completes with ⟨args, hargs⟩ | ⟨e, he⟩
  · rw [hundefined] at hargs
    cases hargs
  · rw [hundefined] at he
    cases he

end HyperDex.Client
