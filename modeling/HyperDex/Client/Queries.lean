import HyperDex.Client.Talk

/-!
# Searches over the objects of a store

A search carries the checks of a predicates hash to the store, which reports the
records that satisfy them, in any order, among the answers to other requests. The
consumer of the Iterator obtains the objects whose values meet the conditions of the
hash, each of them once, and no others. A sorted search reports the first of them in
the order of an attribute, and the consumer obtains them in that order.
-/
namespace HyperDex.Client
open General Ruby Conversion Decoding ObjectStore

variable {Obj V : Type} {env : Env Obj}

def searchFor (spacename : Value) (conditions : List (Value × Condition)) : Call :=
  .iteratorSpacenamePredicatesStatusAttributes spacename (predicatesHash conditions)

def sortedSearchFor (spacename : Value) (conditions : List (Value × Condition))
    (sortby limit maxmin : Value) : Call :=
  .iteratorSpacenamePredicatesSortbyLimitMaxminStatusAttributes spacename
    (predicatesHash conditions) sortby limit maxmin

/-- The checks, the name, the limit and the direction that the library receives. -/
def sortedSearchReceived : List Argument → Option (List AttributeCheck × Bytes × UInt64 × ℕ)
  | [.space _, .checks _ slots, .sortBy name, .limit limit, .maxmin maxmin] =>
    some (readChecks slots, cString name, limit, maxmin)
  | _ => none

/-- An object of the space that is searched: the record of the store, and what it is decoded
to. -/
structure Row (env : Env Obj) where
  record : Record
  object : Object
  keeps : Keeps env record object

open Classical in
/-- The rows with a property, each as often as it is there, in any order. -/
def Selects (P : Row env → Prop) (rows found : List (Row env)) : Prop :=
  found.Perm (rows.filter fun row => P row)

/-- The first of the rows with a property in the order of a value. -/
def Ranks (sem : Semantics V) (P : Row env → Prop) (value : Row env → V) (greatestFirst : Prop)
    (limit : ℕ) (rows found : List (Row env)) : Prop :=
  ∃ ordered, Selects P rows ordered ∧
    ordered.Pairwise (fun a b => (greatestFirst → sem.le (value b) (value a)) ∧
      (¬ greatestFirst → sem.le (value a) (value b))) ∧
    found = ordered.take limit

/-- The store reports the records of these rows, and then the end of the search. -/
def ReportsRows (found : List (Row env)) (cs : List Completion) : Prop :=
  ∃ reports message,
    List.Forall₂ (fun row c => Reported (.object row.record) c) found reports ∧
      cs = reports ++ [⟨.searchdone, message, .none⟩]

/-- The store reports every record that satisfies the checks. -/
def Finds (schema : Schema env V) (rows : List (Row env)) (checks : List AttributeCheck)
    (cs : List Completion) : Prop :=
  ∃ found,
    Selects (fun row => schema.sem.Satisfies (schema.recordValues row.record) checks) rows found ∧
      ReportsRows found cs

/-- The store reports the first records that satisfy the checks, in the order of an attribute. -/
def FindsSorted (schema : Schema env V) (rows : List (Row env))
    (received : List AttributeCheck × Bytes × UInt64 × ℕ) (cs : List Completion) : Prop :=
  match received with
  | (checks, name, limit, maxmin) => ∃ found,
    Ranks schema.sem (fun row => schema.sem.Satisfies (schema.recordValues row.record) checks)
      (fun row => schema.recordValues row.record name) (maxmin ≠ 0) limit.toNat rows found ∧
      ReportsRows found cs

def Row.Shows (row : Row env) (m : OrderedMap Bytes Value) : Prop :=
  ∃ es, es.Perm row.object.entries ∧ List.Forall₂ SameContent es m.entries

theorem itemsOf_reports {found : List (Row env)} {reports : List Completion}
    (h : List.Forall₂ (fun row c => Reported (.object row.record) c) found reports) :
    ∃ ms, List.Forall₂ Row.Shows found ms ∧
      itemsOf env reports = ms.map fun m => .record (hashOf m) := by
  induction h with
  | nil => exact ⟨[], .nil, rfl⟩
  | @cons row c found reports hreported _ ih =>
    rcases ih with ⟨ms, hms, hitems⟩
    cases hreported with
    | @object _ attrs attrs' message hperm hsame =>
      rcases row.keeps.read hperm hsame with ⟨m, hdecode, hshows⟩
      refine ⟨m :: ms, .cons hshows hms, ?_⟩
      have hone : Completion.items env ⟨.success, message, .attributes attrs'⟩ =
          .ok [.record (hashOf m)] := by
        simp [Completion.items, hdecode, bind, Except.bind, pure, Except.pure]
      rw [itemsOf, List.flatMap_cons, hone, ← itemsOf, hitems]
      rfl

/-- A search that is served up to its end gives the hashes of the objects that were reported, in
their order, and no others. -/
theorem Sound.collect_reports {w : World} (hw : Sound env w) {call : Call}
    (hkind : call.kind = .iterator) {args : List Argument}
    (hconvert : call.convert env.ds 0 = .returned args) {answer : SubmissionAnswer}
    {script : Script} (hpos : 0 ≤ answer.reqid)
    (hfree : w.lib.outstanding.lookup answer.reqid = none)
    (hserves : Serves env (w.register call answer.reqid).lib.outstanding script)
    {found : List (Row env)} (hreports : ReportsRows found (eventsOf answer.reqid script)) :
    ∃ ms, List.Forall₂ Row.Shows found ms ∧
      (collect env w.responses.length ((w.hear answer.message).register call answer.reqid)
        script).1 = .returned (ms.map fun m => .record (hashOf m)) := by
  rcases hreports with ⟨reports, message, hreports, hevents⟩
  rcases itemsOf_reports hreports with ⟨ms, hms, hitems⟩
  refine ⟨ms, hms, ?_⟩
  have hsubmitted : Submitted env call 0 answer w (.returned w.responses.length,
      (w.hear answer.message).register call answer.reqid) := .accepted hconvert hpos hfree
  have hp : ((w.hear answer.message).register call answer.reqid).lib.outstanding.lookup
      answer.reqid = some ⟨w.responses.length, call.kind, call.outputs,
        call.outputs_of_iterator⟩ := by
    simp [World.register, World.hear]
  have hdone : ∃ c ∈ eventsOf answer.reqid script, c.status = .searchdone := by
    rw [hevents]
    exact ⟨_, List.mem_append_right _ (List.mem_singleton_self _), rfl⟩
  have hcollect := (SmallSteps.sound hsubmitted.steps hw).collect_value hp hkind hserves hdone
  have hbacklog : ((w.hear answer.message).register call answer.reqid).backlog
      w.responses.length = [] := by
    simp [World.backlog, World.register, World.hear, Response.accept, Response.new]
  have hend : itemsOf env [⟨.searchdone, message, .none⟩] = [] := rfl
  rw [hcollect, hbacklog, hevents, itemsOf, List.flatMap_append, ← itemsOf, ← itemsOf, hitems,
    hend, List.append_nil, List.nil_append]

/-- In every reachable state, a search whose predicates are converted and which is served up to its
end gives one hash for every object that meets the conditions, and no others. -/
theorem search_shows (as : List Action) (hcrashed : (run env as).crashed = false)
    {spacename : Value} {conditions : List (Value × Condition)} {space : Bytes}
    {checks : List AttributeCheck} {answer : SubmissionAnswer} {script : Script}
    (hspace : convertSpacename spacename = .returned space)
    (hchecks : ChecksFor env.ds checks conditions) (hpos : 0 ≤ answer.reqid)
    (hfree : (run env as).lib.outstanding.lookup answer.reqid = none)
    (hserves : Serves env ((run env as).register (searchFor spacename conditions)
      answer.reqid).lib.outstanding script) {schema : Schema env V} {rows : List (Row env)}
    (hfinds : Finds schema rows checks (eventsOf answer.reqid script)) :
    ∃ found ms,
      Selects (fun row => Meets env.ds schema.sem conditions (schema.objectValues row.object)) rows
        found ∧
      List.Forall₂ Row.Shows found ms ∧
      (collect env (run env as).responses.length
        (run env (as ++ [.submit (searchFor spacename conditions) 0 answer])) script).1 =
          .returned (ms.map fun m => .record (hashOf m)) := by
  rcases hfinds with ⟨found, hfound, hreports⟩
  have hmeans (row : Row env) := hchecks.holds_iff schema row.keeps
  rcases hchecks.converted with ⟨result, hresult, -⟩
  have hconvert : (searchFor spacename conditions).convert env.ds 0 =
      .returned [.space space, .checks result.1 result.2] := by
    simp [searchFor, Call.convert, Call.conversions, spaceArgument, checksArgument, hspace,
      hresult]
  rcases (run_sound env as).collect_reports rfl hconvert hpos hfree hserves hreports with
    ⟨ms, hms, hcollect⟩
  rw [run_snoc, step_submit_accepted hcrashed hconvert hpos hfree]
  exact ⟨found, ms, by simpa only [hmeans] using hfound, hms, hcollect⟩

theorem convertLimit_natural {limit : ℕ} (h : limit < 2 ^ 64) :
    convertLimit (.integer limit) = .returned (UInt64.ofNat limit) := by
  have hrange : (-2 ^ 63 : Int) ≤ limit ∧ (limit : Int) < 2 ^ 64 := by omega
  have hmod : ((limit : Int) % 2 ^ 64).toNat = limit := by omega
  rw [convertLimit, rbNum2ulong, toUnsignedLong, if_pos hrange, hmod]

theorem convertMaxmin_ne_zero_iff (x : Value) : convertMaxmin x ≠ 0 ↔ x = .true := by
  cases x <;> simp [convertMaxmin]

/-- In every reachable state, a sorted search gives the hashes of the first objects that meet the
conditions, in the order of an attribute; only `true` asks for the greatest first. -/
theorem sortedSearch_shows (as : List Action) (hcrashed : (run env as).crashed = false)
    {spacename : Value} {conditions : List (Value × Condition)} {sortby maxmin : Value}
    {space name : Bytes} {limit : ℕ} {checks : List AttributeCheck} {answer : SubmissionAnswer}
    {script : Script} (hspace : convertSpacename spacename = .returned space)
    (hchecks : ChecksFor env.ds checks conditions) (hsortby : keyName sortby = some name)
    (hname : (0 : UInt8) ∉ name) (hlimit : limit < 2 ^ 64) (hpos : 0 ≤ answer.reqid)
    (hfree : (run env as).lib.outstanding.lookup answer.reqid = none)
    (hserves : Serves env ((run env as).register
      (sortedSearchFor spacename conditions sortby (.integer limit) maxmin)
      answer.reqid).lib.outstanding script) {schema : Schema env V} {rows : List (Row env)}
    (hfinds : ∀ args received, (sortedSearchFor spacename conditions sortby (.integer limit)
        maxmin).convert env.ds 0 = .returned args → sortedSearchReceived args = some received →
      FindsSorted schema rows received (eventsOf answer.reqid script)) :
    ∃ found ms,
      Ranks schema.sem
        (fun row => Meets env.ds schema.sem conditions (schema.objectValues row.object))
        (fun row => schema.objectValues row.object name) (maxmin = .true) limit rows found ∧
      List.Forall₂ Row.Shows found ms ∧
      (collect env (run env as).responses.length (run env (as ++
        [.submit (sortedSearchFor spacename conditions sortby (.integer limit) maxmin) 0 answer]))
          script).1 = .returned (ms.map fun m => .record (hashOf m)) := by
  rcases hchecks.converted with ⟨result, hresult, hread⟩
  have hsortby' : convertSortby sortby = .returned name := convertCstring_of_keyName hsortby hname _
  have hlimit' : convertLimit (.integer limit) = .returned (UInt64.ofNat limit) :=
    convertLimit_natural hlimit
  have hconvert : (sortedSearchFor spacename conditions sortby (.integer limit) maxmin).convert
      env.ds 0 = .returned [.space space, .checks result.1 result.2, .sortBy name,
        .limit (UInt64.ofNat limit), .maxmin (convertMaxmin maxmin)] := by
    simp [sortedSearchFor, Call.convert, Call.conversions, spaceArgument, checksArgument,
      sortByArgument, limitArgument, hspace, hresult, hsortby', hlimit']
  rcases hfinds _ _ hconvert rfl with ⟨found, hfound, hreports⟩
  rcases (run_sound env as).collect_reports rfl hconvert hpos hfree hserves hreports with
    ⟨ms, hms, hcollect⟩
  rw [run_snoc, step_submit_accepted hcrashed hconvert hpos hfree]
  refine ⟨found, ms, ?_, hms, hcollect⟩
  have hmeans (row : Row env) := hchecks.holds_iff schema row.keeps
  have hvalues : (fun row : Row env => schema.recordValues row.record name) =
      fun row => schema.objectValues row.object name := by
    funext row
    rw [schema.recordValues_eq row.keeps]
  rw [← hread, cString_of_nulFree name hname, hvalues, UInt64.toNat_ofNat_of_lt' hlimit] at hfound
  simpa only [hmeans, convertMaxmin_ne_zero_iff] using hfound

def integerRow (b : UInt8) (i : Int) (hlo : -2 ^ 63 ≤ i) (hhi : i < 2 ^ 63)
    (hconvert : convertType packedEnv.ds (.integer i) =
      .returned ⟨.ofBytes [b, 0, 0, 0, 0, 0, 0, 0], .prim .int64⟩) : Row packedEnv where
  record := integerRecord b
  object := .insert .empty [110] (.integer i)
  keeps := by
    rcases scalar_roundtrip packedEnv packedFormat_lawful (.integer i hlo hhi) with
      ⟨packed, hpacked, hdecode⟩
    obtain rfl := Outcome.returned.inj (hpacked.symm.trans hconvert)
    have hstores : Stores packedEnv (.symbol [110], .integer i)
        ⟨[110], .ofBytes [b, 0, 0, 0, 0, 0, 0, 0], .prim .int64⟩ := ⟨rfl, by simp, hdecode⟩
    exact keeps_empty.insert hstores

def threeRow : Row packedEnv := integerRow 3 3 (by decide) (by decide) rfl

def sevenRow : Row packedEnv := integerRow 7 7 (by decide) (by decide) rfl

def emptyRow : Row packedEnv := ⟨.empty, .empty, keeps_empty⟩

theorem reports_sevenRow : ReportsRows [sevenRow]
    [⟨.success, "", .attributes sevenRow.record.attributes⟩, ⟨.searchdone, "", .none⟩] := by
  have hsame : List.Forall₂ SameAttribute sevenRow.record.attributes sevenRow.record.attributes :=
    .cons ⟨rfl, rfl, rfl, rfl⟩ .nil
  exact ⟨_, "", .cons (.object "" (.refl _) hsame) .nil, rfl⟩

def sevenScript : Script :=
  [.failed .interrupted "interrupted",
    .yielded 1 ⟨.success, "", .attributes sevenRow.record.attributes⟩,
    .yielded 1 ⟨.searchdone, "", .none⟩]

theorem finds_sevenRow :
    Finds plainSchema [sevenRow, emptyRow] atLeastFiveChecks (eventsOf 1 sevenScript) := by
  have hseven := (plainSchema.records_holds sevenRow.record _).mp holds_seven
  have hempty : ¬ plainSchema.sem.Satisfies (plainSchema.recordValues emptyRow.record)
      atLeastFiveChecks := by
    intro h
    exact (h _ (List.mem_singleton_self _)).elim
  refine ⟨[sevenRow], ?_, reports_sevenRow⟩
  rw [Selects, List.filter_cons_of_pos (by simpa using hseven),
    List.filter_cons_of_neg (by simpa using hempty), List.filter_nil]

/-- A search for the objects with `n` from five on. -/
theorem search_shows_sevenRow :
    ∃ found ms, Selects (fun row => Meets packedEnv.ds plainSchema.sem atLeastFive
        (plainSchema.objectValues row.object)) [sevenRow, emptyRow] found ∧
      List.Forall₂ Row.Shows found ms ∧
      (collect packedEnv 0
        (run packedEnv ([] ++ [.submit (searchFor (.string [115]) atLeastFive) 0 (accepting 1)]))
        sevenScript).1 = .returned (ms.map fun m => .record (hashOf m)) :=
  have hserves : Serves packedEnv ((run packedEnv []).register
      (searchFor (.string [115]) atLeastFive) (accepting 1).reqid).lib.outstanding sevenScript :=
    ⟨rfl, _, rfl, by decide, fun _ => ⟨_, rfl⟩, _, rfl, by decide, fun _ => ⟨_, rfl⟩, trivial⟩
  search_shows [] rfl rfl atLeastFive_checks (by decide) rfl hserves finds_sevenRow

def greatestFor : Call := sortedSearchFor (.string [115]) [] (.symbol [110]) (.integer 1) .true

theorem findsSorted_sevenRow : FindsSorted plainSchema [threeRow, sevenRow] ([], [110], 1, 1)
    (eventsOf 1 sevenScript) := by
  refine ⟨[sevenRow], ⟨[sevenRow, threeRow], ?_, ?_, rfl⟩, reports_sevenRow⟩
  · rw [Selects, List.filter_eq_self.mpr fun row _ => by simp [Semantics.Satisfies]]
    exact .swap _ _ _
  · rw [List.pairwise_pair]
    exact ⟨fun _ => (by decide : (3 : Int) ≤ 7), fun h => absurd Nat.one_ne_zero h⟩

theorem sortedSearch_shows_sevenRow :
    ∃ found ms, Ranks plainSchema.sem (fun row => Meets packedEnv.ds plainSchema.sem []
        (plainSchema.objectValues row.object)) (fun row => plainSchema.objectValues row.object [110])
        (Value.true = .true) 1 [threeRow, sevenRow] found ∧
      List.Forall₂ Row.Shows found ms ∧
      (collect packedEnv 0 (run packedEnv ([] ++ [.submit greatestFor 0 (accepting 1)]))
        sevenScript).1 = .returned (ms.map fun m => .record (hashOf m)) :=
  have hserves : Serves packedEnv ((run packedEnv []).register greatestFor
      (accepting 1).reqid).lib.outstanding sevenScript :=
    ⟨rfl, _, rfl, by decide, fun _ => ⟨_, rfl⟩, _, rfl, by decide, fun _ => ⟨_, rfl⟩, trivial⟩
  have hchecks : ChecksFor packedEnv.ds [] [] := ⟨by simp, (0, []), rfl, rfl⟩
  sortedSearch_shows [] rfl rfl hchecks rfl (by decide) (by decide) (by decide) rfl hserves
    (fun args received hconvert hreceived => by
      have hargs : greatestFor.convert packedEnv.ds 0 =
        .returned [.space [115], .checks 0 [], .sortBy [110], .limit 1, .maxmin 1] := rfl
      obtain rfl := Outcome.returned.inj (hargs.symm.trans hconvert)
      obtain rfl := Option.some.inj hreceived
      exact findsSorted_sevenRow)

end HyperDex.Client
