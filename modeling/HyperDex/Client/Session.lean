import HyperDex.Client.Queries
import HyperDex.General.Selection

/-!
# Programs over a database

A program reads and writes objects, counts, removes and searches those that meet the
conditions of a predicates hash, one statement after the other. What it sees is a
database of Ruby hashes, although the store behind the library knows packed records
and attribute checks only.
-/
namespace HyperDex.Client
open General Ruby Conversion Decoding ObjectStore

variable {Obj V : Type} {env : Env Obj}

structure Query where
  spacename : Value
  conditions : List (Value × Condition)

inductive Statement where
  | object (m : Method)
  | count (q : Query)
  | groupDel (q : Query)
  | search (q : Query)
  | sortedSearch (q : Query) (sortby : Value) (limit : ℕ) (maxmin : Value)

def Statement.call : Statement → Call
  | .object m => m.call
  | .count q => .spacenamePredicatesStatusCount q.spacename (predicatesHash q.conditions)
  | .groupDel q => .spacenamePredicatesStatus q.spacename (predicatesHash q.conditions)
  | .search q => searchFor q.spacename q.conditions
  | .sortedSearch q sortby limit maxmin =>
    sortedSearchFor q.spacename q.conditions sortby (.integer limit) maxmin

def Statement.function : Statement → LibraryFunction × List Value
  | .object m => (m.function, m.arguments)
  | .count q => (.count, [q.spacename, predicatesHash q.conditions])
  | .groupDel q => (.groupDel, [q.spacename, predicatesHash q.conditions])
  | .search q => (.search, [q.spacename, predicatesHash q.conditions])
  | .sortedSearch q sortby limit maxmin =>
    (.sortedSearch, [q.spacename, predicatesHash q.conditions, sortby, .integer limit, maxmin])

theorem Statement.function_call (s : Statement) :
    s.function.1.call s.function.2 = some s.call := by
  cases s with
  | object m => exact m.function_call
  | _ => rfl

/-- What a statement comes to: the end of a blocking method, or the entries of a search. -/
inductive Returns where
  | value (x : Outcome Exn Value)
  | entries (x : Outcome Exn (List Entry))

structure Turn where
  statement : Statement
  answer : SubmissionAnswer
  script : Script

variable (env) in
/-- An Iterator that a method returned is read to its end at once. -/
def readToEnd (script : Script) : Outcome Exn Result × World → Returns × World
  | (.returned (.response r), w) =>
    let y := collect env r w script
    (.entries y.1, y.2.1)
  | (x, w) => (.value (x >>= Result.toValue), w)

variable (env) in
/-- The call of the method by its name. -/
def Turn.perform (t : Turn) (w : World) : Returns × World :=
  readToEnd env t.script
    (send env t.statement.function.1.name t.statement.function.2 0 t.answer t.script w)

/-- The places of a space. -/
def spaceOf {κ : Type} (space : Bytes) : Set (Bytes × κ) := fun i => i.1 = space

/-- The places stand in the order of their values. -/
def Ranked {ι : Type} (sem : Semantics V) (value : ι → V) (greatestFirst : Prop)
    (is : List ι) : Prop :=
  is.Pairwise fun a b => (greatestFirst → sem.le (value b) (value a)) ∧
    (¬ greatestFirst → sem.le (value a) (value b))

/-- The value of an attribute of the record at a place. -/
def Schema.recordAt (schema : Schema env V) (st : Records) (name : Bytes) (i : Bytes × Bytes) : V :=
  ((st i).map fun r => schema.recordValues r name).getD schema.absent

/-- The store reports the records of these places, and then the end of the search. -/
def ReportsPlaces (st : Records) (is : List (Bytes × Bytes)) (cs : List Completion) : Prop :=
  ∃ reports message,
    List.Forall₂ (fun i c => ∃ r, st i = some r ∧ Reported (.object r) c) is reports ∧
      cs = reports ++ [⟨.searchdone, message, .none⟩]

/-- What the store does with the arguments that it receives, and what the library reports of it. -/
inductive Statement.Executed (schema : Schema env V) (st : Records) :
    Statement → List Argument → List Completion → Records → Prop where
  | object {m : Method} {args : List Argument}
      {op : Op Modification (List Bytes) (List Attribute) (List AttributeCheck)}
      {place : Bytes × Bytes} {c : Completion} {cs : List Completion} :
      m.received args = some (op, place) →
      Reported (schema.records.serve op place st).1 c →
      Executed schema st (.object m) args (c :: cs) (schema.records.serve op place st).2
  | count {q : Query} {space : Bytes} {size : ℕ} {slots : List (ℕ × AttributeCheck)}
      {is : List (Bytes × Bytes)} {message : String} {cs : List Completion} :
      Lists is (schema.records.selected (spaceOf (cString space)) (readChecks slots) st) →
      is.length < 2 ^ 63 →
      Executed schema st (.count q) [.space space, .checks size slots]
        (⟨.success, message, .count (UInt64.ofNat is.length)⟩ :: cs) st
  | groupDel {q : Query} {space : Bytes} {size : ℕ} {slots : List (ℕ × AttributeCheck)}
      {message : String} {cs : List Completion} :
      Executed schema st (.groupDel q) [.space space, .checks size slots]
        (⟨.success, message, .none⟩ :: cs)
        (schema.records.clear (spaceOf (cString space)) (readChecks slots) st)
  | search {q : Query} {space : Bytes} {size : ℕ} {slots : List (ℕ × AttributeCheck)}
      {is : List (Bytes × Bytes)} {cs : List Completion} :
      Lists is (schema.records.selected (spaceOf (cString space)) (readChecks slots) st) →
      ReportsPlaces st is cs →
      Executed schema st (.search q) [.space space, .checks size slots] cs st
  | sortedSearch {q : Query} {sortby maxmin : Value} {n : ℕ} {space name : Bytes} {size : ℕ}
      {slots : List (ℕ × AttributeCheck)} {limit : UInt64} {direction : ℕ}
      {is : List (Bytes × Bytes)} {cs : List Completion} :
      Lists is (schema.records.selected (spaceOf (cString space)) (readChecks slots) st) →
      Ranked schema.sem (schema.recordAt st (cString name)) (direction ≠ 0) is →
      ReportsPlaces st (is.take limit.toNat) cs →
      Executed schema st (.sortedSearch q sortby n maxmin)
        [.space space, .checks size slots, .sortBy name, .limit limit, .maxmin direction] cs st

/-- The request is accepted, nothing ends the loop before its answer, and the answer is that of
the store. -/
structure Turn.Served (schema : Schema env V) (t : Turn) (w : World) (st st' : Records) :
    Prop where
  accepted : 0 ≤ t.answer.reqid
  free : w.lib.outstanding.lookup t.answer.reqid = none
  serves : Serves env (w.register t.statement.call t.answer.reqid).lib.outstanding t.script
  executed : ∀ args, t.statement.call.convert env.ds 0 = .returned args →
    Statement.Executed schema st t.statement args (eventsOf t.answer.reqid t.script) st'

/-- Statements one after the other, with what they come to. In between the client may do anything
else that leaves the objects of the store as they are. -/
inductive Session (schema : Schema env V) : World → Records → List Turn → List Returns → Prop where
  | done (w : World) (st : Records) : Session schema w st [] []
  | other {w : World} {st : Records} {ts : List Turn} {outs : List Returns} (a : Action) :
      (step env a w).crashed = false → Session schema (step env a w) st ts outs →
      Session schema w st ts outs
  | turn {w : World} {st st' : Records} {t : Turn} {ts : List Turn} {outs : List Returns} :
      t.Served schema w st st' → Session schema (t.perform env w).2 st' ts outs →
      Session schema w st (t :: ts) ((t.perform env w).1 :: outs)

/-- The value of an attribute of the object at a place. -/
def Schema.objectAt (schema : Schema env V) (os : Objects) (name : Bytes) (j : Bytes × Scalar) :
    V :=
  ((os j).map fun o => schema.objectValues o name).getD schema.absent

/-- The objects of a query. -/
noncomputable def Schema.matching (schema : Schema env V) (q : Query) (os : Objects) :
    Set (Bytes × Scalar) :=
  schema.objects.selected (spaceOf (nameOf q.spacename)) q.conditions os

/-- The hashes are those of the objects at these places. -/
def ShowsPlaces (os : Objects) (js : List (Bytes × Scalar)) (ms : List (OrderedMap Bytes Value)) :
    Prop :=
  List.Forall₂ (fun j m => ∃ o es, os j = some o ∧ es.Perm o.entries ∧
    List.Forall₂ SameContent es m.entries) js ms

/-- What a statement comes to over a database of objects, and the database after it. -/
inductive Statement.Answered (schema : Schema env V) (os : Objects) :
    Statement → Returns → Objects → Prop where
  | object {m : Method} {x : Outcome Exn Value} : Shows env (schema.serveObjects m os).1 x →
      Answered schema os (.object m) (.value x) (schema.serveObjects m os).2
  | count {q : Query} {js : List (Bytes × Scalar)} : Lists js (schema.matching q os) →
      Answered schema os (.count q) (.value (.returned (.integer js.length))) os
  | groupDel {q : Query} : Answered schema os (.groupDel q) (.value (.returned .true))
      (schema.objects.clear (spaceOf (nameOf q.spacename)) q.conditions os)
  | search {q : Query} {js : List (Bytes × Scalar)} {ms : List (OrderedMap Bytes Value)} :
      Lists js (schema.matching q os) → ShowsPlaces os js ms →
      Answered schema os (.search q) (.entries (.returned (ms.map fun m => .record (hashOf m)))) os
  | sortedSearch {q : Query} {sortby maxmin : Value} {limit : ℕ} {js : List (Bytes × Scalar)}
      {ms : List (OrderedMap Bytes Value)} : Lists js (schema.matching q os) →
      Ranked schema.sem (schema.objectAt os (nameOf sortby)) (maxmin = .true) js →
      ShowsPlaces os (js.take limit) ms →
      Answered schema os (.sortedSearch q sortby limit maxmin)
        (.entries (.returned (ms.map fun m => .record (hashOf m)))) os

/-- Statements one after the other. -/
inductive Statement.AnsweredInTurn (schema : Schema env V) :
    Objects → List Statement → List Returns → Prop where
  | nil (os : Objects) : AnsweredInTurn schema os [] []
  | cons {os os' : Objects} {s : Statement} {ss : List Statement} {x : Returns}
      {xs : List Returns} : s.Answered schema os x os' → AnsweredInTurn schema os' ss xs →
      AnsweredInTurn schema os (s :: ss) (x :: xs)

/-- A name without NUL, and conditions that are converted. -/
structure Query.WellTyped (env : Env Obj) (q : Query) : Prop where
  space : ∃ b, keyName q.spacename = some b ∧ (0 : UInt8) ∉ b
  conditions : ∃ checks, ChecksFor env.ds checks q.conditions

def Statement.WellTyped (schema : Schema env V) : Statement → Prop
  | .object m => m.WellTyped schema
  | .count q | .groupDel q | .search q => q.WellTyped env
  | .sortedSearch q sortby limit _ => q.WellTyped env ∧
    (∃ b, keyName sortby = some b ∧ (0 : UInt8) ∉ b) ∧ limit < 2 ^ 64

/-- The database of objects is what the store of records keeps. -/
structure Mirrors (schema : Schema env V) (st : Records) (os : Objects) : Prop where
  agree : Agree (SamePlace schema) (Keeps env) st os
  covers : Covers (SamePlace schema) st os

section Queries
variable {schema : Schema env V} {st : Records} {os : Objects} {q : Query}

theorem Query.WellTyped.converted (hq : q.WellTyped env) : ∃ space size slots,
    spaceArgument q.spacename = .returned (.space space) ∧ cString space = nameOf q.spacename ∧
      checksArgument env.ds (predicatesHash q.conditions) = .returned (.checks size slots) ∧
      ChecksFor env.ds (readChecks slots) q.conditions := by
  rcases hq.space with ⟨b, hname, hnulFree⟩
  rcases hq.conditions with ⟨_, hnames, result, hresult, -⟩
  have hspace : convertSpacename q.spacename = .returned b :=
    convertCstring_of_keyName hname hnulFree _
  refine ⟨b, result.1, result.2, ?_, ?_, ?_, hnames, result, hresult, rfl⟩
  · rw [spaceArgument, hspace, Outcome.returned_bind]
    rfl
  · rw [cString_of_nulFree b hnulFree, nameOf, hname, Option.getD_some]
  · rw [checksArgument, hresult, Outcome.returned_bind]
    rfl

theorem sameRegion_space (schema : Schema env V) (space : Bytes) :
    SameRegion (SamePlace schema) (spaceOf space) (spaceOf space) := by
  rintro i j ⟨hspace, -⟩
  change i.1 = space ↔ j.1 = space
  rw [hspace]

theorem Mirrors.lists (hds : env.ds.Lawful) (h : Mirrors schema st os)
    {checks : List AttributeCheck} (hchecks : ChecksFor env.ds checks q.conditions)
    {is : List (Bytes × Bytes)}
    (his : Lists is (schema.records.selected (spaceOf (nameOf q.spacename)) checks st)) :
    ∃ js, List.Forall₂ (SamePlace schema) is js ∧ Lists js (schema.matching q os) :=
  his.partner schema.stores_related h.agree (samePlace_oneToOne hds schema) h.covers
    (sameRegion_space schema _) hchecks

theorem Mirrors.clear (h : Mirrors schema st os) {checks : List AttributeCheck}
    (hchecks : ChecksFor env.ds checks q.conditions) :
    Mirrors schema (schema.records.clear (spaceOf (nameOf q.spacename)) checks st)
      (schema.objects.clear (spaceOf (nameOf q.spacename)) q.conditions os) :=
  ⟨schema.stores_related.clear h.agree (sameRegion_space schema _) hchecks, h.covers.clear⟩

theorem Mirrors.rows (h : Mirrors schema st os) {is : List (Bytes × Bytes)}
    {js : List (Bytes × Scalar)} (hplaces : List.Forall₂ (SamePlace schema) is js)
    {cs : List Completion} (hreports : ReportsPlaces st is cs) : ∃ found : List (Row env),
      ReportsRows found cs ∧ List.Forall₂ (fun j row => os j = some row.object) js found := by
  rcases hreports with ⟨reports, message, hreports, rfl⟩
  suffices hrows : ∃ found : List (Row env),
      List.Forall₂ (fun row c => Reported (.object row.record) c) found reports ∧
        List.Forall₂ (fun j row => os j = some row.object) js found by
    rcases hrows with ⟨found, hfound, hobjects⟩
    exact ⟨found, ⟨reports, message, hfound, rfl⟩, hobjects⟩
  induction hplaces generalizing reports with
  | nil =>
    cases hreports
    exact ⟨[], .nil, .nil⟩
  | @cons i j is js hij _ ih =>
    cases hreports with
    | cons hreport hreports =>
      rcases hreport with ⟨r, hr, hreported⟩
      rcases ih _ hreports with ⟨found, hfound, hobjects⟩
      have hplace := h.agree i j hij
      rw [hr] at hplace
      generalize hj : os j = o at hplace
      cases hplace with
      | @some r o hkeeps =>
        exact ⟨⟨r, o, hkeeps⟩ :: found, .cons hreported hfound, .cons hj hobjects⟩

theorem showsPlaces_of_rows {js : List (Bytes × Scalar)} {found : List (Row env)}
    {ms : List (OrderedMap Bytes Value)}
    (hobjects : List.Forall₂ (fun j row => os j = some row.object) js found)
    (hms : List.Forall₂ Row.Shows found ms) : ShowsPlaces os js ms := by
  induction hobjects generalizing ms with
  | nil =>
    cases hms
    exact .nil
  | cons hobject _ ih =>
    cases hms with
    | cons hm hms =>
      rcases hm with ⟨es, hes, hcontent⟩
      exact .cons ⟨_, es, hobject, hes, hcontent⟩ (ih hms)

theorem Mirrors.recordAt_eq (h : Mirrors schema st os) (name : Bytes) {i : Bytes × Bytes}
    {j : Bytes × Scalar} (hij : SamePlace schema i j) :
    schema.recordAt st name i = schema.objectAt os name j := by
  have hplace := h.agree i j hij
  rw [Schema.recordAt, Schema.objectAt]
  generalize st i = r at hplace
  generalize os j = o at hplace
  cases hplace with
  | none => rfl
  | some hkeeps => rw [Option.map_some, Option.map_some, schema.recordValues_eq hkeeps]

theorem Ranked.partner {ι ι' : Type} {P : ι → ι' → Prop} {sem : Semantics V} {value : ι → V}
    {value' : ι' → V} {greatestFirst : Prop} {is : List ι} {js : List ι'}
    (his : List.Forall₂ P is js) (hsame : ∀ i j, P i j → value i = value' j)
    (h : Ranked sem value greatestFirst is) : Ranked sem value' greatestFirst js := by
  induction his with
  | nil => exact .nil
  | @cons i j is js hij hrest ih =>
    rw [Ranked, List.pairwise_cons] at h ⊢
    refine ⟨fun b hb => ?_, ih h.2⟩
    rcases exists_partner_of_mem hrest hb with ⟨a, ha, hab⟩
    rw [← hsame i j hij, ← hsame a b hab]
    exact h.1 a ha

end Queries

section Turns
variable {schema : Schema env V} {st st' : Records} {os : Objects} {t : Turn} {w : World}

theorem Turn.perform_of_deferred (hkind : t.statement.call.kind = .deferred) (w : World) :
    t.perform env w = (.value (waitCall env t.statement.call 0 t.answer t.script w).1,
      (waitCall env t.statement.call 0 t.answer t.script w).2) := by
  have hfunction := (LibraryFunction.call_kind t.statement.function_call).symm.trans hkind
  rw [perform, send_of_deferred t.statement.function_call 0 t.answer t.script w hfunction]
  generalize waitCall env t.statement.call 0 t.answer t.script w = x
  rcases x with ⟨x, w'⟩
  cases x <;> rfl

theorem Turn.perform_of_iterator (hkind : t.statement.call.kind = .iterator) {args : List Argument}
    (hconvert : t.statement.call.convert env.ds 0 = .returned args) (hpos : 0 ≤ t.answer.reqid)
    (hfree : w.lib.outstanding.lookup t.answer.reqid = none) :
    t.perform env w =
      (.entries (collect env w.responses.length
        ((w.hear t.answer.message).register t.statement.call t.answer.reqid) t.script).1,
      (collect env w.responses.length
        ((w.hear t.answer.message).register t.statement.call t.answer.reqid) t.script).2.1) := by
  have hfunction := (LibraryFunction.call_kind t.statement.function_call).symm.trans hkind
  rw [perform, send_of_iterator t.statement.function_call 0 t.answer t.script w hfunction,
    submit_accepted hconvert hpos hfree]
  rfl

theorem Turn.Served.value (h : t.Served schema w st st') (hw : Sound env w)
    (hcrashed : w.crashed = false) (hkind : t.statement.call.kind = .deferred)
    {args : List Argument} (hconvert : t.statement.call.convert env.ds 0 = .returned args)
    {c : Completion} {cs : List Completion} (hcs : eventsOf t.answer.reqid t.script = c :: cs) :
    (t.perform env w).1 = .value (c.value env c.message) := by
  have hhead : (eventsOf t.answer.reqid t.script).head? = some c := by rw [hcs, List.head?_cons]
  rw [perform_of_deferred hkind, hw.waitCall_value hcrashed hkind hconvert h.accepted h.free
    h.serves hhead]

theorem Turn.Served.entries (h : t.Served schema w st st') (hw : Sound env w)
    (hdb : Mirrors schema st os) (hkind : t.statement.call.kind = .iterator)
    {args : List Argument} (hconvert : t.statement.call.convert env.ds 0 = .returned args)
    {is : List (Bytes × Bytes)} {js : List (Bytes × Scalar)}
    (hplaces : List.Forall₂ (SamePlace schema) is js)
    (hreports : ReportsPlaces st is (eventsOf t.answer.reqid t.script)) :
    ∃ ms, ShowsPlaces os js ms ∧
      (t.perform env w).1 = .entries (.returned (ms.map fun m => .record (hashOf m))) := by
  rcases hdb.rows hplaces hreports with ⟨found, hfound, hobjects⟩
  rcases hw.collect_reports hkind hconvert h.accepted h.free h.serves hfound with
    ⟨ms, hms, hcollect⟩
  refine ⟨ms, showsPlaces_of_rows hobjects hms, ?_⟩
  rw [perform_of_iterator hkind hconvert h.accepted h.free, hcollect]

theorem value_count (message : String) {n : ℕ} (hn : n < 2 ^ 63) :
    Completion.value env ⟨.success, message, .count (UInt64.ofNat n)⟩ message =
      .returned (.integer n) := by
  have hint : (UInt64.ofNat n).toInt64.toInt = n := by
    simp [Int.bmod_def]
    omega
  simp only [Completion.value, Completion.place, Yield.value, hint]

/-- One statement comes to what the database of objects answers, and the databases stay alike. -/
theorem Turn.Served.answers (hds : env.ds.Lawful) (h : t.Served schema w st st')
    (hw : Sound env w) (hcrashed : w.crashed = false) (ht : t.statement.WellTyped schema)
    (hdb : Mirrors schema st os) : ∃ os',
      t.statement.Answered schema os (t.perform env w).1 os' ∧ Mirrors schema st' os' := by
  rcases t with ⟨statement, answer, script⟩
  have hexecuted := h.executed
  generalize hcs : eventsOf answer.reqid script = cs at hexecuted
  cases statement with
  | object m =>
    obtain ⟨args, op, place, hconvert, hreceived, hplace, hop⟩ :=
      Method.WellTyped.converted hds ht
    have hexecutes := hexecuted args hconvert
    cases hexecutes with
    | object hreceived' hreported =>
      obtain ⟨rfl, rfl⟩ := Prod.mk.inj (Option.some.inj (hreceived.symm.trans hreceived'))
      have hserved := schema.stores_related.serve (samePlace_oneToOne hds schema) hop hplace
        hdb.agree
      refine ⟨_, ?_, hserved.2, hdb.covers.serve hplace⟩
      rw [h.value hw hcrashed m.call_kind hconvert hcs]
      exact .object (hreported.shows hserved.1)
  | count q =>
    rcases Query.WellTyped.converted ht with ⟨space, size, slots, hspace, hname, hslots, hchecks⟩
    have hconvert : (Statement.count q).call.convert env.ds 0 =
        .returned [.space space, .checks size slots] := by
      simp [Statement.call, Call.convert, Call.conversions, hspace, hslots]
    have hexecutes := hexecuted _ hconvert
    cases hexecutes with
    | count his hlength =>
      rw [hname] at his
      rcases hdb.lists hds hchecks his with ⟨js, hplaces, hjs⟩
      refine ⟨os, ?_, hdb⟩
      rw [h.value hw hcrashed rfl hconvert hcs, value_count _ hlength, hplaces.length_eq]
      exact .count hjs
  | groupDel q =>
    rcases Query.WellTyped.converted ht with ⟨space, size, slots, hspace, hname, hslots, hchecks⟩
    have hconvert : (Statement.groupDel q).call.convert env.ds 0 =
        .returned [.space space, .checks size slots] := by
      simp [Statement.call, Call.convert, Call.conversions, hspace, hslots]
    have hexecutes := hexecuted _ hconvert
    cases hexecutes with
    | groupDel =>
      rw [hname]
      refine ⟨_, ?_, hdb.clear hchecks⟩
      rw [h.value hw hcrashed rfl hconvert hcs]
      exact .groupDel
  | search q =>
    rcases Query.WellTyped.converted ht with ⟨space, size, slots, hspace, hname, hslots, hchecks⟩
    have hconvert : (Statement.search q).call.convert env.ds 0 =
        .returned [.space space, .checks size slots] := by
      simp [Statement.call, searchFor, Call.convert, Call.conversions, hspace, hslots]
    have hexecutes := hexecuted _ hconvert
    cases hexecutes with
    | search his hreports =>
      rw [hname] at his
      rcases hdb.lists hds hchecks his with ⟨js, hplaces, hjs⟩
      rcases h.entries hw hdb rfl hconvert hplaces (hcs ▸ hreports) with ⟨ms, hms, hentries⟩
      refine ⟨os, ?_, hdb⟩
      rw [hentries]
      exact .search hjs hms
  | sortedSearch q sortby limit maxmin =>
    rcases ht with ⟨hq, ⟨b, hsortby, hnulFree⟩, hlimit⟩
    rcases hq.converted with ⟨space, size, slots, hspace, hname, hslots, hchecks⟩
    have hsortby' : convertSortby sortby = .returned b :=
      convertCstring_of_keyName hsortby hnulFree _
    have hlimit' : convertLimit (.integer limit) = .returned (UInt64.ofNat limit) :=
      convertLimit_natural hlimit
    have hconvert : (Statement.sortedSearch q sortby limit maxmin).call.convert env.ds 0 =
        .returned [.space space, .checks size slots, .sortBy b,
          .limit (UInt64.ofNat limit), .maxmin (convertMaxmin maxmin)] := by
      simp [Statement.call, sortedSearchFor, Call.convert, Call.conversions, sortByArgument,
        limitArgument, hspace, hslots, hsortby', hlimit']
    have hexecutes := hexecuted _ hconvert
    cases hexecutes with
    | sortedSearch his hranked hreports =>
      rw [hname] at his
      rw [UInt64.toNat_ofNat_of_lt' hlimit] at hreports
      rcases hdb.lists hds hchecks his with ⟨js, hplaces, hjs⟩
      rcases h.entries hw hdb rfl hconvert (List.forall₂_take limit hplaces) (hcs ▸ hreports) with
        ⟨ms, hms, hentries⟩
      refine ⟨os, ?_, hdb⟩
      rw [hentries]
      refine .sortedSearch hjs ?_ hms
      have hvalue : nameOf sortby = cString b := by
        rw [nameOf, hsortby, Option.getD_some, cString_of_nulFree b hnulFree]
      rw [hvalue]
      simpa only [convertMaxmin_ne_zero_iff] using
        hranked.partner hplaces fun i j => hdb.recordAt_eq (cString b)

/-- The rounds of a consumer are calls of `has_next?` and `next`, and safe. -/
theorem collectRounds_run {r : Ref} (hw : Consistent env w) (hkind : w.kindOf r = some .iterator)
    (hcrashed : w.crashed = false) (n : ℕ) (script : Script) :
    ∃ as, (collectRounds env r n w script).2.1 = Machine.run (step env) w as ∧
      (collectRounds env r n w script).2.1.crashed = false := by
  induction n generalizing w script with
  | zero => exact ⟨[], rfl, hcrashed⟩
  | succ n ih =>
    have hsteps := step_hasNext (r := r) hw script
    have hasked : step env (.hasNext r script) w = _ := step_hasNext_eq hw hkind hcrashed
    have hw₁ := SmallSteps.consistent (LoopSteps.small hsteps) hw
    have hkind₁ := (SmallSteps.continues (LoopSteps.small hsteps) hw).kindOf r _ hkind
    have hcrashed₁ := (LoopSteps.crashed hsteps).trans hcrashed
    rw [collectRounds]
    generalize hasNextRest env r script w = x at hasked
    rcases x with ⟨x, w₁, rest⟩
    obtain rfl : step env (.hasNext r script) w = w₁ := hasked
    cases x with
    | returned more =>
      cases more with
      | false => exact ⟨[.hasNext r script], rfl, hcrashed₁⟩
      | true =>
        have hnext : step env (.next r) (step env (.hasNext r script) w) = _ :=
          step_next_eq hkind₁ hcrashed₁
        have htaken : SmallSteps env (step env (.hasNext r script) w) _ := next_steps r _
        have hcrashed₂ := (next_unread r (step env (.hasNext r script) w)).1.trans hcrashed₁
        rcases ih (SmallSteps.consistent htaken hw₁)
          ((SmallSteps.continues htaken hw₁).kindOf r _ hkind₁) hcrashed₂ rest with
          ⟨as, hrun, hsafe⟩
        refine ⟨.hasNext r script :: .next r :: as, ?_, ?_⟩
        · rw [Machine.run_cons, Machine.run_cons, hnext, ← hrun]
          simp only [Outcome.andThen, if_true]
          exact Outcome.andThen_state (I := fun s : World × Script =>
            s.1 = (collectRounds env r n (next r (step env (.hasNext r script) w)).2 rest).2.1)
            rfl fun _ _ h => h
        · simp only [Outcome.andThen, if_true]
          exact Outcome.andThen_state (I := fun s : World × Script => s.1.crashed = false) hsafe
            fun _ _ h => h
    | _ => exact ⟨[.hasNext r script], rfl, hcrashed₁⟩

/-- A statement is a run, and safe. -/
theorem Turn.perform_run (t : Turn) (hw : Sound env w) (hcrashed : w.crashed = false) :
    ∃ as, (t.perform env w).2 = Machine.run (step env) w as ∧
      (t.perform env w).2.crashed = false := by
  have hfunction := LibraryFunction.call_kind t.statement.function_call
  rcases send_run hcrashed t.statement.function.1.name t.statement.function.2 0 t.answer
    t.script with ⟨as, hrun⟩
  cases hkind : t.statement.call.kind with
  | deferred =>
    rw [send_of_deferred t.statement.function_call 0 t.answer t.script w
      (hfunction.symm.trans hkind)] at hrun
    rw [perform_of_deferred hkind]
    refine ⟨as, ?_, (hw.waitCall_ends hcrashed hkind 0 t.answer t.script).safe hcrashed⟩
    rw [← hrun]
    exact (Outcome.andThen_state (I := fun v => v = _) rfl fun _ _ h => h).symm
  | iterator =>
    have hunread : (submit env t.statement.call 0 t.answer w).2.crashed = false :=
      (submit_unread t.statement.call 0 t.answer w).1.trans hcrashed
    have hsubmitted : Submitted env t.statement.call 0 t.answer w _ :=
      submit_submitted t.statement.call 0 t.answer w
    rw [send_of_iterator t.statement.function_call 0 t.answer t.script w
      (hfunction.symm.trans hkind)] at hrun
    rw [perform, send_of_iterator t.statement.function_call 0 t.answer t.script w
      (hfunction.symm.trans hkind)]
    generalize submit env t.statement.call 0 t.answer w = x at hrun hsubmitted hunread
    cases hsubmitted with
    | accepted hconvert hpos hfree =>
      have hsteps : SmallSteps env w ((w.hear t.answer.message).register t.statement.call
          t.answer.reqid) := (Submitted.accepted hconvert hpos hfree).steps
      have hkindOf : ((w.hear t.answer.message).register t.statement.call t.answer.reqid).kindOf
          w.responses.length = some .iterator := by
        simp [World.kindOf, World.register, World.hear, Response.accept, Response.new, hkind]
      rcases collectRounds_run (SmallSteps.consistent hsteps hw.consistent) hkindOf hunread _
        t.script with ⟨bs, hrest, hsafe⟩
      refine ⟨as ++ bs, ?_, hsafe⟩
      rw [Machine.run_append, ← hrun]
      exact hrest
    | rejected x message hrejected =>
      cases x with
      | returned r => exact absurd rfl (hrejected r)
      | _ => exact ⟨as, hrun, hunread⟩

end Turns

/-- From every reachable state on, whatever the client does in between and whatever else is answered
first, statements on objects, counts, group deletions, searches and sorted searches come to what a
database of Ruby hashes answers to them one after the other. -/
theorem session_shows (hds : env.ds.Lawful) (as : List Action)
    (hcrashed : (run env as).crashed = false) {schema : Schema env V} {st : Records}
    {ts : List Turn} {outs : List Returns} (h : Session schema (run env as) st ts outs)
    (hts : ∀ t ∈ ts, t.statement.WellTyped schema) {os : Objects} (hdb : Mirrors schema st os) :
    Statement.AnsweredInTurn schema os (ts.map Turn.statement) outs := by
  have hw := run_sound env as
  generalize run env as = w at h hw hcrashed
  induction h generalizing os with
  | done w st => exact .nil os
  | other a hsafe _ ih => exact ih hts hdb (hw.step a) hsafe
  | @turn w st st' t ts outs hserved _ ih =>
    rw [List.forall_mem_cons] at hts
    rcases hserved.answers hds hw hcrashed hts.1 hdb with ⟨os', hanswers, hdb'⟩
    rcases t.perform_run hw hcrashed with ⟨as, hrun, hsafe⟩
    have hsound : Sound env (t.perform env w).2 := by
      rw [hrun]
      exact Machine.run_invariant (step env) (fun a _ hw => hw.step a) hw as
    exact .cons hanswers (ih hts.2 hdb' hsound hsafe)

theorem Session.performed {schema : Schema env V} {w w' : World} {st st' : Records} {t : Turn}
    {ts : List Turn} {out : Returns} {outs : List Returns} (hserved : t.Served schema w st st')
    (hperformed : t.perform env w = (out, w')) (h : Session schema w' st' ts outs) :
    Session schema w st (t :: ts) (out :: outs) := by
  have hout : (t.perform env w).1 = out := congrArg Prod.fst hperformed
  subst hout
  exact .turn hserved ((congrArg Prod.snd hperformed).symm ▸ h)

/-- The objects of the space with `n` from five on. -/
def fiveQuery : Query := ⟨.string [115], atLeastFive⟩

/-- `put("s", "k", n: 7)`, which is interrupted. -/
def putTurn : Turn := ⟨.object samplePut.method, samplePut.answer, samplePut.script⟩

/-- A count, which comes to `n`. -/
def countTurn (reqid : Int) (n : ℕ) : Turn :=
  ⟨.count fiveQuery, accepting reqid, [.yielded reqid ⟨.success, "", .count (UInt64.ofNat n)⟩]⟩

/-- The greatest `n`, which is seven. -/
def greatestTurn : Turn where
  statement := .sortedSearch fiveQuery (.symbol [110]) 1 .true
  answer := accepting 3
  script := [.yielded 3 ⟨.success, "", .attributes (integerRecord 7).attributes⟩,
    .yielded 3 ⟨.searchdone, "", .none⟩]

/-- `group_del("s", n: GreaterEqual.new(5))` -/
def groupDelTurn : Turn :=
  ⟨.groupDel fiveQuery, accepting 4, [.yielded 4 ⟨.success, "", .none⟩]⟩

theorem fiveQuery_wellTyped : fiveQuery.WellTyped packedEnv :=
  ⟨⟨_, rfl, by decide⟩, _, atLeastFive_checks⟩

theorem lists_sampleRecords : Lists [([115], [107])]
    (plainSchema.records.selected (spaceOf [115]) atLeastFiveChecks (sampleRecords 7)) := by
  refine ⟨List.nodup_singleton _, fun i => ?_⟩
  rw [List.mem_singleton]
  constructor
  · rintro rfl
    exact ⟨rfl, integerRecord 7, by simp [sampleRecords], holds_seven⟩
  · rintro ⟨-, o, ho, -⟩
    by_contra hi
    simp [sampleRecords, Function.update_of_ne hi] at ho

/-- What the group deletion leaves. -/
noncomputable def sampleCleared : Records :=
  plainSchema.records.clear (spaceOf [115]) atLeastFiveChecks (sampleRecords 7)

theorem countTurn_served {reqid : Int} {w : World} {st : Records} {is : List (Bytes × Bytes)}
    (hpos : 0 ≤ reqid) (hfree : w.lib.outstanding.lookup reqid = none)
    (his : Lists is (plainSchema.records.selected (spaceOf [115]) atLeastFiveChecks st))
    (hlength : is.length < 2 ^ 63) :
    (countTurn reqid is.length).Served plainSchema w st st := by
  refine ⟨hpos, hfree, serves_answer rfl w reqid ⟨rfl, rfl⟩, fun args hconvert => ?_⟩
  have hargs : (countTurn reqid is.length).statement.call.convert packedEnv.ds 0 =
      .returned [.space [115], .checks 1 (atLeastFiveChecks.map (Prod.mk 0))] := rfl
  obtain rfl := Outcome.returned.inj (hargs.symm.trans hconvert)
  have hevents : eventsOf (countTurn reqid is.length).answer.reqid
      (countTurn reqid is.length).script =
        [⟨.success, "", .count (UInt64.ofNat is.length)⟩] := by
    simp [countTurn, accepting, eventsOf]
  rw [hevents]
  exact .count his hlength

theorem putTurn_served : putTurn.Served plainSchema .initial (fun _ => none) (sampleRecords 7) := by
  refine ⟨by decide, rfl, samplePut_served.serves, fun args hconvert => ?_⟩
  have hargs : samplePut.method.call.convert packedEnv.ds 0 =
      .returned [.space [115], .key (.ofBytes [107]), .attrs (integerRecord 7).attributes] := rfl
  obtain rfl := Outcome.returned.inj (hargs.symm.trans hconvert)
  have hreceived : samplePut.method.received
      [.space [115], .key (.ofBytes [107]), .attrs (integerRecord 7).attributes] =
        some (.write .put (integerRecord 7).attributes, ([115], [107])) := rfl
  have hreported : Reported (plainSchema.records.serve (.write .put (integerRecord 7).attributes)
      ([115], [107]) fun _ => none).1 ⟨.success, "", .none⟩ := .true ""
  exact .object hreceived hreported

theorem greatestTurn_served {w : World} (hfree : w.lib.outstanding.lookup 3 = none) :
    greatestTurn.Served plainSchema w (sampleRecords 7) (sampleRecords 7) := by
  refine ⟨by decide, hfree, ?_, fun args hconvert => ?_⟩
  · let p : Pending := ⟨w.responses.length, .iterator, .attributes, fun _ => rfl⟩
    have hp : (w.register greatestTurn.statement.call 3).lib.outstanding.lookup 3 = some p := by
      simp only [World.register, OrderedMap.lookup_insert, if_true, p]
      rfl
    have hdone : Completion.Fits ⟨.searchdone, "", .none⟩ p.outputs := by simp [Completion.Fits]
    exact ⟨p, hp, ⟨rfl, rfl⟩, fun _ => ⟨_, rfl⟩, p, hp, hdone, fun _ => ⟨_, rfl⟩, trivial⟩
  · have hargs : greatestTurn.statement.call.convert packedEnv.ds 0 =
        .returned [.space [115], .checks 1 (atLeastFiveChecks.map (Prod.mk 0)), .sortBy [110],
          .limit 1, .maxmin 1] := rfl
    obtain rfl := Outcome.returned.inj (hargs.symm.trans hconvert)
    have hsame : List.Forall₂ SameAttribute (integerRecord 7).attributes
        (integerRecord 7).attributes := .cons ⟨rfl, rfl, rfl, rfl⟩ .nil
    have hreports : ReportsPlaces (sampleRecords 7) [([115], [107])]
        (eventsOf greatestTurn.answer.reqid greatestTurn.script) :=
      ⟨_, "", .cons ⟨integerRecord 7, rfl, .object "" (.refl _) hsame⟩ .nil, rfl⟩
    exact .sortedSearch lists_sampleRecords (List.pairwise_singleton _ _) hreports

theorem groupDelTurn_served {w : World} (hfree : w.lib.outstanding.lookup 4 = none) :
    groupDelTurn.Served plainSchema w (sampleRecords 7) sampleCleared := by
  refine ⟨by decide, hfree, serves_answer rfl w 4 (by decide), fun args hconvert => ?_⟩
  have hargs : groupDelTurn.statement.call.convert packedEnv.ds 0 =
      .returned [.space [115], .checks 1 (atLeastFiveChecks.map (Prod.mk 0))] := rfl
  obtain rfl := Outcome.returned.inj (hargs.symm.trans hconvert)
  exact .groupDel

def sampleSession : List Turn :=
  [putTurn, countTurn 2 1, greatestTurn, groupDelTurn, countTurn 5 0]

theorem sampleSession_wellTyped : ∀ t ∈ sampleSession, t.statement.WellTyped plainSchema := by
  simp only [sampleSession, List.forall_mem_cons, List.not_mem_nil, false_imp_iff, implies_true,
    and_true]
  exact ⟨sampleTalk_wellTyped samplePut (by simp [sampleTalk]), fiveQuery_wellTyped,
    ⟨fiveQuery_wellTyped, ⟨_, rfl, by decide⟩, by decide⟩, fiveQuery_wellTyped,
    fiveQuery_wellTyped⟩

/-- The object is counted, found and deleted with all that meet the conditions. -/
theorem session_shows_sampleSession :
    Statement.AnsweredInTurn plainSchema (fun _ => none) (sampleSession.map Turn.statement)
      [.value (.returned .true), .value (.returned (.integer 1)),
        .entries (.returned [.record (.hash [(.symbol [110], .integer 7)])]),
        .value (.returned .true), .value (.returned (.integer 0))] :=
  have hnone : Lists [] (plainSchema.records.selected (spaceOf [115]) atLeastFiveChecks
      sampleCleared) := by
    rw [sampleCleared, Store.selected_clear]
    exact ⟨.nil, fun i => by simp⟩
  have hsession : Session plainSchema (run packedEnv []) (fun _ => none) sampleSession
      [.value (.returned .true), .value (.returned (.integer 1)),
        .entries (.returned [.record (.hash [(.symbol [110], .integer 7)])]),
        .value (.returned .true), .value (.returned (.integer 0))] :=
    .performed putTurn_served (Turn.perform_of_deferred rfl _)
      (.performed (countTurn_served (by decide) rfl lists_sampleRecords (by decide))
        (Turn.perform_of_deferred rfl _)
        (.performed (greatestTurn_served rfl)
          (Turn.perform_of_iterator rfl rfl (by decide) rfl)
          (.performed (groupDelTurn_served rfl) (Turn.perform_of_deferred rfl _)
            (.performed (countTurn_served (by decide) rfl hnone (by decide))
              (Turn.perform_of_deferred rfl _) (.done _ _)))))
  session_shows packedFormat_lawful [] rfl hsession sampleSession_wellTyped
    ⟨agree_empty, covers_empty _⟩

end HyperDex.Client
