import HyperDex.Client.Reading

/-!
# Ownership of attribute arrays

What was done with an array is determined by how often it was used: the
callback of a search uses an array once, and every wait on a Deferred that gets
to its cells uses the array of that Deferred once more. The first use destroys
a decodable array and leaves an undecodable one behind.
-/
namespace HyperDex.Client
open General Ruby Conversion Decoding

inductive Touch where
  | decode
  | destroy
  deriving DecidableEq, Repr

def Touch.event (a : Address) : Touch → Event
  | .decode => .decoded (some a)
  | .destroy => .destroyed (some a)

def Event.touch (a : Address) : Event → Option Touch
  | .decoded p => if p = some a then some .decode else none
  | .destroyed p => if p = some a then some .destroy else none
  | _ => none

/-- What was done with the array at an address, in order. -/
def touches (a : Address) (trace : List Event) : List Touch := trace.filterMap (Event.touch a)

def Event.isRead (r : Ref) : Event → Bool
  | .read r' => r' = r
  | _ => false

def reads (r : Ref) (trace : List Event) : ℕ := trace.countP (Event.isRead r)

/-- The array was stored for the request of the response object. -/
def World.Handed (w : World) (r : Ref) (a : Address) (attrs : List Attribute) : Prop :=
  ∃ id y closes, .yielded id r y closes ∈ w.trace ∧ y.output = .attributes attrs ∧ y.address = a

def World.uses (w : World) (r : Ref) : ℕ :=
  match w.kindOf r with
  | some .deferred => reads r w.trace
  | _ => 1

variable {Obj : Type} (env : Env Obj)

def Decodable (attrs : List Attribute) : Prop := ∃ h, encodeAttributes env attrs = .ok h

instance (attrs : List Attribute) : Decidable (Decodable env attrs) :=
  match h : encodeAttributes env attrs with
  | .ok m => .isTrue ⟨m, h⟩
  | .error _ => .isFalse fun ⟨m, hm⟩ => by simp [h] at hm

/-- The use of an array that was used `n` times before. -/
def use (attrs : List Attribute) (n : ℕ) : List Touch :=
  .decode :: if Decodable env attrs ∧ (n = 0 ∨ attrs = []) then [.destroy] else []

def lifecycle (attrs : List Attribute) : ℕ → List Touch
  | 0 => []
  | n + 1 => lifecycle attrs n ++ use env attrs n

/-- Every array has the lifecycle of its uses, and is there until it was destroyed. -/
structure Accounted (w : World) : Prop where
  bounded : ∀ a, w.lib.arrays.length ≤ a → touches a w.trace = []
  single : ∀ r r' a attrs attrs', w.Handed r a attrs → w.Handed r' a attrs' → r' = r
  readers : ∀ r, reads r w.trace ≠ 0 → ∃ resp, w.responses[r]? = some resp ∧ resp.finished = true
  touched : ∀ r a attrs, w.Handed r a attrs → touches a w.trace = lifecycle env attrs (w.uses r)
  arrays : ∀ r a attrs, w.Handed r a attrs →
    w.lib.arrays[a]? = some (if Decodable env attrs ∧ w.uses r ≠ 0 then none else some attrs)

theorem touches_append (a : Address) (t u : List Event) :
    touches a (t ++ u) = touches a t ++ touches a u :=
  List.filterMap_append

theorem reads_append (r : Ref) (t u : List Event) : reads r (t ++ u) = reads r t + reads r u :=
  List.countP_append

@[simp] theorem touches_map_event (a b : Address) (ts : List Touch) :
    touches a (ts.map (Touch.event b)) = if b = a then ts else [] := by
  induction ts with
  | nil => simp [touches]
  | cons t ts ih =>
    rw [List.map_cons, touches, List.filterMap_cons, ← touches, ih]
    by_cases hb : b = a <;> cases t <;> simp [Touch.event, Event.touch, hb]

@[simp] theorem reads_map_event (r : Ref) (b : Address) (ts : List Touch) :
    reads r (ts.map (Touch.event b)) = 0 := by
  rw [reads, List.countP_eq_zero]
  intro e he
  rcases List.mem_map.mp he with ⟨t, -, rfl⟩
  cases t <;> simp [Touch.event, Event.isRead]

theorem yielded_notMem_map_event (b : Address) (ts : List Touch) (id : Int) (r : Ref) (y : Yield)
    (closes : Bool) : .yielded id r y closes ∉ ts.map (Touch.event b) := by
  intro he
  rcases List.mem_map.mp he with ⟨t, -, ht⟩
  cases t <;> simp [Touch.event] at ht

/-- The callback of a search is the first use of an array. -/
theorem consumption_attributes {kind : Kind} {y : Yield} {outputs : Outputs}
    {attrs : List Attribute} (hfits : y.Fits outputs) (houtput : y.output = .attributes attrs) :
    kind.consumption env y = (if kind = .iterator then use env attrs 0 else []).map
      (Touch.event y.address) := by
  rcases y with ⟨⟨status, message, output⟩, address⟩
  obtain rfl : output = .attributes attrs := houtput
  obtain ⟨rfl, -⟩ : status = .success ∧ outputs = .attributes := hfits
  cases kind with
  | deferred => rfl
  | iterator =>
    cases hencode : encodeAttributes env attrs <;>
      simp [Kind.consumption, consumption, use, Decodable, hencode, Touch.event]

theorem consumption_none {kind : Kind} {y : Yield}
    (houtput : ∀ attrs, y.output ≠ .attributes attrs) :
    kind.consumption env y = [] ∧ kind.remains env y = [] := by
  rcases y with ⟨⟨status, message, output⟩, address⟩
  cases output with
  | attributes attrs => exact absurd rfl (houtput attrs)
  | _ => cases kind <;> simp [Kind.consumption, consumption, Kind.remains]

theorem remains_attributes {kind : Kind} {y : Yield} {attrs : List Attribute}
    (houtput : y.output = .attributes attrs) : kind.remains env y =
      [if Decodable env attrs ∧ kind = .iterator then none else some attrs] := by
  cases hencode : encodeAttributes env attrs <;> cases kind <;>
    simp [Kind.remains, houtput, hencode, Decodable]

section Steps
variable {env} {w w' : World}

theorem World.Handed.uses_eq (hc : Consistent env w) {r : Ref} {a : Address}
    {attrs : List Attribute} (hr : w.Handed r a attrs)
    (hkind : ∀ resp, w.responses[r]? = some resp → w'.kindOf r = some resp.kind)
    (hreads : reads r w'.trace = reads r w.trace) : w'.uses r = w.uses r := by
  rcases hr with ⟨id, y, closes, hmem, -, -⟩
  obtain ⟨resp, hresp⟩ : ∃ resp, w.responses[r]? = some resp :=
    ⟨_, List.getElem?_eq_getElem (hc.fresh _ hmem r rfl)⟩
  have hold : w.kindOf r = some resp.kind := by rw [World.kindOf, hresp]; rfl
  rw [World.uses, World.uses, hkind resp hresp, hold, hreads]

/-- Events that neither concern an array nor read a response object. -/
def Event.Quiet : Event → Prop
  | .submitted _ _ | .taken _ _ => True
  | _ => False

theorem Accounted.frame (hw : Accounted env w) (hc : Consistent env w)
    (harrays : w'.lib.arrays = w.lib.arrays)
    (hkeep : ∀ (r : Ref) resp, w.responses[r]? = some resp →
      ∃ resp', w'.responses[r]? = some resp' ∧
      resp'.kind = resp.kind ∧ resp'.finished = resp.finished)
    (es : List Event) (htrace : w'.trace = w.trace ++ es) (hes : ∀ e ∈ es, e.Quiet) :
    Accounted env w' := by
  have htouches (a : Address) : touches a w'.trace = touches a w.trace := by
    have hnone : touches a es = [] := by
      rw [touches, List.filterMap_eq_nil_iff]
      intro e he
      have hquiet := hes e he
      cases e <;> first | rfl | exact hquiet.elim
    rw [htrace, touches_append, hnone, List.append_nil]
  have hreads (r : Ref) : reads r w'.trace = reads r w.trace := by
    have hnone : reads r es = 0 := by
      rw [reads, List.countP_eq_zero]
      intro e he
      have hquiet := hes e he
      cases e <;> first | exact hquiet.elim | simp [Event.isRead]
    rw [htrace, reads_append, hnone, Nat.add_zero]
  have hhanded {r : Ref} {a : Address} {attrs : List Attribute} (h : w'.Handed r a attrs) :
      w.Handed r a attrs := by
    rcases h with ⟨id, y, closes, hmem, hy⟩
    refine ⟨id, y, closes, ?_, hy⟩
    rw [htrace] at hmem
    exact (List.mem_append.mp hmem).resolve_right fun he => hes _ he
  have huses {r : Ref} {a : Address} {attrs : List Attribute} (h : w.Handed r a attrs) :
      w'.uses r = w.uses r := by
    refine h.uses_eq hc (fun resp hresp => ?_) (hreads r)
    rcases hkeep r resp hresp with ⟨resp', hresp', hkind, -⟩
    exact kindOf_of_response hresp' hkind
  constructor
  · intro a ha
    rw [htouches]
    exact hw.bounded a (harrays ▸ ha)
  · exact fun r r' a attrs attrs' h h' => hw.single r r' a attrs attrs' (hhanded h) (hhanded h')
  · intro r hr
    rcases hw.readers r (hreads r ▸ hr) with ⟨resp, hresp, hfin⟩
    rcases hkeep r resp hresp with ⟨resp', hresp', -, hfin'⟩
    exact ⟨resp', hresp', hfin'.trans hfin⟩
  · intro r a attrs h
    rw [htouches, huses (hhanded h)]
    exact hw.touched r a attrs (hhanded h)
  · intro r a attrs h
    rw [harrays, huses (hhanded h)]
    exact hw.arrays r a attrs (hhanded h)

theorem Accounted.address_lt (hw : Accounted env w) {r : Ref} {a : Address}
    {attrs : List Attribute} (h : w.Handed r a attrs) : a < w.lib.arrays.length :=
  (List.getElem?_eq_some_iff.mp (hw.arrays r a attrs h)).1

theorem Accounted.reads_eq_zero (hw : Accounted env w) {r : Ref} {resp : Response}
    (hresp : w.responses[r]? = some resp) (hfin : resp.finished = false) : reads r w.trace = 0 := by
  by_contra hr
  rcases hw.readers r hr with ⟨resp', hresp', hfin'⟩
  obtain rfl : resp = resp' := Option.some.inj (hresp.symm.trans hresp')
  simp [hfin] at hfin'

theorem kindOf_delivered (w : World) (reqid : Int) (p : Pending) (y : Yield) (r : Ref) :
    (w.delivered env reqid p y).kindOf r = w.kindOf r := by
  simp only [World.kindOf, World.delivered, List.getElem?_modify]
  cases w.responses[r]? with
  | none => rfl
  | some resp => by_cases hr : p.ref = r <;> simp [hr, Pending.receive]

theorem array_or_none (y : Yield) :
    (∃ attrs, y.output = .attributes attrs) ∨ ∀ attrs, y.output ≠ .attributes attrs :=
  or_iff_not_imp_left.mpr fun h attrs houtput => h ⟨attrs, houtput⟩

theorem touches_delivered (w : World) (reqid : Int) (p : Pending) (y : Yield) (a : Address) :
    touches a (w.delivered env reqid p y).trace =
      touches a w.trace ++ touches a (p.kind.consumption env y) :=
  touches_append a w.trace _

theorem touches_consumption {kind : Kind} {y : Yield} {outputs : Outputs} (hfits : y.Fits outputs)
    {a : Address} (ha : ∀ attrs, y.output = .attributes attrs → y.address ≠ a) :
    touches a (kind.consumption env y) = [] := by
  rcases array_or_none y with ⟨attrs, houtput⟩ | houtput
  · rw [consumption_attributes env hfits houtput, touches_map_event, if_neg (ha attrs houtput)]
  · rw [(consumption_none env houtput).1]
    rfl

theorem reads_delivered (w : World) (reqid : Int) {p : Pending} {y : Yield}
    (hfits : y.Fits p.outputs) (r : Ref) :
    reads r (w.delivered env reqid p y).trace = reads r w.trace := by
  have hnone : reads r (p.kind.consumption env y) = 0 := by
    rcases array_or_none y with ⟨attrs, houtput⟩ | houtput
    · rw [consumption_attributes env hfits houtput, reads_map_event]
    · rw [(consumption_none env houtput).1]
      rfl
  have hcons : reads r (.yielded reqid p.ref y (p.kind.closes y.status) :: .callback p.ref ::
      p.kind.consumption env y) = reads r (p.kind.consumption env y) := by
    simp [reads, Event.isRead]
  rw [World.delivered, reads_append, hcons, hnone, Nat.add_zero]

theorem handed_delivered {reqid : Int} {p : Pending} {y : Yield} {r : Ref} {a : Address}
    {attrs : List Attribute} (h : (w.delivered env reqid p y).Handed r a attrs) :
    w.Handed r a attrs ∨ (r = p.ref ∧ y.output = .attributes attrs ∧ a = y.address) := by
  rcases h with ⟨id, y', closes, hmem, houtput, rfl⟩
  rw [World.delivered, List.mem_append, List.mem_cons, List.mem_cons] at hmem
  rcases hmem with hmem | heq | heq | hmem
  · exact .inl ⟨id, y', closes, hmem, houtput, rfl⟩
  · rcases Event.yielded.inj heq with ⟨-, rfl, rfl, -⟩
    exact .inr ⟨rfl, houtput, rfl⟩
  · cases heq
  · exact (consumption_silent env p.kind y _ hmem : False).elim

theorem uses_delivered (hc : Consistent env w) (reqid : Int) {p : Pending} {y : Yield}
    (hfits : y.Fits p.outputs) {r : Ref} {a : Address} {attrs : List Attribute}
    (h : w.Handed r a attrs) : (w.delivered env reqid p y).uses r = w.uses r := by
  refine h.uses_eq hc (fun resp hresp => ?_) (reads_delivered w reqid hfits r)
  rw [kindOf_delivered]
  exact kindOf_of_response hresp rfl

/-- A search has used the array of its event, a Deferred has not yet. -/
theorem uses_delivered_self (hw : Accounted env w) {reqid : Int} {p : Pending} {y : Yield}
    {resp : Response} (hresp : w.responses[p.ref]? = some resp) (hbound : p.Bound reqid resp)
    (hfits : y.Fits p.outputs) :
    (w.delivered env reqid p y).uses p.ref = if p.kind = .iterator then 1 else 0 := by
  rw [World.uses, kindOf_delivered, kindOf_of_response hresp hbound.kind,
    reads_delivered w reqid hfits, hw.reads_eq_zero hresp hbound.unfinished]
  cases p.kind <;> rfl

theorem Accounted.delivered (hw : Accounted env w) (hc : Consistent env w) {reqid : Int}
    {p : Pending} (hp : w.lib.outstanding.lookup reqid = some p) (c : Completion)
    (hfits : c.Fits p.outputs) :
    Accounted env (w.delivered env reqid p (c.place w.lib.arrays.length)) := by
  rcases hc.bound reqid p hp with ⟨resp, hresp, hbound⟩
  generalize hy : c.place w.lib.arrays.length = y
  have hfits : y.Fits p.outputs := hy ▸ hfits
  have haddress : y.address = w.lib.arrays.length := hy ▸ rfl
  have harrays :
      (w.delivered env reqid p y).lib.arrays = w.lib.arrays ++ p.kind.remains env y := rfl
  have hfar {r : Ref} {a : Address} {attrs : List Attribute} (h : w.Handed r a attrs) :
      y.address ≠ a := fun heq => Nat.lt_irrefl _ (haddress ▸ heq ▸ hw.address_lt h)
  constructor
  · intro a ha
    rw [harrays, List.length_append] at ha
    rw [touches_delivered, hw.bounded a (Nat.le_trans (Nat.le_add_right _ _) ha), List.nil_append]
    apply touches_consumption hfits
    intro attrs houtput
    rw [remains_attributes env houtput, List.length_singleton] at ha
    exact haddress ▸ Nat.ne_of_lt ha
  · intro r r' a attrs attrs' h h'
    rcases handed_delivered h with h | ⟨rfl, -, ha⟩
    · rcases handed_delivered h' with h' | ⟨-, -, ha⟩
      · exact hw.single r r' a attrs attrs' h h'
      · exact absurd ha.symm (hfar h)
    · rcases handed_delivered h' with h' | ⟨rfl, -, -⟩
      · exact absurd ha.symm (hfar h')
      · rfl
  · intro r hr
    rw [reads_delivered w reqid hfits] at hr
    rcases hw.readers r hr with ⟨resp', hresp', hfin⟩
    have hne : p.ref ≠ r := by
      rintro rfl
      exact hr (hw.reads_eq_zero hresp hbound.unfinished)
    exact ⟨resp', by simp [World.delivered, List.getElem?_modify_ne _ _ hne, hresp'], hfin⟩
  · intro r a attrs h
    rw [touches_delivered]
    rcases handed_delivered h with h | ⟨rfl, houtput, rfl⟩
    · rw [touches_consumption hfits fun _ _ => hfar h, List.append_nil,
        uses_delivered hc reqid hfits h]
      exact hw.touched r a attrs h
    · rw [hw.bounded y.address (Nat.le_of_eq haddress.symm),
        uses_delivered_self hw hresp hbound hfits, consumption_attributes env hfits houtput,
        touches_map_event, if_pos rfl]
      cases p.kind <;> rfl
  · intro r a attrs h
    rw [harrays]
    rcases handed_delivered h with h | ⟨rfl, houtput, rfl⟩
    · rw [List.getElem?_append_left (hw.address_lt h), uses_delivered hc reqid hfits h]
      exact hw.arrays r a attrs h
    · rw [haddress, List.getElem?_append_right (Nat.le_refl _), Nat.sub_self,
        remains_attributes env houtput, uses_delivered_self hw hresp hbound hfits]
      cases p.kind <;> simp

/-- The array of a finished Deferred, and no other, can be used by a wait. -/
theorem World.handed_iff {r : Ref} {y : Yield}
    (hy : (history r w.trace).answers = [y]) {a : Address} {attrs : List Attribute} :
    w.Handed r a attrs ↔ y.output = .attributes attrs ∧ a = y.address := by
  constructor
  · rintro ⟨id, y', closes, hmem, houtput, rfl⟩
    have hanswer : y' ∈ (history r w.trace).answers := mem_answers_history.mpr ⟨id, closes, hmem⟩
    obtain rfl : y' = y := by simpa [hy] using hanswer
    exact ⟨houtput, rfl⟩
  · rintro ⟨houtput, rfl⟩
    obtain ⟨id, closes, hmem⟩ :=
      mem_answers_history.mp (by rw [hy]; exact List.mem_singleton_self y)
    exact ⟨id, y, closes, hmem, houtput, rfl⟩

theorem uses_deferred {r : Ref} (hkind : w.kindOf r = some .deferred) :
    w.uses r = reads r w.trace := by
  rw [World.uses, hkind]

/-- The array of a Deferred is there until a wait has decoded it. -/
theorem Accounted.alive_iff (hw : Accounted env w) {r : Ref} {a : Address} {attrs : List Attribute}
    (h : w.Handed r a attrs) (hkind : w.kindOf r = some .deferred) (hgood : Decodable env attrs) :
    w.lib.arrays[a]? = some (some attrs) ↔ reads r w.trace = 0 := by
  rw [hw.arrays r a attrs h, uses_deferred hkind]
  by_cases hreads : reads r w.trace = 0 <;> simp [hgood, hreads]

/-- A wait that gets to the cells of a Deferred uses its array once more. -/
theorem Accounted.read (hw : Accounted env w) {r : Ref} {resp : Response}
    {y : Yield} (hresp : w.responses[r]? = some resp) (hkind : resp.kind = .deferred)
    (hfin : resp.finished = true) (hy : (history r w.trace).answers = [y])
    (hresponses : w'.responses = w.responses) (ts : List Touch)
    (htrace : w'.trace = w.trace ++ (.read r :: ts.map (Touch.event y.address)))
    (hlength : w'.lib.arrays.length = w.lib.arrays.length)
    (hown : ∀ attrs, y.output = .attributes attrs → ts = use env attrs (reads r w.trace) ∧
      w'.lib.arrays[y.address]? = some (if Decodable env attrs then none else some attrs))
    (hother : ∀ a, (∀ attrs, y.output = .attributes attrs → a ≠ y.address) →
      w'.lib.arrays[a]? = w.lib.arrays[a]? ∧ (a = y.address → ts = [])) : Accounted env w' := by
  have htouches (a : Address) :
      touches a w'.trace = touches a w.trace ++ if y.address = a then ts else [] := by
    rw [htrace, touches_append, ← touches_map_event]
    rfl
  have hreads (r' : Ref) : reads r' w'.trace = reads r' w.trace + if r = r' then 1 else 0 := by
    have hcons :
        reads r' (.read r :: ts.map (Touch.event y.address)) = if r = r' then 1 else 0 := by
      rw [reads, List.countP_cons, ← reads, reads_map_event]
      by_cases hr : r = r' <;> simp [Event.isRead, hr]
    rw [htrace, reads_append, hcons]
  have hkindOf (r' : Ref) : w'.kindOf r' = w.kindOf r' := by
    rw [World.kindOf, World.kindOf, hresponses]
  have hhanded {r' : Ref} {a : Address} {attrs : List Attribute} (h : w'.Handed r' a attrs) :
      w.Handed r' a attrs := by
    rcases h with ⟨id, y', closes, hmem, hy'⟩
    rw [htrace, List.mem_append, List.mem_cons] at hmem
    rcases hmem with hmem | heq | hmem
    · exact ⟨id, y', closes, hmem, hy'⟩
    · cases heq
    · exact absurd hmem (yielded_notMem_map_event _ _ _ _ _ _)
  have hkindr := kindOf_of_response hresp hkind
  have huses : w'.uses r = reads r w.trace + 1 := by
    rw [uses_deferred ((hkindOf r).trans hkindr), hreads, if_pos rfl]
  have hfar {r' : Ref} {a : Address} {attrs : List Attribute} (h : w.Handed r' a attrs)
      (hr : r' ≠ r) : w'.uses r' = w.uses r' ∧ w'.lib.arrays[a]? = w.lib.arrays[a]? ∧
        (if y.address = a then ts else []) = [] := by
    have hne : ∀ attrs, y.output = .attributes attrs → a ≠ y.address := by
      rintro attrs' houtput rfl
      exact hr (hw.single r r' _ attrs' attrs ((World.handed_iff hy).mpr ⟨houtput, rfl⟩) h)
    rcases hother a hne with ⟨harrays, hts⟩
    refine ⟨?_, harrays, ?_⟩
    · rw [World.uses, World.uses, hkindOf, hreads, if_neg (Ne.symm hr), Nat.add_zero]
    · split_ifs with ha
      · exact hts ha.symm
      · rfl
  constructor
  · intro a ha
    rw [hlength] at ha
    rw [htouches, hw.bounded a ha, List.nil_append]
    split_ifs with heq
    · refine (hother a fun attrs houtput _ => ?_).2 heq.symm
      have hlt := hw.address_lt ((World.handed_iff hy).mpr ⟨houtput, rfl⟩)
      exact Nat.lt_irrefl _ (Nat.lt_of_lt_of_le hlt (heq ▸ ha))
    · rfl
  · exact fun r₁ r₂ a attrs attrs' h h' => hw.single r₁ r₂ a attrs attrs' (hhanded h) (hhanded h')
  · intro r' hr'
    rw [hresponses]
    by_cases hr : r = r'
    · exact ⟨resp, hr ▸ hresp, hfin⟩
    · rw [hreads, if_neg hr, Nat.add_zero] at hr'
      exact hw.readers r' hr'
  · intro r' a attrs h
    have hold := hhanded h
    rw [htouches, hw.touched r' a attrs hold]
    by_cases hr : r' = r
    · subst hr
      rcases (World.handed_iff hy).mp hold with ⟨houtput, rfl⟩
      rw [if_pos rfl, (hown attrs houtput).1, huses, lifecycle, uses_deferred hkindr]
    · rw [(hfar hold hr).1, (hfar hold hr).2.2, List.append_nil]
  · intro r' a attrs h
    have hold := hhanded h
    by_cases hr : r' = r
    · subst hr
      rcases (World.handed_iff hy).mp hold with ⟨houtput, rfl⟩
      rw [(hown attrs houtput).2, huses]
      simp
    · rw [(hfar hold hr).1, (hfar hold hr).2.1]
      exact hw.arrays r' a attrs hold

/-- How the cells of a finished Deferred are read. -/
theorem Accounted.reading (hw : Accounted env w) (hc : Consistent env w) {r : Ref} {resp : Response}
    (hresp : w.responses[r]? = some resp) (hkind : resp.kind = .deferred)
    (hfin : resp.finished = true) : ∃ y, (history r w.trace).answers = [y] ∧
      Reading env y (w.log (.read r)) (encodeReturn env resp (w.log (.read r))) := by
  rcases hc.answered hresp hkind hfin with ⟨y, outputs, hy, hcells, hmarks, hfits⟩
  refine ⟨y, hy, encodeReturn_reading hmarks hfits hcells fun attrs houtput => ?_⟩
  have harray := hw.arrays r y.address attrs ((World.handed_iff hy).mpr ⟨houtput, rfl⟩)
  split_ifs at harray with hgone
  · exact .inr ⟨harray, hgone.1⟩
  · exact .inl harray

theorem Reading.accounted {y : Yield} {r : Ref} {resp : Response} {x : Outcome Exn Value × World}
    (h : Reading env y (w.log (.read r)) x) (hw : Accounted env w)
    (hresp : w.responses[r]? = some resp) (hkind : resp.kind = .deferred)
    (hfin : resp.finished = true) (hy : (history r w.trace).answers = [y]) : Accounted env x.2 := by
  have hunread {attrs : List Attribute} (houtput : y.output = .attributes attrs)
      (hgood : Decodable env attrs) :=
    hw.alive_iff ((World.handed_iff hy).mpr ⟨houtput, rfl⟩) (kindOf_of_response hresp hkind) hgood
  cases h with
  | cells houtput =>
    exact hw.read hresp hkind hfin hy rfl [] rfl rfl (fun attrs h => absurd h (houtput attrs))
      fun a _ => ⟨rfl, fun _ => rfl⟩
  | @undecodable attrs e houtput hencode halive =>
    have hbad : ¬ Decodable env attrs := by simp [Decodable, hencode]
    refine hw.read hresp hkind hfin hy rfl [.decode] (by simp [World.log, Touch.event]) rfl ?_ ?_
    · intro attrs' houtput'
      obtain rfl : attrs = attrs' := Output.attributes.inj (houtput.symm.trans houtput')
      exact ⟨by simp [use, hbad], by rw [if_neg hbad]; exact halive⟩
    · exact fun a ha => ⟨rfl, fun heq => absurd heq (ha attrs houtput)⟩
  | @decoded attrs h houtput hencode halive =>
    have hgood : Decodable env attrs := ⟨h, hencode⟩
    have hlt : y.address < w.lib.arrays.length := (List.getElem?_eq_some_iff.mp halive).1
    have hzero := (hunread houtput hgood).mp halive
    refine hw.read hresp hkind hfin hy rfl [.decode, .destroy]
      (by simp [World.consume, World.log, Touch.event]) (by simp [World.consume, World.log]) ?_ ?_
    · intro attrs' houtput'
      obtain rfl : attrs = attrs' := Output.attributes.inj (houtput.symm.trans houtput')
      exact ⟨by simp [use, hgood, hzero], by simp [World.consume, World.log, hgood, hlt]⟩
    · intro a ha
      have hne : y.address ≠ a := Ne.symm (ha attrs houtput)
      exact ⟨by simp [World.consume, World.log, List.getElem?_set_ne hne],
        fun heq => absurd heq.symm hne⟩
  | @freed attrs h houtput hencode hgone =>
    have hgood : Decodable env attrs := ⟨h, hencode⟩
    have hused : reads r w.trace ≠ 0 := by
      intro hzero
      have halive := (hunread houtput hgood).mpr hzero
      exact absurd (hgone.symm.trans halive) (by simp)
    have hlib : ((w.log (.read r)).misuse y.address attrs).lib = w.lib := by
      rw [World.misuse]
      split <;> rfl
    refine hw.read hresp hkind hfin hy (by rw [World.misuse]; split <;> rfl)
      (use env attrs (reads r w.trace)) ?_ (by rw [hlib]) ?_ ?_
    · rw [use, World.misuse]
      split_ifs <;> simp_all [World.log, World.crash, Touch.event]
    · intro attrs' houtput'
      obtain rfl : attrs = attrs' := Output.attributes.inj (houtput.symm.trans houtput')
      exact ⟨rfl, by rw [hlib, if_pos hgood]; exact hgone⟩
    · exact fun a ha => ⟨by rw [hlib], fun heq => absurd heq (ha attrs houtput)⟩

theorem LoopStep.accounted (h : LoopStep env w w') (hc : Consistent env w) (hw : Accounted env w) :
    Accounted env w' := by
  cases h with
  | heard message =>
    exact hw.frame hc rfl (fun r resp hresp => ⟨resp, hresp, rfl, rfl⟩) [] (by simp [World.hear])
      (by simp)
  | delivered c hp hfits => exact hw.delivered hc hp c hfits

theorem SmallStep.accounted (h : SmallStep env w w') (hc : Consistent env w)
    (hw : Accounted env w) : Accounted env w' := by
  cases h with
  | loop h => exact h.accounted hc hw
  | @register call reqid hpos hfree =>
    refine hw.frame hc rfl (fun r resp hresp => ⟨resp, ?_, rfl, rfl⟩)
      [.submitted reqid w.responses.length] rfl (by simp [Event.Quiet])
    have hr : r < w.responses.length := (List.getElem?_eq_some_iff.mp hresp).1
    simp [World.register, List.getElem?_append_left hr, hresp]
  | @read r resp hresp hkind hfin =>
    rcases hw.reading hc hresp hkind hfin with ⟨y, hy, hreading⟩
    exact hreading.accounted hw hresp hkind hfin hy
  | @take r resp e rest hresp hbacklog =>
    refine hw.frame hc rfl (fun r' resp' hresp' => ?_) [.taken r e] rfl (by simp [Event.Quiet])
    by_cases hr : r = r'
    · exact ⟨{ resp' with backlog := rest }, by simp [World.log, World.modify, hr, hresp'],
        rfl, rfl⟩
    · exact ⟨resp', by simp [World.log, World.modify, List.getElem?_modify_ne _ _ hr, hresp'],
        rfl, rfl⟩

theorem SmallSteps.accounted (h : SmallSteps env w w') (hc : Consistent env w)
    (hw : Accounted env w) : Accounted env w' :=
  (Machine.steps_invariant (I := fun w => Consistent env w ∧ Accounted env w)
    (fun _ _ hstep ⟨hc, hw⟩ => ⟨hstep.consistent hc, hstep.accounted hc hw⟩) h ⟨hc, hw⟩).2

end Steps

theorem accounted_initial : Accounted env .initial where
  bounded _ _ := rfl
  single r r' a attrs attrs' h := by simp [World.Handed, World.initial] at h
  readers r hr := absurd rfl hr
  touched r a attrs h := by simp [World.Handed, World.initial] at h
  arrays r a attrs h := by simp [World.Handed, World.initial] at h

theorem run_accounted (as : List Action) : Accounted env (run env as) :=
  (Machine.run_invariant (step env) (I := fun w => Consistent env w ∧ Accounted env w)
    (fun a _ ⟨hc, hw⟩ => ⟨SmallSteps.consistent (step_steps a hc) hc,
      SmallSteps.accounted (step_steps a hc) hc hw⟩)
    ⟨consistent_initial env, accounted_initial env⟩ as).2

end HyperDex.Client
