import HyperDex.Client.Steps

/-!
# Reading the cells of a finished request

A finished Deferred was answered once. What a wait makes of its cells is
determined by that answer, by the error message of the library at the time of
the wait and, where the answer is an array, by whether the array is still there.
-/
namespace HyperDex.Client
open General Ruby Conversion Decoding

variable {Obj : Type} (env : Env Obj)

def Yield.value (y : Yield) (message : String) : Outcome Exn Value :=
  match y.status with
  | .success =>
    match y.output with
    | .none => .returned .true
    | .attributes attrs =>
      match encodeAttributes env attrs with
      | .ok h => .returned (hashOf h)
      | .error e => .raised e
    | .description address =>
      .returned (.string (cString (PrefixCode.toLittleEndian 8 address.toNat)))
    | .count n => .returned (.integer n.toInt64.toInt)
  | .notfound => .returned .nil
  | .cmpfail => .returned .false
  | status => .raised (exception env.objectSpace status message)

/-- The array cannot be decoded by a second wait: it is gone. -/
def World.misuse (w : World) (a : Address) (attrs : List Attribute) : World :=
  if attrs = [] then ((w.log (.decoded (some a))).log (.destroyed (some a))).crash
  else (w.log (.decoded (some a))).crash

/-- The four ways to read the cells that one answer filled. -/
inductive Reading (y : Yield) (w : World) : Outcome Exn Value × World → Prop where
  | cells : (∀ attrs, y.output ≠ .attributes attrs) →
      Reading y w (y.value env w.lib.message, w)
  | undecodable {attrs : List Attribute} {e : Exn} : y.output = .attributes attrs →
      encodeAttributes env attrs = .error e → w.lib.arrays[y.address]? = some (some attrs) →
      Reading y w (.raised e, w.log (.decoded (some y.address)))
  | decoded {attrs : List Attribute} {h : OrderedMap Bytes Value} : y.output = .attributes attrs →
      encodeAttributes env attrs = .ok h → w.lib.arrays[y.address]? = some (some attrs) →
      Reading y w (.returned (hashOf h), w.consume y.address)
  /-- the array was destroyed before -/
  | freed {attrs : List Attribute} {h : OrderedMap Bytes Value} : y.output = .attributes attrs →
      encodeAttributes env attrs = .ok h → w.lib.arrays[y.address]? = some none →
      Reading y w (.undefined, w.misuse y.address attrs)

variable {env} {w : World} {y : Yield} {resp : Response} {outputs : Outputs}

theorem takeAttributes_freed {a : Address} {attrs : List Attribute} {h : OrderedMap Bytes Value}
    (ha : w.lib.arrays[a]? = some none) (hencode : encodeAttributes env attrs = .ok h) :
    takeAttributes env (some a) attrs.length w = (.undefined, w.misuse a attrs) := by
  by_cases hattrs : attrs = []
  · subst hattrs
    have hread : (w.log (.decoded (some a))).lib.readArray (some a) 0 = some [] := by
      simp [Library.readArray]
    simp only [takeAttributes, List.length_nil, hread, hencode]
    simp [World.destroyAttrs, World.misuse, World.log, ha, Outcome.andThen]
  · have hsz : attrs.length ≠ 0 := fun hsz => hattrs (List.length_eq_zero_iff.mp hsz)
    have hread : (w.log (.decoded (some a))).lib.readArray (some a) attrs.length = none := by
      simp [Library.readArray, World.log, hsz, ha]
    simp only [takeAttributes, hread, World.misuse, if_neg hattrs]

/-- Cells without an array are read without any change. -/
theorem encodeReturn_cells (hmarks : resp.Marks outputs) (hfits : y.Fits outputs)
    (hcells : resp.cells = Cells.initial.fill y) (houtput : ∀ attrs, y.output ≠ .attributes attrs) :
    encodeReturn env resp w = (y.value env w.lib.message, w) := by
  rcases y with ⟨⟨status, message, output⟩, address⟩
  cases output with
  | attributes attrs => exact absurd rfl (houtput attrs)
  | none =>
    by_cases hok : status = .success
    · obtain rfl : outputs = .status := hfits hok
      simp [encodeReturn, Yield.value, hcells, Cells.fill, hok, hmarks.description, hmarks.count,
        hmarks.attrs]
    · have hstatus : resp.cells.status = status := by rw [hcells]; rfl
      rw [encodeReturn, Yield.value, hstatus]
      cases status <;> first | rfl | exact absurd rfl hok
  | description a =>
    obtain ⟨rfl, rfl⟩ : status = .success ∧ outputs = .description := hfits
    simp [encodeReturn, Yield.value, hcells, Cells.fill, hmarks.description, readDescription]
  | count n =>
    obtain ⟨rfl, rfl⟩ : status = .success ∧ outputs = .count := hfits
    simp [encodeReturn, Yield.value, hcells, Cells.fill, hmarks.description, hmarks.count,
      readCount]

theorem encodeReturn_array {attrs : List Attribute} (hmarks : resp.Marks outputs)
    (hfits : y.Fits outputs) (hcells : resp.cells = Cells.initial.fill y)
    (houtput : y.output = .attributes attrs) :
    encodeReturn env resp w = takeAttributes env (some y.address) attrs.length w := by
  rcases y with ⟨⟨status, message, output⟩, address⟩
  obtain rfl : output = .attributes attrs := houtput
  obtain ⟨rfl, rfl⟩ : status = .success ∧ outputs = .attributes := hfits
  simp [encodeReturn, hcells, Cells.fill, hmarks.description, hmarks.count, hmarks.attrs]

theorem encodeReturn_reading (hmarks : resp.Marks outputs) (hfits : y.Fits outputs)
    (hcells : resp.cells = Cells.initial.fill y)
    (harray : ∀ attrs, y.output = .attributes attrs → w.lib.arrays[y.address]? = some (some attrs) ∨
      w.lib.arrays[y.address]? = some none ∧ ∃ h, encodeAttributes env attrs = .ok h) :
    Reading env y w (encodeReturn env resp w) := by
  by_cases houtput : ∃ attrs, y.output = .attributes attrs
  · rcases houtput with ⟨attrs, houtput⟩
    rw [encodeReturn_array hmarks hfits hcells houtput]
    rcases harray attrs houtput with halive | ⟨hgone, h, hencode⟩
    · rw [takeAttributes_alive env halive]
      cases hencode : encodeAttributes env attrs with
      | error e => exact .undecodable houtput hencode halive
      | ok h => exact .decoded houtput hencode halive
    · rw [takeAttributes_freed hgone hencode]
      exact .freed houtput hencode hgone
  · have houtput : ∀ attrs, y.output ≠ .attributes attrs := fun attrs h => houtput ⟨attrs, h⟩
    rw [encodeReturn_cells hmarks hfits hcells houtput]
    exact .cells houtput

/-- A finished Deferred was answered once, and its cells hold that answer. -/
theorem Consistent.answered (hw : Consistent env w) {r : Ref} (hresp : w.responses[r]? = some resp)
    (hkind : resp.kind = .deferred) (hfin : resp.finished = true) :
    ∃ y outputs, (history r w.trace).answers = [y] ∧ resp.cells = Cells.initial.fill y ∧
      resp.Marks outputs ∧ y.Fits outputs := by
  have htracked := hw.tracked r resp hresp
  have hlength : (history r w.trace).answers.length = 1 := by
    rw [htracked.single hkind, htracked.finished, if_pos hfin]
  rcases List.length_eq_one_iff.mp hlength with ⟨y, hy⟩
  rcases htracked.outputs with ⟨outputs, hmarks, -, hfits⟩
  exact ⟨y, outputs, hy, by rw [htracked.cells, hy]; rfl, hmarks, hfits y (by simp [hy])⟩

end HyperDex.Client
