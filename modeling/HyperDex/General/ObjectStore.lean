import Mathlib.Data.Option.Basic
import Mathlib.Logic.Function.Basic
import Mathlib.Tactic.Common

/-!
# Stores of objects, and their simulation

A store has an object or none at every place. It is read as a whole or in part,
written in several ways, written where nothing is, and cleared, and what is there may
be tested before it is written or cleared. Two stores with objects and places of
different kinds are compared through a relation of their places, which is one to one,
and a relation of their objects: when writing keeps the objects related and tests agree
on them, the stores answer alike.
-/
namespace HyperDex.General.ObjectStore

/-- An operation on one place; `φ` are the ways to write, `ω` is what is written, `κ` what is
tested and `ν` what is asked of an object. -/
inductive Op (φ ν ω κ : Type*) where
  | get
  | getPart (names : ν)
  | write (f : φ) (u : ω)
  | writeIfNone (u : ω)
  | del
  | condWrite (f : φ) (c : κ) (u : ω)
  | condDel (c : κ)

section Ops
variable {φ ν ω κ : Type*}

def Op.asked : Op φ ν ω κ → Option ν
  | .getPart names => some names
  | _ => none

def Op.written : Op φ ν ω κ → Option ω
  | .write _ u | .writeIfNone u | .condWrite _ _ u => some u
  | _ => none

def Op.tested : Op φ ν ω κ → Option κ
  | .condWrite _ c _ | .condDel c => some c
  | _ => none

end Ops

inductive Reply (ρ : Type*) where
  | nil
  | true
  | false
  | refused
  | object (o : ρ)

/-- What a new object is, which writes make one and which one is used where nothing is, how objects
are written and read in part, where this is possible, and tested, and whether a test fails where no
object is; otherwise nothing is answered there. -/
structure Store (ι ρ φ ν ω κ : Type*) where
  new : ι → ρ
  creates : φ → Bool
  plain : φ
  write : φ → ρ → ω → Option ρ
  part : ρ → ν → Option ρ
  holds : ρ → κ → Bool
  failsOnNone : Bool

section Stores
variable {ι ρ φ ν ω κ : Type*} [DecidableEq ι]

/-- What is written goes on top of an object, which stays as it is when this is not possible. -/
def Store.writeOn (s : Store ι ρ φ ν ω κ) (f : φ) (u : ω) (i : ι) (o : ρ) (st : ι → Option ρ) :
    Reply ρ × (ι → Option ρ) :=
  match s.write f o u with
  | some o' => (.true, Function.update st i (some o'))
  | none => (.refused, st)

def Store.testOnNone (s : Store ι ρ φ ν ω κ) : Reply ρ := if s.failsOnNone then .false else .nil

def Store.partOf (s : Store ι ρ φ ν ω κ) (o : ρ) (names : ν) : Reply ρ :=
  match s.part o names with
  | some o' => .object o'
  | none => .refused

def Store.serve (s : Store ι ρ φ ν ω κ) (op : Op φ ν ω κ) (i : ι) (st : ι → Option ρ) :
    Reply ρ × (ι → Option ρ) :=
  match op, st i with
  | .get, none => (.nil, st)
  | .get, some o => (.object o, st)
  | .getPart _, none => (.nil, st)
  | .getPart names, some o => (s.partOf o names, st)
  | .write f u, none => if s.creates f then s.writeOn f u i (s.new i) st else (.nil, st)
  | .write f u, some o => s.writeOn f u i o st
  | .writeIfNone u, none => s.writeOn s.plain u i (s.new i) st
  | .writeIfNone _, some _ => (.false, st)
  | .del, none => (.nil, st)
  | .del, some _ => (.true, Function.update st i none)
  | .condWrite _ _ _, none => (s.testOnNone, st)
  | .condWrite f c u, some o => if s.holds o c then s.writeOn f u i o st else (.false, st)
  | .condDel _, none => (s.testOnNone, st)
  | .condDel c, some o => if s.holds o c then (.true, Function.update st i none) else (.false, st)

end Stores

section Simulation
variable {ι ι' ρ ρ' φ ν ν' ω ω' κ κ' : Type*} {P : ι → ι' → Prop} {R : ρ → ρ' → Prop}
  {N : ν → ν' → Prop} {W : ω → ω' → Prop} {C : κ → κ' → Prop}

inductive Op.Related (N : ν → ν' → Prop) (W : ω → ω' → Prop) (C : κ → κ' → Prop) :
    Op φ ν ω κ → Op φ ν' ω' κ' → Prop where
  | get : Related N W C .get .get
  | getPart {names : ν} {names' : ν'} : N names names' →
      Related N W C (.getPart names) (.getPart names')
  | write {f : φ} {u : ω} {u' : ω'} : W u u' → Related N W C (.write f u) (.write f u')
  | writeIfNone {u : ω} {u' : ω'} : W u u' → Related N W C (.writeIfNone u) (.writeIfNone u')
  | del : Related N W C .del .del
  | condWrite {f : φ} {c : κ} {c' : κ'} {u : ω} {u' : ω'} : C c c' → W u u' →
      Related N W C (.condWrite f c u) (.condWrite f c' u')
  | condDel {c : κ} {c' : κ'} : C c c' → Related N W C (.condDel c) (.condDel c')

inductive Reply.Related (R : ρ → ρ' → Prop) : Reply ρ → Reply ρ' → Prop where
  | nil : Related R .nil .nil
  | true : Related R .true .true
  | false : Related R .false .false
  | refused : Related R .refused .refused
  | object {o : ρ} {o' : ρ'} : R o o' → Related R (.object o) (.object o')

/-- Stores that make, write, read and test related objects alike. -/
structure Store.Related (P : ι → ι' → Prop) (R : ρ → ρ' → Prop) (N : ν → ν' → Prop)
    (W : ω → ω' → Prop) (C : κ → κ' → Prop) (s : Store ι ρ φ ν ω κ) (s' : Store ι' ρ' φ ν' ω' κ') :
    Prop where
  new : ∀ i i', P i i' → R (s.new i) (s'.new i')
  creates : s.creates = s'.creates
  plain : s.plain = s'.plain
  write : ∀ f o o' u u', R o o' → W u u' → Option.Rel R (s.write f o u) (s'.write f o' u')
  part : ∀ o o' names names', R o o' → N names names' →
    Option.Rel R (s.part o names) (s'.part o' names')
  holds : ∀ o o' c c', R o o' → C c c' → s.holds o c = s'.holds o' c'
  failsOnNone : s.failsOnNone = s'.failsOnNone

def Agree (P : ι → ι' → Prop) (R : ρ → ρ' → Prop) (st : ι → Option ρ) (st' : ι' → Option ρ') :
    Prop := ∀ i i', P i i' → Option.Rel R (st i) (st' i')

/-- Related places are equal on one side exactly if they are on the other. -/
def OneToOne (P : ι → ι' → Prop) : Prop := ∀ i i' j j', P i i' → P j j' → (i = j ↔ i' = j')

theorem agree_empty : Agree P R (fun _ => none) (fun _ => none) := fun _ _ _ => .none

variable [DecidableEq ι] [DecidableEq ι']

theorem Agree.update {st : ι → Option ρ} {st' : ι' → Option ρ'} (h : Agree P R st st')
    (hP : OneToOne P) {i : ι} {i' : ι'} (hi : P i i') {o : Option ρ} {o' : Option ρ'}
    (ho : Option.Rel R o o') :
    Agree P R (Function.update st i o) (Function.update st' i' o') := by
  intro j j' hj
  have hiff := hP j j' i i' hj hi
  by_cases heq : j = i
  · rw [heq, hiff.mp heq, Function.update_self, Function.update_self]
    exact ho
  · rw [Function.update_of_ne heq, Function.update_of_ne (mt hiff.mpr heq)]
    exact h j j' hj

abbrev Alike (P : ι → ι' → Prop) (R : ρ → ρ' → Prop) (x : Reply ρ × (ι → Option ρ))
    (x' : Reply ρ' × (ι' → Option ρ')) : Prop :=
  x.1.Related R x'.1 ∧ Agree P R x.2 x'.2

section Serve
variable {s : Store ι ρ φ ν ω κ} {s' : Store ι' ρ' φ ν' ω' κ'} {i : ι} {i' : ι'}
  {st : ι → Option ρ} {st' : ι' → Option ρ'}

theorem Store.Related.writeOn (hs : Store.Related P R N W C s s') (hP : OneToOne P) (hi : P i i')
    (hst : Agree P R st st') (f : φ) {u : ω} {u' : ω'} (hu : W u u') {o : ρ} {o' : ρ'}
    (ho : R o o') : Alike P R (s.writeOn f u i o st) (s'.writeOn f u' i' o' st') := by
  have hwrite := hs.write f o o' u u' ho hu
  rw [Store.writeOn, Store.writeOn]
  generalize s.write f o u = x at hwrite
  generalize s'.write f o' u' = x' at hwrite
  cases hwrite with
  | some ho' => exact ⟨.true, hst.update hP hi (.some ho')⟩
  | none => exact ⟨.refused, hst⟩

omit [DecidableEq ι] [DecidableEq ι'] in
theorem Store.Related.partOf (hs : Store.Related P R N W C s s') {o : ρ} {o' : ρ'} (ho : R o o')
    {names : ν} {names' : ν'} (hnames : N names names') :
    (s.partOf o names).Related R (s'.partOf o' names') := by
  have hpart := hs.part o o' names names' ho hnames
  rw [Store.partOf, Store.partOf]
  generalize s.part o names = x at hpart
  generalize s'.part o' names' = x' at hpart
  cases hpart with
  | some ho' => exact .object ho'
  | none => exact .refused

omit [DecidableEq ι] [DecidableEq ι'] in
theorem Store.Related.testOnNone (hs : Store.Related P R N W C s s') :
    Reply.Related R s.testOnNone s'.testOnNone := by
  rw [Store.testOnNone, Store.testOnNone, hs.failsOnNone]
  cases s'.failsOnNone with
  | false => exact .nil
  | true => exact .false

/-- Related operations at related places are answered alike and keep the stores in agreement. -/
theorem Store.Related.serve (hs : Store.Related P R N W C s s') (hP : OneToOne P)
    {op : Op φ ν ω κ} {op' : Op φ ν' ω' κ'} (hop : op.Related N W C op') (hi : P i i')
    (hst : Agree P R st st') : Alike P R (s.serve op i st) (s'.serve op' i' st') := by
  have hplace := hst i i' hi
  have hcleared := hst.update hP hi .none
  generalize hold : st i = o at hplace
  generalize hold' : st' i' = o' at hplace
  cases hop with
  | get =>
    cases hplace with
    | some ho =>
      simp only [Store.serve, hold, hold']
      exact ⟨.object ho, hst⟩
    | none =>
      simp only [Store.serve, hold, hold']
      exact ⟨.nil, hst⟩
  | getPart hnames =>
    cases hplace with
    | some ho =>
      simp only [Store.serve, hold, hold']
      exact ⟨hs.partOf ho hnames, hst⟩
    | none =>
      simp only [Store.serve, hold, hold']
      exact ⟨.nil, hst⟩
  | @write f u u' hu =>
    cases hplace with
    | some ho =>
      simp only [Store.serve, hold, hold']
      exact hs.writeOn hP hi hst f hu ho
    | none =>
      simp only [Store.serve, hold, hold', hs.creates]
      split
      · exact hs.writeOn hP hi hst f hu (hs.new i i' hi)
      · exact ⟨.nil, hst⟩
  | writeIfNone hu =>
    cases hplace with
    | some ho =>
      simp only [Store.serve, hold, hold']
      exact ⟨.false, hst⟩
    | none =>
      simp only [Store.serve, hold, hold', hs.plain]
      exact hs.writeOn hP hi hst s'.plain hu (hs.new i i' hi)
  | del =>
    cases hplace with
    | some ho =>
      simp only [Store.serve, hold, hold']
      exact ⟨.true, hcleared⟩
    | none =>
      simp only [Store.serve, hold, hold']
      exact ⟨.nil, hst⟩
  | @condWrite f c c' u u' hc hu =>
    cases hplace with
    | @some o o' ho =>
      simp only [Store.serve, hold, hold', hs.holds _ _ _ _ ho hc]
      split
      · exact hs.writeOn hP hi hst f hu ho
      · exact ⟨.false, hst⟩
    | none =>
      simp only [Store.serve, hold, hold']
      exact ⟨hs.testOnNone, hst⟩
  | condDel hc =>
    cases hplace with
    | @some o o' ho =>
      simp only [Store.serve, hold, hold', hs.holds _ _ _ _ ho hc]
      split
      · exact ⟨.true, hcleared⟩
      · exact ⟨.false, hst⟩
    | none =>
      simp only [Store.serve, hold, hold']
      exact ⟨hs.testOnNone, hst⟩

end Serve
end Simulation
end HyperDex.General.ObjectStore
