import HyperDex.General.ObjectStore
import Mathlib.Data.List.Forall2
import Mathlib.Data.List.Nodup
import Mathlib.Data.Set.Basic

/-!
# Queries over the places of a store

A query is about all places of a region whose objects pass a test. Related stores
select related places when every place with an object has a partner, so a row of the
selected places on one side, each once, has a partner row on the other: selections can
be counted, listed and cleared alike.
-/
namespace HyperDex.General.ObjectStore

section Selections
variable {ι ρ φ ν ω κ : Type*}

def Store.selected (s : Store ι ρ φ ν ω κ) (region : Set ι) (c : κ) (st : ι → Option ρ) : Set ι :=
  {i | i ∈ region ∧ ∃ o, st i = some o ∧ s.holds o c = true}

open Classical in
noncomputable def Store.clear (s : Store ι ρ φ ν ω κ) (region : Set ι) (c : κ)
    (st : ι → Option ρ) : ι → Option ρ :=
  fun i => if i ∈ s.selected region c st then none else st i

theorem Store.selected_clear (s : Store ι ρ φ ν ω κ) (region : Set ι) (c : κ)
    (st : ι → Option ρ) : s.selected region c (s.clear region c st) = ∅ := by
  refine Set.eq_empty_iff_forall_notMem.mpr fun i h => ?_
  rcases h with ⟨hregion, o, ho, hholds⟩
  rw [clear] at ho
  split at ho
  · cases ho
  · next hleft => exact hleft ⟨hregion, o, ho, hholds⟩

/-- The row has each element of the set once. -/
def Lists (is : List ι) (S : Set ι) : Prop := is.Nodup ∧ ∀ i, i ∈ is ↔ i ∈ S

theorem Store.mem_selected (s : Store ι ρ φ ν ω κ) (region : Set ι) (c : κ) (st : ι → Option ρ)
    (i : ι) : i ∈ s.selected region c st ↔
      i ∈ region ∧ ∃ o, st i = some o ∧ s.holds o c = true := Iff.rfl

end Selections

section Simulation
variable {ι ι' ρ ρ' φ ν ν' ω ω' κ κ' : Type*} {P : ι → ι' → Prop} {R : ρ → ρ' → Prop}
  {N : ν → ν' → Prop} {W : ω → ω' → Prop} {C : κ → κ' → Prop} {s : Store ι ρ φ ν ω κ}
  {s' : Store ι' ρ' φ ν' ω' κ'} {region : Set ι} {region' : Set ι'} {c : κ} {c' : κ'}
  {st : ι → Option ρ} {st' : ι' → Option ρ'}

/-- Every place with an object has a partner. -/
structure Covers (P : ι → ι' → Prop) (st : ι → Option ρ) (st' : ι' → Option ρ') : Prop where
  left : ∀ i, st i ≠ none → ∃ i', P i i'
  right : ∀ i', st' i' ≠ none → ∃ i, P i i'

def SameRegion (P : ι → ι' → Prop) (region : Set ι) (region' : Set ι') : Prop :=
  ∀ i i', P i i' → (i ∈ region ↔ i' ∈ region')

theorem covers_empty (P : ι → ι' → Prop) :
    Covers P (fun _ => (none : Option ρ)) (fun _ => (none : Option ρ')) :=
  ⟨fun _ h => absurd rfl h, fun _ h => absurd rfl h⟩

/-- An operation changes nothing, or what is at its own place. -/
theorem Store.serve_local [DecidableEq ι] (op : Op φ ν ω κ) (i : ι) (st : ι → Option ρ) :
    (s.serve op i st).2 = st ∨ ∃ o, (s.serve op i st).2 = Function.update st i o := by
  have hwrite (f : φ) (u : ω) (o : ρ) : (s.writeOn f u i o st).2 = st ∨
      ∃ o', (s.writeOn f u i o st).2 = Function.update st i o' := by
    rw [Store.writeOn]
    split
    · exact .inr ⟨_, rfl⟩
    · exact .inl rfl
  cases hold : st i with
  | none =>
    cases op with
    | write f u =>
      simp only [Store.serve, hold]
      split
      · exact hwrite f u _
      · exact .inl rfl
    | writeIfNone u => simpa only [Store.serve, hold] using hwrite s.plain u (s.new i)
    | _ => exact .inl (by simp only [Store.serve, hold])
  | some o =>
    cases op with
    | write f u => simpa only [Store.serve, hold] using hwrite f u o
    | del => exact .inr ⟨none, by simp only [Store.serve, hold]⟩
    | condWrite f c u =>
      simp only [Store.serve, hold]
      split
      · exact hwrite f u o
      · exact .inl rfl
    | condDel c =>
      simp only [Store.serve, hold]
      split
      · exact .inr ⟨none, rfl⟩
      · exact .inl rfl
    | _ => exact .inl (by simp only [Store.serve, hold])

theorem Store.serve_place [DecidableEq ι] (op : Op φ ν ω κ) {i j : ι}
    (h : (s.serve op i st).2 j ≠ none) : j = i ∨ st j ≠ none := by
  rcases s.serve_local op i st with hsame | ⟨o, ho⟩
  · exact .inr (hsame ▸ h)
  · by_cases hij : j = i
    · exact .inl hij
    · rw [ho, Function.update_of_ne hij] at h
      exact .inr h

theorem Covers.serve [DecidableEq ι] [DecidableEq ι'] (h : Covers P st st') {op : Op φ ν ω κ}
    {op' : Op φ ν' ω' κ'} {i : ι} {i' : ι'} (hi : P i i') :
    Covers P (s.serve op i st).2 (s'.serve op' i' st').2 := by
  constructor
  · intro j hj
    rcases s.serve_place op hj with rfl | hj
    · exact ⟨i', hi⟩
    · exact h.left j hj
  · intro j hj
    rcases s'.serve_place op' hj with rfl | hj
    · exact ⟨i, hi⟩
    · exact h.right j hj

theorem Store.Related.selected_iff (hs : Store.Related P R N W C s s') (hst : Agree P R st st')
    (hregion : SameRegion P region region') (hc : C c c') {i : ι} {i' : ι'} (hi : P i i') :
    i ∈ s.selected region c st ↔ i' ∈ s'.selected region' c' st' := by
  have hplace := hst i i' hi
  rw [Store.mem_selected, Store.mem_selected, hregion i i' hi]
  refine and_congr_right fun _ => ?_
  generalize st i = o at hplace
  generalize st' i' = o' at hplace
  cases hplace with
  | none => simp
  | some ho => simp [hs.holds _ _ _ _ ho hc]

theorem Store.Related.clear (hs : Store.Related P R N W C s s') (hst : Agree P R st st')
    (hregion : SameRegion P region region') (hc : C c c') :
    Agree P R (s.clear region c st) (s'.clear region' c' st') := by
  intro i i' hi
  have hiff := hs.selected_iff hst hregion hc hi
  by_cases hsel : i ∈ s.selected region c st
  · rw [Store.clear, Store.clear, if_pos hsel, if_pos (hiff.mp hsel)]
    exact .none
  · rw [Store.clear, Store.clear, if_neg hsel, if_neg (mt hiff.mpr hsel)]
    exact hst i i' hi

theorem Covers.clear (h : Covers P st st') :
    Covers P (s.clear region c st) (s'.clear region' c' st') := by
  constructor
  · intro i hi
    refine h.left i fun hnone => hi ?_
    simp [Store.clear, hnone]
  · intro i' hi'
    refine h.right i' fun hnone => hi' ?_
    simp [Store.clear, hnone]

theorem exists_partners {is : List ι} (h : ∀ i ∈ is, ∃ i', P i i') :
    ∃ is', List.Forall₂ P is is' := by
  induction is with
  | nil => exact ⟨[], .nil⟩
  | cons i is ih =>
    rw [List.forall_mem_cons] at h
    rcases h.1 with ⟨i', hi'⟩
    rcases ih h.2 with ⟨is', his'⟩
    exact ⟨i' :: is', .cons hi' his'⟩

theorem exists_partner_of_mem {is : List ι} {is' : List ι'} (h : List.Forall₂ P is is') {i' : ι'}
    (hi' : i' ∈ is') : ∃ i ∈ is, P i i' := by
  induction h with
  | nil => simp at hi'
  | @cons j j' is is' hj _ ih =>
    rcases List.mem_cons.mp hi' with rfl | hi'
    · exact ⟨j, List.mem_cons_self, hj⟩
    · rcases ih hi' with ⟨i, hi, hP⟩
      exact ⟨i, List.mem_cons_of_mem j hi, hP⟩

/-- A selection that is listed is listed on the other side, partner by partner. -/
theorem Lists.partner (hs : Store.Related P R N W C s s') (hst : Agree P R st st')
    (hP : OneToOne P) (hcovers : Covers P st st') (hregion : SameRegion P region region')
    (hc : C c c') {is : List ι} (his : Lists is (s.selected region c st)) :
    ∃ is', List.Forall₂ P is is' ∧ Lists is' (s'.selected region' c' st') := by
  have hbi : Relator.BiUnique P :=
    ⟨fun i j i' hi hj => (hP i i' j i' hi hj).mpr rfl,
      fun i i' j' hi hj => (hP i i' i j' hi hj).mp rfl⟩
  have hall : ∀ i ∈ is, ∃ i', P i i' := by
    intro i hi
    rcases (his.2 i).mp hi with ⟨-, o, ho, -⟩
    exact hcovers.left i (by simp [ho])
  rcases exists_partners hall with ⟨is', his'⟩
  refine ⟨is', his', (List.rel_nodup hbi his').mp his.1, fun i' => ?_⟩
  constructor
  · intro hi'
    rcases exists_partner_of_mem his' hi' with ⟨i, hi, hP'⟩
    exact (hs.selected_iff hst hregion hc hP').mp ((his.2 i).mp hi)
  · intro hsel
    have hsome : st' i' ≠ none := by
      rcases hsel with ⟨-, o, ho, -⟩
      simp [ho]
    rcases hcovers.right i' hsome with ⟨i, hi⟩
    have hmem := (his.2 i).mpr ((hs.selected_iff hst hregion hc hi).mpr hsel)
    exact (List.rel_mem hbi hi his').mp hmem

end Simulation
end HyperDex.General.ObjectStore
