import Mathlib.Data.List.Forall2
import Mathlib.Data.List.Induction
import Mathlib.Data.List.Nodup
import Mathlib.Tactic.Common

/-!
# Insertion-ordered finite maps and sets

A map is the list of its bindings, oldest first, with pairwise distinct keys.
Binding a present key again keeps its place and replaces its value; a new key
goes to the end. A set is the list of its members under the same discipline.
-/
namespace HyperDex.General

variable {κ ν : Type*} [DecidableEq κ]

/-- Bindings with pairwise distinct keys, in the order in which the keys were first bound. -/
structure OrderedMap (κ ν : Type*) where
  entries : List (κ × ν)
  nodup : (entries.map Prod.fst).Nodup

namespace OrderedMap

def empty : OrderedMap κ ν := ⟨[], List.nodup_nil⟩

def keys (m : OrderedMap κ ν) : List κ := m.entries.map Prod.fst

def lookup (m : OrderedMap κ ν) (k : κ) : Option ν := m.entries.lookup k

def rebind (k : κ) (v : ν) : List (κ × ν) → List (κ × ν)
  | [] => [(k, v)]
  | (k', v') :: es => if k' = k then (k, v) :: es else (k', v') :: rebind k v es

theorem rebind_of_mem (k : κ) (v : ν) (es : List (κ × ν)) (h : k ∈ es.map Prod.fst) :
    (rebind k v es).map Prod.fst = es.map Prod.fst := by
  induction es with
  | nil => simp at h
  | cons e es ih =>
    rcases e with ⟨k', v'⟩
    by_cases hk : k' = k
    · simp [rebind, hk]
    · have hmem : k ∈ es.map Prod.fst := by
        rcases List.mem_cons.mp h with h | h
        · exact absurd h.symm hk
        · exact h
      simp only [rebind, hk, if_false, List.map_cons, ih hmem]

theorem rebind_of_not_mem (k : κ) (v : ν) (es : List (κ × ν)) (h : k ∉ es.map Prod.fst) :
    rebind k v es = es ++ [(k, v)] := by
  induction es with
  | nil => rfl
  | cons e es ih =>
    rcases e with ⟨k', v'⟩
    simp only [List.map_cons, List.mem_cons, not_or] at h
    rw [rebind, if_neg (Ne.symm h.1), ih h.2, List.cons_append]

theorem rebind_nodup (k : κ) (v : ν) (es : List (κ × ν)) (h : (es.map Prod.fst).Nodup) :
    ((rebind k v es).map Prod.fst).Nodup := by
  by_cases hk : k ∈ es.map Prod.fst
  · rwa [rebind_of_mem k v es hk]
  · rw [rebind_of_not_mem k v es hk, List.map_append, List.nodup_append]
    refine ⟨h, by simp, ?_⟩
    rintro a ha b hb rfl
    have hak : a = k := List.mem_singleton.mp hb
    exact hk (hak ▸ ha)

theorem lookup_cons_ite (k j : κ) (v : ν) (es : List (κ × ν)) :
    ((k, v) :: es).lookup j = if j = k then some v else es.lookup j := by
  rw [List.lookup_cons]
  by_cases hj : j = k
  · simp [hj]
  · rw [if_neg hj, beq_eq_false_iff_ne.mpr hj]

theorem lookup_rebind (k j : κ) (v : ν) (es : List (κ × ν)) :
    (rebind k v es).lookup j = if j = k then some v else es.lookup j := by
  induction es with
  | nil => exact lookup_cons_ite k j v []
  | cons e es ih =>
    rcases e with ⟨k', v'⟩
    by_cases hk : k' = k
    · subst hk
      rw [rebind, if_pos rfl, lookup_cons_ite, lookup_cons_ite]
      by_cases hj : j = k' <;> simp [hj]
    · rw [rebind, if_neg hk, lookup_cons_ite, lookup_cons_ite, ih]
      by_cases hj : j = k'
      · subst hj
        simp [hk]
      · simp [hj]

/-- Bind `k` to `v`, in place when `k` is present and at the end otherwise. -/
def insert (m : OrderedMap κ ν) (k : κ) (v : ν) : OrderedMap κ ν :=
  ⟨rebind k v m.entries, rebind_nodup k v m.entries m.nodup⟩

def erase (m : OrderedMap κ ν) (k : κ) : OrderedMap κ ν :=
  ⟨m.entries.filter (fun e => e.1 ≠ k), m.nodup.sublist (List.filter_sublist.map _)⟩

def restrict (m : OrderedMap κ ν) (keep : κ → Bool) : OrderedMap κ ν :=
  ⟨m.entries.filter fun e => keep e.1, m.nodup.sublist (List.filter_sublist.map _)⟩

@[simp] theorem lookup_empty (k : κ) : (empty : OrderedMap κ ν).lookup k = none := rfl

@[simp] theorem lookup_insert (m : OrderedMap κ ν) (k j : κ) (v : ν) :
    (m.insert k v).lookup j = if j = k then some v else m.lookup j :=
  lookup_rebind k j v m.entries

@[simp] theorem lookup_erase (m : OrderedMap κ ν) (k j : κ) :
    (m.erase k).lookup j = if j = k then none else m.lookup j := by
  rcases m with ⟨es, hes⟩
  simp only [lookup, erase]
  clear hes
  induction es with
  | nil => simp
  | cons e es ih =>
    rcases e with ⟨k', v'⟩
    by_cases hk : k' = k
    · subst hk
      rw [List.filter_cons_of_neg (by simp), ih, lookup_cons_ite]
      by_cases hj : j = k' <;> simp [hj]
    · rw [List.filter_cons_of_pos (by simp [hk]), lookup_cons_ite, lookup_cons_ite, ih]
      by_cases hj : j = k'
      · subst hj
        simp [hk]
      · simp [hj]

theorem lookup_eq_some_iff (m : OrderedMap κ ν) (k : κ) (v : ν) :
    m.lookup k = some v ↔ (k, v) ∈ m.entries := by
  rcases m with ⟨es, hes⟩
  simp only [lookup]
  induction es with
  | nil => simp
  | cons e es ih =>
    rcases e with ⟨k', v'⟩
    rw [List.map_cons, List.nodup_cons] at hes
    rw [lookup_cons_ite, List.mem_cons, Prod.mk.injEq]
    by_cases hk : k = k'
    · subst hk
      have hnew : (k, v) ∉ es := fun hmem => hes.1 (List.mem_map.mpr ⟨_, hmem, rfl⟩)
      simp [hnew, eq_comm]
    · simp [hk, ih hes.2]

theorem erase_comm (m : OrderedMap κ ν) (j k : κ) : (m.erase j).erase k = (m.erase k).erase j := by
  simp only [erase, List.filter_filter, Bool.and_comm]

theorem mem_keys_iff (m : OrderedMap κ ν) (k : κ) : k ∈ m.keys ↔ (m.lookup k).isSome := by
  simp only [keys, lookup, List.lookup_isSome_iff, List.mem_map, beq_iff_eq]
  constructor
  · rintro ⟨e, he, rfl⟩
    exact ⟨e, he, rfl⟩
  · rintro ⟨e, he, h⟩
    exact ⟨e, he, h.symm⟩

/-- Successive bindings of fresh, pairwise distinct keys are appended in order. -/
theorem entries_foldl_insert (ps : List (κ × ν)) (m : OrderedMap κ ν)
    (hnew : ∀ p ∈ ps, p.1 ∉ m.keys) (hps : (ps.map Prod.fst).Nodup) :
    (ps.foldl (fun m p => m.insert p.1 p.2) m).entries = m.entries ++ ps := by
  induction ps generalizing m with
  | nil => simp
  | cons p ps ih =>
    have hp : p.1 ∉ m.keys := hnew p (by simp)
    have hentries : (m.insert p.1 p.2).entries = m.entries ++ [p] :=
      rebind_of_not_mem p.1 p.2 m.entries hp
    simp only [List.map_cons, List.nodup_cons] at hps
    rw [List.foldl_cons, ih (m.insert p.1 p.2) ?_ hps.2, hentries]
    · simp
    · intro q hq
      have hne : q.1 ≠ p.1 := fun h => hps.1 (h ▸ List.mem_map_of_mem hq)
      have hm : q.1 ∉ m.keys := hnew q (by simp [hq])
      simpa [keys, hentries, hne] using hm

def ofBindings (ps : List (κ × ν)) : OrderedMap κ ν := ps.foldl (fun m p => m.insert p.1 p.2) empty

/-- After successive bindings a key has the last value bound to it. -/
theorem lookup_ofBindings (ps : List (κ × ν)) (k : κ) :
    (ofBindings ps).lookup k = ps.reverse.lookup k := by
  induction ps using List.reverseRecOn with
  | nil => rfl
  | append_singleton ps p ih =>
    rw [ofBindings, List.foldl_append, List.foldl_cons, List.foldl_nil, lookup_insert, ← ofBindings,
      ih, List.reverse_append, List.reverse_singleton, List.singleton_append, lookup_cons_ite]

theorem mem_rebind {k : κ} {v : ν} {es : List (κ × ν)} {e : κ × ν} (h : e ∈ rebind k v es) :
    e = (k, v) ∨ e ∈ es := by
  induction es with
  | nil => exact .inl (List.mem_singleton.mp h)
  | cons e' es ih =>
    rw [rebind] at h
    split_ifs at h
    · rcases List.mem_cons.mp h with rfl | h
      · exact .inl rfl
      · exact .inr (List.mem_cons_of_mem _ h)
    · rcases List.mem_cons.mp h with rfl | h
      · exact .inr List.mem_cons_self
      · exact (ih h).imp_right (List.mem_cons_of_mem _)

theorem mem_of_mem_ofBindings {ps : List (κ × ν)} {e : κ × ν}
    (h : e ∈ (ofBindings ps).entries) : e ∈ ps := by
  induction ps using List.reverseRecOn with
  | nil => exact h
  | append_singleton ps p ih =>
    rw [ofBindings, List.foldl_append, List.foldl_cons, List.foldl_nil] at h
    rcases mem_rebind h with rfl | h
    · exact List.mem_append_right _ List.mem_cons_self
    · exact List.mem_append_left _ (ih h)

theorem ofBindings_ne_nil {ps : List (κ × ν)} (hps : ps ≠ []) : (ofBindings ps).entries ≠ [] := by
  rcases List.exists_cons_of_ne_nil hps with ⟨p, rest, rfl⟩
  intro hnil
  have hlast := lookup_ofBindings (p :: rest) p.1
  have hbound : ((p :: rest).reverse.lookup p.1).isSome :=
    List.lookup_isSome_iff.mpr ⟨p, by simp, by simp⟩
  rw [lookup, hnil] at hlast
  exact absurd (hlast ▸ hbound) (by simp)

theorem entries_ofBindings (ps : List (κ × ν)) (hps : (ps.map Prod.fst).Nodup) :
    (ofBindings ps).entries = ps := by
  rw [ofBindings, entries_foldl_insert ps empty (by simp [keys, empty]) hps]
  rfl

section Related
variable {μ : Type*} {R : ν → μ → Prop}

/-- The same keys in the same order, with related values. -/
def Related (R : ν → μ → Prop) (m : OrderedMap κ ν) (m' : OrderedMap κ μ) : Prop :=
  List.Forall₂ (fun e e' => e.1 = e'.1 ∧ R e.2 e'.2) m.entries m'.entries

omit [DecidableEq κ] in
theorem related_empty : Related R (empty : OrderedMap κ ν) (empty : OrderedMap κ μ) := .nil

theorem Related.lookup {m : OrderedMap κ ν} {m' : OrderedMap κ μ} (h : Related R m m') (k : κ) :
    Option.Rel R (m.lookup k) (m'.lookup k) := by
  rw [Related] at h
  rw [OrderedMap.lookup, OrderedMap.lookup]
  generalize m.entries = es at h
  generalize m'.entries = es' at h
  induction h with
  | nil => exact .none
  | @cons e e' es es' he _ ih =>
    rcases e with ⟨k', v⟩
    rcases e' with ⟨_, v'⟩
    obtain ⟨rfl, hv⟩ := he
    rw [lookup_cons_ite, lookup_cons_ite]
    by_cases hk : k = k'
    · rw [if_pos hk, if_pos hk]
      exact .some hv
    · rwa [if_neg hk, if_neg hk]

theorem Related.insert {m : OrderedMap κ ν} {m' : OrderedMap κ μ} (h : Related R m m') (k : κ)
    {v : ν} {v' : μ} (hv : R v v') : Related R (m.insert k v) (m'.insert k v') := by
  rcases m with ⟨es, hes⟩
  rcases m' with ⟨es', hes'⟩
  simp only [Related, OrderedMap.insert] at h ⊢
  clear hes hes'
  induction h with
  | nil => exact .cons ⟨rfl, hv⟩ .nil
  | @cons e e' es es' he hrest ih =>
    rcases e with ⟨k', w⟩
    rcases e' with ⟨_, w'⟩
    obtain ⟨rfl, hw⟩ := he
    by_cases hk : k' = k
    · simpa only [rebind, if_pos hk] using List.Forall₂.cons ⟨rfl, hv⟩ hrest
    · simpa only [rebind, if_neg hk] using List.Forall₂.cons ⟨rfl, hw⟩ ih

omit [DecidableEq κ] in
theorem Related.restrict {m : OrderedMap κ ν} {m' : OrderedMap κ μ} (h : Related R m m')
    (keep : κ → Bool) : Related R (m.restrict keep) (m'.restrict keep) := by
  rcases m with ⟨es, hes⟩
  rcases m' with ⟨es', hes'⟩
  simp only [Related, OrderedMap.restrict] at h ⊢
  clear hes hes'
  induction h with
  | nil => exact .nil
  | @cons e e' es es' he _ ih =>
    simp only [List.filter_cons, ← he.1]
    by_cases hkeep : keep e.1 = true
    · rw [if_pos hkeep, if_pos hkeep]
      exact .cons he ih
    · rwa [if_neg hkeep, if_neg hkeep]

end Related

end OrderedMap

/-- Pairwise distinct members, in the order in which they were first added. -/
structure OrderedSet (κ : Type*) where
  members : List κ
  nodup : members.Nodup

namespace OrderedSet

def empty : OrderedSet κ := ⟨[], List.nodup_nil⟩

def add (s : OrderedSet κ) (k : κ) : OrderedSet κ :=
  if h : k ∈ s.members then s else
    ⟨s.members ++ [k], by
      rw [List.nodup_append]
      refine ⟨s.nodup, by simp, ?_⟩
      rintro a ha b hb rfl
      exact h (List.mem_singleton.mp hb ▸ ha)⟩

theorem mem_add (s : OrderedSet κ) (k j : κ) :
    j ∈ (s.add k).members ↔ j ∈ s.members ∨ j = k := by
  by_cases h : k ∈ s.members
  · simp only [add, h, dif_pos]
    exact ⟨Or.inl, fun hj => hj.elim id (fun hjk => hjk ▸ h)⟩
  · simp [add, h]

def ofList (xs : List κ) : OrderedSet κ := xs.foldl add empty

theorem mem_ofList (xs : List κ) (k : κ) : k ∈ (ofList xs).members ↔ k ∈ xs := by
  induction xs using List.reverseRecOn with
  | nil => rfl
  | append_singleton xs x ih =>
    rw [ofList, List.foldl_append, List.foldl_cons, List.foldl_nil, mem_add, ← ofList, ih]
    simp

end OrderedSet
end HyperDex.General
