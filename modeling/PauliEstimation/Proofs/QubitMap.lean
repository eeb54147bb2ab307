import Mathlib.Data.List.Sort
import PauliEstimation.QubitMap

namespace PauliEstimation

theorem Qubit.nodup_of_ascending {qubits : List Qubit} (h : qubits.Pairwise (· < ·)) :
    qubits.Nodup := by
  apply h.imp
  intro p q hlt he
  exact Qubit.lt_irrefl q (he ▸ hlt)

/-- Ascending lists of the same members are equal. -/
theorem Qubit.eq_of_ascending {xs ys : List Qubit} (hx : xs.Pairwise (· < ·))
    (hy : ys.Pairwise (· < ·)) (h : ∀ q, q ∈ xs ↔ q ∈ ys) : xs = ys := by
  have : Std.Irrefl (α := Qubit) (· < ·) := ⟨lt_irrefl⟩
  have : Std.Antisymm (α := Qubit) (· < ·) :=
    ⟨fun p _ hpq hqp => absurd (lt_trans hpq hqp) (lt_irrefl p)⟩
  exact hx.eq_of_mem_iff hy h

/-- Only the members of a list count for its ascending form. -/
theorem Qubit.ascending_perm {xs ys : List Qubit} (h : xs.Perm ys) :
    ascending xs = ascending ys := by
  refine eq_of_ascending (pairwise_ascending xs) (pairwise_ascending ys) fun q => ?_
  rw [mem_ascending, mem_ascending]
  exact h.mem_iff

theorem Qubit.ascending_of_pairwise {xs : List Qubit} (h : xs.Pairwise (· < ·)) :
    ascending xs = xs :=
  eq_of_ascending (pairwise_ascending xs) h fun _ => mem_ascending

namespace QubitMap

variable {α : Type}

theorem get?_foldl_insert_of_notMem {es : List (Qubit × α)} {m : QubitMap α} {q : Qubit}
    (h : q ∉ es.map Prod.fst) :
    (es.foldl (fun m e => m.insert e.1 e.2) m).get? q = m.get? q := by
  induction es generalizing m with
  | nil => rfl
  | cons e rest ih =>
    obtain ⟨he, hrest⟩ := not_or.mp (mt List.mem_cons.mpr h)
    rw [List.foldl_cons, ih hrest, get?_insert, if_neg (Ne.symm he)]

/-- Without repetitions every listed value is found. -/
theorem get?_ofList_of_mem {es : List (Qubit × α)} (hn : (es.map Prod.fst).Nodup) {q : Qubit}
    {a : α} (h : (q, a) ∈ es) : (ofList es).get? q = some a := by
  unfold ofList
  generalize empty = m
  induction es generalizing m with
  | nil => simp at h
  | cons e rest ih =>
    obtain ⟨he, hrest⟩ := List.nodup_cons.mp hn
    rw [List.foldl_cons]
    rcases List.mem_cons.mp h with rfl | hm
    · rw [get?_foldl_insert_of_notMem he, get?_insert, if_pos rfl]
    · exact ih hrest hm _

/-- A list that gives all its qubits one value. -/
theorem get?_ofList_const (qubits : List Qubit) (a : α) (q : Qubit) :
    (ofList (qubits.map (·, a))).get? q = if q ∈ qubits then some a else none := by
  unfold ofList
  rw [← get?_empty (α := α) q]
  generalize empty = m
  induction qubits generalizing m with
  | nil => simp
  | cons p rest ih =>
    rw [List.map_cons, List.foldl_cons, ih, get?_insert]
    by_cases hq : p = q
    · simp [hq]
    · simp [hq, Ne.symm hq]

theorem nodup_keys (m : QubitMap α) : m.keys.Nodup := by
  apply List.pairwise_map.mpr
  apply m.ascending.imp
  intro e f hlt he
  exact Qubit.lt_irrefl f.1 (he ▸ hlt)

@[simp] theorem ofList_toList (m : QubitMap α) : ofList m.toList = m := by
  refine ext_get? fun q => ?_
  cases hm : m.get? q with
  | some a => exact get?_ofList_of_mem m.nodup_keys (get?_eq_some_iff.mp hm)
  | none =>
    refine get?_foldl_insert_of_notMem fun hq => ?_
    obtain ⟨a, ha⟩ := mem_keys_iff.mp hq
    cases hm.symm.trans ha

theorem length_insertEntry {q : Qubit} {a : α} {es : List (Qubit × α)}
    (h : findEntry q es = none) : (insertEntry q a es).length = es.length + 1 := by
  induction es with
  | nil => rfl
  | cons e rest ih =>
    have hne : e.1 ≠ q := by
      intro he
      simp [findEntry, he] at h
    rw [findEntry, if_neg hne] at h
    unfold insertEntry
    split
    next => rfl
    next hlt =>
      split
      next => rw [List.length_cons, List.length_cons, ih h]
      next hgt => exact absurd (Qubit.eq_of_not_lt hgt hlt) hne

theorem size_foldl_insert {es : List (Qubit × α)} {m : QubitMap α} (hn : (es.map Prod.fst).Nodup)
    (hm : ∀ q ∈ es.map Prod.fst, m.get? q = none) :
    (es.foldl (fun m e => m.insert e.1 e.2) m).size = m.size + es.length := by
  induction es generalizing m with
  | nil => rfl
  | cons e rest ih =>
    obtain ⟨he, hrest⟩ := List.nodup_cons.mp hn
    obtain ⟨hfresh, hlater⟩ := List.forall_mem_cons.mp hm
    have hinsert : (m.insert e.1 e.2).size = m.size + 1 := length_insertEntry hfresh
    have hnone : ∀ q ∈ rest.map Prod.fst, (m.insert e.1 e.2).get? q = none := by
      intro q hq
      have hne : e.1 ≠ q := fun heq => he (heq ▸ hq)
      rw [get?_insert, if_neg hne, hlater q hq]
    rw [List.foldl_cons, ih hrest hnone, hinsert, List.length_cons]
    omega

theorem size_ofList {es : List (Qubit × α)} (h : (es.map Prod.fst).Nodup) :
    (ofList es).size = es.length := by
  rw [ofList, size_foldl_insert h fun _ _ => rfl]
  exact Nat.zero_add _

end QubitMap

end PauliEstimation
