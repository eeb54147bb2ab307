import PauliEstimation.Proofs.QubitMap
import PauliEstimation.Proofs.Register.Layout

namespace PauliEstimation

variable {R : Type}

namespace PauliString

/-- The factors of an observable by the positions of its qubits. -/
def siteFactors (qubits : List Qubit) (observable : PauliString R) : List (Nat × Pauli) :=
  observable.factors.toList.map fun f => (qubits.idxOf f.1, f.2)

variable {qubits : List Qubit} {observable : PauliString R}

theorem map_fst_siteFactors :
    (observable.siteFactors qubits).map Prod.fst = observable.qubits.map qubits.idxOf := by
  rw [siteFactors, List.map_map, PauliString.qubits, QubitMap.keys, List.map_map]
  rfl

theorem nodup_siteFactors (hsub : ∀ q ∈ observable.qubits, q ∈ qubits) :
    ((observable.siteFactors qubits).map Prod.fst).Nodup := by
  rw [map_fst_siteFactors]
  exact List.Nodup.map_on (fun p hp q _ h => (List.idxOf_inj (hsub p hp)).mp h)
    observable.factors.nodup_keys

theorem siteFactors_lt (hsub : ∀ q ∈ observable.qubits, q ∈ qubits) :
    ∀ f ∈ observable.siteFactors qubits, f.1 < qubits.length := by
  intro f hf
  have hm : f.1 ∈ (observable.siteFactors qubits).map Prod.fst := List.mem_map_of_mem hf
  rw [map_fst_siteFactors] at hm
  obtain ⟨q, hq, he⟩ := List.mem_map.mp hm
  rw [← he]
  exact List.idxOf_lt_length_of_mem (hsub q hq)

/-- The factor at a site is the one on its qubit. -/
theorem lookup_siteFactors {k : Nat} {q : Qubit} (hn : qubits.Nodup)
    (hsub : ∀ q ∈ observable.qubits, q ∈ qubits) (hq : qubits[k]? = some q) :
    (observable.siteFactors qubits).lookup k = observable.get? q := by
  have hk : qubits.idxOf q = k := by
    obtain ⟨hlt, rfl⟩ := List.getElem?_eq_some_iff.mp hq
    exact hn.idxOf_getElem k hlt
  cases ha : observable.get? q with
  | some axis =>
    apply lookup_of_mem (nodup_siteFactors hsub)
    exact List.mem_map.mpr ⟨(q, axis), QubitMap.get?_eq_some_iff.mp ha, by rw [hk]⟩
  | none =>
    apply lookup_eq_none_of_notMem
    rw [map_fst_siteFactors]
    intro hm
    obtain ⟨p, hp, he⟩ := List.mem_map.mp hm
    have hpq : p = q := (List.idxOf_inj (hsub p hp)).mp (he.trans hk.symm)
    obtain ⟨axis, haxis⟩ := QubitMap.mem_keys_iff.mp (hpq ▸ hp)
    exact Option.some_ne_none axis (haxis.symm.trans ha)

end PauliString

theorem Register.factors?_eq_ok {r : Register R} {observable : PauliString R}
    (h : r.WellFormed) (hsub : ∀ q ∈ observable.qubits, q ∈ r.qubits) :
    r.factors? observable = .ok (observable.siteFactors r.qubits) := by
  apply mapM_eq_ok_iff.mpr
  rw [PauliString.siteFactors, List.forall₂_map_right_iff, List.forall₂_same]
  intro f hf
  have hq : f.1 ∈ r.qubits := hsub f.1 (List.mem_map_of_mem hf)
  rw [site?_of_getElem? h (List.getElem?_idxOf hq)]
  rfl

end PauliEstimation
