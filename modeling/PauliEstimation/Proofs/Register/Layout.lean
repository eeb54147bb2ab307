import PauliEstimation.Proofs.Mps.Shape
import PauliEstimation.Proofs.QubitMap
import PauliEstimation.Proofs.Traversal
import PauliEstimation.Register

namespace PauliEstimation

namespace Register

variable {R : Type}

structure WellFormed (r : Register R) : Prop where
  ascending : r.qubits.Pairwise (· < ·)
  size_eq : r.state.size = r.qubits.length
  state : r.state.WellFormed

theorem wellFormed_ofQubits [Scalar R] (qubits : List Qubit) (trunc : Truncation R) :
    (ofQubits qubits trunc).WellFormed :=
  ⟨Qubit.pairwise_ascending qubits, List.length_replicate, Mps.wellFormed_zero _⟩

variable {r : Register R}

theorem WellFormed.nodup (h : r.WellFormed) : r.qubits.Nodup := Qubit.nodup_of_ascending h.ascending

theorem site?_eq_ok_iff {q : Qubit} {k : Nat} :
    r.site? q = .ok k ↔ k < r.qubits.length ∧ r.qubits.idxOf q = k := by
  have hiff : r.qubits.idxOf? q = some k ↔ k < r.qubits.length ∧ r.qubits.idxOf q = k :=
    List.findIdx?_eq_some_iff_findIdx_eq
  rw [← hiff]
  unfold site?
  split
  next k' hk' => simp [hk']
  next hn => simp [hn]

theorem site?_of_getElem? {q : Qubit} {k : Nat} (h : r.WellFormed) (hq : r.qubits[k]? = some q) :
    r.site? q = .ok k := by
  obtain ⟨hlt, rfl⟩ := List.getElem?_eq_some_iff.mp hq
  exact site?_eq_ok_iff.mpr ⟨hlt, h.nodup.idxOf_getElem k hlt⟩

/-- A gate on a qubit of the register rotates the tensor of its site. -/
theorem applyOne?_of_getElem? [Scalar R] {q : Qubit} {k : Nat} {a : Tensor R} (u : Gate R 2)
    (h : r.WellFormed) (hq : r.qubits[k]? = some q) (ha : r.state.sites[k]? = some a) :
    r.applyOne? q u = .ok ({ r with state := ⟨r.state.sites.set k (a.rotate u)⟩ }, [k]) := by
  unfold applyOne?
  rw [site?_of_getElem? h hq]
  simp only [bind, Except.bind, Mps.applyOne?_of_getElem? u ha]
  rfl

theorem WellFormed.set_rotate [Scalar R] {k : Nat} {a : Tensor R} (u : Gate R 2)
    (h : r.WellFormed) (ha : r.state.sites[k]? = some a) :
    WellFormed { r with state := ⟨r.state.sites.set k (a.rotate u)⟩ } where
  ascending := h.ascending
  size_eq := by
    rw [← h.size_eq]
    exact List.length_set
  state := Mps.isChain_set_rotate u h.state ha

theorem WellFormed.exists_site {k : Nat} (h : r.WellFormed) (hk : k < r.qubits.length) :
    ∃ a, r.state.sites[k]? = some a := by
  have hlt : k < r.state.sites.length := by
    have hsize := h.size_eq
    unfold Mps.size at hsize
    omega
  exact ⟨_, List.getElem?_eq_getElem hlt⟩

end Register

end PauliEstimation
