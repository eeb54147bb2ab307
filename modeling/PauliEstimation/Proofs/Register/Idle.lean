import PauliEstimation.Proofs.Exact.PauliPower
import PauliEstimation.Proofs.Register.Steps

namespace PauliEstimation

namespace Tensor

/-- A tensor is the one with its entries. -/
theorem ofFn_eq_self {R : Type} [Scalar R] {t : Tensor R} {f : Nat → Nat → Nat → Amplitude R}
    (h : t.cells.size = t.left * t.phys * t.right)
    (hf : ∀ l < t.left, ∀ p < t.phys, ∀ r < t.right, f l p r = t.entry l p r) :
    ofFn t.left t.phys t.right f = t := by
  have hcells : (Array.ofFn fun k : Fin (t.left * t.phys * t.right) =>
      f (k / t.right / t.phys) (k / t.right % t.phys) (k % t.right)) = t.cells := by
    apply Array.ext (by simp [h])
    intro k _ hk
    obtain ⟨hrow, hr⟩ := lt_of_lt_rowMajor (h ▸ hk)
    obtain ⟨hl, hp⟩ := lt_of_lt_rowMajor hrow
    have hoffset : t.offset (k / t.right / t.phys) (k / t.right % t.phys) (k % t.right) = k := by
      rw [offset, Nat.div_add_mod', Nat.div_add_mod']
    rw [Array.getElem_ofFn, hf _ hl _ hp _ hr, entry, hoffset]
    simp [Array.getD_eq_getD_getElem?, hk]
  rw [ofFn, hcells]

/-- A gate whose matrix is the identity leaves a site as it is. -/
theorem rotate_of_matrix_one {t : Tensor ℝ} {u : Gate ℝ 2} (hu : u.matrix = 1)
    (hphys : t.phys = 2) (h : t.cells.size = t.left * t.phys * t.right) : t.rotate u = t := by
  refine ofFn_eq_self h fun l hl p hp r hr => Amplitude.toComplex_injective ?_
  obtain ⟨b, rfl⟩ : ∃ b : Bool, p = b.toNat := by
    rcases (by omega : p = 0 ∨ p = 1) with rfl | rfl
    · exact ⟨false, rfl⟩
    · exact ⟨true, rfl⟩
  have hentry (q : Bool) : (u.entry b.toNat q.toNat).toComplex = if b = q then 1 else 0 := by
    rw [← Gate.matrix_apply, hu, Matrix.one_apply]
  have hzero : (u.entry b.toNat 0).toComplex = if b = false then 1 else 0 := hentry false
  have hone : (u.entry b.toNat 1).toComplex = if b = true then 1 else 0 := hentry true
  rw [Amplitude.toComplex_add, Amplitude.toComplex_mul, Amplitude.toComplex_mul, hzero, hone]
  cases b <;> simp

end Tensor

theorem Mps.isChain_site {R : Type} [Scalar R] {sites : List (Tensor R)} {bond k : Nat}
    {a : Tensor R} (h : IsChain bond sites) (ha : sites[k]? = some a) :
    a.phys = 2 ∧ a.cells.size = a.left * a.phys * a.right := by
  induction sites generalizing bond k with
  | nil => simp at ha
  | cons b rest ih =>
    obtain ⟨_, hphys, _, hsize, hrest⟩ := h
    cases k with
    | zero =>
      obtain rfl : b = a := by simpa using ha
      exact ⟨hphys, hsize⟩
    | succ k => exact ih hrest (by simpa using ha)

namespace Register

variable {R : Type} [Scalar R] [ThinSvd R] {r : Register R}

/-- A run of operations that leave a register as it is leaves it as it is. -/
theorem applyAll_of_idle {ops : List (Operation R)}
    (h : ∀ op ∈ ops, ∃ sites, r.step? op = .ok (r, sites)) : r.applyAll ops = (r, none) := by
  induction ops with
  | nil => rfl
  | cons op ops ih =>
    obtain ⟨⟨sites, hstep⟩, hrest⟩ := List.forall_mem_cons.mp h
    rw [applyAll, hstep]
    exact ih hrest

theorem WellFormed.step?_power_zero [ThinSvd ℝ] {r : Register ℝ} (h : r.WellFormed) {q : Qubit}
    (hq : q ∈ r.qubits) (axis : Pauli) :
    ∃ sites, r.step? (.power axis q (.value 0)) = .ok (r, sites) := by
  obtain ⟨k, hk⟩ := List.mem_iff_getElem?.mp hq
  obtain ⟨a, ha⟩ := h.exists_site (List.getElem?_eq_some_iff.mp hk).1
  refine ⟨[k], ?_⟩
  obtain ⟨hphys, hsize⟩ := Mps.isChain_site h.state ha
  have hstep := applyOne?_of_getElem? (Gate.power axis 0) h hk ha
  obtain ⟨hlt, hsite⟩ := List.getElem?_eq_some_iff.mp ha
  have hset : r.state.sites.set k a = r.state.sites := by
    rw [← hsite, List.set_getElem_self]
  rw [Tensor.rotate_of_matrix_one (Gate.matrix_power_zero axis) hphys hsize, hset] at hstep
  exact hstep

end Register

end PauliEstimation
