import PauliEstimation.Proofs.Exact.OneQubit

namespace PauliEstimation

open Matrix

/-- A gate as a matrix on pairs of bits. -/
noncomputable def Gate.pairMatrix (u : Gate ℝ 4) : Matrix (Bool × Bool) (Bool × Bool) ℂ :=
  Matrix.of fun p q =>
    (u.entry (2 * p.1.toNat + p.2.toNat) (2 * q.1.toNat + q.2.toNat)).toComplex

/-- Factors that reproduce a block, with singular values of which a truncation drops only zeros. -/
structure Svd.IsLossless (trunc : Truncation ℝ) (f : Svd ℝ) (block : Block ℝ) : Prop where
  entry_eq : ∀ i < block.rows, ∀ j < block.cols, (block.entry i j).toComplex =
    ∑ m ∈ Finset.range f.values.length,
      (f.left.entry i m).toComplex * (f.values.getD m 0 : ℝ) * star (f.right.entry j m).toComplex
  nonneg : ∀ x ∈ f.values, 0 ≤ x
  descending : f.values.Pairwise (· ≥ ·)
  dropped_eq_zero : ∀ m, trunc.kept f.values ≤ m → f.values.getD m 0 = 0

theorem pair_lt (p q : Bool) : 2 * p.toNat + q.toNat < 4 := by
  cases p <;> cases q <;> decide

theorem pair_div (p q : Bool) : (2 * p.toNat + q.toNat) / 2 = p.toNat := by
  cases p <;> cases q <;> rfl

theorem pair_mod (p q : Bool) : (2 * p.toNat + q.toNat) % 2 = q.toNat := by
  cases p <;> cases q <;> rfl

theorem sum_range_four (g : Nat → ℂ) :
    ∑ q ∈ Finset.range 4, g q = ∑ x : Bool × Bool, g (2 * x.1.toNat + x.2.toNat) := by
  simp only [Fintype.sum_prod_type, Fintype.sum_bool, Finset.sum_range_succ, Finset.range_zero,
    Finset.sum_empty, Bool.toNat_true, Bool.toNat_false]
  ring

namespace Mps

/-- The entry of two neighbouring sites as one. -/
noncomputable def pairEntry (a b : Tensor ℝ) (l : Nat) (x : Bool × Bool) (r : Nat) : ℂ :=
  ∑ m ∈ Finset.range a.right,
    (a.entry l x.1.toNat m).toComplex * (b.entry m x.2.toNat r).toComplex

variable {a b : Tensor ℝ} {l r : Nat}

@[simp]
theorem contract_left (a b : Tensor ℝ) : (contract a b).left = a.left := rfl

@[simp]
theorem contract_right (a b : Tensor ℝ) : (contract a b).right = b.right := rfl

theorem toComplex_entry_contract (x : Bool × Bool) (hl : l < a.left) (hr : r < b.right) :
    ((contract a b).entry l (2 * x.1.toNat + x.2.toNat) r).toComplex = pairEntry a b l x r := by
  rw [contract, Tensor.entry_ofFn _ hl (pair_lt _ _) hr, Amplitude.toComplex_sumRange, pair_div,
    pair_mod]
  simp only [Amplitude.toComplex_mul, pairEntry]

theorem toComplex_entry_pairBlock (u : Gate ℝ 4) (x : Bool × Bool) (hl : l < a.left)
    (hr : r < b.right) :
    ((pairBlock u (contract a b)).entry (l * 2 + x.1.toNat)
        (x.2.toNat * b.right + r)).toComplex =
      ∑ y, u.pairMatrix x y * pairEntry a b l y r := by
  have hi : l * 2 + x.1.toNat < 2 * a.left := by
    have hx := x.1.toNat_lt
    omega
  have hj : x.2.toNat * b.right + r < 2 * b.right := rowMajor_lt x.2.toNat_lt hr
  simp only [pairBlock, contract_left, contract_right]
  rw [Block.entry_ofFn _ hi hj, Amplitude.toComplex_sumRange, sum_range_four]
  apply Finset.sum_congr rfl
  intro y _
  rw [rowMajor_div x.1.toNat_lt, rowMajor_mod x.1.toNat_lt, rowMajor_div hr, rowMajor_mod hr,
    Amplitude.toComplex_mul, toComplex_entry_contract y hl hr]
  rfl

/-- Sums of terms that vanish past either bound agree. -/
theorem sum_range_of_vanishing {g : Nat → ℂ} {m n : Nat} (hm : ∀ k, m ≤ k → g k = 0)
    (hn : ∀ k, n ≤ k → g k = 0) : ∑ k ∈ Finset.range m, g k = ∑ k ∈ Finset.range n, g k := by
  rw [← Finset.eventually_constant_sum hm (Nat.le_max_left m n),
    ← Finset.eventually_constant_sum hn (Nat.le_max_right m n)]

/-- Across their new bond the sites of a split make up the block. -/
theorem pairEntry_split {u : Gate ℝ 4} {f : Svd ℝ} {trunc : Truncation ℝ}
    (hf : f.IsLossless trunc (pairBlock u (contract a b))) (x : Bool × Bool) (hl : l < a.left)
    (hr : r < b.right) :
    pairEntry (splitLeft f a.left (trunc.kept f.values))
        (splitRight f (trunc.kept f.values) b.right) l x r =
      ∑ y, u.pairMatrix x y * pairEntry a b l y r := by
  have hi : l * 2 + x.1.toNat < (pairBlock u (contract a b)).rows := by
    have hx := x.1.toNat_lt
    show _ < 2 * a.left
    omega
  have hj : x.2.toNat * b.right + r < (pairBlock u (contract a b)).cols :=
    rowMajor_lt x.2.toNat_lt hr
  rw [← toComplex_entry_pairBlock u x hl hr, hf.entry_eq _ hi _ hj]
  calc
    _ = ∑ m ∈ Finset.range (trunc.kept f.values),
        (f.left.entry (l * 2 + x.1.toNat) m).toComplex * (f.values.getD m 0 : ℝ) *
          star (f.right.entry (x.2.toNat * b.right + r) m).toComplex := by
      apply Finset.sum_congr rfl
      intro m hm
      have hm' : m < trunc.kept f.values := Finset.mem_range.mp hm
      rw [splitLeft, splitRight, Tensor.entry_ofFn _ hl x.1.toNat_lt hm',
        Tensor.entry_ofFn _ hm' x.2.toNat_lt hr, Amplitude.toComplex_scale,
        Amplitude.toComplex_conj]
    _ = _ := by
      apply sum_range_of_vanishing
      · intro m hm
        rw [hf.dropped_eq_zero m hm, Complex.ofReal_zero, mul_zero, zero_mul]
      · intro m hm
        rw [List.getD_eq_getElem?_getD, List.getElem?_eq_none hm, Option.getD_none,
          Complex.ofReal_zero, mul_zero, zero_mul]

/-- Two neighbouring sites, followed by the rest of a chain. -/
theorem sum_pairEntry (x : Bool × Bool) (c : Nat → ℂ) :
    ∑ m ∈ Finset.range a.right, (a.entry l x.1.toNat m).toComplex *
        ∑ r ∈ Finset.range b.right, (b.entry m x.2.toNat r).toComplex * c r =
      ∑ r ∈ Finset.range b.right, pairEntry a b l x r * c r := by
  simp only [pairEntry, Finset.mul_sum, Finset.sum_mul]
  rw [Finset.sum_comm]
  exact Finset.sum_congr rfl fun r _ => Finset.sum_congr rfl fun m _ => (mul_assoc _ _ _).symm

theorem chainAmplitude_set_split {sites : List (Tensor ℝ)} {bond k l : Nat} {bits : List Bool}
    {x : Bool × Bool} {u : Gate ℝ 4} {f : Svd ℝ} {trunc : Truncation ℝ}
    (hf : f.IsLossless trunc (pairBlock u (contract a b))) (h : IsChain bond sites)
    (ha : sites[k]? = some a) (hb : sites[k + 1]? = some b) (hx₁ : bits[k]? = some x.1)
    (hx₂ : bits[k + 1]? = some x.2) (hl : l < bond) :
    chainAmplitude ((sites.set k (splitLeft f a.left (trunc.kept f.values))).set (k + 1)
        (splitRight f (trunc.kept f.values) b.right)) bits l =
      ∑ y, u.pairMatrix x y * chainAmplitude sites ((bits.set k y.1).set (k + 1) y.2) l := by
  induction sites generalizing bond k l bits with
  | nil => simp at ha
  | cons a₀ rest ih =>
    obtain ⟨hleft, _, _, _, hrest⟩ := h
    cases bits with
    | nil => simp at hx₁
    | cons p bits =>
      cases k with
      | zero =>
        obtain rfl : a₀ = a := by simpa using ha
        obtain rfl : p = x.1 := by simpa using hx₁
        match rest, bits with
        | [], _ => simp at hb
        | _ :: _, [] => simp at hx₂
        | b₀ :: rest, q :: bits =>
          obtain rfl : b₀ = b := by simpa using hb
          obtain rfl : q = x.2 := by simpa using hx₂
          -- the bond inside the pair is summed first, so that only entries of pairs remain
          simp only [List.set_cons_zero, List.set_cons_succ, chainAmplitude, sum_pairEntry]
          have hright : (splitRight f (trunc.kept f.values) b₀.right).right = b₀.right := rfl
          simp only [hright, Finset.mul_sum]
          rw [Finset.sum_comm]
          apply Finset.sum_congr rfl
          intro r hr
          rw [pairEntry_split hf x (by omega) (Finset.mem_range.mp hr), Finset.sum_mul]
          exact Finset.sum_congr rfl fun y _ => mul_assoc _ _ _
      | succ k =>
        simp only [List.set_cons_succ, chainAmplitude, Finset.mul_sum]
        rw [Finset.sum_comm]
        apply Finset.sum_congr rfl
        intro r hr
        rw [ih hrest (by simpa using ha) (by simpa using hb) (by simpa using hx₁)
          (by simpa using hx₂) (Finset.mem_range.mp hr), Finset.mul_sum]
        exact Finset.sum_congr rfl fun y _ => mul_left_comm _ _ _

theorem isChain_set_split {sites : List (Tensor ℝ)} {bond k : Nat} (f : Svd ℝ)
    (trunc : Truncation ℝ) (h : IsChain bond sites) (ha : sites[k]? = some a)
    (hb : sites[k + 1]? = some b) :
    IsChain bond ((sites.set k (splitLeft f a.left (trunc.kept f.values))).set (k + 1)
      (splitRight f (trunc.kept f.values) b.right)) := by
  induction sites generalizing bond k with
  | nil => simp at ha
  | cons a₀ rest ih =>
    obtain ⟨hleft, hphys, hright, hcells, hrest⟩ := h
    cases k with
    | zero =>
      obtain rfl : a₀ = a := by simpa using ha
      cases rest with
      | nil => simp at hb
      | cons b₀ rest =>
        obtain rfl : b₀ = b := by simpa using hb
        obtain ⟨_, _, hright₀, _, hrest₀⟩ := hrest
        exact ⟨hleft, rfl, Nat.lt_of_lt_of_le Nat.one_pos (trunc.one_le_kept _),
          by simp [splitLeft, Tensor.ofFn], rfl, rfl, hright₀,
          by simp [splitRight, Tensor.ofFn], hrest₀⟩
    | succ k => exact ⟨hleft, hphys, hright, hcells, ih hrest (by simpa using ha) (by simpa using hb)⟩

end Mps

/-- A gate on two qubits of a state, the first of which stands for the gate's own first qubit. -/
noncomputable def Gate.onPair {n : Nat} (u : Gate ℝ 4) (i j : Fin n) (v : (Fin n → Bool) → ℂ) :
    (Fin n → Bool) → ℂ := fun c =>
  ∑ x : Bool × Bool, u.pairMatrix (c i, c j) x *
    v (Function.update (Function.update c i x.1) j x.2)

theorem Gate.pairMatrix_swapped (u : Gate ℝ 4) (x y : Bool × Bool) :
    u.swapped.pairMatrix x y = u.pairMatrix x.swap y.swap := by
  obtain ⟨p, q⟩ := x
  obtain ⟨p', q'⟩ := y
  cases p <;> cases q <;> cases p' <;> cases q' <;> rfl

/-- Exchanging the roles of a gate's qubits undoes an exchange of the qubits it is put on. -/
theorem Gate.onPair_swapped {n : Nat} (u : Gate ℝ 4) {i j : Fin n} (h : i ≠ j)
    (v : (Fin n → Bool) → ℂ) : u.swapped.onPair j i v = u.onPair i j v := by
  funext c
  unfold Gate.onPair
  rw [← (Equiv.prodComm Bool Bool).sum_comp]
  apply Finset.sum_congr rfl
  intro x _
  rw [pairMatrix_swapped, Equiv.prodComm_apply, Prod.swap_swap, Function.update_comm h]
  rfl

namespace Mps

theorem amplitude_set_split {psi : Mps ℝ} {n : Nat} {i j : Fin n} {a b : Tensor ℝ} {u : Gate ℝ 4}
    {f : Svd ℝ} {trunc : Truncation ℝ}
    (hf : f.IsLossless trunc (pairBlock u (contract a b))) (h : psi.WellFormed)
    (hij : i.val + 1 = j.val) (ha : psi.sites[i.val]? = some a) (hb : psi.sites[j.val]? = some b) :
    (⟨(psi.sites.set i (splitLeft f a.left (trunc.kept f.values))).set j
        (splitRight f (trunc.kept f.values) b.right)⟩ : Mps ℝ).amplitude =
      u.onPair i j psi.amplitude := by
  obtain ⟨j, hj⟩ := j
  obtain rfl : i.val + 1 = j := hij
  funext c
  have hbits : ∀ y : Bool × Bool, ((List.ofFn c).set i y.1).set (i + 1) y.2 =
      List.ofFn (Function.update (Function.update c i y.1) ⟨i + 1, hj⟩ y.2) := by
    intro y
    rw [set_ofFn]
    exact set_ofFn _ ⟨i + 1, hj⟩ y.2
  rw [amplitude, chainAmplitude_set_split (x := (c i, c ⟨i + 1, hj⟩)) hf h ha hb (by simp)
    (by simp [hj]) Nat.one_pos]
  simp only [hbits]
  rfl

end Mps

end PauliEstimation
