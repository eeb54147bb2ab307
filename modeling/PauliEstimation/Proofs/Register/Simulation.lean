import PauliEstimation.Proofs.Exact.DenseCircuit
import PauliEstimation.Proofs.Exact.Layer

namespace PauliEstimation

open Matrix

/-- The block that a gate on two neighbouring sites leaves to be factored. -/
def Mps.block? {R : Type} [Scalar R] (psi : Mps R) (k : Nat) (u : Gate R 4) :
    Option (Block R) := do
  return pairBlock u (contract (← psi.sites[k]?) (← psi.sites[k + 1]?))

/-- A split pair of sites has the amplitudes of the gate on the two bits. -/
theorem Mps.applyPair?_acts [ThinSvd ℝ] {psi psi' : Mps ℝ} {n : Nat} {i j : Fin n} {u : Gate ℝ 4}
    {trunc : Truncation ℝ} (hij : i.val + 1 = j.val) (h : psi.WellFormed)
    (hf : ∀ block, psi.block? i u = some block →
      (ThinSvd.factor block).IsLossless trunc block)
    (hp : psi.applyPair? i u trunc = .ok psi') :
    psi'.WellFormed ∧ psi'.size = psi.size ∧
      (psi'.amplitude : (Fin n → Bool) → ℂ) = u.onPair i j psi.amplitude := by
  obtain ⟨a, ha, hp⟩ := bind_eq_ok_iff.mp hp
  obtain ⟨b, hb, hp⟩ := bind_eq_ok_iff.mp hp
  have ha := getElem?_of_site? ha
  have hb := getElem?_of_site? hb
  have hlossless := hf (pairBlock u (contract a b)) (by simp [block?, ha, hb])
  obtain rfl := Except.ok.inj hp
  refine ⟨isChain_set_split _ trunc h ha hb, by simp [size], ?_⟩
  have hamp := amplitude_set_split hlossless h hij ha (hij ▸ hb)
  rwa [← hij] at hamp

namespace Register

variable {R : Type} [Scalar R]

/-- The block that a two-qubit gate leaves to be factored, if its qubits are neighbours. -/
def pairBlock? (r : Register R) (a b : Qubit) (u : Gate R 4) : Option (Block R) :=
  match r.site? a, r.site? b with
  | .ok i, .ok j =>
    if i + 1 = j then r.state.block? i u
    else if j + 1 = i then r.state.block? j u.swapped
    else none
  | _, _ => none

/-- The block that an operation leaves to be factored. -/
def block? (r : Register R) : Operation R → Option (Block R)
  | .cnot c t => r.pairBlock? c t Gate.cnot
  | .cz a b => r.pairBlock? a b Gate.cz
  | _ => none

/-- Every block that is factored in a run over operations is reproduced by its factors, of which the
truncation drops only zeros. -/
def Lossless [ThinSvd ℝ] (r : Register ℝ) : List (Operation ℝ) → Prop
  | [] => True
  | op :: ops =>
    (∀ block, r.block? op = some block → (ThinSvd.factor block).IsLossless r.trunc block) ∧
      ∀ r' sites, r.step? op = .ok (r', sites) → Lossless r' ops

/-- Nothing is factored where there are no pairs. -/
theorem lossless_of_unpaired [ThinSvd ℝ] {ops : List (Operation ℝ)}
    (h : ∀ op ∈ ops, ∀ r : Register ℝ, r.block? op = none) (r : Register ℝ) : r.Lossless ops := by
  induction ops generalizing r with
  | nil => trivial
  | cons op ops ih =>
    obtain ⟨hop, hops⟩ := List.forall_mem_cons.mp h
    refine ⟨fun block hblock => ?_, fun r' _ _ => ih hops r'⟩
    cases (hop r).symm.trans hblock

variable {r r' : Register ℝ} {sites : List Nat}

theorem exists_of_site? {q : Qubit} {k : Nat} (h : r.site? q = .ok k) :
    ∃ i : Fin r.qubits.length, i.val = k ∧ r.qubits.get i = q := by
  obtain ⟨hlt, rfl⟩ := site?_eq_ok_iff.mp h
  exact ⟨⟨_, hlt⟩, rfl, List.getElem_idxOf hlt⟩

/-- The register after an operation is well formed and has the amplitudes `v`. -/
def Becomes (r r' : Register ℝ) (v : (Fin r.qubits.length → Bool) → ℂ) : Prop :=
  ∃ state, r' = { r with state := state } ∧ WellFormed { r with state := state } ∧
    amplitude { r with state := state } = v

theorem applyPair?_becomes [ThinSvd ℝ] {a b : Qubit} {u : Gate ℝ 4} (h : r.WellFormed)
    (hf : ∀ block, r.pairBlock? a b u = some block →
      (ThinSvd.factor block).IsLossless r.trunc block)
    (hr : r.applyPair? a b u = .ok (r', sites)) :
    ∃ i j : Fin r.qubits.length, i ≠ j ∧ r.qubits.get i = a ∧ r.qubits.get j = b ∧
      r.Becomes r' (u.onPair i j r.amplitude) := by
  obtain ⟨i, hi, hr⟩ := bind_eq_ok_iff.mp hr
  obtain ⟨j, hj, hr⟩ := bind_eq_ok_iff.mp hr
  simp only [pairBlock?, hi, hj] at hf
  obtain ⟨i, rfl, ha⟩ := exists_of_site? hi
  obtain ⟨j, rfl, hb⟩ := exists_of_site? hj
  by_cases hij : i.val + 1 = j.val
  · rw [if_pos hij] at hr
    simp only [hij, if_true] at hf
    obtain ⟨state, hp, hr⟩ := bind_eq_ok_iff.mp hr
    obtain ⟨hstate, hsize, hamp⟩ := Mps.applyPair?_acts hij h.state hf hp
    cases hr
    exact ⟨i, j, Fin.ne_of_val_ne (by omega), ha, hb, state, rfl,
      ⟨h.ascending, hsize.trans h.size_eq, hstate⟩, hamp⟩
  · by_cases hji : j.val + 1 = i.val
    · rw [if_neg hij, if_pos hji] at hr
      simp only [hij, hji, if_false, if_true] at hf
      obtain ⟨state, hp, hr⟩ := bind_eq_ok_iff.mp hr
      obtain ⟨hstate, hsize, hamp⟩ := Mps.applyPair?_acts hji h.state hf hp
      have hne : i ≠ j := Fin.ne_of_val_ne (by omega)
      rw [Gate.onPair_swapped u hne] at hamp
      cases hr
      exact ⟨i, j, hne, ha, hb, state, rfl,
        ⟨h.ascending, hsize.trans h.size_eq, hstate⟩, hamp⟩
    · rw [if_neg hij, if_neg hji] at hr
      cases hr

theorem applyOne?_becomes {q : Qubit} {u : Gate ℝ 2} (h : r.WellFormed)
    (hr : r.applyOne? q u = .ok (r', sites)) :
    ∃ i : Fin r.qubits.length, r.qubits.get i = q ∧
      r.Becomes r' (kron (Function.update 1 i u.matrix) *ᵥ r.amplitude) := by
  obtain ⟨k, hk, _⟩ := bind_eq_ok_iff.mp hr
  obtain ⟨i, rfl, hq⟩ := exists_of_site? hk
  obtain ⟨a, ha⟩ := h.exists_site i.isLt
  have hq' : r.qubits[i.val]? = some q :=
    (List.getElem?_eq_getElem i.isLt).trans (congrArg some hq)
  have hrotate := applyOne?_of_getElem? u h hq' ha
  cases hr.symm.trans hrotate
  exact ⟨i, hq, _, rfl, h.set_rotate u ha, Mps.amplitude_set_rotate u h.state ha⟩

/-- An operation acts on the amplitudes as its matrix. -/
theorem step?_becomes [ThinSvd ℝ] {op : Operation ℝ} (h : r.WellFormed)
    (hf : ∀ block, r.block? op = some block → (ThinSvd.factor block).IsLossless r.trunc block)
    (hr : r.step? op = .ok (r', sites)) :
    r.Becomes r' (op.matrix r.qubits *ᵥ r.amplitude) := by
  cases op with
  | power axis q e =>
    obtain ⟨t, ht, hr⟩ := bind_eq_ok_iff.mp hr
    cases e with
    | symbol name => cases ht
    | value t' =>
      cases ht
      obtain ⟨i, rfl, hbecomes⟩ := applyOne?_becomes h hr
      rwa [Operation.matrix_power_get h.nodup]
  | hadamard q =>
    obtain ⟨i, rfl, hbecomes⟩ := applyOne?_becomes h hr
    rwa [Operation.matrix_hadamard_get h.nodup]
  | cnot c t =>
    obtain ⟨i, j, hne, rfl, rfl, hbecomes⟩ := applyPair?_becomes h hf hr
    rwa [Operation.matrix_cnot_get_mulVec h.nodup hne]
  | cz a b =>
    obtain ⟨i, j, _, rfl, rfl, hbecomes⟩ := applyPair?_becomes h hf hr
    rwa [Operation.matrix_cz_get_mulVec h.nodup]
  | measure qs key =>
    cases hr
    exact ⟨r.state, rfl, h, (Matrix.one_mulVec _).symm⟩

/-- A run over operations acts as their matrices, one after the other. -/
theorem applyAll_becomes [ThinSvd ℝ] {ops : List (Operation ℝ)} (h : r.WellFormed)
    (hf : r.Lossless ops) (hr : r.applyAll ops = (r', none)) :
    r.Becomes r' (ops.foldl (fun v op => op.matrix r.qubits *ᵥ v) r.amplitude) := by
  induction ops generalizing r with
  | nil =>
    cases hr
    exact ⟨_, rfl, h, rfl⟩
  | cons op ops ih =>
    obtain ⟨hblock, hrest⟩ := hf
    rw [applyAll] at hr
    split at hr
    next r₁ sites hstep =>
      obtain ⟨state, rfl, hstate, hamp⟩ := step?_becomes h hblock hstep
      obtain ⟨state', hr', hstate', hamp'⟩ := ih hstate (hrest _ _ hstep) hr
      refine ⟨state', hr', hstate', ?_⟩
      rw [hamp', hamp]
      rfl
    next => cases hr

/-- All zeros. -/
theorem amplitude_ofQubits (qubits : List Qubit) (trunc : Truncation ℝ) :
    (ofQubits qubits trunc).amplitude = Pi.single (fun _ => false) 1 := by
  funext b
  rw [Pi.single_apply]
  exact Mps.amplitude_zero b

end Register

/-- The amplitudes that are listed after a circuit are those of its dense vector, the first of the
ascending qubits being the most significant. -/
theorem stateVector_eq_denseVector [ThinSvd ℝ] (qubits : List Qubit) (trunc : Truncation ℝ)
    (c : Circuit ℝ) (r : Register ℝ)
    (hrun : (Register.ofQubits qubits trunc).applyCircuit c = (r, none))
    (hlossless : (Register.ofQubits qubits trunc).Lossless c.operations) :
    let labels := Qubit.ascending qubits
    r.qubits = labels ∧ r.state.stateVector.size = 2 ^ labels.length ∧
      ∀ i < 2 ^ labels.length, (r.state.stateVector.getD i 0).toComplex =
        c.denseVector labels (Mps.bitsOf labels.length i) := by
  intro labels
  obtain ⟨state, rfl, hstate, hamp⟩ :=
    Register.applyAll_becomes (Register.wellFormed_ofQubits qubits trunc) hlossless hrun
  have hsize : state.size = labels.length := hstate.size_eq
  rw [Register.amplitude_ofQubits] at hamp
  refine ⟨rfl, hsize ▸ Mps.size_stateVector hstate.state, fun i hi => ?_⟩
  have hentry := Mps.toComplex_stateVector hstate.state (hsize ▸ hi)
  rw [hsize] at hentry
  exact hentry.trans (congrFun hamp _)

/-- The factors of a diagonal block of two rows and columns. -/
noncomputable def diagonalFactors (block : Block ℝ) : Svd ℝ :=
  let identity : Block ℝ := Block.ofFn 2 2 fun i j => if i = j then 1 else 0
  ⟨identity, [(block.entry 0 0).re, (block.entry 1 1).re], identity⟩

theorem exists_toNat {i : Nat} (h : i < 2) : ∃ p : Bool, p.toNat = i := by
  rcases (by omega : i = 0 ∨ i = 1) with rfl | rfl
  · exact ⟨false, rfl⟩
  · exact ⟨true, rfl⟩

theorem isLossless_diagonalFactors {block : Block ℝ} {x : ℝ} (hx : 0 < x)
    (hrows : block.rows = 2) (hcols : block.cols = 2)
    (h : ∀ p q : Bool, (block.entry p.toNat q.toNat).toComplex = if p = q then (x : ℂ) else 0) :
    (diagonalFactors block).IsLossless ⟨2, 0⟩ block := by
  have hre : ∀ p : Bool, (block.entry p.toNat p.toNat).re = x := by
    intro p
    have hp := congrArg Complex.re (h p p)
    simpa using hp
  have hvalues : (diagonalFactors block).values = [x, x] :=
    congrArg₂ (fun y z => [y, z]) (hre false) (hre true)
  have hkept : (⟨2, 0⟩ : Truncation ℝ).kept [x, x] = 2 := by simp [Truncation.kept, hx]
  have hleft : ∀ p m : Bool, ((diagonalFactors block).left.entry p.toNat m.toNat).toComplex =
      if p = m then 1 else 0 := by
    intro p m
    rw [diagonalFactors, Block.entry_ofFn _ p.toNat_lt m.toNat_lt]
    cases p <;> cases m <;> simp
  have hright : (diagonalFactors block).right = (diagonalFactors block).left := rfl
  constructor
  · intro i hi j hj
    obtain ⟨p, rfl⟩ := exists_toNat (hrows ▸ hi)
    obtain ⟨q, rfl⟩ := exists_toNat (hcols ▸ hj)
    have hp₀ := hleft p false
    have hp₁ := hleft p true
    have hq₀ := hleft q false
    have hq₁ := hleft q true
    simp only [Bool.toNat_false, Bool.toNat_true] at hp₀ hp₁ hq₀ hq₁
    rw [hvalues, h, hright]
    simp only [List.length_cons, List.length_nil, Finset.sum_range_succ, Finset.range_zero,
      Finset.sum_empty, hp₀, hp₁, hq₀, hq₁]
    cases p <;> cases q <;> simp
  · rw [hvalues]
    simpa using hx.le
  · rw [hvalues]
    simp
  · intro m hm
    rw [hvalues] at hm ⊢
    rw [hkept] at hm
    rw [List.getD_eq_getElem?_getD, List.getElem?_eq_none (by simpa using hm), Option.getD_none]

/-- The block of a controlled flip whose control was put into superposition. -/
theorem toComplex_entry_reversed (p q : Bool) :
    ((Mps.pairBlock Gate.cnot.swapped (Mps.contract Mps.zeroSite
        (Mps.zeroSite.rotate Gate.hadamard))).entry p.toNat q.toNat).toComplex =
      if p = q then ((√Scalar.half : ℝ) : ℂ) else 0 := by
  have hzero : ∀ p : Bool, ((Mps.zeroSite : Tensor ℝ).entry 0 p.toNat 0).toComplex =
      if p = false then 1 else 0 := by
    intro p
    rw [Mps.zeroSite, Tensor.entry_ofFn _ Nat.one_pos p.toNat_lt Nat.one_pos]
    cases p <;> simp
  have hpair : ∀ y : Bool × Bool, Mps.pairEntry (Mps.zeroSite : Tensor ℝ)
      (Mps.zeroSite.rotate Gate.hadamard) 0 y 0 =
        if y.1 = false then ((√Scalar.half : ℝ) : ℂ) else 0 := by
    intro y
    have hone : (Mps.zeroSite : Tensor ℝ).right = 1 := rfl
    rw [Mps.pairEntry, hone, Finset.sum_range_one, hzero,
      Tensor.toComplex_entry_rotate _ _ Nat.one_pos rfl Nat.one_pos, Gate.matrix_hadamard]
    simp [hzero]
  have hentry := Mps.toComplex_entry_pairBlock (a := Mps.zeroSite)
    (b := Mps.zeroSite.rotate Gate.hadamard) (l := 0) (r := 0) Gate.cnot.swapped (p, q)
    Nat.one_pos Nat.one_pos
  have hright : ((Mps.zeroSite : Tensor ℝ).rotate Gate.hadamard).right = 1 := rfl
  rw [hright, Nat.zero_mul, Nat.zero_add, Nat.mul_one, Nat.add_zero] at hentry
  rw [hentry]
  simp only [hpair, Gate.pairMatrix_swapped, Prod.swap_prod_mk, Gate.pairMatrix_cnot]
  cases p <;> cases q <;> simp [Fintype.sum_prod_type]

/-- A controlled flip whose control has the greater label can be factored by its diagonal. -/
theorem lossless_reversed {ops : List (Operation ℝ)}
    (h : ∀ op ∈ ops, ∀ r : Register ℝ, r.block? op = none) :
    let _ : ThinSvd ℝ := ⟨diagonalFactors⟩
    (Register.ofQubits [⟨1⟩, ⟨0⟩] ⟨2, 0⟩).Lossless (.hadamard ⟨1⟩ :: .cnot ⟨1⟩ ⟨0⟩ :: ops) := by
  intro _
  refine ⟨nofun, fun r₁ sites h₁ =>
    ⟨fun block hblock => ?_, fun r₂ _ _ => Register.lossless_of_unpaired h r₂⟩⟩
  cases h₁
  obtain rfl : Mps.pairBlock Gate.cnot.swapped (Mps.contract Mps.zeroSite
      (Mps.zeroSite.rotate Gate.hadamard)) = block := Option.some.inj hblock
  have hpos : 0 < √(Scalar.half : ℝ) := by
    rw [Scalar.half_real]
    positivity
  exact isLossless_diagonalFactors hpos rfl rfl toComplex_entry_reversed

/-- A controlled flip whose control has the greater label. -/
theorem stateVector_eq_denseVector_reversed :
    let _ : ThinSvd ℝ := ⟨diagonalFactors⟩
    let c : Circuit ℝ := ⟨[[.hadamard ⟨1⟩], [.cnot ⟨1⟩ ⟨0⟩]]⟩
    ∃ r, (Register.ofQubits [⟨1⟩, ⟨0⟩] ⟨2, 0⟩).applyCircuit c = (r, none) ∧
      (Register.ofQubits [⟨1⟩, ⟨0⟩] ⟨2, 0⟩).Lossless c.operations ∧
      r.state.stateVector.size = 4 ∧ ∀ i < 4, (r.state.stateVector.getD i 0).toComplex =
        c.denseVector [⟨0⟩, ⟨1⟩] (Mps.bitsOf 2 i) := by
  intro _ c
  obtain ⟨r, hrun⟩ : ∃ r, (Register.ofQubits [⟨1⟩, ⟨0⟩] ⟨2, 0⟩).applyCircuit c = (r, none) :=
    ⟨_, rfl⟩
  have hlossless : (Register.ofQubits [⟨1⟩, ⟨0⟩] ⟨2, 0⟩).Lossless c.operations :=
    lossless_reversed nofun
  obtain ⟨_, hsize, hentries⟩ :=
    stateVector_eq_denseVector [⟨1⟩, ⟨0⟩] ⟨2, 0⟩ c r hrun hlossless
  exact ⟨r, hrun, hlossless, hsize, hentries⟩

end PauliEstimation
