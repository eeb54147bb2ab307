import PauliEstimation.Proofs.Register.Layout

namespace PauliEstimation

variable {R : Type}

/-- What an operation asks of the qubits it is applied to: that its own are among them, those of a
pair next to each other, and that its exponent is a number. -/
def Operation.Applies (qubits : List Qubit) : Operation R → Prop
  | .power _ q e => q ∈ qubits ∧ ∃ t, e.value? = .ok t
  | .hadamard q => q ∈ qubits
  | .cnot a b | .cz a b => a ∈ qubits ∧ b ∈ qubits ∧
      (qubits.idxOf a + 1 = qubits.idxOf b ∨ qubits.idxOf b + 1 = qubits.idxOf a)
  | .measure _ _ => True

variable [Scalar R]

namespace Mps

variable {psi psi' : Mps R} {k : Nat}

omit [Scalar R] in
theorem lt_size_of_site? {a : Tensor R} (h : psi.site? k = .ok a) : k < psi.size := by
  unfold site? at h
  split at h
  next hk => exact (List.getElem?_eq_some_iff.mp hk).1
  next => cases h

theorem size_of_applyOne? {u : Gate R 2} (h : psi.applyOne? k u = .ok psi') :
    psi'.size = psi.size := by
  obtain ⟨a, _, h⟩ := bind_eq_ok_iff.mp h
  cases h
  exact List.length_set

theorem lt_size_of_applyOne? {u : Gate R 2} (h : psi.applyOne? k u = .ok psi') :
    k < psi.size := by
  obtain ⟨a, ha, _⟩ := bind_eq_ok_iff.mp h
  exact lt_size_of_site? ha

theorem exists_applyOne? (u : Gate R 2) (hk : k < psi.size) :
    ∃ psi', psi.applyOne? k u = .ok psi' :=
  ⟨_, applyOne?_of_getElem? u (List.getElem?_eq_getElem hk)⟩

theorem size_of_applyPair? [ThinSvd R] {u : Gate R 4} {trunc : Truncation R}
    (h : psi.applyPair? k u trunc = .ok psi') : psi'.size = psi.size := by
  obtain ⟨a, _, h⟩ := bind_eq_ok_iff.mp h
  obtain ⟨b, _, h⟩ := bind_eq_ok_iff.mp h
  cases h
  exact List.length_set.trans List.length_set

theorem lt_size_of_applyPair? [ThinSvd R] {u : Gate R 4} {trunc : Truncation R}
    (h : psi.applyPair? k u trunc = .ok psi') : k + 1 < psi.size := by
  obtain ⟨a, _, h⟩ := bind_eq_ok_iff.mp h
  obtain ⟨b, hb, _⟩ := bind_eq_ok_iff.mp h
  exact lt_size_of_site? hb

theorem exists_applyPair? [ThinSvd R] (u : Gate R 4) (trunc : Truncation R)
    (hk : k + 1 < psi.size) : ∃ psi', psi.applyPair? k u trunc = .ok psi' :=
  ⟨_, applyPair?_of_getElem? u trunc (List.getElem?_eq_getElem (Nat.lt_of_succ_lt hk))
    (List.getElem?_eq_getElem hk)⟩

/-- A kick rotates a site or leaves the state as it is. -/
theorem depolarize_eq (psi : Mps R) (k : Nat) (p : R) (s : RandomStream) :
    (psi.depolarize k p s).1 = .ok psi ∨
      ∃ u : Gate R 2, (psi.depolarize k p s).1 = psi.applyOne? k u := by
  unfold depolarize
  split
  next => exact .inl rfl
  next =>
    dsimp only
    split
    next => exact .inl rfl
    next axis _ => exact .inr ⟨Gate.pauli axis, rfl⟩

theorem size_of_depolarize {p : R} {s : RandomStream} (h : (psi.depolarize k p s).1 = .ok psi') :
    psi'.size = psi.size := by
  rcases depolarize_eq psi k p s with hd | ⟨u, hd⟩
  · rw [Except.ok.inj (h.symm.trans hd)]
  · exact size_of_applyOne? (hd.symm.trans h)

theorem exists_depolarize (p : R) (s : RandomStream) (hk : k < psi.size) :
    ∃ psi', (psi.depolarize k p s).1 = .ok psi' := by
  rcases depolarize_eq psi k p s with hd | ⟨u, hd⟩
  · exact ⟨psi, hd⟩
  · rw [hd]
    exact exists_applyOne? u hk

end Mps

namespace Register

variable {r r' r'' : Register R} {qubits : List Qubit} {sites : List Nat}

/-- The same qubits on a state with as many sites. -/
structure SameLayout (r r' : Register R) : Prop where
  qubits_eq : r'.qubits = r.qubits
  size_eq : r'.state.size = r.state.size

namespace SameLayout

omit [Scalar R]

theorem refl (r : Register R) : r.SameLayout r := ⟨rfl, rfl⟩

theorem trans (h : r.SameLayout r') (h' : r'.SameLayout r'') : r.SameLayout r'' :=
  ⟨h'.qubits_eq.trans h.qubits_eq, h'.size_eq.trans h.size_eq⟩

theorem with_state {state : Mps R} (h : state.size = r.state.size) :
    r.SameLayout { r with state := state } :=
  ⟨rfl, h⟩

end SameLayout

theorem sameLayout_of_applyOne? {q : Qubit} {u : Gate R 2}
    (h : r.applyOne? q u = .ok (r', sites)) :
    r.SameLayout r' ∧ ∀ k ∈ sites, k < r.state.size := by
  obtain ⟨k, _, h⟩ := bind_eq_ok_iff.mp h
  obtain ⟨state, hstate, h⟩ := bind_eq_ok_iff.mp h
  cases h
  exact ⟨.with_state (Mps.size_of_applyOne? hstate),
    List.forall_mem_singleton.mpr (Mps.lt_size_of_applyOne? hstate)⟩

/-- A gate on the sites `k` and `k + 1`, with the sites that it lists among those up to the
second. -/
theorem sameLayout_of_pairAt [ThinSvd R] {k : Nat} {u : Gate R 4} {listed : List Nat}
    (hlisted : ∀ m ∈ listed, m ≤ k + 1)
    (h : (do return ({ r with state := ← r.state.applyPair? k u r.trunc }, listed) :
      Except Fault (Register R × List Nat)) = .ok (r', sites)) :
    r.SameLayout r' ∧ ∀ m ∈ sites, m < r.state.size := by
  obtain ⟨state, hstate, h⟩ := bind_eq_ok_iff.mp h
  cases h
  exact ⟨.with_state (Mps.size_of_applyPair? hstate), fun m hm =>
    Nat.lt_of_le_of_lt (hlisted m hm) (Mps.lt_size_of_applyPair? hstate)⟩

theorem sameLayout_of_applyPair? [ThinSvd R] {a b : Qubit} {u : Gate R 4}
    (h : r.applyPair? a b u = .ok (r', sites)) :
    r.SameLayout r' ∧ ∀ k ∈ sites, k < r.state.size := by
  obtain ⟨i, _, h⟩ := bind_eq_ok_iff.mp h
  obtain ⟨j, _, h⟩ := bind_eq_ok_iff.mp h
  split at h
  next hij =>
    have hlisted : ∀ m ∈ [i, j], m ≤ i + 1 :=
      List.forall_mem_cons.mpr ⟨by omega, List.forall_mem_singleton.mpr (by omega)⟩
    exact sameLayout_of_pairAt hlisted h
  next =>
    split at h
    next hji =>
      have hlisted : ∀ m ∈ [i, j], m ≤ j + 1 :=
        List.forall_mem_cons.mpr ⟨by omega, List.forall_mem_singleton.mpr (by omega)⟩
      exact sameLayout_of_pairAt hlisted h
    next => cases h

/-- An operation only replaces the state, and acts on sites that the state has. -/
theorem sameLayout_of_step? [ThinSvd R] {op : Operation R}
    (h : r.step? op = .ok (r', sites)) :
    r.SameLayout r' ∧ ∀ k ∈ sites, k < r.state.size := by
  cases op with
  | power axis q e =>
    obtain ⟨t, _, h⟩ := bind_eq_ok_iff.mp h
    exact sameLayout_of_applyOne? h
  | hadamard q => exact sameLayout_of_applyOne? h
  | cnot c t => exact sameLayout_of_applyPair? h
  | cz a b => exact sameLayout_of_applyPair? h
  | measure qs key =>
    cases h
    exact ⟨.refl r, List.forall_mem_nil _⟩

theorem sameLayout_kickAll (p : R) (r : Register R) (s : RandomStream) (sites : List Nat) :
    r.SameLayout (kickAll p r s sites).register := by
  induction sites generalizing r s with
  | nil => exact .refl r
  | cons k ks ih =>
    unfold Register.kickAll
    split
    next state s' hd =>
      exact .trans (.with_state (Mps.size_of_depolarize (congrArg Prod.fst hd))) (ih _ s')
    next => exact .refl r

/-- Kicks on sites that the state has do not fail. -/
theorem kickAll_ends (p : R) (s : RandomStream) (hs : ∀ k ∈ sites, k < r.state.size) :
    (kickAll p r s sites).stopped = none := by
  induction sites generalizing r s with
  | nil => rfl
  | cons k ks ih =>
    obtain ⟨hk, hrest⟩ := List.forall_mem_cons.mp hs
    unfold Register.kickAll
    split
    next state s' hd =>
      have hsize : state.size = r.state.size := Mps.size_of_depolarize (congrArg Prod.fst hd)
      exact ih s' (r := { r with state := state }) (hsize ▸ hrest)
    next fault s' hd =>
      obtain ⟨state, hstate⟩ := Mps.exists_depolarize p s hk
      cases hstate.symm.trans (congrArg Prod.fst hd)

section Runs

variable [ThinSvd R]

theorem kickAll_of_step? {op : Operation R} (p : R) (s : RandomStream)
    (h : r.step? op = .ok (r', sites)) :
    ∃ r'' s'', kickAll p r' s sites = ⟨r'', s'', none⟩ ∧ r.SameLayout r'' := by
  obtain ⟨hlayout, hsites⟩ := sameLayout_of_step? h
  have hends := kickAll_ends p s (hlayout.size_eq ▸ hsites : ∀ k ∈ sites, k < r'.state.size)
  have hkept := hlayout.trans (sameLayout_kickAll p r' s sites)
  generalize kickAll p r' s sites = kicked at hends hkept
  obtain ⟨r'', s'', stopped⟩ := kicked
  obtain rfl : stopped = none := hends
  exact ⟨r'', s'', rfl, hkept⟩

theorem sameLayout_applyAll (r : Register R) (ops : List (Operation R)) :
    r.SameLayout (r.applyAll ops).1 := by
  induction ops generalizing r with
  | nil => exact .refl r
  | cons op ops ih =>
    unfold Register.applyAll
    split
    next r' sites hstep => exact (sameLayout_of_step? hstep).1.trans (ih r')
    next => exact .refl r

theorem sameLayout_applyAllNoisy (p : R) (r : Register R) (s : RandomStream)
    (ops : List (Operation R)) : r.SameLayout (applyAllNoisy p r s ops).register := by
  induction ops generalizing r s with
  | nil => exact .refl r
  | cons op ops ih =>
    unfold Register.applyAllNoisy
    split
    next => exact .refl r
    next r' sites hstep =>
      obtain ⟨r'', s'', hkick, hlayout⟩ := kickAll_of_step? p s hstep
      rw [hkick]
      exact hlayout.trans (ih r'' s'')

theorem applyAll_append (r : Register R) (ops ops' : List (Operation R)) :
    r.applyAll (ops ++ ops') = match r.applyAll ops with
      | (r, none) => r.applyAll ops'
      | stopped => stopped := by
  induction ops generalizing r with
  | nil => rfl
  | cons op ops ih =>
    rw [List.cons_append, applyAll, applyAll]
    cases r.step? op with
    | ok e => exact ih e.1
    | error fault => rfl

theorem applyAllNoisy_append (p : R) (r : Register R) (s : RandomStream)
    (ops ops' : List (Operation R)) :
    applyAllNoisy p r s (ops ++ ops') = match applyAllNoisy p r s ops with
      | ⟨r, s, none⟩ => applyAllNoisy p r s ops'
      | stopped => stopped := by
  induction ops generalizing r s with
  | nil => rfl
  | cons op ops ih =>
    rw [List.cons_append, applyAllNoisy, applyAllNoisy]
    cases hstep : r.step? op with
    | error fault => rfl
    | ok e =>
      obtain ⟨r', s', hkick, _⟩ := kickAll_of_step? p s hstep
      simp only [hkick]
      exact ih r' s'

variable {ops : List (Operation R)} {fault : Fault}

/-- A run is stopped by an operation that fails once all before it have been taken. -/
theorem applyAll_eq_stopped_iff : r.applyAll ops = (r', some fault) ↔
    ∃ before op after, ops = before ++ op :: after ∧ r.applyAll before = (r', none) ∧
      r'.step? op = .error fault := by
  constructor
  · intro h
    induction ops generalizing r with
    | nil => cases h
    | cons op ops ih =>
      rw [Register.applyAll] at h
      cases hstep : r.step? op with
      | error fault' =>
        rw [hstep] at h
        cases h
        exact ⟨[], op, ops, rfl, rfl, hstep⟩
      | ok e =>
        rw [hstep] at h
        obtain ⟨before, op', after, rfl, hbefore, hop'⟩ := ih h
        exact ⟨op :: before, op', after, rfl, by rw [Register.applyAll, hstep]; exact hbefore, hop'⟩
  · rintro ⟨before, op, after, rfl, hbefore, hop⟩
    rw [applyAll_append, hbefore]
    simp only [Register.applyAll, hop]

/-- The same of a run with kicks, none of which fails. -/
theorem applyAllNoisy_eq_stopped_iff {p : R} {s s' : RandomStream} :
    applyAllNoisy p r s ops = ⟨r', s', some fault⟩ ↔
      ∃ before op after, ops = before ++ op :: after ∧
        applyAllNoisy p r s before = ⟨r', s', none⟩ ∧ r'.step? op = .error fault := by
  constructor
  · intro h
    induction ops generalizing r s with
    | nil => cases h
    | cons op ops ih =>
      rw [Register.applyAllNoisy] at h
      cases hstep : r.step? op with
      | error fault' =>
        rw [hstep] at h
        cases h
        exact ⟨[], op, ops, rfl, rfl, hstep⟩
      | ok e =>
        obtain ⟨r₁, s₁, hkick, _⟩ := kickAll_of_step? p s hstep
        simp only [hstep, hkick] at h
        obtain ⟨before, op', after, rfl, hbefore, hop'⟩ := ih h
        exact ⟨op :: before, op', after, rfl, by simp only [Register.applyAllNoisy, hstep, hkick,
          hbefore], hop'⟩
  · rintro ⟨before, op, after, rfl, hbefore, hop⟩
    rw [applyAllNoisy_append, hbefore]
    simp only [Register.applyAllNoisy, hop]

end Runs

/-- One site for each of the listed qubits. -/
structure IsOn (qubits : List Qubit) (r : Register R) : Prop where
  qubits_eq : r.qubits = qubits
  size_eq : r.state.size = qubits.length

theorem isOn_forCircuit (c : Circuit R) (trunc : Truncation R) :
    (forCircuit c trunc).IsOn c.qubits := by
  have hqubits : Qubit.ascending c.qubits = c.qubits :=
    Qubit.ascending_of_pairwise (Qubit.pairwise_ascending _)
  exact ⟨hqubits, List.length_replicate.trans (congrArg List.length hqubits)⟩

namespace IsOn

omit [Scalar R] in
theorem site?_eq_ok {q : Qubit} (h : r.IsOn qubits) (hq : q ∈ qubits) :
    r.site? q = .ok (qubits.idxOf q) := by
  apply site?_eq_ok_iff.mpr
  rw [h.qubits_eq]
  exact ⟨List.idxOf_lt_length_of_mem hq, rfl⟩

omit [Scalar R] in
theorem of_sameLayout (h : r.IsOn qubits) (hr : r.SameLayout r') : r'.IsOn qubits :=
  ⟨hr.qubits_eq.trans h.qubits_eq, hr.size_eq.trans h.size_eq⟩

theorem exists_applyOne? {q : Qubit} (u : Gate R 2) (h : r.IsOn qubits) (hq : q ∈ qubits) :
    ∃ a, r.applyOne? q u = .ok a := by
  have hlt : qubits.idxOf q < r.state.size := h.size_eq ▸ List.idxOf_lt_length_of_mem hq
  refine exists_bind ⟨_, h.site?_eq_ok hq⟩ fun k hk => ?_
  cases hk.symm.trans (h.site?_eq_ok hq)
  exact exists_bind (Mps.exists_applyOne? u hlt) fun state _ => ⟨_, rfl⟩

variable [ThinSvd R]

theorem exists_applyPair? {a b : Qubit} (u : Gate R 4) (h : r.IsOn qubits)
    (ha : a ∈ qubits) (hb : b ∈ qubits)
    (hab : qubits.idxOf a + 1 = qubits.idxOf b ∨ qubits.idxOf b + 1 = qubits.idxOf a) :
    ∃ e, r.applyPair? a b u = .ok e := by
  have hi : qubits.idxOf a < r.state.size := h.size_eq ▸ List.idxOf_lt_length_of_mem ha
  have hj : qubits.idxOf b < r.state.size := h.size_eq ▸ List.idxOf_lt_length_of_mem hb
  refine exists_bind ⟨_, h.site?_eq_ok ha⟩ fun i hi' => ?_
  cases hi'.symm.trans (h.site?_eq_ok ha)
  refine exists_bind ⟨_, h.site?_eq_ok hb⟩ fun j hj' => ?_
  cases hj'.symm.trans (h.site?_eq_ok hb)
  rcases hab with hab | hba
  · rw [if_pos hab]
    exact exists_bind (Mps.exists_applyPair? u _ (hab ▸ hj)) fun state _ => ⟨_, rfl⟩
  · rw [if_neg (by omega), if_pos hba]
    exact exists_bind (Mps.exists_applyPair? _ _ (hba ▸ hi)) fun state _ => ⟨_, rfl⟩

theorem exists_step? {op : Operation R} (h : r.IsOn qubits) (hop : op.Applies qubits) :
    ∃ a, r.step? op = .ok a := by
  cases op with
  | power axis q e =>
    obtain ⟨hq, ht⟩ := hop
    exact exists_bind ht fun t _ => h.exists_applyOne? _ hq
  | hadamard q => exact h.exists_applyOne? _ hop
  | cnot c t => exact h.exists_applyPair? _ hop.1 hop.2.1 hop.2.2
  | cz a b => exact h.exists_applyPair? _ hop.1 hop.2.1 hop.2.2
  | measure qs key => exact ⟨_, rfl⟩

variable {ops : List (Operation R)}

theorem applyAll (h : r.IsOn qubits) (ops : List (Operation R)) : (r.applyAll ops).1.IsOn qubits :=
  h.of_sameLayout (sameLayout_applyAll r ops)

theorem applyAll_ends (h : r.IsOn qubits) (hops : ∀ op ∈ ops, op.Applies qubits) :
    (r.applyAll ops).2 = none := by
  induction ops generalizing r with
  | nil => rfl
  | cons op ops ih =>
    obtain ⟨hop, hrest⟩ := List.forall_mem_cons.mp hops
    obtain ⟨⟨r', sites⟩, hstep⟩ := h.exists_step? hop
    simp only [Register.applyAll, hstep]
    exact ih (h.of_sameLayout (sameLayout_of_step? hstep).1) hrest

/-- Operations that apply leave a register on the same qubits. -/
theorem exists_applyAll (h : r.IsOn qubits) (hops : ∀ op ∈ ops, op.Applies qubits) :
    ∃ r', r.applyAll ops = (r', none) ∧ r'.IsOn qubits :=
  ⟨_, Prod.ext rfl (h.applyAll_ends hops), h.applyAll ops⟩

theorem applyAllNoisy (h : r.IsOn qubits) (p : R) (s : RandomStream) (ops : List (Operation R)) :
    (applyAllNoisy p r s ops).register.IsOn qubits :=
  h.of_sameLayout (sameLayout_applyAllNoisy p r s ops)

theorem applyAllNoisy_ends (h : r.IsOn qubits) (p : R) (s : RandomStream)
    (hops : ∀ op ∈ ops, op.Applies qubits) :
    (Register.applyAllNoisy p r s ops).stopped = none := by
  induction ops generalizing r s with
  | nil => rfl
  | cons op ops ih =>
    obtain ⟨hop, hrest⟩ := List.forall_mem_cons.mp hops
    obtain ⟨⟨r', sites⟩, hstep⟩ := h.exists_step? hop
    obtain ⟨r'', s'', hkick, hlayout⟩ := kickAll_of_step? p s hstep
    simp only [Register.applyAllNoisy, hstep, hkick]
    exact ih (h.of_sameLayout hlayout) s'' hrest

end IsOn

end Register

end PauliEstimation
