import PauliEstimation.Proofs.Register.InPlace
import PauliEstimation.Proofs.Register.Obstacle
import PauliEstimation.Svd.Reduction

namespace PauliEstimation

variable {R : Type}

/-- Why an operation cannot be taken on the listed qubits: its exponent is a symbol; else one of its
qubits is not listed, the first such; else its two qubits are not next to each other. -/
inductive Operation.Refusal (labels : List Qubit) : Operation R → Fault → Prop
  | unresolved {axis q name} :
    Refusal labels (.power axis q (.symbol name)) (.unresolvedSymbol name)
  | unknown {op q} (number : op.symbol? = none) (gate : op.measurement? = none)
    (first : op.qubits.find? (· ∉ labels) = some q) : Refusal labels op (.unknownQubit q)
  | apart {op p q} (pair : op.pair? = some (p, q)) (left : p ∈ labels) (right : q ∈ labels)
    (far : ¬ (labels.idxOf p + 1 = labels.idxOf q ∨ labels.idxOf q + 1 = labels.idxOf p)) :
    Refusal labels op (.nonAdjacent p q)

/-- A qubit of the register stands past the last site of the state. -/
def Register.Overrun (r : Register R) (fault : Fault) : Prop :=
  ∃ k, r.state.size ≤ k ∧ k < r.qubits.length ∧ fault = .outOfRange k r.state.size

namespace Mps

variable {psi : Mps R} {k : Nat} {fault : Fault}

theorem site?_eq_error (h : psi.site? k = .error fault) :
    psi.size ≤ k ∧ fault = .outOfRange k psi.size := by
  unfold site? at h
  split at h
  next => cases h
  next hk =>
    cases h
    exact ⟨List.getElem?_eq_none_iff.mp hk, rfl⟩

variable [Scalar R]

theorem applyOne?_eq_error {u : Gate R 2} (h : psi.applyOne? k u = .error fault) :
    psi.size ≤ k ∧ fault = .outOfRange k psi.size := by
  rcases bind_eq_error_iff.mp h with h | ⟨a, _, h⟩
  · exact site?_eq_error h
  · cases h

theorem applyPair?_eq_error [ThinSvd R] {u : Gate R 4} {trunc : Truncation R}
    (h : psi.applyPair? k u trunc = .error fault) :
    ∃ l ≤ k + 1, psi.size ≤ l ∧ fault = .outOfRange l psi.size := by
  rcases bind_eq_error_iff.mp h with h | ⟨a, _, h⟩
  · exact ⟨k, Nat.le_succ k, site?_eq_error h⟩
  · rcases bind_eq_error_iff.mp h with h | ⟨b, _, h⟩
    · exact ⟨k + 1, le_refl _, site?_eq_error h⟩
    · cases h

end Mps

namespace Register

variable {r : Register R} {fault : Fault}

theorem not_overrun (h : r.state.size = r.qubits.length) : ¬ r.Overrun fault := by
  rintro ⟨k, hsize, hlt, _⟩
  omega

theorem SameLayout.overrun_iff {r' : Register R} (h : r.SameLayout r') :
    r'.Overrun fault ↔ r.Overrun fault := by
  unfold Overrun
  rw [h.size_eq, h.qubits_eq]

theorem site?_eq_error {q : Qubit} (h : r.site? q = .error fault) :
    q ∉ r.qubits ∧ fault = .unknownQubit q := by
  unfold site? at h
  split at h
  next => cases h
  next hnone =>
    cases h
    exact ⟨List.idxOf?_eq_none_iff.mp hnone, rfl⟩

theorem mem_of_site? {q : Qubit} {k : Nat} (h : r.site? q = .ok k) : q ∈ r.qubits :=
  List.idxOf_lt_length_iff.mp ((site?_eq_ok_iff.mp h).2 ▸ (site?_eq_ok_iff.mp h).1)

variable [Scalar R]

theorem applyOne?_eq_error {op : Operation R} {q : Qubit} {u : Gate R 2}
    (hqubits : op.qubits = [q]) (hsymbol : op.symbol? = none) (hgate : op.measurement? = none)
    (h : r.applyOne? q u = .error fault) : op.Refusal r.qubits fault ∨ r.Overrun fault := by
  rcases bind_eq_error_iff.mp h with h | ⟨k, hk, h⟩
  · obtain ⟨hq, rfl⟩ := site?_eq_error h
    exact .inl (.unknown hsymbol hgate (by simp [hqubits, hq]))
  · rcases bind_eq_error_iff.mp h with h | ⟨_, _, h⟩
    · obtain ⟨hsize, hfault⟩ := Mps.applyOne?_eq_error h
      exact .inr ⟨k, hsize, (site?_eq_ok_iff.mp hk).1, hfault⟩
    · cases h

theorem overrun_of_applyPair? [ThinSvd R] {k : Nat} {u : Gate R 4} {sites : List Nat}
    (hk : k + 1 < r.qubits.length)
    (h : (do return ({ r with state := ← r.state.applyPair? k u r.trunc }, sites) :
      Except Fault (Register R × List Nat)) = .error fault) : r.Overrun fault := by
  rcases bind_eq_error_iff.mp h with h | ⟨_, _, h⟩
  · obtain ⟨l, hl, hsize, hfault⟩ := Mps.applyPair?_eq_error h
    exact ⟨l, hsize, Nat.lt_of_le_of_lt hl hk, hfault⟩
  · cases h

theorem applyPair?_eq_error [ThinSvd R] {op : Operation R} {a b : Qubit} {u : Gate R 4}
    (hpair : op.pair? = some (a, b)) (hqubits : op.qubits = [a, b]) (hsymbol : op.symbol? = none)
    (hgate : op.measurement? = none) (h : r.applyPair? a b u = .error fault) :
    op.Refusal r.qubits fault ∨ r.Overrun fault := by
  rcases bind_eq_error_iff.mp h with h | ⟨i, hi, h⟩
  · obtain ⟨ha, rfl⟩ := site?_eq_error h
    exact .inl (.unknown hsymbol hgate (by simp [hqubits, ha]))
  · have ha := mem_of_site? hi
    rcases bind_eq_error_iff.mp h with h | ⟨j, hj, h⟩
    · obtain ⟨hb, rfl⟩ := site?_eq_error h
      exact .inl (.unknown hsymbol hgate (by simp [hqubits, ha, hb]))
    · have hb := mem_of_site? hj
      obtain ⟨hilt, rfl⟩ := site?_eq_ok_iff.mp hi
      obtain ⟨hjlt, rfl⟩ := site?_eq_ok_iff.mp hj
      split at h
      next hij => exact .inr (overrun_of_applyPair? (hij ▸ hjlt) h)
      next hij =>
        split at h
        next hji => exact .inr (overrun_of_applyPair? (hji ▸ hilt) h)
        next hji =>
          cases h
          exact .inl (.apart hpair ha hb (not_or.mpr ⟨hij, hji⟩))

/-- An operation that fails is refused for what it asks of the qubits, as long as the state has a
site for each of them. -/
theorem step?_eq_error [ThinSvd R] {op : Operation R} (h : r.step? op = .error fault) :
    op.Refusal r.qubits fault ∨ r.Overrun fault := by
  cases op with
  | power axis q e =>
    cases e with
    | symbol name =>
      cases h
      exact .inl .unresolved
    | value x => exact applyOne?_eq_error (u := Gate.power axis x) rfl rfl rfl h
  | hadamard q => exact applyOne?_eq_error rfl rfl rfl h
  | cnot c t => exact applyPair?_eq_error rfl rfl rfl rfl h
  | cz a b => exact applyPair?_eq_error rfl rfl rfl rfl h
  | measure qs key => cases h

/-- Kicks of no strength draw nothing and change nothing. -/
theorem kickAll_of_nonpos {p : R} (hp : p ≤ 0) (r : Register R) (s : RandomStream)
    (sites : List Nat) : kickAll p r s sites = ⟨r, s, none⟩ := by
  induction sites with
  | nil => rfl
  | cons k sites ih =>
    have hnone : r.state.depolarize k p s = (.ok r.state, s) := if_pos hp
    rw [kickAll, hnone]
    exact ih

variable [ThinSvd R]

theorem applyAllNoisy_of_nonpos {p : R} (hp : p ≤ 0) (r : Register R) (s : RandomStream)
    (ops : List (Operation R)) :
    applyAllNoisy p r s ops = ⟨(r.applyAll ops).1, s, (r.applyAll ops).2⟩ := by
  induction ops generalizing r with
  | nil => rfl
  | cons op ops ih =>
    rw [applyAllNoisy, applyAll]
    cases r.step? op with
    | error fault => rfl
    | ok e =>
      simp only [kickAll_of_nonpos hp]
      exact ih e.1

end Register

/-- A run over a circuit that fails stops at the boundary of a gate: there is an operation before
which all have been taken, and which, taken in place, fails and leaves the register and the stream
as they are. With kicks it is the same, the draws for the operations before it included. The
operation is refused for its symbol, for a qubit that the register does not have, or for a pair that
is not adjacent; it can also run past the end of the state, but not where the state has one site for
each qubit. All runs may be taken in place. Kicks of no strength leave the stream alone, and the run
with them ends as the one without. -/
theorem failed_runs_stop_at_a_gate [Scalar R] [ThinSvd R] (r : Register R) (c : Circuit R) (p : R)
    (s : RandomStream) :
    (∀ r' fault, r.applyCircuit c = (r', some fault) → ∃ before op after,
      c.operations = before ++ op :: after ∧ r.applyAll before = (r', none) ∧
      InPlace.step op (r', s) = .error fault (r', s) ∧
      (op.Refusal r.qubits fault ∨ r.Overrun fault)) ∧
    (∀ r' s' fault, r.applyCircuitNoisy c p s = ⟨r', s', some fault⟩ → ∃ before op after,
      c.operations = before ++ op :: after ∧ r.applyAllNoisy p s before = ⟨r', s', none⟩ ∧
      InPlace.step op (r', s') = .error fault (r', s') ∧
      (op.Refusal r.qubits fault ∨ r.Overrun fault)) ∧
    (r.state.size = r.qubits.length → ∀ fault, ¬ r.Overrun fault) ∧
    InPlace.applyCircuit c = InPlace.ofRun (fun (r : Register R) s =>
      ⟨(r.applyCircuit c).1, s, (r.applyCircuit c).2⟩) ∧
    InPlace.applyCircuitNoisy c p = InPlace.ofRun (fun r s => r.applyCircuitNoisy c p s) ∧
    (p ≤ 0 → r.applyCircuitNoisy c p s = ⟨(r.applyCircuit c).1, s, (r.applyCircuit c).2⟩) := by
  have hcause : ∀ {r' : Register R} {op fault}, r.SameLayout r' → r'.step? op = .error fault →
      op.Refusal r.qubits fault ∨ r.Overrun fault := by
    intro r' op fault hlayout hstep
    have hrefused := Register.step?_eq_error hstep
    rwa [hlayout.qubits_eq, hlayout.overrun_iff] at hrefused
  refine ⟨fun r' fault h => ?_, fun r' s' fault h => ?_, fun hsize _ => Register.not_overrun hsize,
    InPlace.applyCircuit_eq c, InPlace.applyCircuitNoisy_eq c p,
    fun hp => Register.applyAllNoisy_of_nonpos hp r s c.operations⟩
  · obtain ⟨before, op, after, hsplit, hbefore, hstep⟩ := Register.applyAll_eq_stopped_iff.mp h
    have hlayout := Register.sameLayout_applyAll r before
    rw [hbefore] at hlayout
    exact ⟨before, op, after, hsplit, hbefore, InPlace.step_of_error hstep s,
      hcause hlayout hstep⟩
  · obtain ⟨before, op, after, hsplit, hbefore, hstep⟩ :=
      Register.applyAllNoisy_eq_stopped_iff.mp h
    have hlayout := Register.sameLayout_applyAllNoisy p r s before
    rw [hbefore] at hlayout
    exact ⟨before, op, after, hsplit, hbefore, InPlace.step_of_error hstep s',
      hcause hlayout hstep⟩

/-- A Hadamard gate has been taken when a pair is refused, and the gate after the pair has not. -/
theorem failed_runs_stop_at_a_gate_apart :
    let r : Register Float := Register.ofQubits [⟨0⟩, ⟨1⟩, ⟨2⟩] Truncation.exact
    let c : Circuit Float := ⟨[[.hadamard ⟨0⟩, .cnot ⟨0⟩ ⟨2⟩], [.hadamard ⟨1⟩]]⟩
    (0 : Float) ≤ 0 ∧ r.state.size = r.qubits.length ∧ ∀ s, ∃ r',
      r.applyAll [.hadamard ⟨0⟩] = (r', none) ∧
      r.applyCircuit c = (r', some (.nonAdjacent ⟨0⟩ ⟨2⟩)) ∧
      r.applyCircuitNoisy c 0 s = ⟨r', s, some (.nonAdjacent ⟨0⟩ ⟨2⟩)⟩ ∧
      InPlace.applyCircuit c (r, s) = .error (.nonAdjacent ⟨0⟩ ⟨2⟩) (r', s) ∧
      ∃ op ∈ c.operations, op.Refusal r.qubits (.nonAdjacent ⟨0⟩ ⟨2⟩) := by
  intro r c
  have hnonpos : (0 : Float) ≤ 0 := by decide +kernel
  have hsize : r.state.size = r.qubits.length := rfl
  refine ⟨hnonpos, hsize, fun s => ?_⟩
  obtain ⟨r', hfirst, hrun⟩ : ∃ r', r.applyAll [.hadamard ⟨0⟩] = (r', none) ∧
      r.applyCircuit c = (r', some (.nonAdjacent ⟨0⟩ ⟨2⟩)) := ⟨_, rfl, rfl⟩
  obtain ⟨hstops, -, hfits, hplace, -, hnone⟩ := failed_runs_stop_at_a_gate r c 0 s
  obtain ⟨before, op, after, hsplit, -, -, hcause⟩ := hstops r' _ hrun
  refine ⟨r', hfirst, hrun, ?_, ?_, op, by simp [hsplit], hcause.resolve_right (hfits hsize _)⟩
  · rw [hnone hnonpos, hrun]
  · rw [hplace, InPlace.ofRun, hrun]

end PauliEstimation
