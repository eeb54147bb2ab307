import PauliEstimation.Proofs.BasisChange.Resolution
import PauliEstimation.Proofs.Register.Shots

namespace PauliEstimation

/-- Two qubits of which none of the listed ones stands between. -/
def Qubit.Neighbours (labels : List Qubit) (p q : Qubit) : Prop :=
  p ≠ q ∧ ∀ r ∈ labels, ¬ (p < r ∧ r < q) ∧ ¬ (q < r ∧ r < p)

theorem Qubit.getElem_lt_iff {labels : List Qubit} (h : labels.Pairwise (· < ·)) {i j : Nat}
    (hi : i < labels.length) (hj : j < labels.length) : labels[i] < labels[j] ↔ i < j := by
  have hmono := List.pairwise_iff_getElem.mp h
  constructor
  · intro hlt
    by_contra hle
    rcases Nat.lt_or_eq_of_le (Nat.not_lt.mp hle) with hji | rfl
    · exact lt_irrefl _ (lt_trans hlt (hmono j i hj hi hji))
    · exact lt_irrefl _ hlt
  · exact hmono i j hi hj

/-- Neighbours are on sites next to each other. -/
theorem Qubit.neighbours_iff {labels : List Qubit} (h : labels.Pairwise (· < ·)) {p q : Qubit}
    (hp : p ∈ labels) (hq : q ∈ labels) : Neighbours labels p q ↔
      labels.idxOf p + 1 = labels.idxOf q ∨ labels.idxOf q + 1 = labels.idxOf p := by
  obtain ⟨i, hi, rfl⟩ := List.getElem_of_mem hp
  obtain ⟨j, hj, rfl⟩ := List.getElem_of_mem hq
  have hnodup := nodup_of_ascending h
  rw [hnodup.idxOf_getElem i hi, hnodup.idxOf_getElem j hj]
  constructor
  · rintro ⟨hne, hbetween⟩
    have hij : i ≠ j := fun he => hne (by simp [he])
    -- the site after the lower one holds a label in between, unless it is the upper one
    by_contra hfar
    rcases Nat.lt_or_gt_of_ne hij with hlt | hlt
    · have hk : i + 1 < labels.length := by omega
      exact (hbetween _ (List.getElem_mem hk)).1
        ⟨(getElem_lt_iff h hi hk).mpr (by omega), (getElem_lt_iff h hk hj).mpr (by omega)⟩
    · have hk : j + 1 < labels.length := by omega
      exact (hbetween _ (List.getElem_mem hk)).2
        ⟨(getElem_lt_iff h hj hk).mpr (by omega), (getElem_lt_iff h hk hi).mpr (by omega)⟩
  · intro hnext
    refine ⟨fun he => ?_, fun r hr => ?_⟩
    · have hij := hnodup.getElem_inj_iff.mp he
      omega
    · obtain ⟨k, hk, rfl⟩ := List.getElem_of_mem hr
      rw [getElem_lt_iff h hi hk, getElem_lt_iff h hk hj, getElem_lt_iff h hj hk,
        getElem_lt_iff h hk hi]
      omega

variable {R : Type}

namespace Operation

def pair? : Operation R → Option (Qubit × Qubit)
  | cnot p q | cz p q => some (p, q)
  | _ => none

/-- The symbol in the exponent, if there is one, has a value. -/
def Bound (b : Bindings R) (op : Operation R) : Prop :=
  ∀ name, op.symbol? = some name → ∃ x, b.get? name = some x

def Adjacent (labels : List Qubit) (op : Operation R) : Prop :=
  ∀ p q, op.pair? = some (p, q) → Qubit.Neighbours labels p q

variable {b : Bindings R} {op op' : Operation R} {labels : List Qubit} {p q : Qubit}

theorem bound_of_symbol?_eq_none (h : op.symbol? = none) : op.Bound b := by
  intro name hname
  rw [h] at hname
  cases hname

theorem adjacent_of_pair?_eq_none (h : op.pair? = none) : op.Adjacent labels := by
  intro p q hpair
  rw [h] at hpair
  cases hpair

theorem mem_qubits_of_pair? (h : op.pair? = some (p, q)) : p ∈ op.qubits ∧ q ∈ op.qubits := by
  cases op with
  | cnot _ _ | cz _ _ =>
    cases h
    simp [qubits]
  | power _ _ _ | hadamard _ | measure _ _ => cases h

theorem resolve_of_unbound {name : String} (hname : op.symbol? = some name)
    (hb : b.get? name = none) : op.resolve b = .error (.unresolvedSymbol name) := by
  cases op with
  | power axis q e =>
    cases e with
    | value x => cases hname
    | symbol name' =>
      cases hname
      simp [resolve, Exponent.resolve, hb, Except.map]
  | hadamard _ | cnot _ _ | cz _ _ | measure _ _ => cases hname

theorem exists_resolve (h : op.Bound b) : ∃ op', op.resolve b = .ok op' := by
  cases op with
  | power axis q e =>
    cases e with
    | value x => exact ⟨_, rfl⟩
    | symbol name =>
      obtain ⟨x, hx⟩ := h name rfl
      exact ⟨.power axis q (.value x), by simp [resolve, Exponent.resolve, hx, Except.map]⟩
  | hadamard _ | cnot _ _ | cz _ _ | measure _ _ => exact ⟨_, rfl⟩

theorem pair?_of_resolve (h : op.resolve b = .ok op') : op'.pair? = op.pair? := by
  cases op with
  | power axis q e =>
    obtain ⟨e', _, rfl⟩ := map_eq_ok_iff.mp h
    rfl
  | hadamard _ | cnot _ _ | cz _ _ | measure _ _ =>
    cases h
    rfl

/-- A resolved operation applies to labels that hold its qubits, provided that those of a pair are
neighbours. -/
theorem applies_of_resolve (h : op.resolve b = .ok op') (hl : labels.Pairwise (· < ·))
    (hq : ∀ q ∈ op.qubits, q ∈ labels) (hadjacent : op.Adjacent labels) : op'.Applies labels := by
  cases op with
  | power axis q e =>
    obtain ⟨e', he, rfl⟩ := map_eq_ok_iff.mp h
    refine ⟨hq q (by simp [qubits]), ?_⟩
    cases e with
    | value x =>
      cases he
      exact ⟨x, rfl⟩
    | symbol name =>
      rw [Exponent.resolve] at he
      split at he
      next x _ =>
        cases he
        exact ⟨x, rfl⟩
      next => cases he
  | hadamard q =>
    cases h
    exact hq q (by simp [qubits])
  | cnot p q | cz p q =>
    cases h
    have hp := hq p (by simp [qubits])
    have hq := hq q (by simp [qubits])
    exact ⟨hp, hq, (Qubit.neighbours_iff hl hp hq).mp (hadjacent p q rfl)⟩
  | measure _ _ =>
    cases h
    trivial

end Operation

namespace Circuit

/-- What keeps a circuit from being sampled under bindings: a symbol, the first in program order
without a value; else a pair, the first in program order of qubits that are not neighbours; else
the number of qubits. -/
inductive Obstacle (c : Circuit R) (b : Bindings R) : Fault → Prop
  | unbound {before op after name} (split : c.operations = before ++ op :: after)
    (bound : ∀ o ∈ before, o.Bound b) (symbol : op.symbol? = some name)
    (free : b.get? name = none) : Obstacle c b (.unresolvedSymbol name)
  | distant {before op after p q} (bound : ∀ o ∈ c.operations, o.Bound b)
    (split : c.operations = before ++ op :: after)
    (adjacent : ∀ o ∈ before, o.Adjacent c.qubits) (pair : op.pair? = some (p, q))
    (apart : ¬ Qubit.Neighbours c.qubits p q) : Obstacle c b (.nonAdjacent p q)
  | large (bound : ∀ o ∈ c.operations, o.Bound b)
    (adjacent : ∀ o ∈ c.operations, o.Adjacent c.qubits)
    (size : Mps.maxDenseSites < c.qubits.length) : Obstacle c b (.registerTooLarge c.qubits.length)

structure Clear (c : Circuit R) (b : Bindings R) : Prop where
  bound : ∀ op ∈ c.operations, op.Bound b
  adjacent : ∀ op ∈ c.operations, op.Adjacent c.qubits
  size_le : c.qubits.length ≤ Mps.maxDenseSites

theorem clear_or_obstacle (c : Circuit R) (b : Bindings R) :
    c.Clear b ∨ ∃ fault, c.Obstacle b fault := by
  by_cases hbound : ∀ op ∈ c.operations, op.Bound b
  · by_cases hadjacent : ∀ op ∈ c.operations, op.Adjacent c.qubits
    · by_cases hsize : c.qubits.length ≤ Mps.maxDenseSites
      · exact .inl ⟨hbound, hadjacent, hsize⟩
      · exact .inr ⟨_, .large hbound hadjacent (Nat.not_le.mp hsize)⟩
    · obtain ⟨before, op, after, hsplit, hbefore, hop⟩ :=
        exists_first_failure (by simpa using hadjacent)
      simp only [Operation.Adjacent, not_forall] at hop
      obtain ⟨p, q, hpair, hapart⟩ := hop
      exact .inr ⟨_, .distant hbound hsplit hbefore hpair hapart⟩
  · obtain ⟨before, op, after, hsplit, hbefore, hop⟩ :=
      exists_first_failure (by simpa using hbound)
    simp only [Operation.Bound, not_forall] at hop
    obtain ⟨name, hname, hfree⟩ := hop
    exact .inr ⟨_, .unbound hsplit hbefore hname
      (Option.eq_none_iff_forall_ne_some.mpr fun x hx => hfree ⟨x, hx⟩)⟩

variable {c resolved : Circuit R} {b : Bindings R}

theorem map_operations_resolve (c : Circuit R) (b : Bindings R) :
    (c.resolve b).map operations = c.operations.mapM (Operation.resolve b) := by
  obtain ⟨moments⟩ := c
  unfold resolve operations
  -- moment by moment: both sides fail on the first moment with an operation that fails
  induction moments with
  | nil => rfl
  | cons moment moments ih =>
    dsimp only at ih ⊢
    rw [List.flatten_cons, List.mapM_append, List.mapM_cons, ← ih]
    cases moment.mapM (Operation.resolve b) with
    | error fault => rfl
    | ok ops => cases moments.mapM (List.mapM (Operation.resolve b)) <;> rfl

theorem forall₂_operations (h : c.resolve b = .ok resolved) :
    List.Forall₂ (fun op op' => op.resolve b = .ok op') c.operations resolved.operations := by
  apply mapM_eq_ok_iff.mp
  rw [← map_operations_resolve, h]
  rfl

theorem exists_resolve (h : ∀ op ∈ c.operations, op.Bound b) :
    ∃ resolved, c.resolve b = .ok resolved := by
  obtain ⟨ops, hops⟩ := exists_mapM fun op hop => Operation.exists_resolve (h op hop)
  rw [← map_operations_resolve] at hops
  obtain ⟨resolved, hresolved, _⟩ := map_eq_ok_iff.mp hops
  exact ⟨resolved, hresolved⟩

theorem resolve_of_unbound {before after : List (Operation R)} {op : Operation R} {name : String}
    (hsplit : c.operations = before ++ op :: after) (hbefore : ∀ o ∈ before, o.Bound b)
    (hname : op.symbol? = some name) (hfree : b.get? name = none) :
    c.resolve b = .error (.unresolvedSymbol name) := by
  have hops : (before ++ op :: after).mapM (Operation.resolve b) =
      .error (.unresolvedSymbol name) :=
    mapM_eq_error (fun o ho => Operation.exists_resolve (hbefore o ho))
      (Operation.resolve_of_unbound hname hfree)
  rw [← hsplit, ← map_operations_resolve] at hops
  exact map_eq_error_iff.mp hops

theorem applies_of_forall₂ {ops ops' : List (Operation R)}
    (h : List.Forall₂ (fun op op' => op.resolve b = .ok op') ops ops')
    (hmem : ∀ op ∈ ops, op ∈ c.operations) (hadjacent : ∀ op ∈ ops, op.Adjacent c.qubits) :
    ∀ op' ∈ ops', op'.Applies c.qubits := by
  intro op' hop'
  obtain ⟨op, hop, hresolve⟩ := forall₂_exists_of_mem h hop'
  exact Operation.applies_of_resolve hresolve (Qubit.pairwise_ascending _)
    (fun q hq => mem_qubits.mpr ⟨op, hmem op hop, hq⟩) (hadjacent op hop)

end Circuit

namespace Register

variable [Scalar R] {r : Register R} {labels measured : List Qubit}

theorem IsOn.applyPair?_of_apart [ThinSvd R] {p q : Qubit} (u : Gate R 4) (h : r.IsOn labels)
    (hp : p ∈ labels) (hq : q ∈ labels)
    (hapart : ¬ (labels.idxOf p + 1 = labels.idxOf q ∨ labels.idxOf q + 1 = labels.idxOf p)) :
    r.applyPair? p q u = .error (.nonAdjacent p q) := by
  obtain ⟨hpq, hqp⟩ := not_or.mp hapart
  simp only [applyPair?, h.site?_eq_ok hp, h.site?_eq_ok hq, bind, Except.bind, if_neg hpq,
    if_neg hqp]
  rfl

theorem IsOn.step?_of_apart [ThinSvd R] {op : Operation R} {p q : Qubit} (h : r.IsOn labels)
    (hl : labels.Pairwise (· < ·)) (hpair : op.pair? = some (p, q)) (hp : p ∈ labels)
    (hq : q ∈ labels) (hapart : ¬ Qubit.Neighbours labels p q) :
    r.step? op = .error (.nonAdjacent p q) := by
  rw [Qubit.neighbours_iff hl hp hq] at hapart
  cases op with
  | cnot _ _ | cz _ _ =>
    cases hpair
    exact h.applyPair?_of_apart _ hp hq hapart
  | power _ _ _ | hadamard _ | measure _ _ => cases hpair

/-- The operation of a resolved circuit at which its runs end, if the first pair of qubits that are
not neighbours is known. -/
theorem exists_stop [ThinSvd R] {c resolved : Circuit R} {b : Bindings R}
    {before after : List (Operation R)} {op : Operation R} {p q : Qubit}
    (hresolved : c.resolve b = .ok resolved) (hsplit : c.operations = before ++ op :: after)
    (hadjacent : ∀ o ∈ before, o.Adjacent c.qubits) (hpair : op.pair? = some (p, q))
    (hapart : ¬ Qubit.Neighbours c.qubits p q) :
    ∃ before' op' after', resolved.operations = before' ++ op' :: after' ∧
      (∀ o ∈ before', o.Applies c.qubits) ∧
      ∀ r : Register R, r.IsOn c.qubits → r.step? op' = .error (.nonAdjacent p q) := by
  have hops := Circuit.forall₂_operations hresolved
  rw [hsplit] at hops
  obtain ⟨before', op', after', hsplit', hbefore, hop⟩ := forall₂_append_cons hops
  have hmem : ∀ q ∈ op.qubits, q ∈ c.qubits := fun q hq =>
    Circuit.mem_qubits.mpr ⟨op, by simp [hsplit], hq⟩
  have hp := hmem p (Operation.mem_qubits_of_pair? hpair).1
  have hq := hmem q (Operation.mem_qubits_of_pair? hpair).2
  refine ⟨before', op', after', hsplit',
    Circuit.applies_of_forall₂ hbefore (fun o ho => by simp [hsplit, ho]) hadjacent,
    fun r hr => hr.step?_of_apart (Qubit.pairwise_ascending _)
      ((Operation.pair?_of_resolve hop).trans hpair) hp hq hapart⟩

section Runs

variable [ThinSvd R] {before after : List (Operation R)} {op : Operation R} {fault : Fault}

/-- A run ends at the first operation that fails. -/
theorem IsOn.applyAll_stops (h : r.IsOn labels) (hbefore : ∀ o ∈ before, o.Applies labels)
    (hop : ∀ r : Register R, r.IsOn labels → r.step? op = .error fault) :
    (r.applyAll (before ++ op :: after)).2 = some fault := by
  have hstops : r.applyAll (before ++ op :: after) = ((r.applyAll before).1, some fault) :=
    applyAll_eq_stopped_iff.mpr ⟨before, op, after, rfl, Prod.ext rfl (h.applyAll_ends hbefore),
      hop _ (h.applyAll before)⟩
  rw [hstops]

theorem IsOn.applyAllNoisy_stops (h : r.IsOn labels) (strength : R) (s : RandomStream)
    (hbefore : ∀ o ∈ before, o.Applies labels)
    (hop : ∀ r : Register R, r.IsOn labels → r.step? op = .error fault) :
    (Register.applyAllNoisy strength r s (before ++ op :: after)).stopped = some fault := by
  have hends := h.applyAllNoisy_ends strength s hbefore
  have hon := h.applyAllNoisy strength s before
  cases hreached : Register.applyAllNoisy strength r s before with
  | mk r' s' stopped =>
    rw [hreached] at hends hon
    obtain rfl : stopped = none := hends
    rw [applyAllNoisy_eq_stopped_iff.mpr ⟨before, op, after, rfl, hreached, hop r' hon⟩]

end Runs

theorem IsOn.sample?_of_large (h : r.IsOn labels) (hm : ∀ q ∈ measured, q ∈ labels)
    (hsize : Mps.maxDenseSites < labels.length) (shots : Nat) (s : RandomStream) :
    r.sample? measured shots s = .error (.registerTooLarge labels.length) := by
  obtain ⟨sites, hsites⟩ := exists_mapM fun q hq => ⟨_, h.site?_eq_ok (hm q hq)⟩
  rw [sample?, hsites]
  show r.state.sample? sites shots s = _
  rw [Mps.sample?, h.size_eq, if_pos hsize]

end Register

end PauliEstimation
