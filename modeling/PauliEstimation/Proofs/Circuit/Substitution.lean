import PauliEstimation.Proofs.Register.Obstacle

namespace PauliEstimation

variable {R : Type} {b : Bindings R}

/-- A number stays as it is, and a symbol gives way to the value that is bound to it. -/
inductive Exponent.Filled (b : Bindings R) : Exponent R → Exponent R → Prop
  | value (x : R) : Filled b (.value x) (.value x)
  | symbol {name : String} {x : R} (bound : b.get? name = some x) :
      Filled b (.symbol name) (.value x)

/-- The same operation on the same qubits, with its exponent filled in. -/
inductive Operation.Filled (b : Bindings R) : Operation R → Operation R → Prop
  | power {axis : Pauli} {q : Qubit} {e e' : Exponent R} (exponent : e.Filled b e') :
      Filled b (.power axis q e) (.power axis q e')
  | hadamard (q : Qubit) : Filled b (.hadamard q) (.hadamard q)
  | cnot (p q : Qubit) : Filled b (.cnot p q) (.cnot p q)
  | cz (p q : Qubit) : Filled b (.cz p q) (.cz p q)
  | measure (qs : List Qubit) (key : String) : Filled b (.measure qs key) (.measure qs key)

theorem Exponent.resolve_eq_ok_iff {e e' : Exponent R} :
    e.resolve b = .ok e' ↔ e.Filled b e' := by
  cases e with
  | value x =>
    constructor
    · rintro ⟨⟩
      exact .value x
    · rintro ⟨⟩
      rfl
  | symbol name =>
    constructor
    · intro h
      rw [resolve] at h
      split at h
      next x hx =>
        cases h
        exact .symbol hx
      next => cases h
    · rintro ⟨⟩
      next x hx => simp [resolve, hx]

namespace Operation

variable {op op' : Operation R}

theorem resolve_eq_ok_iff : op.resolve b = .ok op' ↔ op.Filled b op' := by
  cases op with
  | power axis q e =>
    rw [resolve, map_eq_ok_iff]
    constructor
    · rintro ⟨e', he, rfl⟩
      exact .power (Exponent.resolve_eq_ok_iff.mp he)
    · rintro ⟨⟩
      next e' he => exact ⟨e', Exponent.resolve_eq_ok_iff.mpr he, rfl⟩
  | hadamard _ | cnot _ _ | cz _ _ | measure _ _ =>
    constructor
    · rintro ⟨⟩
      constructor
    · rintro ⟨⟩
      rfl

theorem Filled.symbol?_eq_none (h : op.Filled b op') : op'.symbol? = none := by
  cases h with
  | power exponent => cases exponent <;> rfl
  | hadamard _ | cnot _ _ | cz _ _ | measure _ _ => rfl

end Operation

namespace Circuit

variable {c c' : Circuit R}

theorem resolve_eq_ok_iff : c.resolve b = .ok c' ↔
    List.Forall₂ (List.Forall₂ (Operation.Filled b)) c.moments c'.moments := by
  have hmoments : c.moments.mapM (List.mapM (Operation.resolve b)) = .ok c'.moments ↔
      List.Forall₂ (List.Forall₂ (Operation.Filled b)) c.moments c'.moments := by
    simp only [mapM_eq_ok_iff, Operation.resolve_eq_ok_iff]
  rw [← hmoments, resolve, map_eq_ok_iff]
  constructor
  · rintro ⟨moments, h, rfl⟩
    exact h
  · intro h
    exact ⟨c'.moments, h, rfl⟩

theorem isParameterized_of_resolve (h : c.resolve b = .ok c') : c'.isParameterized = false := by
  refine List.any_eq_false.mpr fun op' hop' => ?_
  obtain ⟨op, _, hop⟩ := forall₂_exists_of_mem (forall₂_operations h) hop'
  rw [(Operation.resolve_eq_ok_iff.mp hop).symbol?_eq_none]
  exact Bool.false_ne_true

/-- Listing names once each keeps the first that has a property. -/
theorem find?_foldl_distinct (p : String → Bool) (names seen : List String) :
    (names.foldl (fun seen n => if n ∈ seen then seen else seen ++ [n]) seen).find? p =
      (seen ++ names).find? p := by
  induction names generalizing seen with
  | nil => simp
  | cons n rest ih =>
    rw [List.foldl_cons, ih]
    by_cases hn : n ∈ seen
    · rw [if_pos hn, List.find?_append, List.find?_append, List.find?_cons]
      -- a repeated name with the property is found among the earlier ones
      cases hp : p n with
      | false => rfl
      | true =>
        have hfound : (seen.find? p).isSome := List.find?_isSome.mpr ⟨n, hn, hp⟩
        obtain ⟨m, hm⟩ := Option.isSome_iff_exists.mp hfound
        rw [hm]
        rfl
    · rw [if_neg hn, List.append_assoc, List.singleton_append]

theorem find?_symbols (p : String → Bool) :
    c.symbols.find? p = (c.operations.filterMap Operation.symbol?).find? p :=
  find?_foldl_distinct p _ []

theorem forall_bound_iff :
    (∀ op ∈ c.operations, op.Bound b) ↔ ∀ name ∈ c.symbols, ∃ x, b.get? name = some x := by
  have hmem : ∀ name, name ∈ c.symbols ↔ ∃ op ∈ c.operations, op.symbol? = some name := by
    intro name
    rw [symbols, mem_foldl_distinct, List.mem_filterMap]
    simp
  constructor
  · intro h name hname
    obtain ⟨op, hop, hsymbol⟩ := (hmem name).mp hname
    exact h op hop name hsymbol
  · intro h op hop name hsymbol
    exact h name ((hmem name).mpr ⟨op, hop, hsymbol⟩)

/-- A circuit fails to resolve on the first of its symbols that is not bound. -/
theorem resolve_eq_error_iff {fault : Fault} : c.resolve b = .error fault ↔
    ∃ name, c.symbols.find? (fun name => (b.get? name).isNone) = some name ∧
      fault = .unresolvedSymbol name := by
  by_cases hbound : ∀ op ∈ c.operations, op.Bound b
  · obtain ⟨c', hc'⟩ := exists_resolve hbound
    constructor
    · intro h
      cases hc'.symm.trans h
    · rintro ⟨name, hname, rfl⟩
      obtain ⟨x, hx⟩ := forall_bound_iff.mp hbound name (List.mem_of_find?_eq_some hname)
      have hfree := List.find?_some hname
      simp [hx] at hfree
  · obtain ⟨before, op, after, hsplit, hbefore, hop⟩ :=
      exists_first_failure (by simpa using hbound)
    simp only [Operation.Bound, not_forall] at hop
    obtain ⟨name, hname, hfree⟩ := hop
    have hnone : b.get? name = none :=
      Option.eq_none_iff_forall_ne_some.mpr fun x hx => hfree ⟨x, hx⟩
    have hearlier : (before.filterMap Operation.symbol?).find?
        (fun name => (b.get? name).isNone) = none := by
      refine List.find?_eq_none.mpr fun n hn => ?_
      obtain ⟨o, ho, hsymbol⟩ := List.mem_filterMap.mp hn
      obtain ⟨x, hx⟩ := hbefore o ho n hsymbol
      simp [hx]
    have hfirst : c.symbols.find? (fun name => (b.get? name).isNone) = some name := by
      rw [find?_symbols, hsplit, List.filterMap_append, List.find?_append, hearlier,
        List.filterMap_cons_some hname, List.find?_cons_of_pos (by simp [hnone])]
      rfl
    have hfails := resolve_of_unbound hsplit hbefore hname hnone
    constructor
    · intro h
      exact ⟨name, hfirst, Except.error.inj (h.symm.trans hfails)⟩
    · rintro ⟨name', hname', rfl⟩
      rw [hfails, Option.some.inj (hfirst.symm.trans hname')]

theorem mem_names_of_resolve (h : c.resolve b = .ok c') : ∀ name ∈ c.symbols, name ∈ b.names := by
  intro name hname
  by_contra hfree
  have hnone : (b.get? name).isNone := by rw [Bindings.get?_eq_none_iff.mpr hfree, Option.isNone_none]
  obtain ⟨first, hfirst⟩ : ∃ first, c.symbols.find? (fun name => (b.get? name).isNone) = some first :=
    Option.isSome_iff_exists.mp (List.find?_isSome.mpr ⟨name, hname, hnone⟩)
  cases h.symm.trans (resolve_eq_error_iff.mpr ⟨first, hfirst, rfl⟩)

theorem resolve_append (c d : Circuit R) (b : Bindings R) : (c ++ d).resolve b = do
    let c' ← c.resolve b
    let d' ← d.resolve b
    return c' ++ d' := by
  have hmoments : (c ++ d).moments = c.moments ++ d.moments := rfl
  unfold resolve
  rw [hmoments, List.mapM_append]
  cases c.moments.mapM (List.mapM (Operation.resolve b)) with
  | error fault => rfl
  | ok moments => cases d.moments.mapM (List.mapM (Operation.resolve b)) <;> rfl

end Circuit

/-- A circuit resolves exactly if each of its symbols is bound, and fails on the first one that is
not. A resolved circuit has the moments and operations of the circuit, with each exponent kept or
replaced by the value of its symbol, on the same qubits and with the same measurements. It has no
symbols left and resolves to itself. A circuit followed by another resolves to what the two resolve
to, and fails as the first one does, else as the second. -/
theorem resolution_replaces_symbols (c : Circuit R) (b : Bindings R) :
    ((∃ c', c.resolve b = .ok c') ↔ ∀ name ∈ c.symbols, ∃ x, b.get? name = some x) ∧
      (∀ fault, c.resolve b = .error fault ↔
        ∃ name, c.symbols.find? (fun name => (b.get? name).isNone) = some name ∧
          fault = .unresolvedSymbol name) ∧
      (∀ c', c.resolve b = .ok c' ↔
        List.Forall₂ (List.Forall₂ (Operation.Filled b)) c.moments c'.moments) ∧
      (∀ c', c.resolve b = .ok c' → c'.qubits = c.qubits ∧ c'.measurements = c.measurements ∧
        (∀ key, c'.measurement? key = c.measurement? key) ∧ c'.isParameterized = false ∧
        ∀ b', c'.resolve b' = .ok c') ∧
      ∀ d, (c ++ d).resolve b = do
        let c' ← c.resolve b
        let d' ← d.resolve b
        return c' ++ d' := by
  refine ⟨?_, fun fault => Circuit.resolve_eq_error_iff, fun c' => Circuit.resolve_eq_ok_iff,
    fun c' h => ?_, fun d => Circuit.resolve_append c d b⟩
  · rw [← Circuit.forall_bound_iff]
    constructor
    · rintro ⟨c', hc'⟩
      intro op hop name hname
      obtain ⟨op', _, hfilled⟩ :=
        forall₂_exists_of_mem (Circuit.forall₂_operations hc').flip hop
      cases hx : b.get? name with
      | some x => exact ⟨x, rfl⟩
      | none => cases hfilled.symm.trans (Operation.resolve_of_unbound hname hx)
    · exact Circuit.exists_resolve
  · obtain ⟨hqubits, hmeasurements⟩ := Circuit.resolve_keeps h
    have hplain := Circuit.isParameterized_of_resolve h
    refine ⟨hqubits, hmeasurements, fun key => ?_, hplain, Circuit.resolve_eq_self hplain⟩
    rw [Circuit.measurement?, Circuit.measurement?, hmeasurements]

/-- Two symbols, the first of them in two moments: bound alone it leaves the second as the error. -/
theorem resolution_replaces_symbols_repeated :
    let c : Circuit Float := ⟨[[.power .x ⟨0⟩ (.symbol "theta")], [.cnot ⟨0⟩ ⟨1⟩],
      [.power .y ⟨1⟩ (.symbol "phi"), .power .x ⟨0⟩ (.symbol "theta")],
      [.measure [⟨0⟩, ⟨1⟩] "m"]]⟩
    let half : Bindings Float := Bindings.empty.set "theta" 0.5
    let full : Bindings Float := half.set "phi" 0.25
    c.symbols = ["theta", "phi"] ∧ c.resolve half = .error (.unresolvedSymbol "phi") ∧
      ∃ c', c.resolve full = .ok c' ∧ c'.qubits = [⟨0⟩, ⟨1⟩] ∧
        c'.measurement? "m" = .ok [⟨0⟩, ⟨1⟩] ∧ c'.isParameterized = false ∧
        c'.resolve ∅ = .ok c' ∧ (c ++ c').resolve full = .ok (c' ++ c') := by
  intro c half full
  obtain ⟨_, herror, _, _, _⟩ := resolution_replaces_symbols c half
  obtain ⟨hok, _, _, hkeeps, happend⟩ := resolution_replaces_symbols c full
  have hphi := (herror (.unresolvedSymbol "phi")).mpr ⟨"phi", rfl, rfl⟩
  have hsymbols : c.symbols = ["theta", "phi"] := rfl
  have hbound : ∀ name ∈ c.symbols, ∃ x, full.get? name = some x := by
    rw [hsymbols]
    exact List.forall_mem_cons.mpr ⟨⟨0.5, rfl⟩, List.forall_mem_singleton.mpr ⟨0.25, rfl⟩⟩
  obtain ⟨c', hc'⟩ := hok.mpr hbound
  obtain ⟨hqubits, _, hmeasured, hplain, hagain⟩ := hkeeps c' hc'
  refine ⟨hsymbols, hphi, c', hc', hqubits, hmeasured "m", hplain, hagain ∅, ?_⟩
  rw [happend c', hc', hagain full]
  rfl

end PauliEstimation
