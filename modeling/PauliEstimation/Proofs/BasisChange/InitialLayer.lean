import PauliEstimation.Proofs.Circuit.Substitution
import PauliEstimation.Proofs.Measurement.Layout
import PauliEstimation.Proofs.Measurement.PartialReadout
import PauliEstimation.Proofs.Register.Idle
import PauliEstimation.Proofs.Register.Weight

namespace PauliEstimation

namespace BasisChange

section Bindings

variable {R : Type} [Scalar R]

/-- Bindings with and without the initial layer: they agree on the final layer, and the symbols of
the initial one are bound to zero for the qubits so far. -/
structure Twins (qubits : List Qubit) (b b' : Bindings R) : Prop where
  final : ∀ (slot : Slot) (q : Qubit), slot.isUsed false →
    b.get? (slot.symbol q) = b'.get? (slot.symbol q)
  initial : ∀ (slot : Slot), ∀ q ∈ qubits, slot.isUsed false = false →
    b.get? (slot.symbol q) = some 0

variable {s : Setting R} {qubits : List Qubit} {b b' : Bindings R}

theorem slotExponent?_of_zero {q : Qubit} (hq : s.initial.get? q = some .zero) (flip : Bool)
    {slot : Slot} (hslot : slot.isUsed false = false) : slotExponent? s flip q slot = some 0 := by
  cases slot with
  | xInitial | yInitial =>
    rw [slotExponent?, hq]
    rfl
  | xFinal | yFinal => cases hslot

/-- Binding one more qubit fails alike or leaves twins. -/
theorem Twins.step (h : Twins qubits b b') {q : Qubit} (hq : s.initial.get? q = some .zero)
    (flip : Bool) :
    (∃ e, bindQubit? s true b q flip = .error e ∧ bindQubit? s false b' q flip = .error e) ∨
      ∃ c c', bindQubit? s true b q flip = .ok c ∧ bindQubit? s false b' q flip = .ok c' ∧
        Twins (qubits ++ [q]) c c' := by
  cases haxis : s.observable.get? q with
  | none =>
    left
    exact ⟨.unpaddedSetting q .observable, by rw [bindQubit?, haxis],
      by rw [bindQubit?, haxis]⟩
  | some axis =>
    right
    have hobs : q ∈ s.observable.qubits := QubitMap.mem_keys_iff.mpr ⟨axis, haxis⟩
    have hinit : q ∈ s.initial.keys := QubitMap.mem_keys_iff.mpr ⟨.zero, hq⟩
    obtain ⟨c, hc⟩ : ∃ c, bindQubit? s true b q flip = .ok c :=
      bindQubit?_eq_ok b flip hobs fun _ => hinit
    obtain ⟨c', hc'⟩ : ∃ c', bindQubit? s false b' q flip = .ok c' :=
      bindQubit?_eq_ok b' flip hobs fun _ => hinit
    refine ⟨c, c', hc, hc', fun slot p hslot => ?_, fun slot p hp hslot => ?_⟩
    · have hused : slot.isUsed true := by cases slot <;> rfl
      rw [get?_of_bindQubit? hc, get?_of_bindQubit? hc', h.final slot p hslot]
      simp only [hslot, hused]
    · have hused : slot.isUsed true := by cases slot <;> rfl
      rw [get?_of_bindQubit? hc]
      by_cases he : q = p
      · subst he
        rw [if_pos ⟨rfl, hused⟩, slotExponent?_of_zero hq flip hslot]
      · rw [if_neg fun hand => he hand.1]
        have hp : p ∈ qubits := by simpa [Ne.symm he] using hp
        exact h.initial slot p hp hslot

theorem Twins.fold (h : Twins qubits b b') (es : List (Qubit × Bool))
    (hzero : ∀ e ∈ es, s.initial.get? e.1 = some .zero) :
    (∃ e, es.foldlM (fun b e => bindQubit? s true b e.1 e.2) b = .error e ∧
        es.foldlM (fun b e => bindQubit? s false b e.1 e.2) b' = .error e) ∨
      ∃ c c', es.foldlM (fun b e => bindQubit? s true b e.1 e.2) b = .ok c ∧
        es.foldlM (fun b e => bindQubit? s false b e.1 e.2) b' = .ok c' ∧
        Twins (qubits ++ es.map Prod.fst) c c' := by
  induction es generalizing qubits b b' with
  | nil => exact .inr ⟨b, b', rfl, rfl, by simpa using h⟩
  | cons e rest ih =>
    obtain ⟨he, hrest⟩ := List.forall_mem_cons.mp hzero
    rw [List.foldlM_cons, List.foldlM_cons]
    rcases h.step he e.2 with ⟨error, hb, hb'⟩ | ⟨c, c', hc, hc', htwins⟩
    · exact .inl ⟨error, bind_of_error hb, bind_of_error hb'⟩
    · rw [hc, hc', List.map_cons, ← List.singleton_append, ← List.append_assoc]
      exact ih htwins hrest

/-- Without states to prepare, the bindings with and without the initial layer fail alike or are
twins. -/
theorem bindings?_twins (flips : List Bool) (hzero : ∀ q ∈ qubits, s.initial.get? q = some .zero) :
    (∃ e, bindings? s flips qubits true = .error e ∧ bindings? s flips qubits false = .error e) ∨
      ∃ b b', bindings? s flips qubits true = .ok b ∧ bindings? s flips qubits false = .ok b' ∧
        Twins qubits b b' := by
  by_cases hlen : qubits.length = flips.length
  · have hempty : Twins (R := R) [] .empty .empty := ⟨fun _ _ _ => rfl, fun _ _ hq => nomatch hq⟩
    have hall := hempty.fold (s := s) (qubits.zip flips)
      fun e he => hzero e.1 (List.of_mem_zip he).1
    rw [List.nil_append, List.map_fst_zip (Nat.le_of_eq hlen)] at hall
    simpa only [bindings?, if_pos hlen] using hall
  · exact .inl ⟨_, if_neg hlen, if_neg hlen⟩

end Bindings

section Resolution

variable {R : Type} [Scalar R] {qubits : List Qubit} {b b' p : Bindings R} {c : Circuit R}

/-- The initial layer where nothing is prepared. -/
def idleLayer (R : Type) [Scalar R] (qubits : List Qubit) : Circuit R :=
  ⟨[qubits.map fun q => .power .x q (.value 0), qubits.map fun q => .power .y q (.value 0)]⟩

theorem mem_operations_idleLayer {op : Operation R} (h : op ∈ (idleLayer R qubits).operations) :
    ∃ axis, ∃ q ∈ qubits, op = .power axis q (.value 0) := by
  obtain ⟨moment, hm, hop⟩ := List.mem_flatten.mp h
  simp only [idleLayer, List.mem_cons, List.not_mem_nil, or_false] at hm
  rcases hm with rfl | rfl
  · obtain ⟨q, hq, rfl⟩ := List.mem_map.mp hop
    exact ⟨.x, q, hq, rfl⟩
  · obtain ⟨q, hq, rfl⟩ := List.mem_map.mp hop
    exact ⟨.y, q, hq, rfl⟩

omit [Scalar R] in
theorem template_true (c : Circuit R) (qubits : List Qubit) :
    template c qubits true = (⟨[layer .xInitial qubits, layer .yInitial qubits]⟩ : Circuit R) ++
      template c qubits false := by
  unfold template
  rw [if_pos rfl, if_neg Bool.false_ne_true, List.append_assoc]
  rfl

omit [Scalar R] in
theorem symbol_of_mem_symbols_template {name : String}
    (h : name ∈ (template c qubits false).symbols) :
    name ∈ c.symbols ∨ ∃ slot : Slot, slot.isUsed false ∧ ∃ q, name = slot.symbol q := by
  obtain ⟨moment, hm, op, hop, hname⟩ := Circuit.mem_symbols.mp h
  rcases List.mem_append.mp hm with hm | hm
  · exact .inl (Circuit.mem_symbols.mpr ⟨moment, hm, op, hop, hname⟩)
  · have hlayer (slot : Slot) (hop : op ∈ layer slot qubits) : ∃ q, name = slot.symbol q := by
      obtain ⟨q, _, rfl⟩ := List.mem_map.mp hop
      exact ⟨q, (Option.some.inj hname).symm⟩
    right
    simp only [List.mem_cons, List.not_mem_nil, or_false] at hm
    rcases hm with rfl | rfl | rfl
    · exact ⟨.xFinal, rfl, hlayer .xFinal hop⟩
    · exact ⟨.yFinal, rfl, hlayer .yFinal hop⟩
    · rw [List.mem_singleton.mp hop] at hname
      cases hname

/-- With states to prepare or without, the template resolves alike but for the idle layer. -/
theorem Twins.resolve_template (h : Twins qubits b b') (hbound : ∀ name ∈ c.symbols, name ∈ p.names)
    (hfree : ∀ q ∈ qubits, ∀ slot : Slot, slot.symbol q ∉ p.names) :
    (template c qubits true).resolve (b.extend p) =
      ((template c qubits false).resolve (b'.extend p)).map (idleLayer R qubits ++ ·) := by
  have hlayer (slot : Slot) (hslot : slot.isUsed false = false) :
      (layer slot qubits).mapM (Operation.resolve (b.extend p)) =
        .ok (qubits.map fun q => .power slot.axis q (.value 0)) := by
    refine resolve_layer fun q hq => ?_
    rw [Bindings.get?_extend, Bindings.get?_eq_none_iff.mpr (hfree q hq slot), Option.none_or]
    exact h.initial slot q hq hslot
  have hfirst : Circuit.resolve ⟨[layer .xInitial qubits, layer .yInitial qubits]⟩ (b.extend p) =
      .ok (idleLayer R qubits) :=
    map_eq_ok_iff.mpr ⟨_, mapM_eq_ok_iff.mpr
      (.cons (hlayer .xInitial rfl) (.cons (hlayer .yInitial rfl) .nil)), rfl⟩
  have hrest : (template c qubits false).resolve (b.extend p) =
      (template c qubits false).resolve (b'.extend p) := by
    refine Circuit.resolve_congr fun name hname => ?_
    rw [Bindings.get?_extend, Bindings.get?_extend]
    rcases symbol_of_mem_symbols_template hname with hc | ⟨slot, hslot, q, rfl⟩
    · -- a symbol of the circuit has its value from the bindings that come last on either side
      cases hp : p.get? name with
      | none => exact absurd (hbound name hc) (Bindings.get?_eq_none_iff.mp hp)
      | some x => rfl
    · rw [h.final slot q hslot]
  rw [template_true, Circuit.resolve_append, hfirst, hrest]
  cases (template c qubits false).resolve (b'.extend p) <;> rfl

end Resolution

/-- The idle layer can be left out of a run whose register has its qubits anyway. -/
theorem finalRegister?_idleLayer [ThinSvd ℝ] (m : MpsSampler ℝ) {qubits : List Qubit}
    {c : Circuit ℝ} (h : ∀ q ∈ qubits, q ∈ c.qubits) :
    m.finalRegister? (idleLayer ℝ qubits ++ c) = m.finalRegister? c := by
  have hqubits : (idleLayer ℝ qubits ++ c).qubits = c.qubits := by
    refine Qubit.eq_of_ascending (Qubit.pairwise_ascending _) (Qubit.pairwise_ascending _)
      fun q => ?_
    have hidle : ∀ op ∈ (idleLayer ℝ qubits).operations, q ∈ op.qubits → q ∈ qubits := by
      intro op hop hq
      obtain ⟨axis, p, hp, rfl⟩ := mem_operations_idleLayer hop
      exact List.mem_singleton.mp hq ▸ hp
    rw [Circuit.mem_qubits, Circuit.operations_append]
    constructor
    · rintro ⟨op, hop, hq⟩
      rcases List.mem_append.mp hop with hop | hop
      · exact h q (hidle op hop hq)
      · exact Circuit.mem_qubits.mpr ⟨op, hop, hq⟩
    · intro hq
      obtain ⟨op, hop, hq⟩ := Circuit.mem_qubits.mp hq
      exact ⟨op, List.mem_append_right _ hop, hq⟩
  have hregister : Register.forCircuit (idleLayer ℝ qubits ++ c) m.trunc =
      Register.forCircuit c m.trunc := by
    rw [Register.forCircuit, Register.forCircuit, hqubits]
  have hidle : (Register.forCircuit c m.trunc).applyAll (idleLayer ℝ qubits).operations =
      (Register.forCircuit c m.trunc, none) := by
    refine Register.applyAll_of_idle fun op hop => ?_
    obtain ⟨axis, q, hq, rfl⟩ := mem_operations_idleLayer hop
    have hlabel := Qubit.mem_ascending.mpr (h q hq)
    exact (Register.wellFormed_ofQubits _ _).step?_power_zero hlabel axis
  unfold MpsSampler.finalRegister? Register.applyCircuit
  rw [hregister, Circuit.operations_append, Register.applyAll_append, hidle]

theorem mem_qubits_template {R : Type} (c : Circuit R) {qubits : List Qubit} (needsInitial : Bool)
    {q : Qubit} (hq : q ∈ qubits) : q ∈ (template c qubits needsInitial).qubits := by
  refine Circuit.mem_qubits.mpr ⟨.measure qubits key, List.mem_flatten.mpr
    ⟨[.measure qubits key], ?_, List.mem_singleton_self _⟩, hq⟩
  exact List.mem_append_right _ (by simp)

/-- Twins resolve the templates to circuits that leave the same register. -/
theorem Twins.register?_eq [ThinSvd ℝ] {qubits : List Qubit} {b b' p : Bindings ℝ} {c : Circuit ℝ}
    (h : Twins qubits b b') (m : MpsSampler ℝ) (hbound : ∀ name ∈ c.symbols, name ∈ p.names)
    (hfree : ∀ q ∈ qubits, ∀ slot : Slot, slot.symbol q ∉ p.names) :
    m.register? (template c qubits true) (b.extend p) =
      m.register? (template c qubits false) (b'.extend p) := by
  unfold MpsSampler.register?
  rw [h.resolve_template hbound hfree]
  cases hresolved : (template c qubits false).resolve (b'.extend p) with
  | error fault => rfl
  | ok resolved =>
    obtain ⟨hqubits, _⟩ := Circuit.resolve_keeps hresolved
    exact finalRegister?_idleLayer m fun q hq => hqubits ▸ mem_qubits_template c false hq

end BasisChange

namespace Variant

variable {R : Type} [Scalar R] [ThinSvd R]

/-- The register that a variant is sampled from, with the initial layer or without. -/
def register? (v : Variant R) (m : MpsSampler R) (c : Circuit R) (qubits : List Qubit)
    (needsInitial : Bool) : Except (MeasurementError R) (Register R) := do
  let b ← v.bindings? qubits needsInitial
  liftFault (m.register? (BasisChange.template c qubits needsInitial) b)

end Variant

theorem ProductState.isAllZero_iff {s : ProductState} :
    s.isAllZero = true ↔ ∀ q e, s.get? q = some e → e = .zero := by
  simp [isAllZero, QubitMap.values, QubitMap.get?_eq_some_iff, QubitMap.toList]

/-- A grouping whose max settings all start from zeros measures no other setting. -/
theorem Job.isAllZero_of_start? {R : Type} [Scalar R] {c : Circuit R}
    {groups : List (SettingGroup R)} {sweep : Sweep R} {job : Job R} {session : Session R}
    (h : start? c groups sweep = .ok (job, session)) (hneeds : job.needsInitial = false) :
    (∀ g ∈ groups, ∀ s ∈ g.settings, ProductState.isAllZero s.initial = true) ∧
      ∀ spec ∈ job.specs, ProductState.isAllZero spec.max.initial = true ∧
        ∀ q ∈ job.qubits, q ∈ spec.max.initial.keys := by
  have hcovers := start?_covers h
  have hfits := fits_of_start? h
  have hmem := mem_accumulators_of_start? h
  obtain ⟨blocks, _, rfl, rfl⟩ := start?_eq_ok h
  have hmax : ∀ g ∈ groups, ProductState.isAllZero g.max.initial = true := by
    intro g hg
    simpa using List.any_eq_false.mp hneeds g.max (List.mem_map_of_mem hg)
  have hpadded : ∀ g ∈ groups,
      ProductState.isAllZero (BasisChange.padded g.max (qubitsOf groups)).initial = true := by
    intro g hg
    refine ProductState.isAllZero_iff.mpr fun q e he => ?_
    cases hq : g.max.initial.get? q with
    | some e' =>
      obtain rfl : e' = e :=
        Option.some.inj ((BasisChange.get?_padMap_of_some hq _ _).symm.trans he)
      exact ProductState.isAllZero_iff.mp (hmax g hg) q e' hq
    | none =>
      rw [BasisChange.padded, BasisChange.get?_padMap, hq, Option.none_or] at he
      split at he
      next => exact (Option.some.inj he).symm
      next => cases he
  -- a listed setting starts as its padded max setting does
  refine ⟨fun g hg s hs => ?_, fun spec hs => ⟨?_, hcovers.initial spec hs⟩⟩
  · refine ProductState.isAllZero_iff.mpr fun q e he => ?_
    have hwithin := ((hfits g hg).compatible s hs).2 (q, e) (QubitMap.get?_eq_some_iff.mp he)
    exact ProductState.isAllZero_iff.mp (hpadded g hg) q e hwithin
  · obtain ⟨a, ha, rfl⟩ := List.mem_map.mp hs
    obtain ⟨g, hg, b, _, rfl⟩ := hmem a ha
    exact hpadded g hg

/-- Where all states are `|0⟩`, the template with the initial layer and the template without it fail
with the same error or leave the same register, on the qubits of either. The layer is left out of a
measurement only if all settings that it accepts start from zeros. -/
theorem initial_layer_is_optional [ThinSvd ℝ] (m : MpsSampler ℝ) (c : Circuit ℝ)
    (qubits : List Qubit) (v : Variant ℝ) (hinit : ∀ q ∈ qubits, q ∈ v.spec.max.initial.keys)
    (hzero : ProductState.isAllZero v.spec.max.initial = true)
    (hresolves : ∃ resolved, c.resolve v.spec.bindings = .ok resolved)
    (hfree : ∀ q ∈ qubits, ∀ slot : BasisChange.Slot, slot.symbol q ∉ v.spec.bindings.names) :
    v.register? m c qubits true = v.register? m c qubits false ∧
    (∀ needsInitial register, v.register? m c qubits needsInitial = .ok register →
      register.qubits = (BasisChange.template c qubits needsInitial).qubits) ∧
    ∀ (R : Type) [Scalar R] (c : Circuit R) (groups : List (SettingGroup R)) (sweep : Sweep R)
      (job : Job R) (session : Session R), Job.start? c groups sweep = .ok (job, session) →
      job.needsInitial = false →
      (∀ g ∈ groups, ∀ s ∈ g.settings, ProductState.isAllZero s.initial = true) ∧
        ∀ spec ∈ job.specs, ProductState.isAllZero spec.max.initial = true ∧
          ∀ q ∈ job.qubits, q ∈ spec.max.initial.keys := by
  refine ⟨?_, fun needsInitial register h => ?_, fun R _ c groups sweep job session h hneeds =>
    Job.isAllZero_of_start? h hneeds⟩
  · obtain ⟨resolved, hresolved⟩ := hresolves
    have hbound := Circuit.mem_names_of_resolve hresolved
    have hstates : ∀ q ∈ qubits, v.spec.max.initial.get? q = some .zero := by
      intro q hq
      obtain ⟨e, he⟩ := QubitMap.mem_keys_iff.mp (hinit q hq)
      rw [he, ProductState.isAllZero_iff.mp hzero q e he]
    unfold Variant.register? Variant.bindings?
    rcases BasisChange.bindings?_twins v.flips hstates with
      ⟨e, he, he'⟩ | ⟨b, b', hb, hb', htwins⟩
    · rw [he, he']
      rfl
    · rw [hb, hb']
      exact congrArg liftFault (htwins.register?_eq m hbound hfree)
  · obtain ⟨b, _, h⟩ := bind_eq_ok_iff.mp h
    exact (MpsSampler.isOn_register? (liftFault_eq_ok_iff.mp h)).qubits_eq

/-- One qubit is read twice, with a flip the second time, and a symbol of the circuit is bound to a
quarter. The register has norm one. -/
theorem initial_layer_is_optional_repeated :
    let _ : ThinSvd ℝ := ⟨diagonalFactors⟩
    let m : MpsSampler ℝ := { MpsSampler.ofSeed "seed" with trunc := ⟨2, 0⟩ }
    let c : Circuit ℝ := ⟨[[.hadamard ⟨1⟩], [.cnot ⟨1⟩ ⟨0⟩], [.power .x ⟨1⟩ (.symbol "theta")]]⟩
    let qubits : List Qubit := [⟨1⟩, ⟨0⟩, ⟨1⟩]
    let max : Setting ℝ := .ofObservable (PauliString.ofList [(⟨0⟩, .x), (⟨1⟩, .y)])
    let v : Variant ℝ := ⟨0, ⟨max, .ofList [("theta", 1 / 4)]⟩, [false, false, true]⟩
    (∀ q ∈ qubits, q ∈ v.spec.max.initial.keys) ∧
      ProductState.isAllZero v.spec.max.initial = true ∧
      (∃ resolved, c.resolve v.spec.bindings = .ok resolved) ∧
      (∀ q ∈ qubits, ∀ slot : BasisChange.Slot, slot.symbol q ∉ v.spec.bindings.names) ∧
      ∃ r, v.register? m c qubits true = .ok r ∧ v.register? m c qubits false = .ok r ∧
        r.qubits = [⟨0⟩, ⟨1⟩] ∧
        ∑ i ∈ Finset.range 4, (r.state.stateVector.getD i 0).normSq = 1 := by
  intro _ m c qubits max v
  have hinit : ∀ q ∈ qubits, q ∈ v.spec.max.initial.keys := by decide
  have hzero : ProductState.isAllZero v.spec.max.initial = true := by decide
  have hresolves : ∃ resolved, c.resolve v.spec.bindings = .ok resolved := ⟨_, rfl⟩
  have hfree : ∀ q ∈ qubits, ∀ slot : BasisChange.Slot, slot.symbol q ∉ v.spec.bindings.names := by
    have hnames : v.spec.bindings.names = ["theta"] := rfl
    rw [hnames]
    intro q hq slot
    revert q
    cases slot <;> decide
  obtain ⟨hsame, hqubits, _⟩ := initial_layer_is_optional m c qubits v hinit hzero hresolves hfree
  let turns : List (Operation ℝ) := [.power .x ⟨1⟩ (.value (1 / 4)),
    .power .x ⟨1⟩ (.value (-Scalar.half)), .power .x ⟨0⟩ (.value 0),
    .power .x ⟨1⟩ (.value (-Scalar.half)), .power .y ⟨1⟩ (.value 0),
    .power .y ⟨0⟩ (.value (-Scalar.half)), .power .y ⟨1⟩ (.value 0),
    .measure qubits BasisChange.key]
  obtain ⟨b, resolved, hb, hresolved, hoperations⟩ : ∃ b resolved, v.bindings? qubits false = .ok b ∧
      (BasisChange.template c qubits false).resolve b = .ok resolved ∧
      resolved.operations = .hadamard ⟨1⟩ :: .cnot ⟨1⟩ ⟨0⟩ :: turns := ⟨_, _, rfl, rfl, rfl⟩
  have hlabels : resolved.qubits = [⟨0⟩, ⟨1⟩] := by
    rw [Circuit.qubits, hoperations]
    rfl
  have happlies : ∀ op ∈ resolved.operations, op.Applies resolved.qubits := by
    rw [hlabels, hoperations]
    simp [turns, Operation.Applies, Exponent.value?]
  obtain ⟨r, hr⟩ := m.exists_register? hresolved happlies
  have hregister : v.register? m c qubits false = .ok r := by
    rw [Variant.register?, hb]
    exact liftFault_eq_ok_iff.mpr hr
  have hrun : (Register.ofQubits [⟨1⟩, ⟨0⟩] ⟨2, 0⟩).applyCircuit resolved = (r, none) := by
    obtain ⟨_, hresolves, hfinal⟩ := bind_eq_ok_iff.mp hr
    cases hresolved.symm.trans hresolves
    have hend := MpsSampler.finalRegister?_eq_ok hfinal
    rwa [Register.forCircuit, hlabels] at hend
  have hlabels : r.qubits = [⟨0⟩, ⟨1⟩] := (hqubits false r hregister).trans (by decide)
  have hunpaired : ∀ op ∈ turns, ∀ r : Register ℝ, r.block? op = none := by
    simp [turns, Register.block?]
  have hlossless : (Register.ofQubits [⟨1⟩, ⟨0⟩] ⟨2, 0⟩).Lossless resolved.operations :=
    hoperations ▸ lossless_reversed hunpaired
  have hnorm := Register.norm_of_applyCircuit hlossless hrun
  rw [hlabels] at hnorm
  exact ⟨hinit, hzero, hresolves, hfree, r, hsame.trans hregister, hregister, hlabels, hnorm⟩

end PauliEstimation
