import PauliEstimation.Proofs.BasisChange.Binding

namespace PauliEstimation

variable {R : Type}

namespace Circuit

theorem mem_foldl_distinct {names : List String} {seen : List String} {name : String} :
    name ∈ names.foldl (fun seen n => if n ∈ seen then seen else seen ++ [n]) seen ↔
      name ∈ seen ∨ name ∈ names := by
  induction names generalizing seen with
  | nil => simp
  | cons n rest ih =>
    rw [List.foldl_cons, ih]
    by_cases hn : n ∈ seen
    · rw [if_pos hn]
      by_cases he : name = n
      · simp [he, hn]
      · simp [he]
    · rw [if_neg hn]
      simp [or_assoc]

@[simp]
theorem mem_symbols {c : Circuit R} {name : String} :
    name ∈ c.symbols ↔ ∃ moment ∈ c.moments, ∃ op ∈ moment, op.symbol? = some name := by
  simp [symbols, mem_foldl_distinct, operations]

end Circuit

theorem Operation.resolve_congr {b b' : Bindings R} {op : Operation R}
    (h : ∀ name, op.symbol? = some name → b.get? name = b'.get? name) :
    op.resolve b = op.resolve b' := by
  cases op with
  | power axis q e =>
    cases e with
    | value x => rfl
    | symbol name =>
      have hname := h name rfl
      simp only [resolve, Exponent.resolve, hname]
  | hadamard q => rfl
  | cnot c t => rfl
  | cz a b => rfl
  | measure qs key => rfl

/-- Bindings that agree on the symbols of a circuit resolve it alike. -/
theorem Circuit.resolve_congr {b b' : Bindings R} {c : Circuit R}
    (h : ∀ name ∈ c.symbols, b.get? name = b'.get? name) : c.resolve b = c.resolve b' := by
  have hmoments : c.moments.mapM (List.mapM (Operation.resolve b)) =
      c.moments.mapM (List.mapM (Operation.resolve b')) := by
    refine mapM_congr fun moment hm => mapM_congr fun op hop => Operation.resolve_congr ?_
    intro name hname
    exact h name (mem_symbols.mpr ⟨moment, hm, op, hop, hname⟩)
  rw [resolve, resolve, hmoments]

theorem Operation.resolve_keeps {b : Bindings R} {op op' : Operation R}
    (h : op.resolve b = .ok op') :
    op.qubits = op'.qubits ∧ op.measurement? = op'.measurement? := by
  cases op with
  | power axis q e =>
    obtain ⟨e', _, rfl⟩ := map_eq_ok_iff.mp h
    exact ⟨rfl, rfl⟩
  | hadamard _ | cnot _ _ | cz _ _ | measure _ _ =>
    cases h
    exact ⟨rfl, rfl⟩

/-- A circuit keeps its qubits and its measurements when it is resolved. -/
theorem Circuit.resolve_keeps {b : Bindings R} {c c' : Circuit R} (h : c.resolve b = .ok c') :
    c'.qubits = c.qubits ∧ c'.measurements = c.measurements := by
  obtain ⟨moments, hm, rfl⟩ := map_eq_ok_iff.mp h
  have hops : List.Forall₂ (fun op op' => op.resolve b = .ok op') c.operations moments.flatten :=
    List.rel_flatten ((mapM_eq_ok_iff.mp hm).imp fun _ _ => mapM_eq_ok_iff.mp)
  have hqubits := map_eq_map_of_forall₂ hops fun _ _ hop => (Operation.resolve_keeps hop).1
  have hkeys := map_eq_map_of_forall₂ hops fun _ _ hop => (Operation.resolve_keeps hop).2
  constructor
  · exact congrArg (fun qubits => Qubit.ascending qubits.flatten) hqubits.symm
  · have h := congrArg (List.filterMap id) hkeys.symm
    rwa [List.filterMap_map, List.filterMap_map] at h

theorem Circuit.resolve_eq_self {c : Circuit R} (h : c.isParameterized = false) (b : Bindings R) :
    c.resolve b = .ok c := by
  have hop : ∀ moment ∈ c.moments, ∀ op ∈ moment, op.resolve b = .ok op := by
    intro moment hm op hop
    have hsymbol : op.symbol? = none := by
      simpa [isParameterized, operations] using
        List.any_eq_false.mp h op (List.mem_flatten.mpr ⟨moment, hm, hop⟩)
    cases op with
    | power axis q e =>
      cases e with
      | value t => rfl
      | symbol name => cases hsymbol
    | hadamard _ | cnot _ _ | cz _ _ | measure _ _ => rfl
  have hmoments : c.moments.mapM (List.mapM (Operation.resolve b)) = .ok c.moments := by
    rw [mapM_eq_ok_iff, List.forall₂_same]
    intro moment hm
    rw [mapM_eq_ok_iff, List.forall₂_same]
    exact hop moment hm
  rw [resolve, hmoments]
  rfl

/-- Moments that resolve by themselves stay around whatever the moments between them come to. -/
theorem Circuit.resolve_between {b : Bindings R} {before before' after after' : List (Moment R)}
    (c : Circuit R) (hb : before.mapM (List.mapM (Operation.resolve b)) = .ok before')
    (ha : after.mapM (List.mapM (Operation.resolve b)) = .ok after') :
    Circuit.resolve ⟨before ++ c.moments ++ after⟩ b =
      (c.resolve b).map fun resolved => ⟨before' ++ resolved.moments ++ after'⟩ := by
  unfold resolve
  dsimp only
  rw [List.mapM_append, List.mapM_append, hb, ha]
  cases c.moments.mapM (List.mapM (Operation.resolve b)) with
  | error fault => rfl
  | ok moments => rfl

namespace BasisChange

/-- How one qubit is prepared and read. -/
@[ext] structure Frame where
  qubit : Qubit
  state : Eigenstate
  axis : Pauli
  flip : Bool

/-- The frames of a setting on all listed qubits, with one flip for each. -/
structure IsFraming (s : Setting R) (qubits : List Qubit) (flips : List Bool)
    (frames : List Frame) : Prop where
  qubits_eq : frames.map Frame.qubit = qubits
  flips_eq : frames.map Frame.flip = flips
  state_eq : ∀ f ∈ frames, s.initial.get? f.qubit = some f.state
  axis_eq : ∀ f ∈ frames, s.observable.get? f.qubit = some f.axis

theorem exists_framing {s : Setting R} {qubits : List Qubit} {flips : List Bool}
    (hobs : ∀ q ∈ qubits, q ∈ s.observable.qubits) (hinit : ∀ q ∈ qubits, q ∈ s.initial.keys)
    (hlen : flips.length = qubits.length) : ∃ frames, IsFraming s qubits flips frames := by
  induction qubits generalizing flips with
  | nil => exact ⟨[], rfl, (List.eq_nil_of_length_eq_zero hlen).symm, by simp, by simp⟩
  | cons q qubits ih =>
    cases flips with
    | nil => cases hlen
    | cons flip flips =>
      obtain ⟨hq, hobs⟩ := List.forall_mem_cons.mp hobs
      obtain ⟨hq', hinit⟩ := List.forall_mem_cons.mp hinit
      obtain ⟨axis, haxis⟩ := QubitMap.mem_keys_iff.mp hq
      obtain ⟨state, hstate⟩ := QubitMap.mem_keys_iff.mp hq'
      obtain ⟨frames, h⟩ := ih hobs hinit (Nat.succ.inj hlen)
      exact ⟨⟨q, state, axis, flip⟩ :: frames, by simp [h.qubits_eq], by simp [h.flips_eq],
        List.forall_mem_cons.mpr ⟨hstate, h.state_eq⟩, List.forall_mem_cons.mpr ⟨haxis, h.axis_eq⟩⟩

/-- The frames of a setting are determined by the qubits and the flips. -/
theorem IsFraming.unique {s : Setting R} {qubits : List Qubit} {flips : List Bool}
    {frames frames' : List Frame} (h : IsFraming s qubits flips frames)
    (h' : IsFraming s qubits flips frames') : frames = frames' := by
  have hqubits := h.qubits_eq.trans h'.qubits_eq.symm
  have hflips := h.flips_eq.trans h'.flips_eq.symm
  have hlen : frames.length = frames'.length := by simpa using congrArg List.length hqubits
  apply List.ext_getElem hlen
  intro k hk hk'
  have hqubit : frames[k].qubit = frames'[k].qubit := by
    simpa [hk, hk'] using congrArg (fun qs => qs[k]?) hqubits
  have hflip : frames[k].flip = frames'[k].flip := by
    simpa [hk, hk'] using congrArg (fun bs => bs[k]?) hflips
  have hstate := h.state_eq _ (List.getElem_mem hk)
  have haxis := h.axis_eq _ (List.getElem_mem hk)
  rw [hqubit, h'.state_eq _ (List.getElem_mem hk')] at hstate
  rw [hqubit, h'.axis_eq _ (List.getElem_mem hk')] at haxis
  exact Frame.ext hqubit (Option.some.inj hstate).symm (Option.some.inj haxis).symm hflip

variable [Scalar R]

/-- The exponent that the table holds for a frame in a layer. -/
def Frame.exponent (f : Frame) : Slot → R
  | .xInitial => (initialExponents f.state).1
  | .yInitial => (initialExponents f.state).2
  | .xFinal => (finalExponents f.axis f.flip).1
  | .yFinal => (finalExponents f.axis f.flip).2

def rotations (slot : Slot) (frames : List Frame) : Moment R :=
  frames.map fun f => .power slot.axis f.qubit (.value (f.exponent slot))

/-- A circuit between the rotations of the frames, with the joint measurement after them. -/
def flanked (c : Circuit R) (needsInitial : Bool) (frames : List Frame) : Circuit R :=
  ⟨(if needsInitial then [rotations .xInitial frames, rotations .yInitial frames] else []) ++
    c.moments ++ [rotations .xFinal frames, rotations .yFinal frames,
      [.measure (frames.map Frame.qubit) key]]⟩

/-- Binding a qubit leaves alone every name that is not one of its symbols. -/
theorem get?_of_bindQubit?_of_ne {s : Setting R} {needsInitial flip : Bool} {b b' : Bindings R}
    {q : Qubit} {name : String} (h : bindQubit? s needsInitial b q flip = .ok b')
    (hname : ∀ slot : Slot, slot.symbol q ≠ name) : b'.get? name = b.get? name := by
  unfold bindQubit? at h
  split at h
  next => cases h
  next axis _ =>
    dsimp only at h
    split at h
    next =>
      split at h
      next => cases h
      next state _ =>
        cases h
        simp [setPair, hname]
    next =>
      cases h
      simp [setPair, hname]

theorem get?_of_bindAll_of_ne {s : Setting R} {needsInitial : Bool} {es : List (Qubit × Bool)}
    {b b' : Bindings R} {name : String}
    (h : es.foldlM (fun b e => bindQubit? s needsInitial b e.1 e.2) b = .ok b')
    (hname : ∀ e ∈ es, ∀ slot : Slot, slot.symbol e.1 ≠ name) : b'.get? name = b.get? name := by
  induction es generalizing b with
  | nil =>
    cases h
    rfl
  | cons e rest ih =>
    obtain ⟨he, hrest⟩ := List.forall_mem_cons.mp hname
    obtain ⟨b₁, hb₁, h⟩ := bind_eq_ok_iff.mp h
    rw [ih h hrest, get?_of_bindQubit?_of_ne hb₁ he]

/-- The bindings of the template name nothing but its symbols. -/
theorem get?_of_bindings?_of_ne {s : Setting R} {flips : List Bool} {qubits : List Qubit}
    {needsInitial : Bool} {b : Bindings R} {name : String}
    (h : bindings? s flips qubits needsInitial = .ok b)
    (hname : ∀ q ∈ qubits, ∀ slot : Slot, slot.symbol q ≠ name) : b.get? name = none := by
  unfold bindings? at h
  split at h
  next =>
    rw [get?_of_bindAll_of_ne h fun e he => hname e.1 (List.of_mem_zip he).1, Bindings.get?_empty]
  next => cases h

section Template

variable {c : Circuit R} {s : Setting R} {flips : List Bool} {qubits : List Qubit}
  {needsInitial : Bool} {b p : Bindings R}

theorem IsFraming.slotExponent?_eq {frames : List Frame} (h : IsFraming s qubits flips frames)
    {f : Frame} (hf : f ∈ frames) (slot : Slot) :
    slotExponent? s f.flip f.qubit slot = some (f.exponent slot) := by
  cases slot with
  | xInitial => rw [slotExponent?, h.state_eq f hf]; rfl
  | yInitial => rw [slotExponent?, h.state_eq f hf]; rfl
  | xFinal => rw [slotExponent?, h.axis_eq f hf]; rfl
  | yFinal => rw [slotExponent?, h.axis_eq f hf]; rfl

/-- The layers in use become the rotations of the frames, whatever other names are bound as well. -/
theorem resolve_layer_extend {frames : List Frame} (hn : qubits.Nodup)
    (hb : bindings? s flips qubits needsInitial = .ok b) (h : IsFraming s qubits flips frames)
    (hp : ∀ q ∈ qubits, ∀ slot : Slot, slot.symbol q ∉ p.names) {slot : Slot}
    (hused : slot.isUsed needsInitial) :
    (layer slot qubits).mapM (Operation.resolve (b.extend p)) = .ok (rotations slot frames) := by
  have hmem : ∀ f ∈ frames, f.qubit ∈ qubits := fun f hf => h.qubits_eq ▸ List.mem_map_of_mem hf
  have hlen : flips.length = qubits.length := by simp [← h.flips_eq, ← h.qubits_eq]
  have hcovered : ∀ q ∈ qubits, q ∈ s.observable.qubits ∧ q ∈ s.initial.keys := by
    intro q hq
    rw [← h.qubits_eq] at hq
    obtain ⟨f, hf, rfl⟩ := List.mem_map.mp hq
    exact ⟨QubitMap.mem_keys_iff.mpr ⟨_, h.axis_eq f hf⟩,
      QubitMap.mem_keys_iff.mpr ⟨_, h.state_eq f hf⟩⟩
  obtain ⟨b', hb', hget⟩ := bindings?_eq_ok hn hlen (fun q hq => (hcovered q hq).1)
    fun (_ : needsInitial = true) q hq => (hcovered q hq).2
  obtain rfl : b = b' := Except.ok.inj (hb.symm.trans hb')
  have hbound : ∀ f ∈ frames, (b.extend p).get? (slot.symbol f.qubit) = some (f.exponent slot) := by
    intro f hf
    obtain ⟨k, hk⟩ := List.mem_iff_getElem?.mp hf
    have hfree : p.get? (slot.symbol f.qubit) = none :=
      Bindings.get?_eq_none_iff.mpr (hp f.qubit (hmem f hf) slot)
    rw [Bindings.get?_extend, hfree, Option.none_or,
      hget k f.qubit f.flip (by simp [← h.qubits_eq, hk]) (by simp [← h.flips_eq, hk]) slot hused]
    exact h.slotExponent?_eq hf slot
  rw [← h.qubits_eq]
  exact resolve_layer_map hbound

/-- Bound for a setting on all the qubits, the template resolves as the circuit does under its own
bindings, with the rotations of the setting around it. -/
theorem resolve_template {frames : List Frame} (hn : qubits.Nodup)
    (hb : bindings? s flips qubits needsInitial = .ok b) (h : IsFraming s qubits flips frames)
    (hc : ∀ q ∈ qubits, ∀ slot : Slot, slot.symbol q ∉ c.symbols)
    (hp : ∀ q ∈ qubits, ∀ slot : Slot, slot.symbol q ∉ p.names) :
    (template c qubits needsInitial).resolve (b.extend p) =
      (c.resolve p).map fun resolved => flanked resolved needsInitial frames := by
  have hfirst : (if needsInitial then [layer .xInitial qubits, layer .yInitial qubits]
      else [] : List (Moment R)).mapM (List.mapM (Operation.resolve (b.extend p))) =
      .ok (if needsInitial then [rotations .xInitial frames, rotations .yInitial frames]
        else []) := by
    split
    next hneeds =>
      exact mapM_eq_ok_iff.mpr (.cons (resolve_layer_extend hn hb h hp hneeds)
        (.cons (resolve_layer_extend hn hb h hp hneeds) .nil))
    next => rfl
  have hlast : [layer .xFinal qubits, layer .yFinal qubits, [.measure qubits key]].mapM
      (List.mapM (Operation.resolve (b.extend p))) =
      .ok [rotations .xFinal frames, rotations .yFinal frames, [.measure qubits key]] :=
    mapM_eq_ok_iff.mpr (.cons (resolve_layer_extend hn hb h hp rfl)
      (.cons (resolve_layer_extend hn hb h hp rfl) (.cons rfl .nil)))
  have hbody : c.resolve (b.extend p) = c.resolve p := by
    refine Circuit.resolve_congr fun name hname => ?_
    have hfree : b.get? name = none :=
      get?_of_bindings?_of_ne hb fun q hq slot he => hc q hq slot (he ▸ hname)
    rw [Bindings.get?_extend, hfree, Option.or_none]
  rw [template, Circuit.resolve_between c hfirst hlast, hbody, ← h.qubits_eq]
  rfl

end Template

end BasisChange

end PauliEstimation
