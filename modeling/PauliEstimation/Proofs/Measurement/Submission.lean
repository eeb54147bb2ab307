import PauliEstimation.Proofs.BasisChange.Resolution
import PauliEstimation.Proofs.Measurement.Layout
import PauliEstimation.Proofs.Measurement.Routing

namespace PauliEstimation

variable {R σ κ : Type}

/-- The position of a variant gives its specification among the pending ones, and its flip. -/
theorem Variant.getElem?_ofPending? {specs : List (Spec R)} {qubitCount : Nat} {symmetrize : Bool}
    {pending : List Nat} {variants : List (Variant R)} {v : Variant R} {j : Nat}
    (h : ofPending? specs qubitCount symmetrize pending = .ok variants)
    (hv : variants[j]? = some v) :
    ∃ k spec, pending[j / if symmetrize then 2 else 1]? = some k ∧ specs[k]? = some spec ∧
      v = ⟨k, spec, List.replicate qubitCount (symmetrize && j % 2 == 1)⟩ := by
  obtain ⟨blocks, rfl, hblocks⟩ := ofPending?_eq_ok h
  have hsize := length_block hblocks
  have hj := (List.getElem?_eq_some_iff.mp hv).1
  rw [length_flatten_blocks hsize, ← hblocks.length_eq] at hj
  have hpos : 0 < if symmetrize then 2 else 1 := by split <;> decide
  have hi : j / (if symmetrize then 2 else 1) < pending.length :=
    (Nat.div_lt_iff_lt_mul hpos).mpr hj
  obtain ⟨block, hblock, spec, hspec, rfl⟩ :=
    forall₂_getElem? hblocks (List.getElem?_eq_getElem hi)
  refine ⟨_, spec, List.getElem?_eq_getElem hi, hspec, ?_⟩
  have hread := getElem?_flatten_blocks hsize hblock (Nat.mod_lt j hpos)
  rw [Nat.div_add_mod', hv] at hread
  cases symmetrize with
  | false => simpa [ofSpec, flipChoices, Nat.mod_one] using hread
  | true =>
    rcases Nat.mod_two_eq_zero_or_one j with h0 | h1
    · simpa [ofSpec, flipChoices, h0] using hread
    · simpa [ofSpec, flipChoices, h1] using hread

variable [Scalar R]

/-- The specifications of a measurement are those of its groups at the points of the sweep. -/
theorem Job.getElem?_specs {c : Circuit R} {groups : List (SettingGroup R)} {sweep : Sweep R}
    {job : Job R} {session : Session R} {k : Nat} {spec : Spec R}
    (h : start? c groups sweep = .ok (job, session)) (hk : job.specs[k]? = some spec) :
    ∃ i l g p, k = i * sweep.points.length + l ∧ groups[i]? = some g ∧
      sweep.points[l]? = some p ∧
      BasisChange.pad? g.max (qubitsOf groups) = .ok spec.max ∧ spec.bindings = p := by
  obtain ⟨hlen, hat⟩ := start?_accumulators h
  obtain ⟨blocks, _, rfl, rfl⟩ := start?_eq_ok h
  dsimp only at hk hlen hat
  have hlt := (List.getElem?_eq_some_iff.mp hk).1
  rw [List.length_map, hlen] at hlt
  have hpos : 0 < sweep.points.length := Nat.pos_of_lt_mul_left hlt
  have hi : k / sweep.points.length < groups.length := (Nat.div_lt_iff_lt_mul hpos).mpr hlt
  have hl : k % sweep.points.length < sweep.points.length := Nat.mod_lt k hpos
  obtain ⟨padded, hpad, ha⟩ := hat _ _ _ _ (List.getElem?_eq_getElem hi)
    (List.getElem?_eq_getElem hl)
  rw [Nat.div_add_mod'] at ha
  rw [List.getElem?_map, ha] at hk
  obtain rfl := Option.some.inj hk
  exact ⟨_, _, _, _, (Nat.div_add_mod' _ _).symm, List.getElem?_eq_getElem hi,
    List.getElem?_eq_getElem hl, hpad, rfl⟩

/-- At every submitted point the program resolves as the circuit does at the point of its
specification, with the rotations of the padded setting around it. Position `j` of the sweep belongs
to the pending specification at `j`, or at `j / 2` with symmetrization, when odd positions are
flipped. -/
theorem submitted_points_resolve (sampler : Sampler R σ) (criterion : Criterion R κ)
    (config : MeasurementConfig) (c : Circuit R) (groups : List (SettingGroup R))
    (sweep : Sweep R) (fuel : Nat) (s : σ) (t : κ)
    (hc : ∀ q ∈ Job.qubitsOf groups, ∀ slot : BasisChange.Slot, slot.symbol q ∉ c.symbols)
    (hp : ∀ p ∈ sweep.points, ∀ q ∈ Job.qubitsOf groups, ∀ slot : BasisChange.Slot,
      slot.symbol q ∉ p.names) :
    let qubits := Job.qubitsOf groups
    let needsInitial := BasisChange.needsInitial (groups.map SettingGroup.max)
    ∀ call ∈ Session.calls (measureHistory sampler criterion config c groups sweep fuel s t),
      ∀ j point, call.request.sweep.points[j]? = some point →
        ∃ i l g p padded frames, groups[i]? = some g ∧ sweep.points[l]? = some p ∧
          call.plan.pending[j / if config.symmetrize then 2 else 1]? =
            some (i * sweep.points.length + l) ∧
          BasisChange.pad? g.max qubits = .ok padded ∧
          BasisChange.IsFraming padded qubits
            (List.replicate qubits.length (config.symmetrize && j % 2 == 1)) frames ∧
          (∀ fault, c.resolve p = .error fault →
            call.request.program.resolve point = .error fault) ∧
          ∀ resolved, c.resolve p = .ok resolved → call.request.program.resolve point =
            .ok (BasisChange.flanked resolved needsInitial frames) := by
  intro qubits needsInitial call hcall j point hpoint
  obtain ⟨v, hv, hvc⟩ := List.mem_filterMap.mp hcall
  unfold measureHistory at hv
  split at hv
  next => cases hv
  next job session hstart =>
    obtain ⟨_, s₁, t₁, hcall⟩ := Session.history_invariant (P := fun _ => True) trivial
      (fun _ _ => trivial) hv
    have hs := Session.submits_of_call? (hcall.symm.trans hvc)
    have hcover := Job.start?_covers hstart
    obtain ⟨v, hv, hbind⟩ := forall₂_getElem? hs.points.flip hpoint
    obtain ⟨k, spec, hk, hspec, rfl⟩ := Variant.getElem?_ofPending? hs.variants_eq hv
    obtain ⟨i, l, g, p, rfl, hg, hl, hpad, rfl⟩ := Job.getElem?_specs hstart hspec
    have hmem := List.mem_of_getElem? hspec
    obtain ⟨blocks, _, hjob, _⟩ := Job.start?_eq_ok hstart
    have hqubits : job.qubits = qubits := by rw [hjob]
    have hprogram : call.request.program = BasisChange.template c qubits needsInitial := by
      rw [hs.program_eq, hjob]
    have hneeds : job.needsInitial = needsInitial := by rw [hjob]
    have hobs := hcover.observable spec hmem
    have hinit := hcover.initial spec hmem
    rw [hqubits] at hobs hinit hbind
    rw [hneeds] at hbind
    have hflips : (List.replicate qubits.length (config.symmetrize && j % 2 == 1)).length =
        qubits.length := List.length_replicate
    obtain ⟨frames, hframes⟩ := BasisChange.exists_framing hobs hinit hflips
    obtain ⟨b, hb, hextend⟩ := bind_eq_ok_iff.mp hbind
    cases hextend
    have hresolve := BasisChange.resolve_template (Job.nodup_qubitsOf groups) hb hframes hc
      (hp _ (List.mem_of_getElem? hl))
    refine ⟨i, l, g, _, spec.max, frames, hg, hl, hk, hpad, hframes, ?_, ?_⟩
    · intro fault hfault
      rw [hprogram, hresolve, hfault]
      rfl
    · intro resolved hresolved
      rw [hprogram, hresolve, hresolved]
      rfl

/-- A circuit with a symbol of its own, and the group of `X` on qubit 10 in its eigenstate. -/
def turned : Circuit Float := ⟨[[.power .x ⟨0⟩ (.symbol "theta")]]⟩

def preparedGroup : SettingGroup Float :=
  let x : Setting Float := ⟨QubitMap.empty.insert ⟨10⟩ ⟨.x, true⟩, PauliString.single ⟨10⟩ .x⟩
  ⟨x, [x]⟩

/-- The flipped point of the second group. -/
theorem submitted_points_resolve_flipped :
    let groups := [⟨readingZ ⟨0⟩, [readingZ ⟨0⟩]⟩, preparedGroup]
    let sweep : Sweep Float := Sweep.ofValues "theta" [1]
    (∀ q ∈ Job.qubitsOf groups, ∀ slot : BasisChange.Slot, slot.symbol q ∉ turned.symbols) ∧
      (∀ p ∈ sweep.points, ∀ q ∈ Job.qubitsOf groups, ∀ slot : BasisChange.Slot,
        slot.symbol q ∉ p.names) ∧
      ∃ call point, Session.calls (measureHistory alternatingSampler
          (StoppingPolicy.repetitions ⟨4, 4⟩).criterion ⟨1000, true, none⟩ turned groups sweep 1 0
          ()) = [call] ∧
        call.request.sweep.points[3]? = some point ∧
        call.request.program.resolve point =
          .ok (BasisChange.flanked ⟨[[.power .x ⟨0⟩ (.value 1)]]⟩ true
            [⟨⟨0⟩, Eigenstate.zero, .z, true⟩, ⟨⟨10⟩, ⟨.x, true⟩, .x, true⟩]) := by
  intro groups sweep
  have hfree : ∀ (q : Qubit) (slot : BasisChange.Slot), slot.symbol q ≠ "theta" := by
    intro q slot he
    have hhead := congrArg (fun name => name.toList.head?) he
    simp [BasisChange.Slot.symbol, Qubit.text] at hhead
  have hc : ∀ q ∈ Job.qubitsOf groups, ∀ slot : BasisChange.Slot,
      slot.symbol q ∉ turned.symbols := by
    intro q _ slot
    simpa [turned, Circuit.mem_symbols, Operation.symbol?, Exponent.symbol?] using
      Ne.symm (hfree q slot)
  have hp : ∀ p ∈ sweep.points, ∀ q ∈ Job.qubitsOf groups, ∀ slot : BasisChange.Slot,
      slot.symbol q ∉ p.names := by
    intro p hp q _ slot
    have hnames : p.names = ["theta"] := by
      rw [List.mem_singleton.mp hp]
      rfl
    simpa [hnames] using hfree q slot
  have hcalls : (Session.calls (measureHistory alternatingSampler
      (StoppingPolicy.repetitions ⟨4, 4⟩).criterion ⟨1000, true, none⟩ turned groups sweep 1 0
      ())).map (fun call => (call.plan.pending, call.request.sweep.points.length)) =
      [([0, 1], 4)] := by decide +kernel
  obtain ⟨call, hcall, hshape⟩ := List.map_eq_singleton_iff.mp hcalls
  obtain ⟨hpending, hlen⟩ := Prod.mk.inj hshape
  obtain ⟨point, hpoint⟩ : ∃ point, call.request.sweep.points[3]? = some point :=
    ⟨_, List.getElem?_eq_getElem (by omega)⟩
  obtain ⟨i, l, g, p, padded, frames, hg, hl, hk, hpad, hframes, _, hok⟩ :=
    submitted_points_resolve alternatingSampler (StoppingPolicy.repetitions ⟨4, 4⟩).criterion
      ⟨1000, true, none⟩ turned groups sweep 1 0 () hc hp call (hcall ▸ List.mem_singleton_self
      call) 3 point hpoint
  obtain rfl : l = 0 := Nat.lt_one_iff.mp (List.getElem?_eq_some_iff.mp hl).1
  have hi : i = 1 := by
    rw [hpending] at hk
    simpa [sweep, Sweep.ofValues, eq_comm] using hk
  subst hi
  obtain rfl : _ = g := Option.some.inj hg
  obtain rfl : _ = p := Option.some.inj hl
  obtain rfl : _ = padded :=
    Except.ok.inj ((BasisChange.pad?_eq_padded _ (by decide)).symm.trans hpad)
  have hframe : frames = [⟨⟨0⟩, Eigenstate.zero, .z, true⟩, ⟨⟨10⟩, ⟨.x, true⟩, .x, true⟩] :=
    hframes.unique ⟨by decide, by decide, by decide, by decide⟩
  exact ⟨hc, hp, call, point, hcall, hpoint, hframe ▸ hok _ rfl⟩

end PauliEstimation
