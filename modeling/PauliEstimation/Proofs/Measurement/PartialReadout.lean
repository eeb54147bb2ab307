import PauliEstimation.Proofs.Measurement.JointReadout

namespace PauliEstimation

variable {R : Type}

namespace Mps

variable [Scalar R] {psi : Mps R} {sites columns : List Nat} {shots : Nat} {s : RandomStream}

theorem draws_add (m n : Nat) (s : RandomStream) :
    draws R (m + n) s = draws R m s ++ draws R n (afterDraws R m s) := by
  unfold draws afterDraws
  rw [RandomStream.repeated_add]

theorem afterDraws_add (m n : Nat) (s : RandomStream) :
    afterDraws R (m + n) s = afterDraws R n (afterDraws R m s) := by
  unfold afterDraws
  rw [RandomStream.repeated_add]

/-- Shots that are taken in two parts are those that are taken at once. -/
theorem append?_sampled (psi : Mps R) (sites : List Nat) (m n : Nat) (s : RandomStream) :
    (psi.sampled sites m s).append? (psi.sampled sites n (afterDraws R m s)) =
      .ok (psi.sampled sites (m + n) s) := by
  have hwidths : (psi.sampled sites n (afterDraws R m s)).width = (psi.sampled sites m s).width :=
    rfl
  obtain ⟨all, hall, hwidth, hrows⟩ := BitMatrix.append?_of_width_eq hwidths
  have hdraws : (psi.sampled sites (m + n) s).rows =
      (psi.sampled sites m s).rows ++ (psi.sampled sites n (afterDraws R m s)).rows := by
    unfold sampled
    rw [BitMatrix.rows_ofFitting, BitMatrix.rows_ofFitting, BitMatrix.rows_ofFitting,
      ← BitMatrix.kept_append, ← List.map_append, draws_add]
  rw [hall]
  exact congrArg Except.ok (BitMatrix.ext hwidth (hrows.trans hdraws.symm))

theorem select_shotRow (h : ∀ c ∈ columns, c < sites.length) (n index : Nat) :
    (columns.map fun c => (shotRow n sites index).getD c false) =
      shotRow n (columns.map (sites.getD · 0)) index := by
  unfold shotRow
  rw [List.map_map]
  refine List.map_congr_left fun c hc => ?_
  simp [h c hc]

/-- Columns can be selected before the shots are taken: the draws do not depend on them. -/
theorem selectColumns?_sampled (h : ∀ c ∈ columns, c < sites.length) (psi : Mps R) (shots : Nat)
    (s : RandomStream) :
    (psi.sampled sites shots s).selectColumns? columns =
      .ok (psi.sampled (columns.map (sites.getD · 0)) shots s) := by
  have hvalid : ∀ c ∈ columns, c < (psi.sampled sites shots s).width := h
  obtain ⟨part, hpart⟩ := BitMatrix.exists_selectColumns? hvalid
  obtain ⟨hwidth, hrows⟩ := BitMatrix.selectColumns?_eq_ok hpart
  rw [hpart]
  refine congrArg Except.ok (BitMatrix.ext ?_ (hrows.trans ?_))
  · rw [hwidth]
    exact (List.length_map _).symm
  · unfold sampled
    rw [BitMatrix.rows_ofFitting, BitMatrix.rows_ofFitting, List.length_map]
    by_cases hnone : columns.length = 0
    · rw [hnone]
      rfl
    · obtain ⟨c, hc⟩ := List.exists_mem_of_length_pos (Nat.pos_of_ne_zero hnone)
      have hsites : sites.length ≠ 0 := Nat.ne_of_gt (Nat.zero_lt_of_lt (h c hc))
      rw [BitMatrix.kept_of_ne_zero hnone, BitMatrix.kept_of_ne_zero hnone,
        BitMatrix.kept_of_ne_zero hsites, List.map_map]
      exact List.map_congr_left fun u _ => select_shotRow h psi.size (psi.drawn u)

end Mps

/-- A part of the jointly measured qubits has the columns that it has when it is measured alone. -/
theorem Register.exists_part_of_sample? [Scalar R] {r : Register R}
    {before qubits after : List Qubit} {shots : Nat} {s s' : RandomStream} {bits : BitMatrix}
    (h : r.sample? (before ++ (qubits ++ after)) shots s = .ok (bits, s')) :
    ∃ part, bits.selectColumns? ((List.range qubits.length).map (before.length + ·)) = .ok part ∧
      r.sample? qubits shots s = .ok (part, s') := by
  obtain ⟨all, hall, hsample⟩ := bind_eq_ok_iff.mp h
  rw [List.mapM_append] at hall
  obtain ⟨first, hfirst, hall⟩ := bind_eq_ok_iff.mp hall
  obtain ⟨later, hlater, hall⟩ := bind_eq_ok_iff.mp hall
  rw [List.mapM_append] at hlater
  obtain ⟨sites, hsites, hlater⟩ := bind_eq_ok_iff.mp hlater
  obtain ⟨last, hlast, hlater⟩ := bind_eq_ok_iff.mp hlater
  cases hlater
  cases hall
  have hcan := Mps.canSample_of_sample? hsample
  cases (Mps.sample?_eq_sampled hcan _).symm.trans hsample
  have hbefore : before.length = first.length := (mapM_eq_ok_iff.mp hfirst).length_eq
  have hlength : qubits.length = sites.length := (mapM_eq_ok_iff.mp hsites).length_eq
  rw [hbefore, hlength]
  have hfit : first.length + sites.length ≤ (first ++ (sites ++ last)).length := by
    rw [List.length_append, List.length_append]
    omega
  have hselect := map_getD_range_append id 0 first sites last
  rw [List.map_id, List.map_id] at hselect
  refine ⟨r.state.sampled sites shots s, ?_, ?_⟩
  · rw [Mps.selectColumns?_sampled (lt_of_mem_columns hfit), hselect]
  · have hpart : r.state.CanSample sites shots :=
      hcan.mono fun k hk => List.mem_append_right _ (List.mem_append_left _ hk)
    exact bind_eq_ok_iff.mpr ⟨sites, hsites, Mps.sample?_eq_sampled hpart s⟩

namespace MpsSampler

variable [Scalar R] [ThinSvd R] {m : MpsSampler R} {program : Circuit R} {b : Bindings R}
  {repetitions : Nat} {s : RandomStream} {register : Register R}

/-- The register at the end of a circuit whose gates are not noisy. -/
def finalRegister? (m : MpsSampler R) (resolved : Circuit R) : Except Fault (Register R) :=
  match (Register.forCircuit resolved m.trunc).applyCircuit resolved with
  | (_, some fault) => .error fault
  | (register, none) => .ok register

theorem finalRegister?_eq_ok {resolved : Circuit R} (h : m.finalRegister? resolved = .ok register) :
    (Register.forCircuit resolved m.trunc).applyCircuit resolved = (register, none) := by
  unfold finalRegister? at h
  split at h
  next => cases h
  next happly =>
    cases h
    exact happly

/-- The register that a point of a program is sampled from. -/
def register? (m : MpsSampler R) (program : Circuit R) (b : Bindings R) :
    Except Fault (Register R) := do
  m.finalRegister? (← program.resolve b)

theorem pointBits?_of_clean (hclean : ¬ 0 < m.depolarizing) (resolved : Circuit R)
    (measured : List Qubit) (repetitions : Nat) (s : RandomStream) :
    m.pointBits? resolved measured repetitions s =
      m.finalRegister? resolved >>= fun register => register.sample? measured repetitions s := by
  unfold pointBits? finalRegister?
  rw [if_neg hclean]
  obtain ⟨register, stopped⟩ := (Register.forCircuit resolved m.trunc).applyCircuit resolved
  cases stopped with
  | some fault => rfl
  | none => rfl

/-- Without noise all shots of a point come from one register and are reported as they are. -/
theorem point?_eq_of_clean (hclean : ¬ 0 < m.depolarizing) (hreadout : m.readout.IsNoiseless) :
    m.point? program b repetitions s = (do
      let register ← m.register? program b
      let (bits, _) ← register.sample? (program.measurements.flatMap Prod.snd) repetitions s
      return ⟨b, ← split? bits 0 program.measurements Bindings.empty⟩) := by
  unfold point? register?
  cases hresolved : program.resolve b with
  | error fault => rfl
  | ok resolved =>
    obtain ⟨_, hmeasurements⟩ := Circuit.resolve_keeps hresolved
    have hbits := pointBits?_of_clean hclean resolved (program.measurements.flatMap Prod.snd)
      repetitions s
    simp only [bind, Except.bind, hmeasurements] at hbits ⊢
    rw [hbits]
    cases m.finalRegister? resolved with
    | error fault => rfl
    | ok register =>
      dsimp only
      cases register.sample? (program.measurements.flatMap Prod.snd) repetitions s with
      | error fault => rfl
      | ok e =>
        have hreport : m.readout.report? e.1 e.2 = .ok e := if_pos hreadout
        simp only [hreport]

theorem isOn_register? (h : m.register? program b = .ok register) :
    register.IsOn program.qubits := by
  obtain ⟨resolved, hresolved, h⟩ := bind_eq_ok_iff.mp h
  obtain ⟨hqubits, _⟩ := Circuit.resolve_keeps hresolved
  have hrun := (Register.isOn_forCircuit resolved m.trunc).applyAll resolved.operations
  rwa [← Register.applyCircuit, hqubits, finalRegister?_eq_ok h] at hrun

theorem exists_register? (m : MpsSampler R) {resolved : Circuit R}
    (hresolved : program.resolve b = .ok resolved)
    (happlies : ∀ op ∈ resolved.operations, op.Applies resolved.qubits) :
    ∃ register, m.register? program b = .ok register := by
  obtain ⟨register, happly, _⟩ :=
    (Register.isOn_forCircuit resolved m.trunc).exists_applyAll happlies
  refine ⟨register, bind_eq_ok_iff.mpr ⟨resolved, hresolved, ?_⟩⟩
  simp only [finalRegister?, Register.applyCircuit, happly]

theorem exists_point?_of_register (hclean : ¬ 0 < m.depolarizing)
    (hreadout : m.readout.IsNoiseless) (h : m.register? program b = .ok register)
    (hsize : register.state.size ≤ Mps.maxDenseSites) (repetitions : Nat) (s : RandomStream) :
    ∃ result, m.point? program b repetitions s = .ok result := by
  have hon := isOn_register? h
  rw [point?_eq_of_clean hclean hreadout]
  refine exists_bind ⟨register, h⟩ fun _ h' => ?_
  cases h'.symm.trans h
  refine exists_bind (hon.exists_sample? (fun q => Circuit.mem_qubits_of_measured)
    (hon.size_eq ▸ hsize)) fun ⟨bits, _⟩ hsample => ?_
  obtain ⟨_, _, hreads⟩ := hon.of_sample? hsample
  have hwidth : 0 + (program.measurements.flatMap Prod.snd).length ≤ bits.width := by
    rw [hreads.width_eq, Nat.zero_add]
  exact exists_bind (exists_split? hwidth) fun parts _ => ⟨_, rfl⟩

/-- What a noiseless point holds under each key is what its measurement alone would give. -/
theorem parts_of_point? {result : PointResult R} (hclean : ¬ 0 < m.depolarizing)
    (hreadout : m.readout.IsNoiseless) (hkeys : (program.measurements.map Prod.fst).Nodup)
    (h : m.point? program b repetitions s = .ok result) :
    ∃ register s', m.register? program b = .ok register ∧
      ∀ key qubits, (key, qubits) ∈ program.measurements →
        ∃ part, result.measurements.get? key = some part ∧
          register.sample? qubits repetitions s = .ok (part, s') := by
  rw [point?_eq_of_clean hclean hreadout] at h
  obtain ⟨register, hregister, h⟩ := bind_eq_ok_iff.mp h
  obtain ⟨⟨bits, s'⟩, hsample, h⟩ := bind_eq_ok_iff.mp h
  obtain ⟨parts, hsplit, h⟩ := bind_eq_ok_iff.mp h
  cases h
  refine ⟨register, s', hregister, fun key qubits hmem => ?_⟩
  obtain ⟨before, after, hprogram, hkey⟩ := exists_append_of_mem hkeys hmem
  rw [hprogram] at hsplit hsample
  rw [List.flatMap_append, List.flatMap_cons] at hsample
  obtain ⟨part, hpart, hselect⟩ := split?_get?_of_append hkey hsplit
  obtain ⟨alone, halone, hsampled⟩ := Register.exists_part_of_sample? hsample
  rw [Nat.zero_add] at hselect
  cases hselect.symm.trans halone
  exact ⟨part, hpart, hsampled⟩

end MpsSampler

/-- Shots of sites of a state of at most 24 are taken in parts with the same rows and the same final
stream as at once, and their columns can be selected before they are taken. A noiseless point succeeds when its
gates apply to a register of that size, and under each of its keys, when these are distinct, it
holds the shots that measuring that register for this key alone gives. -/
theorem sampling_is_compositional [Scalar R] [ThinSvd R] (psi : Mps R) (sites columns : List Nat)
    (a b : Nat) (s : RandomStream) (m : MpsSampler R) (program : Circuit R)
    (bindings : Bindings R) (repetitions : Nat) (hsize : psi.size ≤ Mps.maxDenseSites)
    (hsites : ∀ k ∈ sites, k < psi.size)
    (hcolumns : ∀ c ∈ columns, c < sites.length) (hclean : ¬ 0 < m.depolarizing)
    (hreadout : m.readout.IsNoiseless) (hkeys : (program.measurements.map Prod.fst).Nodup) :
    (∃ first second all s₁ s₂, psi.sample? sites a s = .ok (first, s₁) ∧
      psi.sample? sites b s₁ = .ok (second, s₂) ∧ psi.sample? sites (a + b) s = .ok (all, s₂) ∧
      first.append? second = .ok all ∧ all.rows = first.rows ++ second.rows) ∧
    (∃ bits part s', psi.sample? sites a s = .ok (bits, s') ∧
      bits.selectColumns? columns = .ok part ∧
      psi.sample? (columns.map (sites.getD · 0)) a s = .ok (part, s')) ∧
    (∀ register, m.register? program bindings = .ok register →
      register.state.size ≤ Mps.maxDenseSites →
      ∃ result, m.point? program bindings repetitions s = .ok result) ∧
    ∀ result, m.point? program bindings repetitions s = .ok result →
      ∃ register s', m.register? program bindings = .ok register ∧
        ∀ key qubits, (key, qubits) ∈ program.measurements →
          ∃ part, result.measurements.get? key = some part ∧
            register.sample? qubits repetitions s = .ok (part, s') := by
  have hcan : ∀ shots, psi.CanSample sites shots := fun shots => ⟨hsize, fun _ => hsites⟩
  refine ⟨?_, ?_, fun register hregister hdense =>
      MpsSampler.exists_point?_of_register hclean hreadout hregister hdense repetitions s,
    fun result => MpsSampler.parts_of_point? hclean hreadout hkeys⟩
  · have happend := Mps.append?_sampled psi sites a b s
    have hall := Mps.sample?_eq_sampled (hcan (a + b)) s
    rw [Mps.afterDraws_add] at hall
    exact ⟨_, _, _, _, _, Mps.sample?_eq_sampled (hcan a) s, Mps.sample?_eq_sampled (hcan b) _,
      hall, happend, (BitMatrix.append?_eq_ok happend).2⟩
  · have hselected : psi.CanSample (columns.map (sites.getD · 0)) a := by
      refine (hcan a).mono (List.forall_mem_map.mpr fun c hc => ?_)
      rw [← List.getElem_eq_getD (h := hcolumns c hc)]
      exact List.getElem_mem _
    exact ⟨_, _, _, Mps.sample?_eq_sampled (hcan a) s, Mps.selectColumns?_sampled hcolumns psi a s,
      Mps.sample?_eq_sampled hselected s⟩

/-- One qubit that is measured under two keys, and a column that is selected twice. -/
theorem sampling_is_compositional_shared :
    let _ : ThinSvd ℝ := ⟨diagonalFactors⟩
    let m : MpsSampler ℝ := MpsSampler.ofSeed "clean"
    let program : Circuit ℝ := ⟨[[.power .x ⟨0⟩ (.symbol "t")],
      [.measure [⟨0⟩] "a", .measure [⟨1⟩, ⟨0⟩] "b"]]⟩
    let bindings : Bindings ℝ := Bindings.empty.set "t" 1
    let s := RandomStream.ofSeed (utf8 "clean")
    (Mps.zero 2 : Mps ℝ).size ≤ Mps.maxDenseSites ∧
      (∀ k ∈ [0, 1], k < (Mps.zero 2 : Mps ℝ).size) ∧ (∀ c ∈ [1, 1], c < [0, 1].length) ∧
      ¬ 0 < m.depolarizing ∧ m.readout.IsNoiseless ∧
      (program.measurements.map Prod.fst).Nodup ∧
      (∃ bits part s', (Mps.zero 2 : Mps ℝ).sample? [0, 1] 2 s = .ok (bits, s') ∧
        bits.selectColumns? [1, 1] = .ok part ∧
        (Mps.zero 2 : Mps ℝ).sample? [1, 1] 2 s = .ok (part, s')) ∧
      ∃ result register s', m.point? program bindings 10 s = .ok result ∧
        m.register? program bindings = .ok register ∧
        (∃ part, result.measurements.get? "a" = some part ∧
          register.sample? [⟨0⟩] 10 s = .ok (part, s')) ∧
        ∃ part, result.measurements.get? "b" = some part ∧
          register.sample? [⟨1⟩, ⟨0⟩] 10 s = .ok (part, s') := by
  intro _ m program bindings s
  have hclean : ¬ 0 < m.depolarizing := lt_irrefl (0 : ℝ)
  have hreadout : m.readout.IsNoiseless := ⟨le_refl (0 : ℝ), le_refl (0 : ℝ)⟩
  have hkeys : (program.measurements.map Prod.fst).Nodup := by decide
  have hsize : (Mps.zero 2 : Mps ℝ).size ≤ Mps.maxDenseSites := by decide
  have hsites : ∀ k ∈ [0, 1], k < (Mps.zero 2 : Mps ℝ).size := by decide
  obtain ⟨_, hselected, _, hparts⟩ := sampling_is_compositional (Mps.zero 2 : Mps ℝ) [0, 1] [1, 1]
    2 3 s m program bindings 10 hsize hsites (by decide) hclean hreadout hkeys
  let resolved : Circuit ℝ := ⟨[[.power .x ⟨0⟩ (.value 1)],
    [.measure [⟨0⟩] "a", .measure [⟨1⟩, ⟨0⟩] "b"]]⟩
  have hruns : resolved.Runs := by
    have hqubits : resolved.qubits = [⟨0⟩, ⟨1⟩] := rfl
    refine ⟨?_, hqubits ▸ (by decide : 2 ≤ Mps.maxDenseSites)⟩
    rw [hqubits]
    simp [resolved, Circuit.operations, Operation.Applies, Exponent.value?]
  have hresolved : program.resolve bindings = .ok resolved := rfl
  obtain ⟨result, hresult⟩ : ∃ result, m.point? program bindings 10 s = .ok result :=
    MpsSampler.exists_point? (by decide) hresolved hruns
  obtain ⟨register, s', hregister, hboth⟩ := hparts result hresult
  exact ⟨hsize, hsites, by decide, hclean, hreadout, hkeys, hselected, result, register, s', hresult,
    hregister, hboth "a" [⟨0⟩] (by decide), hboth "b" [⟨1⟩, ⟨0⟩] (by decide)⟩

end PauliEstimation
