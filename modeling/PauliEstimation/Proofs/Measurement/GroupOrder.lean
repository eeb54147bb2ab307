import Mathlib.Data.List.FinRange
import PauliEstimation.Proofs.Measurement.Convergence
import PauliEstimation.Proofs.Measurement.Renumbering

namespace PauliEstimation

variable {R σ κ : Type}

/-- The list in the order of a permutation of its positions. -/
def permuted {α : Type} (xs : List α) (π : Equiv.Perm (Fin xs.length)) : List α :=
  List.ofFn fun i => xs[π i]

/-- Position `j` of block `i` goes to position `j` of block `π i`. What is past the blocks stays. -/
def blockwise {n : Nat} (π : Equiv.Perm (Fin n)) (size k : Nat) : Nat :=
  if h : k / size < n then π ⟨k / size, h⟩ * size + k % size else k

theorem permuted_perm {α : Type} (xs : List α) (π : Equiv.Perm (Fin xs.length)) :
    (permuted xs π).Perm xs := by
  have h := π.ofFn_comp_perm xs.get
  rwa [List.ofFn_get] at h

theorem length_permuted {α : Type} (xs : List α) (π : Equiv.Perm (Fin xs.length)) :
    (permuted xs π).length = xs.length := List.length_ofFn

theorem getElem?_permuted {α : Type} (xs : List α) (π : Equiv.Perm (Fin xs.length))
    (i : Fin xs.length) : (permuted xs π)[i.val]? = some xs[π i] := by
  rw [permuted, List.getElem?_ofFn, dif_pos i.isLt]

section Blockwise

variable {n : Nat} (π : Equiv.Perm (Fin n)) {size : Nat}

theorem blockwise_block (i : Fin n) {j : Nat} (hj : j < size) :
    blockwise π size (i * size + j) = π i * size + j := by
  have hdiv : (i * size + j) / size = i := by
    rw [Nat.mul_comm, Nat.mul_add_div (Nat.zero_lt_of_lt hj), Nat.div_eq_of_lt hj, Nat.add_zero]
  have hmod : (i * size + j) % size = j := by
    rw [Nat.mul_comm, Nat.mul_add_mod, Nat.mod_eq_of_lt hj]
  unfold blockwise
  simp only [hdiv, hmod, i.isLt, dif_pos, Fin.eta]

theorem block_lt (i : Fin n) {j : Nat} (hj : j < size) : i * size + j < n * size :=
  calc i * size + j < i * size + size := Nat.add_lt_add_left hj _
    _ = (i + 1) * size := (Nat.succ_mul _ _).symm
    _ ≤ n * size := Nat.mul_le_mul_right _ i.isLt

theorem blockwise_lt {k : Nat} (hk : k < n * size) : blockwise π size k < n * size := by
  have hpos : 0 < size := Nat.pos_of_lt_mul_left hk
  have hi : k / size < n := (Nat.div_lt_iff_lt_mul hpos).mpr hk
  unfold blockwise
  rw [dif_pos hi]
  exact block_lt _ (Nat.mod_lt k hpos)

theorem blockwise_symm (k : Nat) : blockwise π.symm size (blockwise π size k) = k := by
  rcases Nat.eq_zero_or_pos size with rfl | hpos
  · simp [blockwise]
  · by_cases hi : k / size < n
    · have h := blockwise_block π ⟨k / size, hi⟩ (Nat.mod_lt k hpos)
      rw [Nat.div_add_mod'] at h
      rw [h, blockwise_block π.symm _ (Nat.mod_lt k hpos), Equiv.symm_apply_apply,
        Nat.div_add_mod']
    · simp [blockwise, hi]

theorem blockwise_injective (size : Nat) : Function.Injective (blockwise π size) :=
  Function.LeftInverse.injective (blockwise_symm π)

theorem map_blockwise_range :
    ((List.range (n * size)).map (blockwise π size)).Perm (List.range (n * size)) := by
  have hn := (List.nodup_range (n := n * size)).map (blockwise_injective π size)
  refine (List.subperm_of_subset hn fun k hk => ?_).perm_of_length_le (by simp)
  obtain ⟨l, hl, rfl⟩ := List.mem_map.mp hk
  exact List.mem_range.mpr (blockwise_lt π (List.mem_range.mp hl))

end Blockwise

namespace Job

theorem qubitsOf_perm {groups groups' : List (SettingGroup R)} (h : groups'.Perm groups) :
    qubitsOf groups' = qubitsOf groups :=
  Qubit.ascending_perm (h.flatMap_right _)

theorem needsInitial_perm {groups groups' : List (SettingGroup R)} (h : groups'.Perm groups) :
    BasisChange.needsInitial (groups'.map SettingGroup.max) =
      BasisChange.needsInitial (groups.map SettingGroup.max) := by
  rw [BasisChange.needsInitial, BasisChange.needsInitial, Bool.eq_iff_iff, List.any_eq_true,
    List.any_eq_true]
  simp only [(h.map SettingGroup.max).mem_iff]

variable [Scalar R]

theorem start?_permuted {c : Circuit R} {groups : List (SettingGroup R)} {sweep : Sweep R}
    {job : Job R} {session : Session R} (h : start? c groups sweep = .ok (job, session))
    (π : Equiv.Perm (Fin groups.length)) :
    ∃ job' session', start? c (permuted groups π) sweep = .ok (job', session') ∧
      job.Renumbers (blockwise π sweep.points.length) job' ∧
      session.Renumbers (blockwise π sweep.points.length) session' := by
  have hperm := permuted_perm groups π
  have hqubits := qubitsOf_perm hperm
  have hfits := fits_of_start? h
  obtain ⟨job', session', h'⟩ : ∃ job' session', start? c (permuted groups π) sweep =
      .ok (job', session') :=
    start?_of_fits c sweep fun g hg => hqubits ▸ hfits g (hperm.subset hg)
  obtain ⟨hlength, hat⟩ := start?_accumulators h
  obtain ⟨hlength', hat'⟩ := start?_accumulators h'
  rw [length_permuted] at hlength'
  have hsame : ∀ k < session'.accumulators.length, session'.accumulators[k]? =
      session.accumulators[blockwise π sweep.points.length k]? := by
    intro k hk
    rw [hlength'] at hk
    have hpos : 0 < sweep.points.length := Nat.pos_of_lt_mul_left hk
    have hj := Nat.mod_lt k hpos
    let i : Fin groups.length := ⟨k / sweep.points.length, (Nat.div_lt_iff_lt_mul hpos).mpr hk⟩
    have hp := List.getElem?_eq_getElem hj
    obtain ⟨padded', hpad', ha'⟩ := hat' i _ _ _ (getElem?_permuted groups π i) hp
    obtain ⟨padded, hpad, ha⟩ := hat (π i) _ _ _ (List.getElem?_eq_getElem (π i).isLt) hp
    rw [hqubits] at hpad' ha'
    obtain rfl : padded' = padded := Except.ok.inj (hpad'.symm.trans hpad)
    have hk' := blockwise_block π i hj
    rw [show i.val * sweep.points.length + k % sweep.points.length = k from
      Nat.div_add_mod' _ _] at hk' ha'
    rw [hk', ha', ha]
    rfl
  obtain ⟨_, _, hjob, hsession⟩ := start?_eq_ok h
  obtain ⟨_, _, hjob', hsession'⟩ := start?_eq_ok h'
  rw [hsession, hsession'] at hsame
  refine ⟨job', session', h', ?_, ?_⟩
  · rw [hjob, hjob']
    refine ⟨?_, hqubits, needsInitial_perm hperm, fun k hk => ?_⟩
    · dsimp only
      rw [hqubits, needsInitial_perm hperm]
    · dsimp only at hk ⊢
      rw [List.length_map] at hk
      rw [List.getElem?_map, List.getElem?_map, hsame k hk]
  · rw [hsession] at hlength ⊢
    rw [hsession'] at hlength' ⊢
    refine ⟨?_, hlength'.trans hlength.symm, hsame, rfl, rfl⟩
    dsimp only at hlength hlength' ⊢
    rw [hlength, hlength']
    exact map_blockwise_range π

end Job

/-- A measurement of permuted groups succeeds when that of the groups does, with the accumulators in
permuted blocks of one sweep each, and with the same notices and rounds. The criterion is a function
of the accumulator, and the sampler answers every point from the number of the call, the program,
what the point binds and the repetitions. -/
theorem group_order_does_not_matter [Scalar R] (sampler : Sampler R σ) (number : σ → Nat)
    (point : Nat → Circuit R → Bindings R → Nat → Option (PointResult R))
    (f : Accumulator R → Except Fault Int) (config : MeasurementConfig) (c : Circuit R)
    (groups : List (SettingGroup R)) (π : Equiv.Perm (Fin groups.length)) (sweep : Sweep R)
    (fuel : Nat) (s s' : σ) (t t' : κ) (run : MeasurementRun R)
    (hs : sampler.IsPointwise number point)
    (h : measure sampler (Criterion.ofFunction f) config c groups sweep fuel s t =
      (some (.ok run), s', t')) :
    ∃ run' s'' t'', measure sampler (Criterion.ofFunction f) config c (permuted groups π) sweep fuel
        s t = (some (.ok run'), s'', t'') ∧
      run.accumulators.length = groups.length * sweep.points.length ∧
      run'.accumulators.length = groups.length * sweep.points.length ∧
      (∀ (i : Fin groups.length) (j : Nat), j < sweep.points.length →
        run'.accumulators[i * sweep.points.length + j]? =
          run.accumulators[π i * sweep.points.length + j]?) ∧
      run'.notices = run.notices ∧ run'.rounds = run.rounds := by
  cases hstart : Job.start? c groups sweep with
  | error e => simp [measure, hstart] at h
  | ok started =>
    obtain ⟨job, session⟩ := started
    obtain ⟨job', session', hstart', hj, hr⟩ := Job.start?_permuted hstart π
    obtain ⟨hmeasure, _⟩ :=
      measure_of_start? hstart sampler (Criterion.ofFunction f) config fuel s t
    obtain ⟨hmeasure', _⟩ :=
      measure_of_start? hstart' sampler (Criterion.ofFunction f) config fuel s t
    have hn : session.pending.Nodup := by
      obtain ⟨_, _, _, rfl⟩ := Job.start?_eq_ok hstart
      exact List.nodup_range
    rw [hmeasure] at h
    obtain ⟨run', s'', t'', hrun', hrun⟩ := Session.run_renumbered t
      (blockwise_injective π _) hs rfl hj (Job.start?_covers hstart')
      (Job.start?_laidOut hstart') hn hr h
    have hlength : run.accumulators.length = groups.length * sweep.points.length :=
      (Session.run_extends hn h).1.trans (Job.start?_accumulators hstart).1
    have hlength' := hrun.length_eq.trans hlength
    refine ⟨run', s'', t'', hmeasure'.trans hrun', hlength, hlength', fun i j hj => ?_,
      hrun.notices_eq, hrun.rounds_eq⟩
    have hlt : i * sweep.points.length + j < run'.accumulators.length := by
      rw [hlength']
      exact block_lt i hj
    rw [hrun.accumulators_eq _ hlt, blockwise_block π i hj]

/-- A sampler that counts its calls and answers every point on its own. -/
def Sampler.ofPoint (point : Nat → Circuit R → Bindings R → Nat → PointResult R) : Sampler R Nat :=
  fun request n => (.ok (request.sweep.points.map fun b =>
    point n request.program b request.repetitions), n + 1)

theorem Sampler.ofPoint_isPointwise
    (point : Nat → Circuit R → Bindings R → Nat → PointResult R) :
    (ofPoint point).IsPointwise id fun n c b repetitions => some (point n c b repetitions) where
  answers request s results := by
    simp only [ofPoint, Except.ok.injEq, Option.some.injEq, id_eq]
    rw [← List.forall₂_map_left_iff (R := Eq), List.forall₂_eq_eq_eq]
  counts _ _ := rfl

/-- In odd calls the bits are set at the points that leave `theta` free, in even calls at the
others. -/
def thetaSampler : Sampler Float Nat := Sampler.ofPoint fun n program b repetitions =>
  let width := (program.measurements.flatMap Prod.snd).length
  ⟨b, Bindings.empty.set BasisChange.key (BitMatrix.replicate repetitions
    (List.replicate width ((n % 2 == 1) != (b.get? "theta").isSome)))⟩

/-- Two groups at two sweep points, in both orders, one of them done a round before the other. -/
theorem group_order_does_not_matter_swapped :
    let π : Equiv.Perm (Fin unevenGroups.length) := Equiv.swap ⟨0, by decide⟩ ⟨1, by decide⟩
    let sweep : Sweep Float := ⟨[Bindings.empty, Bindings.empty.set "theta" 1]⟩
    (∃ point, thetaSampler.IsPointwise id point) ∧
      ∃ run s t run' s' t', measure thetaSampler (Criterion.ofFunction twoShotsPerSetting)
          ⟨1000, false, none⟩ ∅ unevenGroups sweep 3 0 () = (some (.ok run), s, t) ∧
        measure thetaSampler (Criterion.ofFunction twoShotsPerSetting) ⟨1000, false, none⟩ ∅
          (permuted unevenGroups π) sweep 3 0 () = (some (.ok run'), s', t') ∧
        run.rounds = 2 ∧ run'.rounds = 2 ∧ run'.accumulators[1]? = run.accumulators[3]? := by
  intro π sweep
  have hs := Sampler.ofPoint_isPointwise (R := Float) fun n program b repetitions =>
    ⟨b, Bindings.empty.set BasisChange.key (BitMatrix.replicate repetitions (List.replicate
      (program.measurements.flatMap Prod.snd).length
      ((n % 2 == 1) != (b.get? "theta").isSome)))⟩
  obtain ⟨run, s, t, hrun, hrounds⟩ : ∃ run s t, measure thetaSampler
      (Criterion.ofFunction twoShotsPerSetting) ⟨1000, false, none⟩ ∅ unevenGroups sweep 3 0 () =
        (some (.ok run), s, t) ∧ run.rounds = 2 := by
    apply exists_of_map_toOption
    decide +kernel
  obtain ⟨run', s', t', hrun', _, _, hat, _, hrounds'⟩ := group_order_does_not_matter thetaSampler id
    _ twoShotsPerSetting ⟨1000, false, none⟩ ∅ unevenGroups π sweep 3 0 s () t run hs hrun
  exact ⟨⟨_, hs⟩, run, s, t, run', s', t', hrun, hrun', hrounds, hrounds'.trans hrounds,
    hat ⟨0, by decide⟩ 1 (by decide)⟩

end PauliEstimation
