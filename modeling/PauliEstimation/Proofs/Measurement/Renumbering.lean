import Mathlib.Data.List.Sort
import PauliEstimation.Proofs.Measurement.Attribution
import PauliEstimation.Proofs.Measurement.Routing

namespace PauliEstimation

variable {R σ κ : Type}

/-- A point is answered from the number of the call, the program, what the point binds and the
repetitions. A point that cannot be answered fails the call. -/
structure Sampler.IsPointwise (sampler : Sampler R σ) (number : σ → Nat)
    (point : Nat → Circuit R → Bindings R → Nat → Option (PointResult R)) : Prop where
  answers : ∀ request s results, (sampler request s).1 = .ok results ↔
    List.Forall₂ (fun b result => point (number s) request.program b request.repetitions =
      some result) request.sweep.points results
  counts : ∀ request s, number (sampler request s).2 = number s + 1

theorem distinctCounts_perm {xs ys : List Nat} (h : xs.Perm ys) :
    distinctCounts xs = distinctCounts ys := by
  refine (pairwise_distinctCounts xs).eq_of_mem_iff (pairwise_distinctCounts ys) fun n => ?_
  rw [mem_distinctCounts, mem_distinctCounts]
  exact h.mem_iff

theorem aggregateRequests_perm {xs ys : List Nat} (h : xs.Perm ys) :
    aggregateRequests xs = aggregateRequests ys := by
  unfold aggregateRequests
  rw [distinctCounts_perm h]

namespace Plan

/-- The same plan under other numbers, which the map takes back to the first ones. -/
structure Renumbers (ρ : Nat → Nat) (plan plan' : Plan) : Prop where
  pending : (plan'.pending.map ρ).Perm plan.pending
  repetitions_eq : plan'.repetitions = plan.repetitions
  notices_eq : plan'.notices = plan.notices

variable {ρ : Nat → Nat} {f : Accumulator R → Except Fault Int}
  {accumulators accumulators' : List (Accumulator R)} {todo todo' : List Nat} {t t' : κ}

theorem demand_renumbered {k : Nat} (h : accumulators'[k]? = accumulators[ρ k]?) :
    demand f accumulators' k = demand f accumulators (ρ k) := by
  unfold demand
  rw [h]

theorem demands_renumbered (hsame : ∀ k ∈ todo', accumulators'[k]? = accumulators[ρ k]?)
    (hperm : (todo'.map ρ).Perm todo) :
    ((demands f accumulators' todo').map (Prod.map ρ id)).Perm (demands f accumulators todo) := by
  have hfilter : todo'.filter (demand f accumulators' · ≠ 0) =
      todo'.filter ((demand f accumulators · ≠ 0) ∘ ρ) := by
    refine List.filter_congr fun k hk => ?_
    rw [Function.comp_apply, demand_renumbered (hsame k hk)]
  have hmap : (demands f accumulators' todo').map (Prod.map ρ id) =
      demands f accumulators (todo'.map ρ) := by
    unfold demands
    rw [hfilter, List.filter_map, List.map_map, List.map_map]
    refine List.map_congr_left fun k hk => ?_
    have hk := (List.mem_filter.mp hk).1
    simp only [Function.comp_apply, Prod.map_apply, id_eq, demand_renumbered (hsame k hk)]
  rw [hmap]
  exact (hperm.filter _).map _

theorem ask_renumbered {requests : List (Nat × Nat)} (t'' : κ)
    (hsame : ∀ k ∈ todo', accumulators'[k]? = accumulators[ρ k]?)
    (hperm : (todo'.map ρ).Perm todo)
    (h : ask (Criterion.ofFunction f) accumulators todo t = (.ok requests, t')) :
    ∃ requests', ask (Criterion.ofFunction f) accumulators' todo' t'' = (.ok requests', t'') ∧
      (requests'.map (Prod.map ρ id)).Perm requests := by
  obtain ⟨hanswers, rfl, _⟩ := ask_ofFunction_eq_ok_iff.mp h
  refine ⟨_, ask_ofFunction_eq_ok_iff.mpr ⟨fun k hk => ?_, rfl, rfl⟩,
    demands_renumbered hsame hperm⟩
  rw [hsame k hk]
  exact hanswers (ρ k) (hperm.subset (List.mem_map_of_mem hk))

theorem ofRequests_renumbered {ceiling : Nat} {requests requests' : List (Nat × Nat)} {plan : Plan}
    (hperm : (requests'.map (Prod.map ρ id)).Perm requests)
    (h : ofRequests (R := R) ceiling requests = .ok plan) :
    ∃ plan', ofRequests (R := R) ceiling requests' = .ok plan' ∧ plan.Renumbers ρ plan' := by
  have hpending : ((requests'.map Prod.fst).map ρ).Perm (requests.map Prod.fst) := by
    have := hperm.map Prod.fst
    rwa [List.map_map, Prod.map_fst', ← List.map_map] at this
  have hcounts : (requests'.map Prod.snd).Perm (requests.map Prod.snd) := by
    have := hperm.map Prod.snd
    rwa [List.map_map, Prod.map_snd', Function.id_comp] at this
  have hlength : (requests'.map Prod.fst).length = (requests.map Prod.fst).length := by
    simpa using hpending.length_eq
  have hempty : requests' = [] ↔ requests = [] := by
    rw [← List.length_eq_zero_iff, ← List.length_eq_zero_iff]
    simp only [List.length_map] at hlength
    rw [hlength]
  unfold ofRequests at h ⊢
  simp only [hempty, aggregateRequests_perm hcounts, hlength]
  split at h
  next h0 =>
    cases h
    exact ⟨done, by rw [if_pos h0], .refl _, rfl, rfl⟩
  next h0 =>
    dsimp only at h
    split at h
    next hfits =>
      cases h
      exact ⟨⟨requests'.map Prod.fst, _, _⟩, by rw [if_neg h0, if_pos hfits], hpending, rfl, rfl⟩
    next hfits =>
      split at h
      next => cases h
      next hgranted =>
        cases h
        exact ⟨⟨requests'.map Prod.fst, _, _⟩,
          by rw [if_neg h0, if_neg hfits, if_neg hgranted], hpending, rfl, rfl⟩

theorem Renumbers.pending_eq_nil_iff {plan plan' : Plan} (h : plan.Renumbers ρ plan') :
    plan'.pending = [] ↔ plan.pending = [] := by
  rw [← List.length_eq_zero_iff, ← List.length_eq_zero_iff, ← h.pending.length_eq, List.length_map]

theorem next_renumbered {ceiling : Nat} {plan : Plan} (t'' : κ)
    (hsame : ∀ k ∈ todo', accumulators'[k]? = accumulators[ρ k]?)
    (hperm : (todo'.map ρ).Perm todo)
    (h : (next (Criterion.ofFunction f) accumulators ceiling todo t).1 = .ok plan) :
    ∃ plan', (next (Criterion.ofFunction f) accumulators' ceiling todo' t'').1 = .ok plan' ∧
      plan.Renumbers ρ plan' := by
  obtain ⟨requests, hask, hplan⟩ := next_eq_ok h
  obtain ⟨requests', hask', hrequests⟩ := ask_renumbered t'' hsame hperm hask
  obtain ⟨plan', hplan', hrenumbers⟩ := ofRequests_renumbered hrequests hplan
  exact ⟨plan', by simp only [next, hask', Except.bind, hplan'], hrenumbers⟩

end Plan

theorem exists_getElem?_renumbered {ρ : Nat → Nat} {pending pending' : List Nat}
    (h : (pending'.map ρ).Perm pending) {i' k : Nat} (hk : pending'[i']? = some k) :
    ∃ i : Nat, pending[i]? = some (ρ k) :=
  List.mem_iff_getElem?.mp (h.subset (List.mem_map_of_mem (List.mem_of_getElem? hk)))

theorem batchesAt_renumbered {ρ : Nat → Nat} (hρ : Function.Injective ρ) {symmetrize : Bool}
    {pending pending' : List Nat} {results results' : List (PointResult R)}
    (hn : pending.Nodup) (hperm : (pending'.map ρ).Perm pending)
    (hresults : ∀ i i' k : Nat, pending'[i']? = some k → pending[i]? = some (ρ k) →
      ∀ j, (j < if symmetrize then 2 else 1) →
        results'[i' * (if symmetrize then 2 else 1) + j]? =
          results[i * (if symmetrize then 2 else 1) + j]?) (k : Nat) :
    batchesAt symmetrize pending' results' k = batchesAt symmetrize pending results (ρ k) := by
  have hn' : pending'.Nodup := (hperm.nodup_iff.mpr hn).of_map ρ
  by_cases hk : k ∈ pending'
  · obtain ⟨i', hi'⟩ := List.mem_iff_getElem?.mp hk
    obtain ⟨i, hi⟩ := exists_getElem?_renumbered hperm hi'
    have hat := hresults i i' k hi' hi
    unfold batchesAt
    rw [idxOf?_of_nodup hn' hi', idxOf?_of_nodup hn hi]
    cases symmetrize with
    | false =>
      have h₀ := hat 0 (by decide)
      simp only [Bool.false_eq_true, if_false, Nat.mul_one, Nat.add_zero] at h₀
      simp [rowsAt, h₀]
    | true =>
      have h₀ := hat 0 (by decide)
      have h₁ := hat 1 (by decide)
      simp only [if_true, Nat.add_zero, Nat.mul_comm _ 2] at h₀ h₁
      simp [rowsAt, h₀, h₁]
  · -- nothing else is taken to the number `ρ k`, so it is not pending either
    have hk' : ρ k ∉ pending := by
      intro hm
      obtain ⟨l, hl, he⟩ := List.mem_map.mp (hperm.mem_iff.mpr hm)
      exact hk (hρ he ▸ hl)
    unfold batchesAt
    rw [List.idxOf?_eq_none_iff.mpr hk, List.idxOf?_eq_none_iff.mpr hk']

/-- The same job with its specifications under other numbers. -/
structure Job.Renumbers (ρ : Nat → Nat) (job job' : Job R) : Prop where
  program_eq : job'.program = job.program
  qubits_eq : job'.qubits = job.qubits
  needsInitial_eq : job'.needsInitial = job.needsInitial
  specs_eq : ∀ k < job'.specs.length, job'.specs[k]? = job.specs[ρ k]?

/-- The same session with its accumulators under other numbers. -/
structure Session.Renumbers (ρ : Nat → Nat) (session session' : Session R) : Prop where
  pending : (session'.pending.map ρ).Perm session.pending
  length_eq : session'.accumulators.length = session.accumulators.length
  accumulators_eq : ∀ k < session'.accumulators.length,
    session'.accumulators[k]? = session.accumulators[ρ k]?
  notices_eq : session'.notices = session.notices
  rounds_eq : session'.rounds = session.rounds

/-- The same result with its accumulators under other numbers. -/
structure MeasurementRun.Renumbers (ρ : Nat → Nat) (run run' : MeasurementRun R) : Prop where
  length_eq : run'.accumulators.length = run.accumulators.length
  accumulators_eq : ∀ k < run'.accumulators.length,
    run'.accumulators[k]? = run.accumulators[ρ k]?
  notices_eq : run'.notices = run.notices
  rounds_eq : run'.rounds = run.rounds

variable [Scalar R]

theorem Variant.bindings?_index {spec : Spec R} {flips : List Bool} (k l : Nat)
    (qubits : List Qubit) (needsInitial : Bool) :
    bindings? ⟨k, spec, flips⟩ qubits needsInitial =
      bindings? ⟨l, spec, flips⟩ qubits needsInitial := rfl

namespace Session

variable {ρ : Nat → Nat} {config : MeasurementConfig} {job job' : Job R} {plan plan' : Plan}
  {variants variants' : List (Variant R)} {request request' : SweepRequest R}

theorem Submits.points_renumbered (hj : job.Renumbers ρ job')
    (h : Submits job config plan variants request)
    (h' : Submits job' config plan' variants' request') {i i' k : Nat}
    (hi' : plan'.pending[i']? = some k) (hi : plan.pending[i]? = some (ρ k)) :
    ∀ j, (j < if config.symmetrize then 2 else 1) →
      ∃ b, request'.sweep.points[i' * (if config.symmetrize then 2 else 1) + j]? = some b ∧
        request.sweep.points[i * (if config.symmetrize then 2 else 1) + j]? = some b := by
  obtain ⟨spec', hspec', hvariants'⟩ := Variant.getElem?_ofPending?_block h'.variants_eq hi'
  obtain ⟨spec, hspec, hvariants⟩ := Variant.getElem?_ofPending?_block h.variants_eq hi
  have hk := (List.getElem?_eq_some_iff.mp hspec').1
  obtain rfl : spec' = spec :=
    Option.some.inj (hspec'.symm.trans ((hj.specs_eq k hk).trans hspec))
  intro j hj'
  have hat' := hvariants' j hj'
  have hat := hvariants j hj'
  have hflip : j < (Variant.flipChoices config.symmetrize).length := by
    revert hj'
    unfold Variant.flipChoices
    split <;> exact id
  rw [Variant.ofSpec, List.getElem?_map, List.getElem?_eq_getElem hflip, Option.map_some]
    at hat hat'
  obtain ⟨b', hb', hv'⟩ := forall₂_getElem? h'.points hat'
  obtain ⟨b, hb, hv⟩ := forall₂_getElem? h.points hat
  rw [hj.qubits_eq, hj.needsInitial_eq, Variant.bindings?_index k (ρ k)] at hv'
  obtain rfl : b' = b := Except.ok.inj (hv'.symm.trans hv)
  exact ⟨b', hb', hb⟩

theorem Submits.mem_points_renumbered (hj : job.Renumbers ρ job') (hp : plan.Renumbers ρ plan')
    (h : Submits job config plan variants request)
    (h' : Submits job' config plan' variants' request') :
    ∀ b ∈ request'.sweep.points, b ∈ request.sweep.points := by
  intro b hb
  obtain ⟨j, hj'⟩ := List.mem_iff_getElem?.mp hb
  have hpos : 0 < if config.symmetrize then 2 else 1 := by split <;> decide
  have hlt := (List.getElem?_eq_some_iff.mp hj').1
  rw [← h'.points.length_eq, Variant.ofPending?_length h'.variants_eq] at hlt
  have hi' := List.getElem?_eq_getElem ((Nat.div_lt_iff_lt_mul hpos).mpr hlt)
  obtain ⟨i, hi⟩ := exists_getElem?_renumbered hp.pending hi'
  obtain ⟨b', hb', hat⟩ := h.points_renumbered hj h' hi' hi _ (Nat.mod_lt j hpos)
  rw [Nat.div_add_mod', hj'] at hb'
  obtain rfl : b = b' := Option.some.inj hb'
  exact List.mem_of_getElem? hat

variable {sampler : Sampler R σ} {number : σ → Nat}
  {point : Nat → Circuit R → Bindings R → Nat → Option (PointResult R)}
  {f : Accumulator R → Except Fault Int} {session session' next : Session R} {s s' s₁ : σ}
  {t t' t₁ : κ}

theorem Submits.answer_renumbered (hs : sampler.IsPointwise number point)
    (hnumber : number s' = number s) (hj : job.Renumbers ρ job') (hp : plan.Renumbers ρ plan')
    (h : Submits job config plan variants request)
    (h' : Submits job' config plan' variants' request') {results : List (PointResult R)}
    (ha : (sampler request s).1 = .ok results) :
    ∃ results', (sampler request' s').1 = .ok results' ∧ (∀ r ∈ results', r ∈ results) ∧
      ∀ i i' k : Nat, plan'.pending[i']? = some k → plan.pending[i]? = some (ρ k) →
        ∀ j, (j < if config.symmetrize then 2 else 1) →
          results'[i' * (if config.symmetrize then 2 else 1) + j]? =
            results[i * (if config.symmetrize then 2 else 1) + j]? := by
  have hresults := (hs.answers _ _ _).mp ha
  have hsame : ∀ b, point (number s') request'.program b request'.repetitions =
      point (number s) request.program b request.repetitions := by
    intro b
    rw [hnumber, h'.program_eq, h.program_eq, hj.program_eq, h'.repetitions_eq, h.repetitions_eq,
      hp.repetitions_eq]
  obtain ⟨results', hresults'⟩ : ∃ results', List.Forall₂ (fun b result =>
      point (number s') request'.program b request'.repetitions = some result)
      request'.sweep.points results' := by
    refine exists_forall₂ fun b hb => ?_
    obtain ⟨j, hj'⟩ := List.mem_iff_getElem?.mp (h.mem_points_renumbered hj hp h' b hb)
    obtain ⟨r, _, hr⟩ := forall₂_getElem? hresults hj'
    exact ⟨r, (hsame b).trans hr⟩
  refine ⟨results', (hs.answers _ _ _).mpr hresults', fun r' hr' => ?_, ?_⟩
  · obtain ⟨b, hb, hpoint⟩ := forall₂_exists_of_mem hresults' hr'
    obtain ⟨j, hj'⟩ := List.mem_iff_getElem?.mp (h.mem_points_renumbered hj hp h' b hb)
    obtain ⟨r, hr, hpoint'⟩ := forall₂_getElem? hresults hj'
    obtain rfl : r' = r := Option.some.inj ((hpoint.symm.trans (hsame b)).trans hpoint')
    exact List.mem_of_getElem? hr
  · intro i i' k hi' hi j hj'
    obtain ⟨b, hb', hb⟩ := h.points_renumbered hj h' hi' hi j hj'
    obtain ⟨r', hr', hpoint⟩ := forall₂_getElem? hresults' hb'
    obtain ⟨r, hr, hpoint'⟩ := forall₂_getElem? hresults hb
    rw [hr', hr]
    exact (hpoint.symm.trans (hsame b)).trans hpoint'

theorem call?_renumbered {call : Call R} {results : List (PointResult R)} (t' : κ)
    (hs : sampler.IsPointwise number point) (hnumber : number s' = number s)
    (hj : job.Renumbers ρ job') (hcover' : job'.Covers) (hl' : session'.LaidOut job')
    (hr : session.Renumbers ρ session')
    (hc : call? sampler (Criterion.ofFunction f) config job session s t = some call)
    (ha : call.answer = .ok results) :
    ∃ call' results',
      call? sampler (Criterion.ofFunction f) config job' session' s' t' = some call' ∧
      call.plan.Renumbers ρ call'.plan ∧ call'.answer = .ok results' ∧
      results'.length = call'.request.sweep.points.length ∧ (∀ r ∈ results', r ∈ results) ∧
      ∀ i i' k : Nat, call'.plan.pending[i']? = some k → call.plan.pending[i]? = some (ρ k) →
        ∀ j, (j < if config.symmetrize then 2 else 1) →
          results'[i' * (if config.symmetrize then 2 else 1) + j]? =
            results[i * (if config.symmetrize then 2 else 1) + j]? := by
  obtain ⟨hplan, hpending, hlimit, _, hanswer⟩ := call?_eq_some hc
  have hsubmits := submits_of_call? hc
  obtain ⟨plan', hplan', hrenumbers⟩ := Plan.next_renumbered t'
    (fun k hk => hr.accumulators_eq k (hl'.pending_lt k hk)) hr.pending hplan
  have hpending' : plan'.pending ≠ [] := fun h0 => hpending (hrenumbers.pending_eq_nil_iff.mp h0)
  have hlimit' : limitReached? config session'.rounds = none := by rw [hr.rounds_eq, hlimit]
  obtain ⟨variants', request', hsub'⟩ :
      ∃ variants' request', submission? job' config plan' = .ok (variants', request') := by
    have hshare : Variant.share config.symmetrize plan'.repetitions ≠ 0 := by
      rw [hrenumbers.repetitions_eq, ← hsubmits.repetitions_eq]
      exact Nat.ne_of_gt hsubmits.repetitions_pos
    have hsub := submission?_of_covers config plan' hcover' fun k hk => hl'.length_eq ▸
      hl'.pending_lt k ((Plan.next_sublist hplan').subset hk)
    rwa [if_neg hshare] at hsub
  obtain ⟨results', ha', hmem, hat⟩ := hsubmits.answer_renumbered hs hnumber hj hrenumbers
    (submission?_eq_ok hsub') (hanswer.symm.trans ha)
  exact ⟨_, results', call?_of_submission? hplan' hpending' hlimit' hsub', hrenumbers, ha',
    ((hs.answers _ _ _).mp ha').length_eq.symm, hmem, hat⟩

theorem round_renumbered (t' : κ) (hρ : Function.Injective ρ)
    (hs : sampler.IsPointwise number point) (hnumber : number s' = number s)
    (hj : job.Renumbers ρ job') (hcover' : job'.Covers) (hl' : session'.LaidOut job')
    (hn : session.pending.Nodup) (hr : session.Renumbers ρ session')
    (h : round sampler (Criterion.ofFunction f) config job session s t =
      (.continued next, s₁, t₁)) :
    ∃ next' s₁' t₁', round sampler (Criterion.ofFunction f) config job' session' s' t' =
        (.continued next', s₁', t₁') ∧ next.Renumbers ρ next' ∧ number s₁' = number s₁ := by
  obtain ⟨call, _, _, hc, _, _, hnext⟩ := round_eq_continued h
  obtain ⟨results, ha, _, hbits⟩ := answers_of_continued hc h
  obtain ⟨call', results', hc', hrenumbers, ha', hlength, hmem, hat⟩ :=
    call?_renumbered t' hs hnumber hj hcover' hl' hr hc ha
  obtain ⟨accumulators', hd'⟩ : ∃ accumulators',
      deliver? call'.variants results' session'.accumulators = .ok accumulators' := by
    cases hdeliver : deliver? call'.variants results' session'.accumulators with
    | ok accumulators' => exact ⟨accumulators', rfl⟩
    | error e =>
      refine absurd (faults_of_deliver? hl' hc' ha' hdeliver) (Call.not_faults ha' hlength ?_)
      intro r' hr'
      obtain ⟨bits, hb, hwidth⟩ := hbits r' (hmem r' hr')
      exact ⟨bits, hb, hwidth.symm.trans (congrArg List.length hj.qubits_eq.symm)⟩
  have hround' := round_of_call? hc'
  simp only [ha', hd'] at hround'
  have hn' : session'.pending.Nodup := (hr.pending.nodup_iff.mpr hn).of_map ρ
  obtain ⟨hsize, hext⟩ := round_extends hn hc h
  obtain ⟨hsize', hext'⟩ := round_extends hn' hc' hround'
  have hstates := round_of_call? hc
  rw [h] at hstates
  -- both samplers have served one more call
  obtain ⟨rfl, -⟩ := Prod.mk.inj (Prod.mk.inj hstates).2
  refine ⟨_, _, _, hround', ⟨?_, ?_, fun k hk => ?_, ?_, ?_⟩, ?_⟩
  · rw [hnext]
    exact hrenumbers.pending
  · rw [hsize', hsize, hr.length_eq]
  · -- the same accumulator before the round takes in the same batches
    rw [hsize'] at hk
    have hka' := List.getElem?_eq_getElem hk
    obtain ⟨b', hb', hab'⟩ := hext' k _ hka'
    obtain ⟨b, hb, hab⟩ := hext (ρ k) _ ((hr.accumulators_eq k hk).symm.trans hka')
    have hbatches : call'.batchesOf config.symmetrize k =
        call.batchesOf config.symmetrize (ρ k) := by
      simp only [Call.batchesOf, ha, ha',
        batchesAt_renumbered hρ (nodup_of_call? hn hc) hrenumbers.pending hat k]
    rw [hbatches] at hab'
    rw [hb', hb, hab'.unique hab]
  · rw [hnext, hr.notices_eq, hrenumbers.notices_eq]
  · rw [hnext, hr.rounds_eq]
  · rw [hs.counts, hs.counts, hnumber]

theorem finished_renumbered {run : MeasurementRun R} (s' : σ) (t' : κ)
    (hl' : session'.LaidOut job') (hr : session.Renumbers ρ session')
    (h : round sampler (Criterion.ofFunction f) config job session s t =
      (.finished run, s₁, t₁)) :
    ∃ run' t₁', round sampler (Criterion.ofFunction f) config job' session' s' t' =
        (.finished run', s', t₁') ∧ run.Renumbers ρ run' := by
  obtain ⟨plan, hplan, hpending, rfl⟩ := round_eq_finished h
  obtain ⟨plan', hplan', hrenumbers⟩ := Plan.next_renumbered t'
    (fun k hk => hr.accumulators_eq k (hl'.pending_lt k hk)) hr.pending hplan
  refine ⟨_, _, round_of_done hplan' (hrenumbers.pending_eq_nil_iff.mpr hpending), hr.length_eq,
    hr.accumulators_eq, ?_, hr.rounds_eq⟩
  rw [hr.notices_eq, hrenumbers.notices_eq]

/-- A run that succeeds does so under other numbers too, with the same accumulators. -/
theorem run_renumbered {fuel : Nat} {run : MeasurementRun R} (t' : κ) (hρ : Function.Injective ρ)
    (hs : sampler.IsPointwise number point) (hnumber : number s' = number s)
    (hj : job.Renumbers ρ job') (hcover' : job'.Covers) (hl' : session'.LaidOut job')
    (hn : session.pending.Nodup) (hr : session.Renumbers ρ session')
    (h : Session.run sampler (Criterion.ofFunction f) config job fuel session s t =
      (some (.ok run), s₁, t₁)) :
    ∃ run' s₁' t₁', Session.run sampler (Criterion.ofFunction f) config job' fuel session' s' t' =
        (some (.ok run'), s₁', t₁') ∧ run.Renumbers ρ run' := by
  induction fuel generalizing session session' s s' t t' with
  | zero => simp [Session.run] at h
  | succ fuel ih =>
    cases firstRound sampler (Criterion.ofFunction f) config job fuel session s t with
    | failed hround hrun hhistory => cases hrun.symm.trans h
    | finished hround hrun hhistory =>
      cases hrun.symm.trans h
      obtain ⟨run', t₁', hround', hrenumbers⟩ := finished_renumbered s' t' hl' hr hround
      exact ⟨run', s', t₁', by rw [Session.run, hround'], hrenumbers⟩
    | @continued _ next _ _ _ hround hrun hhistory =>
      obtain ⟨next', s₂', t₂', hround', hnext, hnumber'⟩ :=
        round_renumbered t' hρ hs hnumber hj hcover' hl' hn hr hround
      have hn' : next.pending.Nodup := by
        obtain ⟨call, _, _, hc, _, _, rfl⟩ := round_eq_continued hround
        exact nodup_of_call? hn hc
      obtain ⟨run', s₁', t₁', hrun', hrenumbers⟩ :=
        ih t₂' hnumber' (round_keeps_laidOut hl' hround') hn' hnext (hrun ▸ h)
      exact ⟨run', s₁', t₁', by rw [Session.run, hround']; exact hrun', hrenumbers⟩

end Session

end PauliEstimation
