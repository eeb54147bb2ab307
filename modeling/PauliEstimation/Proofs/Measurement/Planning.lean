import PauliEstimation.Measurement.Session
import PauliEstimation.Proofs.Traversal

namespace PauliEstimation

namespace Plan

variable {R κ : Type}

theorem ask_cons_eq_ok {criterion : Criterion R κ} {accumulators : List (Accumulator R)} {k : Nat}
    {rest : List Nat} {t t' : κ} {requests : List (Nat × Nat)}
    (h : ask criterion accumulators (k :: rest) t = (.ok requests, t')) :
    ∃ a answer t₁ others, accumulators[k]? = some a ∧ criterion a t = (.ok answer, t₁) ∧
      0 ≤ answer ∧ ask criterion accumulators rest t₁ = (.ok others, t') ∧
      requests = if answer = 0 then others else (k, answer.toNat) :: others := by
  unfold ask at h
  split at h
  next => simp at h
  next a ha =>
    split at h
    next => simp at h
    next answer t₁ hc =>
      split at h
      next => simp at h
      next hneg =>
        obtain ⟨h₁, h₂⟩ := Prod.mk.inj h
        cases hr : (ask criterion accumulators rest t₁).1 with
        | error e => simp [hr, Except.map] at h₁
        | ok others =>
          rw [hr] at h₁
          exact ⟨a, answer, t₁, others, ha, hc, by omega, Prod.ext hr h₂, (Except.ok.inj h₁).symm⟩

theorem ask_sublist {criterion : Criterion R κ} {accumulators : List (Accumulator R)}
    {todo : List Nat} {t t' : κ} {requests : List (Nat × Nat)}
    (h : ask criterion accumulators todo t = (.ok requests, t')) :
    (requests.map Prod.fst).Sublist todo := by
  induction todo generalizing t requests with
  | nil =>
    obtain rfl : [] = requests := Except.ok.inj (Prod.mk.inj h).1
    exact List.Sublist.refl []
  | cons k rest ih =>
    obtain ⟨a, answer, t₁, others, _, _, _, hr, rfl⟩ := ask_cons_eq_ok h
    split
    next => exact (ih hr).cons k
    next => exact (ih hr).cons_cons k

/-- Every request is the answer for a listed accumulator. -/
theorem ask_mem {criterion : Criterion R κ} {accumulators : List (Accumulator R)} {todo : List Nat}
    {t t' : κ} {requests : List (Nat × Nat)}
    (h : ask criterion accumulators todo t = (.ok requests, t')) :
    ∀ e ∈ requests, e.1 ∈ todo ∧ ∃ a t₁, accumulators[e.1]? = some a ∧
      (criterion a t₁).1 = .ok (e.2 : Int) := by
  induction todo generalizing t requests with
  | nil =>
    obtain rfl : [] = requests := Except.ok.inj (Prod.mk.inj h).1
    simp
  | cons k rest ih =>
    obtain ⟨a, answer, t₁, others, ha, hc, hnonneg, hr, rfl⟩ := ask_cons_eq_ok h
    have hlater : ∀ e ∈ others, e.1 ∈ k :: rest ∧ ∃ a t₁, accumulators[e.1]? = some a ∧
        (criterion a t₁).1 = .ok (e.2 : Int) :=
      fun e he => ⟨List.mem_cons_of_mem _ (ih hr e he).1, (ih hr e he).2⟩
    split
    next => exact hlater
    next =>
      refine List.forall_mem_cons.mpr ⟨⟨List.mem_cons_self, a, t, ha, ?_⟩, hlater⟩
      rw [hc, Int.toNat_of_nonneg hnonneg]

/-- The questions end early at a negative answer, or where an accumulator or an answer is missing. -/
theorem ask_eq_error {criterion : Criterion R κ} {accumulators : List (Accumulator R)}
    {todo : List Nat} {t : κ} {e : MeasurementError R}
    (h : (ask criterion accumulators todo t).1 = .error e) :
    (∃ answer, answer < 0 ∧ e = .negativeRepetitions answer ∧
        ∃ a ∈ accumulators, ∃ t₁, (criterion a t₁).1 = .ok answer) ∨
      ∃ fault, e = .fault fault ∧ ∃ k ∈ todo, accumulators[k]? = none ∨
        ∃ a t₁, accumulators[k]? = some a ∧ (criterion a t₁).1 = .error fault := by
  induction todo generalizing t with
  | nil => cases h
  | cons k rest ih =>
    unfold ask at h
    split at h
    next ha => exact Or.inr ⟨_, (Except.error.inj h).symm, k, List.mem_cons_self, Or.inl ha⟩
    next a ha =>
      split at h
      next fault t₁ hf =>
        exact Or.inr ⟨fault, (Except.error.inj h).symm, k, List.mem_cons_self,
          Or.inr ⟨a, t, ha, by rw [hf]⟩⟩
      next answer t₁ hf =>
        split at h
        next hneg =>
          exact Or.inl ⟨answer, hneg, (Except.error.inj h).symm, a, List.mem_of_getElem? ha, t,
            by rw [hf]⟩
        next =>
          cases hr : (ask criterion accumulators rest t₁).1 with
          | ok others => simp [hr, Except.map] at h
          | error cause =>
            obtain rfl : cause = e := by simpa [hr, Except.map] using h
            rcases ih hr with hneg | ⟨fault, rfl, l, hl, hmissing⟩
            · exact Or.inl hneg
            · exact Or.inr ⟨fault, rfl, l, List.mem_cons_of_mem _ hl, hmissing⟩

/-- What a function of the accumulators asks for at a position. -/
def demand (f : Accumulator R → Except Fault Int) (accumulators : List (Accumulator R)) (k : Nat) :
    Nat :=
  match accumulators[k]?.map f with
  | some (.ok answer) => answer.toNat
  | _ => 0

/-- The demands at the listed positions, without those of zero. -/
def demands (f : Accumulator R → Except Fault Int) (accumulators : List (Accumulator R))
    (todo : List Nat) : List (Nat × Nat) :=
  (todo.filter (demand f accumulators · ≠ 0)).map fun k => (k, demand f accumulators k)

section Demand

variable {f : Accumulator R → Except Fault Int} {accumulators : List (Accumulator R)}
  {todo : List Nat} {t t' : κ} {requests : List (Nat × Nat)}

theorem demand_of_answer {k : Nat} {a : Accumulator R} {answer : Int}
    (ha : accumulators[k]? = some a) (hf : f a = .ok answer) :
    demand f accumulators k = answer.toNat := by
  simp only [demand, ha, Option.map_some, hf]

theorem mem_demands {k : Nat} :
    k ∈ (demands f accumulators todo).map Prod.fst ↔ k ∈ todo ∧ demand f accumulators k ≠ 0 := by
  simp [demands, Function.comp_def, List.mem_filter]

theorem demands_cons {k : Nat} {a : Accumulator R} {answer : Int} (ha : accumulators[k]? = some a)
    (hf : f a = .ok answer) (hnonneg : 0 ≤ answer) (rest : List Nat) :
    demands f accumulators (k :: rest) =
      if answer = 0 then demands f accumulators rest
      else (k, answer.toNat) :: demands f accumulators rest := by
  have hdemand := demand_of_answer ha hf
  by_cases h0 : answer = 0
  · simp [demands, hdemand, h0]
  · have hpos : ¬ answer.toNat = 0 := by omega
    simp [demands, hdemand, h0, hpos]

/-- A criterion that is a function gets through the questions when none of its answers is negative,
and then the requests are its demands. -/
theorem ask_ofFunction_eq_ok_iff :
    ask (Criterion.ofFunction f) accumulators todo t = (.ok requests, t') ↔
      (∀ k ∈ todo, ∃ a answer, accumulators[k]? = some a ∧ f a = .ok answer ∧ 0 ≤ answer) ∧
      requests = demands f accumulators todo ∧ t' = t := by
  induction todo generalizing requests t' with
  | nil => simp [ask, demands, eq_comm]
  | cons k rest ih =>
    constructor
    · intro h
      obtain ⟨a, answer, t₁, others, ha, hc, hnonneg, hr, rfl⟩ := ask_cons_eq_ok h
      obtain ⟨hf, rfl⟩ := Prod.mk.inj hc
      obtain ⟨hanswers, rfl, rfl⟩ := ih.mp hr
      exact ⟨List.forall_mem_cons.mpr ⟨⟨a, answer, ha, hf, hnonneg⟩, hanswers⟩,
        (demands_cons ha hf hnonneg rest).symm, rfl⟩
    · rintro ⟨hanswers, rfl, rfl⟩
      obtain ⟨⟨a, answer, ha, hf, hnonneg⟩, hrest⟩ := List.forall_mem_cons.mp hanswers
      have hlater := ih.mpr ⟨hrest, rfl, rfl⟩
      simp only [ask, ha, Criterion.ofFunction, hf, Int.not_lt.mpr hnonneg, if_false] at hlater ⊢
      rw [hlater, demands_cons ha hf hnonneg]
      rfl

/-- A criterion that is a function has one answer for every listed accumulator, and the requests
are those of the accumulators it does not answer by zero. -/
theorem ask_ofFunction_answers
    (h : ask (Criterion.ofFunction f) accumulators todo t = (.ok requests, t')) :
    ∀ k ∈ todo, ∃ a answer, accumulators[k]? = some a ∧ f a = .ok answer ∧
      (k ∈ requests.map Prod.fst ↔ answer ≠ 0) := by
  obtain ⟨hanswers, rfl, rfl⟩ := ask_ofFunction_eq_ok_iff.mp h
  intro k hk
  obtain ⟨a, answer, ha, hf, hnonneg⟩ := hanswers k hk
  refine ⟨a, answer, ha, hf, ?_⟩
  rw [mem_demands, demand_of_answer ha hf, and_iff_right hk]
  omega

end Demand

theorem ofRequests_pending {ceiling : Nat} {requests : List (Nat × Nat)} {plan : Plan}
    (h : ofRequests (R := R) ceiling requests = .ok plan) :
    plan.pending = requests.map Prod.fst := by
  unfold ofRequests at h
  split at h
  next h0 =>
    cases h
    simp [h0, done]
  next =>
    dsimp only at h
    split at h
    next => cases h; rfl
    next =>
      split at h
      next => simp at h
      next => cases h; rfl

/-- Below saturation the whole job fits under the ceiling. -/
theorem ofRequests_job_le {ceiling : Nat} {requests : List (Nat × Nat)} {plan : Plan}
    (hc : ceiling < maxWord) (h : ofRequests (R := R) ceiling requests = .ok plan) :
    plan.pending.length * plan.repetitions ≤ ceiling := by
  unfold ofRequests at h
  split at h
  next =>
    cases h
    simp [done]
  next =>
    dsimp only at h
    split at h
    next hle =>
      cases h
      show (requests.map Prod.fst).length * (aggregateRequests (requests.map Prod.snd)).1 ≤ ceiling
      omega
    next =>
      split at h
      next => simp at h
      next =>
        cases h
        exact Nat.mul_div_le ceiling _

theorem ofRequests_eq_error {ceiling : Nat} {requests : List (Nat × Nat)}
    {e : MeasurementError R} (h : ofRequests ceiling requests = .error e) :
    ∃ groups repetitions, e = .tooManySweeps groups repetitions ceiling := by
  unfold ofRequests at h
  split at h
  next => cases h
  next =>
    dsimp only at h
    split at h
    next => cases h
    next =>
      split at h
      next => exact ⟨_, _, (Except.error.inj h).symm⟩
      next => cases h

theorem next_eq_error {criterion : Criterion R κ} {accumulators : List (Accumulator R)}
    {ceiling : Nat} {todo : List Nat} {t : κ} {e : MeasurementError R}
    (h : (next criterion accumulators ceiling todo t).1 = .error e) :
    (ask criterion accumulators todo t).1 = .error e ∨
      ∃ groups repetitions, e = .tooManySweeps groups repetitions ceiling := by
  cases hr : (ask criterion accumulators todo t).1 with
  | error cause =>
    obtain rfl : cause = e := by simpa [next, hr, Except.bind] using h
    exact Or.inl rfl
  | ok requests => exact Or.inr (ofRequests_eq_error (by simpa [next, hr, Except.bind] using h))

theorem next_eq_ok {criterion : Criterion R κ} {accumulators : List (Accumulator R)}
    {ceiling : Nat} {todo : List Nat} {t : κ} {plan : Plan}
    (h : (next criterion accumulators ceiling todo t).1 = .ok plan) :
    ∃ requests, ask criterion accumulators todo t =
        (.ok requests, (next criterion accumulators ceiling todo t).2) ∧
      ofRequests (R := R) ceiling requests = .ok plan := by
  obtain ⟨requests, hr, hp⟩ := bind_eq_ok_iff.mp h
  exact ⟨requests, Prod.ext hr rfl, hp⟩

theorem next_sublist {criterion : Criterion R κ} {accumulators : List (Accumulator R)}
    {ceiling : Nat} {todo : List Nat} {t : κ} {plan : Plan}
    (h : (next criterion accumulators ceiling todo t).1 = .ok plan) :
    plan.pending.Sublist todo := by
  obtain ⟨requests, hr, hp⟩ := next_eq_ok h
  rw [ofRequests_pending hp]
  exact ask_sublist hr

theorem next_job_le {criterion : Criterion R κ} {accumulators : List (Accumulator R)}
    {ceiling : Nat} {todo : List Nat} {t : κ} {plan : Plan} (hc : ceiling < maxWord)
    (h : (next criterion accumulators ceiling todo t).1 = .ok plan) :
    plan.pending.length * plan.repetitions ≤ ceiling := by
  obtain ⟨_, _, hp⟩ := next_eq_ok h
  exact ofRequests_job_le hc hp

theorem next_ofFunction_answers {f : Accumulator R → Except Fault Int}
    {accumulators : List (Accumulator R)} {ceiling : Nat} {todo : List Nat} {t : κ} {plan : Plan}
    (h : (next (Criterion.ofFunction f) accumulators ceiling todo t).1 = .ok plan) :
    ∀ k ∈ todo, ∃ a answer, accumulators[k]? = some a ∧ f a = .ok answer ∧
      (k ∈ plan.pending ↔ answer ≠ 0) := by
  obtain ⟨requests, hr, hp⟩ := next_eq_ok h
  rw [ofRequests_pending hp]
  exact ask_ofFunction_answers hr

end Plan

namespace Variant

variable {R : Type}

/-- Every pending specification has its block of variants, in the order of the plan. -/
theorem ofPending?_eq_ok {specs : List (Spec R)} {qubitCount : Nat} {symmetrize : Bool}
    {pending : List Nat} {variants : List (Variant R)}
    (h : ofPending? specs qubitCount symmetrize pending = .ok variants) :
    ∃ blocks, variants = blocks.flatten ∧ List.Forall₂ (fun k block => ∃ spec,
      specs[k]? = some spec ∧ block = ofSpec qubitCount symmetrize k spec) pending blocks := by
  obtain ⟨blocks, hb, h⟩ := bind_eq_ok_iff.mp h
  refine ⟨blocks, (Except.ok.inj h).symm, (mapM_eq_ok_iff.mp hb).imp ?_⟩
  intro k block hk
  cases hs : specs[k]? with
  | none => simp [hs] at hk
  | some spec =>
    rw [hs] at hk
    exact ⟨spec, rfl, (Except.ok.inj hk).symm⟩

/-- The blocks of variants are equally long. -/
theorem length_block {specs : List (Spec R)} {qubitCount : Nat} {symmetrize : Bool}
    {pending : List Nat} {blocks : List (List (Variant R))}
    (h : List.Forall₂ (fun k block => ∃ spec, specs[k]? = some spec ∧
      block = ofSpec qubitCount symmetrize k spec) pending blocks) :
    ∀ block ∈ blocks, block.length = if symmetrize then 2 else 1 := by
  intro block hm
  obtain ⟨k, _, spec, _, rfl⟩ := forall₂_exists_of_mem h hm
  exact length_ofSpec qubitCount symmetrize k spec

theorem ofPending?_length {specs : List (Spec R)} {qubitCount : Nat} {symmetrize : Bool}
    {pending : List Nat} {variants : List (Variant R)}
    (h : ofPending? specs qubitCount symmetrize pending = .ok variants) :
    variants.length = pending.length * if symmetrize then 2 else 1 := by
  obtain ⟨blocks, rfl, hb⟩ := ofPending?_eq_ok h
  rw [length_flatten_blocks (length_block hb), hb.length_eq]

/-- The variants of a pending specification stand where the specification does. -/
theorem getElem?_ofPending?_block {specs : List (Spec R)} {qubitCount i k : Nat}
    {symmetrize : Bool} {pending : List Nat} {variants : List (Variant R)}
    (h : ofPending? specs qubitCount symmetrize pending = .ok variants)
    (hk : pending[i]? = some k) :
    ∃ spec, specs[k]? = some spec ∧ ∀ j, (j < if symmetrize then 2 else 1) →
      variants[i * (if symmetrize then 2 else 1) + j]? =
        (ofSpec qubitCount symmetrize k spec)[j]? := by
  obtain ⟨blocks, rfl, hb⟩ := ofPending?_eq_ok h
  obtain ⟨block, hi, spec, hspec, rfl⟩ := forall₂_getElem? hb hk
  exact ⟨spec, hspec, fun j hj => getElem?_flatten_blocks (length_block hb) hi hj⟩

theorem exists_of_mem_ofPending? {specs : List (Spec R)} {qubitCount : Nat} {symmetrize : Bool}
    {pending : List Nat} {variants : List (Variant R)} {v : Variant R}
    (h : ofPending? specs qubitCount symmetrize pending = .ok variants) (hv : v ∈ variants) :
    ∃ k ∈ pending, ∃ spec flip, specs[k]? = some spec ∧
      v = ⟨k, spec, List.replicate qubitCount flip⟩ := by
  obtain ⟨blocks, rfl, hb⟩ := ofPending?_eq_ok h
  obtain ⟨block, hm, hvb⟩ := List.mem_flatten.mp hv
  obtain ⟨k, hk, spec, hs, rfl⟩ := forall₂_exists_of_mem hb hm
  obtain ⟨flip, _, rfl⟩ := List.mem_map.mp hvb
  exact ⟨k, hk, spec, flip, hs, rfl⟩

theorem index_mem_of_ofPending? {specs : List (Spec R)} {qubitCount : Nat} {symmetrize : Bool}
    {pending : List Nat} {variants : List (Variant R)} {v : Variant R}
    (h : ofPending? specs qubitCount symmetrize pending = .ok variants) (hv : v ∈ variants) :
    v.index ∈ pending := by
  obtain ⟨k, hk, _, _, _, rfl⟩ := exists_of_mem_ofPending? h hv
  exact hk

theorem length_flips_of_ofPending? {specs : List (Spec R)} {qubitCount : Nat} {symmetrize : Bool}
    {pending : List Nat} {variants : List (Variant R)} {v : Variant R}
    (h : ofPending? specs qubitCount symmetrize pending = .ok variants) (hv : v ∈ variants) :
    v.flips.length = qubitCount := by
  obtain ⟨_, _, _, _, _, rfl⟩ := exists_of_mem_ofPending? h hv
  exact List.length_replicate

end Variant

namespace Session

variable {R : Type} [Scalar R]

/-- What a submission holds: the variants of the plan, one point of the sweep for each, and their
share of the repetitions, which is not zero. -/
structure Submits (job : Job R) (config : MeasurementConfig) (plan : Plan)
    (variants : List (Variant R)) (request : SweepRequest R) : Prop where
  variants_eq : Variant.ofPending? job.specs job.qubits.length config.symmetrize plan.pending =
    .ok variants
  program_eq : request.program = job.program
  points : List.Forall₂ (fun v b => v.bindings? job.qubits job.needsInitial = .ok b) variants
    request.sweep.points
  repetitions_eq : request.repetitions = Variant.share config.symmetrize plan.repetitions
  repetitions_pos : 0 < request.repetitions

theorem submission?_eq_ok {job : Job R} {config : MeasurementConfig} {plan : Plan}
    {variants : List (Variant R)} {request : SweepRequest R}
    (h : submission? job config plan = .ok (variants, request)) :
    Submits job config plan variants request := by
  obtain ⟨vs, hv, h⟩ := bind_eq_ok_iff.mp h
  dsimp only at h
  split at h
  next => simp [throw, throwThe, MonadExceptOf.throw, bind, Except.bind] at h
  next hpos =>
    obtain ⟨sweep, hs, h⟩ := bind_eq_ok_iff.mp h
    obtain ⟨points, hp, hsweep⟩ := bind_eq_ok_iff.mp hs
    cases hsweep
    cases h
    exact ⟨liftFault_eq_ok_iff.mp hv, rfl, mapM_eq_ok_iff.mp hp, rfl, Nat.pos_of_ne_zero hpos⟩

/-- The points of a submission together take no more shots than the plan has. -/
theorem Submits.job_le {job : Job R} {config : MeasurementConfig} {plan : Plan}
    {variants : List (Variant R)} {request : SweepRequest R}
    (h : Submits job config plan variants request) :
    request.sweep.points.length * request.repetitions ≤
      plan.pending.length * plan.repetitions := by
  rw [← h.points.length_eq, Variant.ofPending?_length h.variants_eq, h.repetitions_eq]
  unfold Variant.share
  cases config.symmetrize with
  | false => simp
  | true =>
    have hhalf : 2 * (plan.repetitions / 2) ≤ plan.repetitions := Nat.mul_div_le _ _
    simpa [Nat.mul_assoc] using Nat.mul_le_mul_left plan.pending.length hhalf

theorem Submits.points_ne_nil {job : Job R} {config : MeasurementConfig} {plan : Plan}
    {variants : List (Variant R)} {request : SweepRequest R}
    (h : Submits job config plan variants request) (hp : plan.pending ≠ []) :
    request.sweep.points ≠ [] := by
  have hlen := Variant.ofPending?_length h.variants_eq
  have hpos : 0 < plan.pending.length := List.length_pos_iff.mpr hp
  apply List.ne_nil_of_length_pos
  rw [← h.points.length_eq, hlen]
  split <;> omega

end Session

end PauliEstimation
