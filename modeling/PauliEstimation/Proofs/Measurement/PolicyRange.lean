import PauliEstimation.Proofs.Measurement.Convergence
import PauliEstimation.Proofs.Measurement.EarlyRefusal
import PauliEstimation.Proofs.Measurement.Routing

namespace PauliEstimation

variable {R σ κ : Type}

namespace RepetitionPolicy

variable {p : RepetitionPolicy} {a : Accumulator R}

theorem more_nonneg (hchunk : p.chunk < 2 ^ 63) : 0 ≤ p.more a := by
  unfold more
  rw [signedWord_of_lt hchunk]
  dsimp only
  split
  next => exact Int.le_refl 0
  next htodo => exact Int.le_min.mpr ⟨by omega, Int.natCast_nonneg _⟩

theorem total_le_of_done (htotal : p.total < 2 ^ 63) (hpos : 1 ≤ p.chunk) (hlt : p.chunk < 2 ^ 63)
    (h : p.more a = 0) : p.total ≤ a.repetitions := by
  -- rows that are too many to be read as they are have passed the total
  rcases Nat.lt_or_ge a.repetitions (2 ^ 63) with hrows | hrows
  · have hmore : p.more a = p.wanted a.repetitions := more_eq_wanted (by omega) hlt hrows
    unfold wanted at hmore
    omega
  · omega

/-- What is left of the total is read as a negative number from `2 ^ 63` on. -/
theorem more_of_large_rest (hrest : a.repetitions + 2 ^ 63 ≤ p.total) (htotal : p.total < 2 ^ 64) :
    p.more a = 0 := by
  have hword : signedDifference p.total a.repetitions = p.total - a.repetitions - 2 ^ 64 := by
    rw [signedDifference_eq, ← Int.sub_bmod_right]
    exact Int.bmod_eq_of_le (by omega) (by omega)
  unfold more
  exact if_pos (by omega)

end RepetitionPolicy

namespace VariancePolicy

variable [Scalar R] {p : VariancePolicy R} {a : Accumulator R}

theorem more_nonneg {answer : Int} (hchunk : p.chunk < 2 ^ 63) (h : p.more a = .ok answer) :
    0 ≤ answer := by
  have hword := signedWord_of_lt hchunk
  have hanswer := more_eq_ok h
  omega

theorem more_of_fresh (hchunk : p.chunk < 2 ^ 63) (ha : a.repetitions = 0) :
    p.more a = .ok (p.chunk : Int) := by
  unfold more
  rw [if_pos ha, signedWord_of_lt hchunk]

end VariancePolicy

namespace StoppingPolicy

def chunk : StoppingPolicy R → Nat
  | variance p => p.chunk
  | repetitions p => p.chunk

theorem more_nonneg [Scalar R] {p : StoppingPolicy R} (hchunk : p.chunk < 2 ^ 63) :
    ∀ a answer, p.more a = .ok answer → 0 ≤ answer := by
  intro a answer h
  cases p with
  | variance p => exact VariancePolicy.more_nonneg hchunk h
  | repetitions p =>
    obtain rfl : p.more a = answer := Except.ok.inj h
    exact RepetitionPolicy.more_nonneg hchunk

end StoppingPolicy

section NonNegative

variable {f : Accumulator R → Except Fault Int}

theorem Plan.next_ne_negative {accumulators : List (Accumulator R)} {ceiling : Nat}
    {todo : List Nat} (t : κ) (hf : ∀ a answer, f a = .ok answer → 0 ≤ answer) (answer : Int) :
    (next (Criterion.ofFunction f) accumulators ceiling todo t).1 ≠
      .error (.negativeRepetitions answer) := by
  intro h
  rcases next_eq_error h with hask | ⟨_, _, hsweeps⟩
  · obtain ⟨given, hneg, _, a, _, _, ha⟩ | ⟨_, hfault, _⟩ := ask_eq_error hask
    · exact absurd (hf a given ha) (Int.not_le.mpr hneg)
    · cases hfault
  · cases hsweeps

variable [Scalar R] {sampler : Sampler R σ} {config : MeasurementConfig}

theorem Session.round_ne_negative {job : Job R} {session : Session R} {s s' : σ} {t t' : κ}
    {answer : Int} (hf : ∀ a answer, f a = .ok answer → 0 ≤ answer) (hl : session.LaidOut job)
    (hcover : job.Covers) :
    round sampler (Criterion.ofFunction f) config job session s t ≠
      (.failed (.negativeRepetitions answer), s', t') := by
  intro h
  rcases round_failed_cases hl hcover h with ⟨_, hrefuses⟩ | ⟨call, _, hfaults⟩
  · cases hrefuses with
    | plan hn => exact Plan.next_ne_negative t hf answer hn
  · cases hfaults

/-- A criterion without negative answers never ends a measurement for one. -/
theorem measure_ne_negative {c : Circuit R} {groups : List (SettingGroup R)} {sweep : Sweep R}
    {fuel : Nat} {s : σ} {t : κ} (hf : ∀ a answer, f a = .ok answer → 0 ≤ answer) (answer : Int) :
    (measure sampler (Criterion.ofFunction f) config c groups sweep fuel s t).1 ≠
      some (.error (.negativeRepetitions answer)) := by
  intro h
  unfold measure at h
  cases hstart : Job.start? c groups sweep with
  | error e =>
    rw [hstart] at h
    obtain rfl : e = .negativeRepetitions answer := Except.error.inj (Option.some.inj h)
    cases Job.start?_isRejection hstart
  | ok started =>
    obtain ⟨job, session⟩ := started
    rw [hstart] at h
    obtain ⟨_, last, _, _, hlast, hround, _⟩ := Session.run_eq_error
      (P := fun session => session.LaidOut job) (Job.start?_laidOut hstart)
      (fun hl hr => Session.round_keeps_laidOut hl hr) (Prod.ext h rfl)
    exact Session.round_ne_negative hf hlast (Job.start?_covers hstart) hround

end NonNegative

theorem total_le_of_measure [Scalar R] {p : RepetitionPolicy} {sampler : Sampler R σ}
    {config : MeasurementConfig} {c : Circuit R} {groups : List (SettingGroup R)}
    {sweep : Sweep R} {fuel : Nat} {s s' : σ} {t t' : κ} {run : MeasurementRun R}
    (htotal : p.total < 2 ^ 63) (hpos : 1 ≤ p.chunk) (hlt : p.chunk < 2 ^ 63)
    (h : measure sampler (StoppingPolicy.repetitions p).criterion config c groups sweep fuel s t =
      (some (.ok run), s', t')) : ∀ a ∈ run.accumulators, p.total ≤ a.repetitions := by
  obtain ⟨job, session, hstart, hrun⟩ := exists_run_of_measure h
  intro a ha
  have hdone : (StoppingPolicy.repetitions p).more a = .ok 0 :=
    Session.settled_of_run (Job.start?_settled _ hstart) hrun a ha
  exact RepetitionPolicy.total_le_of_done htotal hpos hlt (Except.ok.inj hdone)

section Opening

variable [Scalar R]

omit [Scalar R] in
theorem StoppingPolicy.opening_of_large_total {p : RepetitionPolicy} (htotal : 2 ^ 63 ≤ p.total)
    (hlt : p.total < 2 ^ 64) : (repetitions p : StoppingPolicy R).opening = 0 := by
  have hword := signedWord_of_le htotal hlt
  unfold opening
  exact if_pos (by omega)

omit [Scalar R] in
theorem StoppingPolicy.opening_of_large_chunk {p : StoppingPolicy R} (hchunk : 2 ^ 63 ≤ p.chunk)
    (hlt : p.chunk < 2 ^ 64) (htotal : ∀ r, p = repetitions r → 0 < r.total ∧ r.total < 2 ^ 63) :
    p.opening < 0 := by
  have hword := signedWord_of_le hchunk hlt
  have hneg : signedWord p.chunk < 0 := by omega
  cases p with
  | variance p => exact hneg
  | repetitions r =>
    obtain ⟨hpos, hfit⟩ := htotal r rfl
    have hread := signedWord_of_lt hfit
    dsimp only [opening]
    rw [if_neg (by omega)]
    exact Int.lt_of_le_of_lt (Int.min_le_right _ _) hneg

variable {p : StoppingPolicy R} {groups : List (SettingGroup R)} {sweep : Sweep R}

/-- A policy that opens with zero ends a measurement before its first shot, as a success. -/
theorem measure_of_opening_eq_zero (sampler : Sampler R σ) (config : MeasurementConfig)
    (c : Circuit R) (fuel : Nat) (s : σ) (t : κ) (h : p.opening = 0)
    (hfits : ∀ g ∈ groups, g.Fits (Job.qubitsOf groups)) :
    ∃ run, measure sampler p.criterion config c groups sweep (fuel + 1) s t =
        (some (.ok run), s, t) ∧ run.rounds = 0 ∧ ∀ a ∈ run.accumulators, a.repetitions = 0 := by
  obtain ⟨job, session, hstart⟩ := Job.start?_of_fits c sweep hfits
  have hfresh := Job.repetitions_of_start? hstart
  have hanswers : ∀ k ∈ session.pending, ∃ a, session.accumulators[k]? = some a ∧
      p.more a = .ok ((0 : Nat) : Int) := by
    intro k hk
    have hlt := (Job.start?_laidOut hstart).pending_lt k hk
    have hopening := p.peaksAtStart.fresh _ (hfresh _ (List.getElem_mem hlt))
    exact ⟨_, List.getElem?_eq_getElem hlt, hopening.trans (congrArg Except.ok h)⟩
  have hask : Plan.ask p.criterion session.accumulators session.pending t = (.ok [], t) :=
    Plan.ask_uniform hanswers t
  have hround : Session.round sampler p.criterion config job session s t =
      (.finished ⟨session.accumulators, session.notices ++ [], session.rounds⟩, s, t) := by
    unfold Session.round Plan.next
    rw [hask]
    rfl
  have hrounds : session.rounds = 0 := by
    obtain ⟨_, _, _, hsession⟩ := Job.start?_eq_ok hstart
    rw [hsession]
  refine ⟨⟨session.accumulators, session.notices ++ [], session.rounds⟩, ?_, hrounds, hfresh⟩
  rw [(measure_of_start? hstart sampler _ config (fuel + 1) s t).1, Session.run, hround]

/-- A policy that opens with a negative number fails a measurement that has something to measure. -/
theorem measure_of_opening_neg (sampler : Sampler R σ) (config : MeasurementConfig) (c : Circuit R)
    (fuel : Nat) (s : σ) (t : κ) (h : p.opening < 0)
    (hfits : ∀ g ∈ groups, g.Fits (Job.qubitsOf groups))
    (hspecs : 0 < groups.length * sweep.points.length) :
    measure sampler p.criterion config c groups sweep (fuel + 1) s t =
      (some (.error (.negativeRepetitions p.opening)), s, t) := by
  obtain ⟨job, session, hstart⟩ := Job.start?_of_fits c sweep hfits
  have hfresh := Job.repetitions_of_start? hstart
  have hlen := (Job.start?_accumulators hstart).1
  rw [(measure_of_start? hstart sampler _ config (fuel + 1) s t).1]
  obtain ⟨blocks, _, _, rfl⟩ := Job.start?_eq_ok hstart
  obtain ⟨a, rest, hcons⟩ := List.exists_cons_of_length_pos (hlen ▸ hspecs)
  dsimp only at hcons hfresh
  rw [hcons] at hfresh ⊢
  have hanswer : p.criterion a t = (.ok p.opening, t) :=
    congrArg (·, t) (p.peaksAtStart.fresh a (hfresh a List.mem_cons_self))
  have hask : Plan.ask p.criterion (a :: rest) (List.range (a :: rest).length) t =
      (.error (.negativeRepetitions p.opening), t) := by
    rw [List.length_cons, List.range_succ_eq_map, Plan.ask]
    simp only [List.getElem?_cons_zero, hanswer, if_pos h]
  unfold Session.run Session.round Plan.next
  rw [hask]
  rfl

/-- Under a total that is read as a negative number a measurement succeeds without a shot. -/
theorem measure_of_large_total {p : RepetitionPolicy} (sampler : Sampler R σ)
    (config : MeasurementConfig) (c : Circuit R) (fuel : Nat) (s : σ) (t : κ)
    (htotal : 2 ^ 63 ≤ p.total) (hlt : p.total < 2 ^ 64)
    (hfits : ∀ g ∈ groups, g.Fits (Job.qubitsOf groups)) :
    ∃ run, measure sampler (StoppingPolicy.repetitions p).criterion config c groups sweep (fuel + 1)
        s t = (some (.ok run), s, t) ∧ run.rounds = 0 ∧
      ∀ a ∈ run.accumulators, a.repetitions = 0 :=
  measure_of_opening_eq_zero sampler config c fuel s t
    (StoppingPolicy.opening_of_large_total htotal hlt) hfits

/-- Under a chunk that is read as a negative number a measurement fails before the first shot. -/
theorem measure_of_large_chunk (sampler : Sampler R σ) (config : MeasurementConfig) (c : Circuit R)
    (fuel : Nat) (s : σ) (t : κ) (hchunk : 2 ^ 63 ≤ p.chunk) (hlt : p.chunk < 2 ^ 64)
    (htotal : ∀ r, p = .repetitions r → 0 < r.total ∧ r.total < 2 ^ 63)
    (hfits : ∀ g ∈ groups, g.Fits (Job.qubitsOf groups))
    (hspecs : 0 < groups.length * sweep.points.length) :
    ∃ answer < 0, measure sampler p.criterion config c groups sweep (fuel + 1) s t =
      (some (.error (.negativeRepetitions answer)), s, t) :=
  ⟨p.opening, StoppingPolicy.opening_of_large_chunk hchunk hlt htotal,
    measure_of_opening_neg sampler config c fuel s t
      (StoppingPolicy.opening_of_large_chunk hchunk hlt htotal) hfits hspecs⟩

end Opening

/-- With a chunk below `2 ^ 63` neither policy is ever negative, and the variance policy asks for
something before the first shot, so that no measurement ends for a negative answer. When what is left
of the total is below `2 ^ 63` as well, the repetition policy asks for a chunk or what is left, which
is zero only when the total is reached or the chunk is zero. With a positive chunk no measurement
succeeds below a total below `2 ^ 63`. -/
theorem policies_stay_in_range [Scalar R] (p : RepetitionPolicy) (v : VariancePolicy R)
    (a : Accumulator R) (sampler : Sampler R σ) (config : MeasurementConfig) (c : Circuit R)
    (groups : List (SettingGroup R)) (sweep : Sweep R) (fuel : Nat) (s : σ) (t : κ)
    (hp : p.chunk < 2 ^ 63) (hv : v.chunk < 2 ^ 63) :
    (0 ≤ p.more a ∧ (a.repetitions < 2 ^ 63 → p.total < a.repetitions + 2 ^ 63 →
      p.more a = (min p.chunk (p.total - a.repetitions) : Nat) ∧
        (p.more a = 0 → p.total ≤ a.repetitions ∨ p.chunk = 0))) ∧
    ((∀ answer, v.more a = .ok answer → 0 ≤ answer) ∧
      (a.repetitions = 0 → 1 ≤ v.chunk → ∃ answer, v.more a = .ok answer ∧ 0 < answer)) ∧
    (∀ policy ∈ [StoppingPolicy.repetitions p, .variance v], ∀ answer,
      (measure sampler policy.criterion config c groups sweep fuel s t).1 ≠
        some (.error (.negativeRepetitions answer))) ∧
    (p.total < 2 ^ 63 → 1 ≤ p.chunk → ∀ run s' t',
      measure sampler (StoppingPolicy.repetitions p).criterion config c groups sweep fuel s t =
        (some (.ok run), s', t') → ∀ b ∈ run.accumulators, p.total ≤ b.repetitions) := by
  refine ⟨⟨RepetitionPolicy.more_nonneg hp, fun ha htotal => ?_⟩,
    ⟨fun answer => VariancePolicy.more_nonneg hv, fun hfresh hpos => ?_⟩,
    fun policy hpolicy answer => ?_,
    fun htotal hpos run s' t' => total_le_of_measure htotal hpos hp⟩
  · have hmore : p.more a = (min p.chunk (p.total - a.repetitions) : Nat) :=
      RepetitionPolicy.more_eq_wanted htotal hp ha
    exact ⟨hmore, fun hzero => by omega⟩
  · exact ⟨v.chunk, VariancePolicy.more_of_fresh hv hfresh, by omega⟩
  · have hchunk : policy.chunk < 2 ^ 63 := by
      rcases List.mem_pair.mp hpolicy with rfl | rfl
      · exact hp
      · exact hv
    exact measure_ne_negative (StoppingPolicy.more_nonneg hchunk) answer

/-- Six shots in chunks of four. -/
theorem policies_stay_in_range_six :
    let p : RepetitionPolicy := ⟨6, 4⟩
    let v : VariancePolicy Float := ⟨0, 100⟩
    let fresh : Accumulator Float :=
      Accumulator.empty ⟨readingZ ⟨0⟩, Bindings.empty⟩ [] (Job.columnsOf [⟨0⟩])
    p.chunk < 2 ^ 63 ∧ v.chunk < 2 ^ 63 ∧ p.total < 2 ^ 63 ∧ fresh.repetitions < 2 ^ 63 ∧
      p.total < fresh.repetitions + 2 ^ 63 ∧ p.more fresh = 4 ∧
      ∃ run s t, measure alternatingSampler (StoppingPolicy.repetitions p).criterion {} ∅
          unevenGroups Sweep.unit 4 0 () = (some (.ok run), s, t) ∧
        run.accumulators.map Accumulator.repetitions = [6, 6] ∧
        ∀ b ∈ run.accumulators, 6 ≤ b.repetitions := by
  intro p v fresh
  have htotal : p.total < 2 ^ 63 := by decide
  have hfresh : fresh.repetitions < 2 ^ 63 := by decide
  have hrest : p.total < fresh.repetitions + 2 ^ 63 := by decide
  obtain ⟨⟨_, hmore⟩, _, _, hreached⟩ := policies_stay_in_range p v fresh alternatingSampler {} ∅
    unevenGroups Sweep.unit 4 0 () (by decide) (by decide)
  obtain ⟨run, s, t, hrun, hrepetitions⟩ : ∃ run s t, measure alternatingSampler
      (StoppingPolicy.repetitions p).criterion {} ∅ unevenGroups Sweep.unit 4 0 () =
        (some (.ok run), s, t) ∧ run.accumulators.map Accumulator.repetitions = [6, 6] := by
    apply exists_of_map_toOption
    decide +kernel
  exact ⟨by decide, by decide, htotal, hfresh, hrest, (hmore hfresh hrest).1, run, s, t, hrun,
    hrepetitions, hreached htotal (by decide) run s t hrun⟩

/-- A total of `2 ^ 63` is answered by zero before the first shot. -/
theorem large_total_is_not_reached :
    ¬ ∀ (p : RepetitionPolicy) (a : Accumulator Float), p.total < 2 ^ 64 → p.chunk < 2 ^ 64 →
      a.repetitions < 2 ^ 63 → p.more a = 0 → p.total ≤ a.repetitions ∨ p.chunk = 0 := by
  intro h
  let p : RepetitionPolicy := ⟨2 ^ 63, 10⟩
  let fresh : Accumulator Float :=
    Accumulator.empty ⟨readingZ ⟨0⟩, Bindings.empty⟩ [] QubitMap.empty
  have hmore : p.more fresh = 0 := RepetitionPolicy.more_of_large_rest (by decide) (by decide)
  have hreached : 2 ^ 63 ≤ 0 ∨ 10 = 0 :=
    h p fresh (by decide) (by decide) (by decide) hmore
  omega

end PauliEstimation
