import PauliEstimation.Proofs.Measurement.Attribution
import PauliEstimation.Proofs.Measurement.UniformPlan

namespace PauliEstimation

variable {R σ κ : Type}

/-- Bits are kept one to a byte in a single block of memory, and no block has `2 ^ 63` bytes. -/
def BitMatrix.FitsMemory (m : BitMatrix) : Prop := m.rowCount * m.width < 2 ^ 63

instance (m : BitMatrix) : Decidable m.FitsMemory := inferInstanceAs (Decidable (_ < _))

theorem BitMatrix.FitsMemory.rowCount_lt {m : BitMatrix} (h : m.FitsMemory) :
    m.rowCount < 2 ^ 63 := by
  rcases Nat.eq_zero_or_pos m.width with h0 | hpos
  · have hrows : m.rowCount = 0 := congrArg List.length (m.rows_of_width_zero h0)
    omega
  · exact Nat.lt_of_le_of_lt (Nat.le_mul_of_pos_right _ hpos) h

/-- All accumulators without shots are given one answer. When it asks for something, no answer asks
for more. -/
structure PeaksAtStart (f : Accumulator R → Except Fault Int) (most : Int) : Prop where
  fresh : ∀ a, a.repetitions = 0 → f a = .ok most
  bounded : 0 < most → ∀ a answer, a.bits.FitsMemory → f a = .ok answer → answer ≤ most

theorem VariancePolicy.more_eq_ok [Scalar R] {p : VariancePolicy R} {a : Accumulator R}
    {answer : Int} (h : p.more a = .ok answer) : answer = 0 ∨ answer = signedWord p.chunk := by
  unfold more at h
  split at h
  next => exact Or.inr (Except.ok.inj h).symm
  next =>
    split at h
    next => cases h
    next => exact Or.inl (Except.ok.inj h).symm
    next => exact Or.inl (Except.ok.inj h).symm
    next =>
      have hanswer := Except.ok.inj h
      split at hanswer
      next => exact Or.inl hanswer.symm
      next => exact Or.inr hanswer.symm

namespace StoppingPolicy

variable [Scalar R]

/-- What a policy asks for an accumulator without shots. -/
def opening : StoppingPolicy R → Int
  | variance p => signedWord p.chunk
  | repetitions p =>
    if signedWord p.total ≤ 0 then 0 else min (signedWord p.total) (signedWord p.chunk)

theorem peaksAtStart (p : StoppingPolicy R) : PeaksAtStart p.more p.opening where
  fresh a ha := by
    cases p with
    | variance p => simp [more, VariancePolicy.more, ha, opening]
    | repetitions p => simp [more, RepetitionPolicy.more, ha, signedDifference_zero, opening]
  bounded hpos a answer hm h := by
    cases p with
    | variance p =>
      have hanswer := VariancePolicy.more_eq_ok h
      dsimp only [opening] at hpos ⊢
      omega
    | repetitions p =>
      have hanswer : p.more a = answer := Except.ok.inj h
      dsimp only [opening] at hpos ⊢
      by_cases hword : signedWord p.total ≤ 0
      · rw [if_pos hword] at hpos
        exact absurd hpos (lt_irrefl 0)
      · have hleft : signedDifference p.total a.repetitions = signedWord p.total - a.repetitions :=
          signedDifference_of_nonneg (by omega) hm.rowCount_lt
        rw [if_neg hword] at hpos ⊢
        unfold RepetitionPolicy.more at hanswer
        rw [hleft] at hanswer
        dsimp only at hanswer
        split at hanswer <;> omega

end StoppingPolicy

namespace Plan

/-- A job for `count` specifications stays within the ceiling when each asks for at most `most`, or
the share of each is large enough to go on with. -/
def HasRoom (ceiling most count : Nat) : Prop :=
  most ≤ ceiling / count ∨ minRepetitions ≤ ceiling / count

theorem HasRoom.mono {ceiling most count fewer : Nat} (h : HasRoom ceiling most count)
    (hpos : 0 < fewer) (hle : fewer ≤ count) : HasRoom ceiling most fewer := by
  have hshare : ceiling / count ≤ ceiling / fewer := Nat.div_le_div_left hle hpos
  unfold HasRoom at *
  omega

theorem aggregateRequests_le {requests : List Nat} {most : Nat} (h : ∀ n ∈ requests, n ≤ most) :
    (aggregateRequests requests).1 ≤ most := by
  unfold aggregateRequests
  dsimp only
  rw [List.getLastD_eq_getLast?]
  cases hlast : (distinctCounts requests).getLast? with
  | none => exact Nat.zero_le _
  | some n => exact h n (mem_distinctCounts.mp (List.mem_of_getLast? hlast))

theorem ofRequests_ne_tooManySweeps {ceiling most : Nat} {requests : List (Nat × Nat)}
    (hroom : requests ≠ [] → HasRoom ceiling most requests.length)
    (hle : ∀ e ∈ requests, e.2 ≤ most) (groups repetitions limit : Nat) :
    ofRequests (R := R) ceiling requests ≠ .error (.tooManySweeps groups repetitions limit) := by
  intro h
  unfold ofRequests at h
  split at h
  next => cases h
  next hne =>
    have hpos : 0 < requests.length := List.length_pos_iff.mpr hne
    have hchosen : (aggregateRequests (requests.map Prod.snd)).1 ≤ most := by
      apply aggregateRequests_le
      intro n hn
      obtain ⟨e, he, rfl⟩ := List.mem_map.mp hn
      exact hle e he
    dsimp only at h
    rw [List.length_map] at h
    split at h
    next => cases h
    next hover =>
      split at h
      next hsmall =>
        rcases hroom hne with hmost | hshare
        · have hjob : requests.length * (aggregateRequests (requests.map Prod.snd)).1 ≤ ceiling :=
            Nat.le_trans (Nat.mul_le_mul_left _ (Nat.le_trans hchosen hmost))
              (Nat.mul_div_le ceiling _)
          exact hover (Nat.le_trans (Nat.min_le_left _ _) hjob)
        · exact Nat.not_lt.mpr hshare hsmall
      next => cases h

/-- A first plan that is granted asks for something and leaves room for every later one. -/
theorem next_hasRoom {f : Accumulator R → Except Fault Int} {most : Int}
    {accumulators : List (Accumulator R)} {ceiling : Nat} {todo : List Nat} {t : κ} {plan : Plan}
    (hf : PeaksAtStart f most) (hceiling : ceiling < maxWord)
    (hfresh : ∀ k ∈ todo, ∃ a, accumulators[k]? = some a ∧ a.repetitions = 0)
    (h : (next (Criterion.ofFunction f) accumulators ceiling todo t).1 = .ok plan)
    (hp : plan.pending ≠ []) : 0 < most ∧ HasRoom ceiling most.toNat plan.pending.length := by
  obtain ⟨requests, hask, hplan⟩ := next_eq_ok h
  have hanswers : ∀ k ∈ todo, ∃ a, accumulators[k]? = some a ∧ f a = .ok most := by
    intro k hk
    obtain ⟨a, ha, hzero⟩ := hfresh k hk
    exact ⟨a, ha, hf.fresh a hzero⟩
  have htodo : todo ≠ [] := by
    rintro rfl
    exact hp (List.eq_nil_of_length_eq_zero (Nat.le_zero.mp (next_sublist h).length_le))
  have hnonneg : 0 ≤ most := by
    obtain ⟨k, rest, rfl⟩ := List.exists_cons_of_ne_nil htodo
    obtain ⟨b, hb, hfb⟩ := hanswers k List.mem_cons_self
    obtain ⟨a, answer, _, _, ha, hc, hanswer, _⟩ := ask_cons_eq_ok hask
    obtain rfl : a = b := Option.some.inj (ha.symm.trans hb)
    obtain rfl : answer = most := Except.ok.inj ((Prod.mk.inj hc).1.symm.trans hfb)
    exact hanswer
  have huniform := ask_uniform (n := most.toNat)
    (fun k hk => by rw [Int.toNat_of_nonneg hnonneg]; exact hanswers k hk) t
  obtain rfl : requests = _ := Except.ok.inj (Prod.mk.inj (hask.symm.trans huniform)).1
  split at hplan
  next =>
    cases hplan
    exact absurd rfl hp
  next hpos =>
    rw [ofRequests_uniform hceiling htodo] at hplan
    split at hplan
    next => cases hplan
    next hgranted =>
      cases hplan
      refine ⟨by omega, ?_⟩
      show most.toNat ≤ ceiling / todo.length ∨ minRepetitions ≤ ceiling / todo.length
      omega

theorem next_ne_tooManySweeps {f : Accumulator R → Except Fault Int} {most : Int}
    {accumulators : List (Accumulator R)} {ceiling : Nat} {todo : List Nat} (t : κ)
    (hf : PeaksAtStart f most) (hpos : 0 < most)
    (hmemory : ∀ a ∈ accumulators, a.bits.FitsMemory)
    (hroom : HasRoom ceiling most.toNat todo.length) (groups repetitions limit : Nat) :
    (next (Criterion.ofFunction f) accumulators ceiling todo t).1 ≠
      .error (.tooManySweeps groups repetitions limit) := by
  intro h
  cases hask : (ask (Criterion.ofFunction f) accumulators todo t).1 with
  | error e =>
    obtain rfl : e = .tooManySweeps groups repetitions limit := by
      simpa [next, hask, Except.bind] using h
    obtain ⟨_, _, hnegative, _⟩ | ⟨_, hfault, _⟩ := ask_eq_error hask
    · cases hnegative
    · cases hfault
  | ok requests =>
    have hrequests : ask (Criterion.ofFunction f) accumulators todo t = (.ok requests, _) :=
      Prod.ext hask rfl
    have hcount : requests.length ≤ todo.length := by
      simpa using (ask_sublist hrequests).length_le
    have hle : ∀ e ∈ requests, e.2 ≤ most.toNat := by
      intro e he
      obtain ⟨_, a, _, ha, hanswer⟩ := ask_mem hrequests e he
      have hle := hf.bounded hpos a _ (hmemory a (List.mem_of_getElem? ha)) hanswer
      omega
    refine ofRequests_ne_tooManySweeps (fun hne => ?_) hle groups repetitions limit
      (by simpa [next, hask, Except.bind] using h)
    exact hroom.mono (List.length_pos_iff.mpr hne) hcount

end Plan

namespace Session

variable [Scalar R] {sampler : Sampler R σ} {f : Accumulator R → Except Fault Int} {most : Int}
  {config : MeasurementConfig} {job : Job R} {session session' : Session R} {s s' : σ} {t t' : κ}

/-- A round that fails for too many sweep points does so in its plan. -/
theorem next_of_tooManySweeps {criterion : Criterion R κ} {groups repetitions limit : Nat}
    (hl : session.LaidOut job) (hcover : job.Covers)
    (h : round sampler criterion config job session s t =
      (.failed (.tooManySweeps groups repetitions limit), s', t')) :
    call? sampler criterion config job session s t = none ∧
      (Plan.next criterion session.accumulators config.maxRepetitionsPerJob session.pending t).1 =
        .error (.tooManySweeps groups repetitions limit) := by
  rcases round_failed_cases hl hcover h with ⟨hc, hrefuses⟩ | ⟨call, _, hfaults⟩
  · cases hrefuses with
    | plan hn => exact ⟨hc, hn⟩
  · cases hfaults

/-- The pending specifications leave room for their next job. -/
def HasRoom (config : MeasurementConfig) (most : Int) (session : Session R) : Prop :=
  Plan.HasRoom config.maxRepetitionsPerJob most.toNat session.pending.length

theorem hasRoom_of_first (hf : PeaksAtStart f most)
    (hceiling : config.maxRepetitionsPerJob < maxWord)
    (hfresh : ∀ a ∈ session.accumulators, a.repetitions = 0) (hl : session.LaidOut job)
    (h : round sampler (Criterion.ofFunction f) config job session s t =
      (.continued session', s', t')) : 0 < most ∧ session'.HasRoom config most := by
  obtain ⟨call, results, accumulators, hc, _, _, rfl⟩ := round_eq_continued h
  obtain ⟨hn, hp, _⟩ := call?_eq_some hc
  refine Plan.next_hasRoom hf hceiling (fun k hk => ?_) hn hp
  have hlt := hl.pending_lt k hk
  exact ⟨_, List.getElem?_eq_getElem hlt, hfresh _ (List.getElem_mem hlt)⟩

theorem round_keeps_hasRoom (hroom : session.HasRoom config most)
    (h : round sampler (Criterion.ofFunction f) config job session s t =
      (.continued session', s', t')) : session'.HasRoom config most := by
  obtain ⟨call, results, accumulators, hc, _, _, rfl⟩ := round_eq_continued h
  obtain ⟨hn, hp, _⟩ := call?_eq_some hc
  exact hroom.mono (List.length_pos_iff.mpr hp) (Plan.next_sublist hn).length_le

/-- A run whose first job is granted never fails for too many sweep points later on. -/
theorem run_ne_tooManySweeps {fuel : Nat} {groups repetitions limit : Nat}
    (hf : PeaksAtStart f most) (hpos : 0 < most) (hl : session.LaidOut job)
    (hcover : job.Covers) (hroom : session.HasRoom config most)
    (hmemory : ∀ v ∈ history sampler (Criterion.ofFunction f) config job fuel session s t,
      ∀ a ∈ v.session.accumulators, a.bits.FitsMemory) :
    (Session.run sampler (Criterion.ofFunction f) config job fuel session s t).1 ≠
      some (.error (.tooManySweeps groups repetitions limit)) := by
  intro h
  obtain ⟨before, last, s₁, t₁, ⟨hlast, hroom⟩, hround, hhist⟩ := run_eq_error
    (P := fun session => session.LaidOut job ∧ session.HasRoom config most) ⟨hl, hroom⟩
    (fun hkeep hr => ⟨round_keeps_laidOut hkeep.1 hr, round_keeps_hasRoom hkeep.2 hr⟩)
    (Prod.ext h rfl)
  obtain ⟨_, hn⟩ := next_of_tooManySweeps hlast hcover hround
  have hlater := hmemory _ (by rw [hhist]; exact List.mem_append_right _ List.mem_cons_self)
  exact Plan.next_ne_tooManySweeps t₁ hf hpos hlater hroom groups repetitions limit hn

theorem calls_of_tooManySweeps {fuel : Nat} {groups repetitions limit : Nat}
    (hf : PeaksAtStart f most) (hceiling : config.maxRepetitionsPerJob < maxWord)
    (hfresh : ∀ a ∈ session.accumulators, a.repetitions = 0) (hl : session.LaidOut job)
    (hcover : job.Covers)
    (hmemory : ∀ v ∈ history sampler (Criterion.ofFunction f) config job fuel session s t,
      ∀ a ∈ v.session.accumulators, a.bits.FitsMemory)
    (h : Session.run sampler (Criterion.ofFunction f) config job fuel session s t =
      (some (.error (.tooManySweeps groups repetitions limit)), s', t')) :
    calls (history sampler (Criterion.ofFunction f) config job fuel session s t) = [] ∧ s' = s := by
  cases fuel with
  | zero => simp [Session.run] at h
  | succ fuel =>
    cases firstRound sampler (Criterion.ofFunction f) config job fuel session s t with
    | finished hr hrun hhistory => cases hrun.symm.trans h
    | failed hr hrun hhistory =>
      cases hrun.symm.trans h
      obtain ⟨hc, _⟩ := next_of_tooManySweeps hl hcover hr
      have hstate := (round_of_call?_eq_none hc).1
      rw [hr] at hstate
      rw [hhistory, hc]
      exact ⟨rfl, hstate⟩
    | continued hc hr hrun hhistory =>
      rw [hrun] at h
      rw [hhistory] at hmemory
      obtain ⟨hpos, hroom⟩ := hasRoom_of_first hf hceiling hfresh hl hr
      exact absurd (congrArg Prod.fst h) (run_ne_tooManySweeps hf hpos (round_keeps_laidOut hl hr)
        hcover hroom fun v hv => hmemory v (List.mem_cons_of_mem _ hv))

end Session

/-- A measurement under a built-in policy that fails because a job would be too large has sampled
nothing. -/
theorem oversized_jobs_are_refused_first [Scalar R] (sampler : Sampler R σ) (p : StoppingPolicy R)
    (config : MeasurementConfig) (c : Circuit R) (groups : List (SettingGroup R))
    (sweep : Sweep R) (fuel : Nat) (s s' : σ) (t t' : κ) (count repetitions limit : Nat)
    (hceiling : config.maxRepetitionsPerJob < maxWord)
    (hmemory : ∀ v ∈ measureHistory sampler p.criterion config c groups sweep fuel s t,
      ∀ a ∈ v.session.accumulators, a.bits.FitsMemory)
    (h : measure sampler p.criterion config c groups sweep fuel s t =
      (some (.error (.tooManySweeps count repetitions limit)), s', t')) :
    Session.calls (measureHistory sampler p.criterion config c groups sweep fuel s t) = [] ∧
      s' = s := by
  unfold measureHistory at hmemory ⊢
  unfold measure at h
  cases hstart : Job.start? c groups sweep with
  | error e =>
    rw [hstart] at h
    exact ⟨rfl, (Prod.mk.inj (Prod.mk.inj h).2).1.symm⟩
  | ok started =>
    obtain ⟨job, session⟩ := started
    rw [hstart] at h hmemory
    exact Session.calls_of_tooManySweeps p.peaksAtStart hceiling (Job.repetitions_of_start? hstart)
      (Job.start?_laidOut hstart) (Job.start?_covers hstart) hmemory h

/-- Two groups that share a ceiling of 18, below the ten shots that each should get at least. -/
theorem oversized_jobs_are_refused_first_shared :
    18 < maxWord ∧
      (∀ v ∈ measureHistory alternatingSampler (StoppingPolicy.variance ⟨0, 100⟩).criterion
        ⟨18, true, none⟩ ∅ unevenGroups Sweep.unit 3 0 (),
        ∀ a ∈ v.session.accumulators, a.bits.FitsMemory) ∧
      ∃ s, measure alternatingSampler (StoppingPolicy.variance ⟨0, 100⟩).criterion ⟨18, true, none⟩
          ∅ unevenGroups Sweep.unit 3 0 () = (some (.error (.tooManySweeps 2 9 18)), s, ()) ∧
        Session.calls (measureHistory alternatingSampler
          (StoppingPolicy.variance ⟨0, 100⟩).criterion ⟨18, true, none⟩ ∅ unevenGroups Sweep.unit 3
          0 ()) = [] ∧ s = 0 := by
  have hceiling : 18 < maxWord := by decide
  have hmemory : ∀ v ∈ measureHistory alternatingSampler
      (StoppingPolicy.variance ⟨0, 100⟩).criterion ⟨18, true, none⟩ ∅ unevenGroups Sweep.unit 3 0
      (), ∀ a ∈ v.session.accumulators, a.bits.FitsMemory := by decide +kernel
  obtain ⟨s, hs⟩ : ∃ s, measure alternatingSampler (StoppingPolicy.variance ⟨0, 100⟩).criterion
      ⟨18, true, none⟩ ∅ unevenGroups Sweep.unit 3 0 () =
        (some (.error (.tooManySweeps 2 9 18)), s, ()) := ⟨_, rfl⟩
  obtain ⟨hcalls, hstate⟩ := oversized_jobs_are_refused_first alternatingSampler
    (StoppingPolicy.variance ⟨0, 100⟩) ⟨18, true, none⟩ ∅ unevenGroups Sweep.unit 3 0 s () () 2 9 18
    hceiling hmemory hs
  exact ⟨hceiling, hmemory, s, hs, hcalls, hstate⟩

end PauliEstimation
