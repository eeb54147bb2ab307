import Mathlib.Order.Bounds.Basic
import PauliEstimation.Proofs.Measurement.Renumbering

namespace PauliEstimation

variable {R κ : Type}

section Requests

variable {requests : List Nat}

theorem length_distinctCounts_le_one_iff :
    (distinctCounts requests).length ≤ 1 ↔ ∀ m ∈ requests, ∀ n ∈ requests, m = n := by
  have hascending := pairwise_distinctCounts requests
  have hmem : ∀ n, n ∈ distinctCounts requests ↔ n ∈ requests := fun n => mem_distinctCounts
  generalize distinctCounts requests = counts at hascending hmem
  constructor
  · intro hlen m hm n hn
    obtain ⟨i, hi, rfl⟩ := List.mem_iff_getElem.mp ((hmem m).mpr hm)
    obtain ⟨j, hj, rfl⟩ := List.mem_iff_getElem.mp ((hmem n).mpr hn)
    congr 1
    omega
  · intro hsame
    by_contra hlen
    have hlt := List.pairwise_iff_getElem.mp hascending 0 1 (by omega) (by omega) (by omega)
    have heq := hsame _ ((hmem _).mp (List.getElem_mem (by omega : 0 < counts.length))) _
      ((hmem _).mp (List.getElem_mem (by omega : 1 < counts.length)))
    omega

/-- The number that is chosen is the largest request. -/
theorem isGreatest_aggregateRequests (h : requests ≠ []) :
    IsGreatest {n | n ∈ requests} (aggregateRequests requests).1 := by
  obtain ⟨first, hfirst⟩ := List.exists_mem_of_ne_nil requests h
  have hascending := pairwise_distinctCounts requests
  have hmem : ∀ n, n ∈ distinctCounts requests ↔ n ∈ requests := fun n => mem_distinctCounts
  unfold aggregateRequests
  dsimp only
  rcases List.eq_nil_or_concat (distinctCounts requests) with hnil | ⟨before, last, hcounts⟩
  · have hnone := (hmem first).mpr hfirst
    simp [hnil] at hnone
  · rw [hcounts, List.concat_eq_append] at hascending hmem
    have hlast : ∀ n ∈ before, n < last := fun n hn =>
      (List.pairwise_append.mp hascending).2.2 n hn last (by simp)
    rw [hcounts, List.concat_eq_append, List.getLastD_concat]
    refine ⟨(hmem last).mp (by simp), fun n hn => ?_⟩
    rcases List.mem_append.mp ((hmem n).mpr hn) with hn | hn
    · exact (hlast n hn).le
    · exact (List.mem_singleton.mp hn).le

/-- Requests that differ raise a notice. -/
theorem aggregateRequests_snd (requests : List Nat) :
    (aggregateRequests requests).2 =
      if ∃ m ∈ requests, ∃ n ∈ requests, m ≠ n then
        some (.divergentRepetitions (distinctCounts requests) (aggregateRequests requests).1)
      else none := by
  have hdiffer : (∃ m ∈ requests, ∃ n ∈ requests, m ≠ n) ↔
      ¬ (distinctCounts requests).length ≤ 1 := by
    rw [length_distinctCounts_le_one_iff]
    push Not
    rfl
  simp only [hdiffer, ite_not]
  rfl

end Requests

namespace Plan

/-- Below saturation a job is sized by the true product. -/
theorem ofRequests_eq {ceiling chosen : Nat} {requests : List (Nat × Nat)}
    {divergence : Option Notice} (hc : ceiling < maxWord) (hne : requests ≠ [])
    (h : aggregateRequests (requests.map Prod.snd) = (chosen, divergence)) :
    ofRequests (R := R) ceiling requests =
      if requests.length * chosen ≤ ceiling then
        .ok ⟨requests.map Prod.fst, chosen, divergence.toList⟩
      else if ceiling / requests.length < 10 then
        .error (.tooManySweeps requests.length (ceiling / requests.length) ceiling)
      else .ok ⟨requests.map Prod.fst, ceiling / requests.length,
        divergence.toList ++ [.throttled chosen (ceiling / requests.length) ceiling]⟩ := by
  have hfit : min (requests.length * chosen) maxWord ≤ ceiling ↔
      requests.length * chosen ≤ ceiling := by
    omega
  unfold ofRequests
  rw [if_neg hne, h]
  simp only [List.length_map, hfit]
  rfl

/-- A job for positive answers, given in the order of their positions. -/
theorem exists_ofRequests_positive {ceiling : Nat} {pending : List Nat} {answer : Nat → Int}
    (hc : ceiling < maxWord) (hne : pending ≠ []) (hpos : ∀ k ∈ pending, 0 < answer k) :
    ∃ (largest : Nat) (counts : List Nat),
      IsGreatest {n : Nat | ∃ k ∈ pending, answer k = n} largest ∧
      counts.Pairwise (· < ·) ∧ (∀ n : Nat, n ∈ counts ↔ ∃ k ∈ pending, answer k = n) ∧
      ofRequests (R := R) ceiling (pending.map fun k => (k, (answer k).toNat)) =
        let share := ceiling / pending.length
        let divergence : List Notice :=
          if ∃ j ∈ pending, ∃ k ∈ pending, answer j ≠ answer k then
            [.divergentRepetitions counts largest]
          else []
        if pending.length * largest ≤ ceiling then .ok ⟨pending, largest, divergence⟩
        else if share < 10 then .error (.tooManySweeps pending.length share ceiling)
        else .ok ⟨pending, share, divergence ++ [.throttled largest share ceiling]⟩ := by
  obtain ⟨answers, hanswers⟩ : ∃ answers, answers = pending.map fun k => (answer k).toNat :=
    ⟨_, rfl⟩
  have hmem : ∀ n : Nat, n ∈ answers ↔ ∃ k ∈ pending, answer k = n := by
    intro n
    rw [hanswers]
    refine List.mem_map.trans (exists_congr fun k => and_congr_right fun hk => ?_)
    have hk := hpos k hk
    omega
  have hdiffer : (∃ m ∈ answers, ∃ n ∈ answers, m ≠ n) ↔
      ∃ j ∈ pending, ∃ k ∈ pending, answer j ≠ answer k := by
    simp only [hanswers, List.mem_map, exists_exists_and_eq_and]
    refine exists_congr fun j => and_congr_right fun hj =>
      exists_congr fun k => and_congr_right fun hk => ?_
    have hj := hpos j hj
    have hk := hpos k hk
    omega
  have hpositions : (pending.map fun k => (k, (answer k).toNat)).map Prod.fst = pending := by
    rw [List.map_map]
    exact List.map_id _
  have hrequested : aggregateRequests ((pending.map fun k => (k, (answer k).toNat)).map Prod.snd) =
      ((aggregateRequests answers).1, if ∃ j ∈ pending, ∃ k ∈ pending, answer j ≠ answer k then
        some (.divergentRepetitions (distinctCounts answers) (aggregateRequests answers).1)
      else none) := by
    rw [List.map_map]
    simp only [← hdiffer, ← aggregateRequests_snd, hanswers]
    rfl
  refine ⟨(aggregateRequests answers).1, distinctCounts answers, ?_, pairwise_distinctCounts _,
    fun n => mem_distinctCounts.trans (hmem n), ?_⟩
  · have hsome : answers ≠ [] := by simpa [hanswers]
    simpa only [hmem] using isGreatest_aggregateRequests hsome
  · rw [ofRequests_eq hc (by simpa using hne) hrequested, hpositions]
    simp only [List.length_map, apply_ite Option.toList, Option.toList_some, Option.toList_none]

/-- What a function of the accumulators answers at a position. -/
def answerAt (f : Accumulator R → Int) (accumulators : List (Accumulator R)) (k : Nat) : Int :=
  (accumulators[k]?.map f).getD 0

section Answers

variable {f : Accumulator R → Int} {accumulators : List (Accumulator R)} {ceiling : Nat}
  {todo todo' : List Nat} {t : κ} {plan : Plan}

theorem demand_eq_toNat (k : Nat) :
    demand (fun a => .ok (f a)) accumulators k = (answerAt f accumulators k).toNat := by
  unfold demand answerAt
  cases accumulators[k]? with
  | none => rfl
  | some a => rfl

theorem demands_eq_map (f : Accumulator R → Int) (accumulators : List (Accumulator R))
    (todo : List Nat) :
    demands (fun a => .ok (f a)) accumulators todo =
      (todo.filter (0 < answerAt f accumulators ·)).map fun k =>
        (k, (answerAt f accumulators k).toNat) := by
  unfold demands
  simp only [demand_eq_toNat]
  congr 1
  refine List.filter_congr fun k _ => decide_eq_decide.mpr ?_
  omega

theorem ask_of_negative {k : Nat} (t : κ) (htodo : ∀ k ∈ todo, k < accumulators.length)
    (h : todo.find? (answerAt f accumulators · < 0) = some k) :
    ask (Criterion.ofFunction fun a => .ok (f a)) accumulators todo t =
      (.error (.negativeRepetitions (answerAt f accumulators k)), t) := by
  induction todo with
  | nil => cases h
  | cons j rest ih =>
    obtain ⟨hj, hrest⟩ := List.forall_mem_cons.mp htodo
    have ha := List.getElem?_eq_getElem hj
    have hanswer : answerAt f accumulators j = f accumulators[j] := by
      unfold answerAt
      rw [ha]
      rfl
    rw [List.find?_cons] at h
    unfold ask
    simp only [ha, Criterion.ofFunction]
    split at h
    next hneg =>
      obtain rfl : j = k := Option.some.inj h
      rw [hanswer] at hneg ⊢
      rw [if_pos (of_decide_eq_true hneg)]
    next hneg =>
      rw [hanswer] at hneg
      rw [if_neg (of_decide_eq_false hneg), ih hrest h]
      rfl

theorem next_of_negative {k : Nat} (ceiling : Nat) (t : κ)
    (htodo : ∀ k ∈ todo, k < accumulators.length)
    (h : todo.find? (answerAt f accumulators · < 0) = some k) :
    (next (Criterion.ofFunction fun a => .ok (f a)) accumulators ceiling todo t).1 =
      .error (.negativeRepetitions (answerAt f accumulators k)) := by
  unfold next
  rw [ask_of_negative t htodo h]
  rfl

/-- Without a negative answer the requests are the positive answers. -/
theorem next_of_nonneg (t : κ) (htodo : ∀ k ∈ todo, k < accumulators.length)
    (h : ∀ k ∈ todo, 0 ≤ answerAt f accumulators k) :
    (next (Criterion.ofFunction fun a => .ok (f a)) accumulators ceiling todo t).1 =
      ofRequests ceiling ((todo.filter (0 < answerAt f accumulators ·)).map fun k =>
        (k, (answerAt f accumulators k).toNat)) := by
  have hask : ask (Criterion.ofFunction fun a => .ok (f a)) accumulators todo t =
      (.ok (demands (fun a => .ok (f a)) accumulators todo), t) := by
    refine ask_ofFunction_eq_ok_iff.mpr ⟨fun k hk => ?_, rfl, rfl⟩
    have ha := List.getElem?_eq_getElem (htodo k hk)
    have hnonneg := h k hk
    unfold answerAt at hnonneg
    rw [ha] at hnonneg
    exact ⟨_, _, ha, rfl, hnonneg⟩
  unfold next
  rw [hask, demands_eq_map]
  rfl

/-- The accumulators that a plan keeps ask for the same again. -/
theorem next_pending {f : Accumulator R → Except Fault Int}
    (h : (next (Criterion.ofFunction f) accumulators ceiling todo t).1 = .ok plan) :
    (next (Criterion.ofFunction f) accumulators ceiling plan.pending t).1 = .ok plan := by
  obtain ⟨requests, hask, hplan⟩ := next_eq_ok h
  obtain ⟨hanswers, rfl, _⟩ := ask_ofFunction_eq_ok_iff.mp hask
  have hpending : plan.pending = todo.filter (demand f accumulators · ≠ 0) := by
    rw [ofRequests_pending hplan, demands, List.map_map]
    exact List.map_id _
  have hagain : demands f accumulators plan.pending = demands f accumulators todo := by
    rw [hpending, demands, List.filter_filter]
    simp only [Bool.and_self]
    rfl
  have hask' : ask (Criterion.ofFunction f) accumulators plan.pending t =
      (.ok (demands f accumulators todo), t) := by
    refine ask_ofFunction_eq_ok_iff.mpr ⟨fun k hk => ?_, hagain.symm, rfl⟩
    rw [hpending] at hk
    exact hanswers k (List.mem_filter.mp hk).1
  unfold next
  rw [hask']
  exact hplan

theorem next_perm {f : Accumulator R → Except Fault Int} (hperm : todo'.Perm todo)
    (h : (next (Criterion.ofFunction f) accumulators ceiling todo t).1 = .ok plan) :
    ∃ plan', (next (Criterion.ofFunction f) accumulators ceiling todo' t).1 = .ok plan' ∧
      plan'.repetitions = plan.repetitions ∧ plan'.notices = plan.notices ∧
      plan'.pending.Perm plan.pending := by
  have hperm : (todo'.map id).Perm todo := by rwa [List.map_id]
  obtain ⟨plan', hplan', hsame⟩ := next_renumbered t (fun _ _ => rfl) hperm h
  have hpending : (plan'.pending.map id).Perm plan.pending := hsame.pending
  rw [List.map_id] at hpending
  exact ⟨plan', hplan', hsame.repetitions_eq, hsame.notices_eq, hpending⟩

end Answers

end Plan

/-- The answers for the listed positions decide the plan. The first negative one refuses it, under
any ceiling. Otherwise the positions with positive answers are kept, in the order of the list, for
the largest answer or, if that is too much for the ceiling, for the share that it leaves to each of
them, which has to be ten or more. A notice of differing answers comes before one of the share. A
plan for what is kept is the same, and one for the positions in another order differs in that order
alone. -/
theorem plans_follow_the_answers (f : Accumulator R → Int) (accumulators : List (Accumulator R))
    (ceiling : Nat) (todo : List Nat) (t : κ) (hc : ceiling < maxWord)
    (htodo : ∀ k ∈ todo, k < accumulators.length) :
    let plan? : Nat → List Nat → Except (MeasurementError R) Plan := fun ceiling todo =>
      (Plan.next (Criterion.ofFunction fun a => .ok (f a)) accumulators ceiling todo t).1
    let answer := Plan.answerAt f accumulators
    let pending := todo.filter (0 < answer ·)
    (∀ k, todo.find? (answer · < 0) = some k →
      ∀ limit, plan? limit todo = .error (.negativeRepetitions (answer k))) ∧
    ((∀ k ∈ todo, 0 ≤ answer k) → pending = [] → plan? ceiling todo = .ok Plan.done) ∧
    ((∀ k ∈ todo, 0 ≤ answer k) → pending ≠ [] → ∃ (largest : Nat) (counts : List Nat),
      IsGreatest {n : Nat | ∃ k ∈ pending, answer k = n} largest ∧
      counts.Pairwise (· < ·) ∧ (∀ n : Nat, n ∈ counts ↔ ∃ k ∈ pending, answer k = n) ∧
      plan? ceiling todo =
        let share := ceiling / pending.length
        let divergence : List Notice :=
          if ∃ j ∈ pending, ∃ k ∈ pending, answer j ≠ answer k then
            [.divergentRepetitions counts largest]
          else []
        if pending.length * largest ≤ ceiling then .ok ⟨pending, largest, divergence⟩
        else if share < 10 then .error (.tooManySweeps pending.length share ceiling)
        else .ok ⟨pending, share, divergence ++ [.throttled largest share ceiling]⟩) ∧
    (∀ plan, plan? ceiling todo = .ok plan → plan? ceiling plan.pending = .ok plan) ∧
    ∀ todo' plan, todo'.Perm todo → plan? ceiling todo = .ok plan →
      ∃ plan', plan? ceiling todo' = .ok plan' ∧ plan'.repetitions = plan.repetitions ∧
        plan'.notices = plan.notices ∧ plan'.pending.Perm plan.pending := by
  intro plan? answer pending
  refine ⟨fun k hk limit => Plan.next_of_negative limit t htodo hk, fun h hnone => ?_,
    fun h hne => ?_, fun plan => Plan.next_pending, fun todo' plan => Plan.next_perm⟩
  · have hplan : plan? ceiling todo = Plan.ofRequests ceiling
        (pending.map fun k => (k, (answer k).toNat)) := Plan.next_of_nonneg t htodo h
    rw [hplan, hnone]
    rfl
  · have hpos : ∀ k ∈ pending, 0 < answer k := fun k hk =>
      of_decide_eq_true (List.mem_filter.mp hk).2
    obtain ⟨largest, counts, hlargest, hascending, hcounts, hplan⟩ :=
      Plan.exists_ofRequests_positive (R := R) hc hne hpos
    exact ⟨largest, counts, hlargest, hascending, hcounts,
      (Plan.next_of_nonneg t htodo h).trans hplan⟩

/-- An accumulator that has a note of one batch. -/
def noted (n : Nat) : Accumulator Float :=
  ⟨⟨Setting.ofObservable (PauliString.identity 1), Bindings.empty⟩, [], QubitMap.empty,
    BitMatrix.empty 0, [n]⟩

/-- Three positive answers, two of them equal, that are too much for the ceiling. -/
theorem plans_follow_the_answers_throttled :
    let accumulators := [30, 0, 50, 30].map noted
    let plan? : List Nat → Except (MeasurementError Float) Plan := fun todo =>
      (Plan.next (Criterion.ofFunction fun a => .ok (a.batches.headD 0 : Nat)) accumulators 100 todo
        ()).1
    100 < maxWord ∧ (∀ k ∈ [3, 0, 1, 2], k < accumulators.length) ∧
      ∃ plan, plan? [3, 0, 1, 2] = .ok plan ∧ plan.pending = [3, 0, 2] ∧ plan.repetitions = 33 ∧
        plan.notices = [.divergentRepetitions [30, 50] 50, .throttled 50 33 100] ∧
        plan? [3, 0, 2] = .ok plan ∧ ∃ plan', plan? [0, 1, 2, 3] = .ok plan' ∧
          plan'.repetitions = 33 ∧ plan'.notices = plan.notices := by
  intro accumulators plan?
  have hc : 100 < maxWord := by decide
  have htodo : ∀ k ∈ [3, 0, 1, 2], k < accumulators.length := by decide
  have hplan : plan? [3, 0, 1, 2] = .ok ⟨[3, 0, 2], 33,
      [.divergentRepetitions [30, 50] 50, .throttled 50 33 100]⟩ := rfl
  obtain ⟨_, _, _, hagain, hperm⟩ := plans_follow_the_answers (fun a => (a.batches.headD 0 : Nat))
    accumulators 100 [3, 0, 1, 2] () hc htodo
  obtain ⟨plan', hplan', hrepetitions, hnotices, _⟩ :=
    hperm [0, 1, 2, 3] _ (by decide) hplan
  exact ⟨hc, htodo, _, hplan, rfl, rfl, rfl, hagain _ hplan, plan', hplan', hrepetitions, hnotices⟩

end PauliEstimation
