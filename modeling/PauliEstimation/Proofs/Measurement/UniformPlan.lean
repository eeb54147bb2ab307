import Mathlib.Algebra.Order.Floor.Div
import PauliEstimation.Measurement.Plan

namespace PauliEstimation

variable {R κ : Type}

theorem signedWord_of_lt {n : Nat} (h : n < 2 ^ 63) : signedWord n = n :=
  Int.bmod_eq_of_le (by omega) (by omega)

/-- A word with its highest bit set is read as a negative number. -/
theorem signedWord_of_le {n : Nat} (h : 2 ^ 63 ≤ n) (hn : n < 2 ^ 64) :
    signedWord n = n - 2 ^ 64 :=
  (Int.sub_bmod_right n 18446744073709551616).symm.trans
    (Int.bmod_eq_of_le (by omega) (by omega))

theorem signedWord_lt (n : Nat) : signedWord n < 2 ^ 63 := by
  have hword : signedWord n ≤ (18446744073709551616 - 1) / 2 := Int.bmod_le (by omega)
  omega

theorem signedDifference_eq (m n : Nat) :
    signedDifference m n = Int.bmod (m - n) 18446744073709551616 := by
  unfold signedDifference signedWord
  rw [Int.sub_bmod_bmod, Int.bmod_sub_bmod]

theorem signedDifference_zero (m : Nat) : signedDifference m 0 = signedWord m :=
  (signedDifference_eq m 0).trans (congrArg (Int.bmod · 18446744073709551616) (Int.sub_zero m))

/-- A difference is read as it is if it fits a signed word, whether or not the numbers do. -/
theorem signedDifference_of_lt {m n : Nat} (hn : n ≤ m + 2 ^ 63) (hm : m < n + 2 ^ 63) :
    signedDifference m n = m - n := by
  rw [signedDifference_eq]
  exact Int.bmod_eq_of_le (by omega) (by omega)

example : signedWord (2 ^ 63) < 0 ∧ signedDifference (2 ^ 63) 1 = 2 ^ 63 - 1 := by decide

/-- Nothing wraps between two numbers that are not negative. -/
theorem signedDifference_of_nonneg {m n : Nat} (hm : 0 ≤ signedWord m) (hn : n < 2 ^ 63) :
    signedDifference m n = signedWord m - n := by
  have hlt := signedWord_lt m
  unfold signedDifference
  rw [signedWord_of_lt hn]
  exact Int.bmod_eq_of_le (by omega) (by omega)

theorem ceilDiv_eq_succ {m n : Nat} (hm : 0 < m) (hn : 0 < n) :
    m ⌈/⌉ n = (m - n) ⌈/⌉ n + 1 := by
  have hsplit : m + n - 1 = m - 1 + n := by omega
  rw [Nat.ceilDiv_eq_add_pred_div, Nat.ceilDiv_eq_add_pred_div, hsplit, Nat.add_div_right _ hn]
  congr 1
  rcases Nat.le_total m n with hle | hge
  · rw [Nat.sub_eq_zero_of_le hle, Nat.div_eq_of_lt (by omega), Nat.div_eq_of_lt (by omega)]
  · rw [Nat.sub_add_cancel hge]

namespace RepetitionPolicy

/-- Counts that are not read as negative, and progress in every chunk. -/
structure InRange (p : RepetitionPolicy) : Prop where
  total_lt : p.total < 2 ^ 63
  chunk_pos : 1 ≤ p.chunk
  chunk_lt : p.chunk < 2 ^ 63

/-- What an accumulator with `n` shots asks for: a chunk, or what is left of the total. -/
def wanted (p : RepetitionPolicy) (n : Nat) : Nat := min p.chunk (p.total - n)

variable {p : RepetitionPolicy}

theorem more_eq_wanted {a : Accumulator R} (htotal : p.total < a.repetitions + 2 ^ 63)
    (hchunk : p.chunk < 2 ^ 63) (ha : a.repetitions < 2 ^ 63) :
    p.more a = p.wanted a.repetitions := by
  unfold more wanted
  rw [signedDifference_of_lt (by omega) htotal, signedWord_of_lt hchunk]
  dsimp only
  split
  next => omega
  next => omega

theorem more_eq {a : Accumulator R} (hp : p.InRange) (ha : a.repetitions ≤ p.total) :
    p.more a = p.wanted a.repetitions := by
  have htotal := hp.total_lt
  exact more_eq_wanted (by omega) hp.chunk_lt (by omega)

/-- The job ceiling leaves each of the accumulators less than it wants, and too little to go on. -/
def Refused (p : RepetitionPolicy) (share n : Nat) : Prop :=
  share < p.wanted n ∧ share < minRepetitions

/-- A job that is large enough at first is so ever after: no accumulator wants more later on. -/
theorem not_refused_of_zero {share n : Nat} (h : ¬ p.Refused share 0) : ¬ p.Refused share n := by
  unfold Refused wanted at *
  omega

theorem wanted_pos {n : Nat} (hp : p.InRange) (hn : n < p.total) : 0 < p.wanted n := by
  have hchunk := hp.chunk_pos
  unfold wanted
  omega

/-- A job that is not refused has repetitions. -/
theorem granted_pos {share n : Nat} (hp : p.InRange) (hn : n < p.total) (h : ¬ p.Refused share n) :
    0 < min (p.wanted n) share := by
  have hwanted := wanted_pos hp hn
  have hmin : minRepetitions = 10 := rfl
  unfold Refused at h
  omega

theorem step_pos {share : Nat} (hp : p.InRange) (htotal : 0 < p.total) (h : ¬ p.Refused share 0) :
    0 < min p.chunk share := by
  have hchunk := hp.chunk_pos
  have hmin : minRepetitions = 10 := rfl
  unfold Refused wanted at h
  omega

/-- A round takes off one full step, or what is left. -/
theorem rounds_left {share n : Nat} (hn : n < p.total) (hstep : 0 < min p.chunk share) :
    (p.total - n) ⌈/⌉ min p.chunk share =
      (p.total - (n + min (p.wanted n) share)) ⌈/⌉ min p.chunk share + 1 := by
  have hleft : p.total - (n + min (p.wanted n) share) = p.total - n - min p.chunk share := by
    unfold wanted
    omega
  rw [hleft]
  exact ceilDiv_eq_succ (by omega) hstep

end RepetitionPolicy

theorem distinctCounts_replicate (m n : Nat) : distinctCounts (List.replicate (m + 1) n) = [n] := by
  induction m with
  | zero => rfl
  | succ m ih =>
    rw [List.replicate_succ, distinctCounts, List.foldr_cons, ← distinctCounts, ih]
    simp [insertCount]

/-- Equal requests raise no notice. -/
theorem aggregateRequests_replicate (m n : Nat) :
    aggregateRequests (List.replicate (m + 1) n) = (n, none) := by
  simp [aggregateRequests, distinctCounts_replicate]

theorem aggregateRequests_uniform (m n : Nat) :
    (aggregateRequests (List.replicate m n)).2 = none := by
  cases m with
  | zero => rfl
  | succ m => rw [aggregateRequests_replicate]

theorem map_snd_uniform (todo : List Nat) (n : Nat) :
    (todo.map (·, n)).map Prod.snd = List.replicate todo.length n := by
  simp [Function.comp_def]

namespace Plan

/-- When all listed accumulators get one answer, so do all requests. -/
theorem ask_uniform {f : Accumulator R → Except Fault Int} {accumulators : List (Accumulator R)}
    {todo : List Nat} {n : Nat}
    (h : ∀ k ∈ todo, ∃ a, accumulators[k]? = some a ∧ f a = .ok (n : Int)) (t : κ) :
    ask (Criterion.ofFunction f) accumulators todo t =
      (.ok (if n = 0 then [] else todo.map (·, n)), t) := by
  induction todo with
  | nil => simp [ask]
  | cons k rest ih =>
    obtain ⟨⟨a, ha, hf⟩, hrest⟩ := List.forall_mem_cons.mp h
    have hnonneg : ¬ (n : Int) < 0 := by omega
    simp only [ask, ha, Criterion.ofFunction, hf, hnonneg, if_false] at ih ⊢
    rw [ih hrest]
    by_cases hn : n = 0
    · simp [hn, Except.map]
    · simp [hn, Except.map]

/-- A job of equal requests is cut down to the share of the ceiling, unless that is too small. -/
theorem ofRequests_uniform {ceiling n : Nat} {todo : List Nat} (hceiling : ceiling < maxWord)
    (htodo : todo ≠ []) :
    ofRequests (R := R) ceiling (todo.map (·, n)) =
      if ceiling / todo.length < n ∧ ceiling / todo.length < minRepetitions then
        .error (.tooManySweeps todo.length (ceiling / todo.length) ceiling)
      else .ok ⟨todo, min n (ceiling / todo.length),
        if ceiling / todo.length < n then [.throttled n (ceiling / todo.length) ceiling]
          else []⟩ := by
  have hpos : 0 < todo.length := List.length_pos_iff.mpr htodo
  have hpending : (todo.map (·, n)).map Prod.fst = todo := by simp [Function.comp_def]
  have hcounts : (todo.map (·, n)).map Prod.snd = List.replicate (todo.length - 1 + 1) n := by
    rw [Nat.sub_add_cancel hpos, map_snd_uniform]
  -- the saturated product exceeds the ceiling exactly when the true one does
  have hfit : min (todo.length * n) maxWord ≤ ceiling ↔ n ≤ ceiling / todo.length := by
    rw [Nat.le_div_iff_mul_le hpos, Nat.mul_comm n]
    omega
  unfold ofRequests
  rw [if_neg (by simpa using htodo), hpending, hcounts, aggregateRequests_replicate]
  simp only [hfit, Option.toList_none, List.nil_append]
  by_cases hn : n ≤ ceiling / todo.length
  · simp [hn, Nat.not_lt.mpr hn]
  · simp [hn, Nat.lt_of_not_le hn, Nat.le_of_not_le hn]

end Plan

end PauliEstimation
