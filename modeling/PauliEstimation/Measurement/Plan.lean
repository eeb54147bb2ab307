import PauliEstimation.Measurement.Stopping

namespace PauliEstimation

/-- Below this many repetitions per sweep point a throttled job is refused. -/
def minRepetitions : Nat := 10

/-- The largest word of 64 bits. Totals saturate there. -/
def maxWord : Nat := 18446744073709551615

/-- Adjustments that do not end a measurement. -/
inductive Notice where
  /-- Different counts were asked for and the largest was chosen. -/
  | divergentRepetitions (requested : List Nat) (chosen : Nat)
  /-- The job would have exceeded the ceiling. -/
  | throttled (requested granted ceiling : Nat)
deriving DecidableEq, Repr

def Notice.text : Notice → String
  | .divergentRepetitions requested chosen =>
    "stopping criteria requested differing repetitions [" ++
      ", ".intercalate (requested.map toString) ++
      "]; submitting one sweep with the largest value: " ++ toString chosen
  | .throttled requested granted ceiling =>
    "batched job would exceed " ++ toString ceiling ++
      " shots; repetitions per sweep point throttled from " ++ toString requested ++ " to " ++
      toString granted

/-- Puts a number into an ascending list unless it is there. -/
def insertCount (n : Nat) : List Nat → List Nat
  | [] => [n]
  | m :: rest =>
    if n < m then n :: m :: rest
    else if m < n then m :: insertCount n rest
    else m :: rest

/-- The distinct numbers of a list in ascending order. -/
def distinctCounts (ns : List Nat) : List Nat := ns.foldr insertCount []

theorem mem_insertCount {a n : Nat} {ns : List Nat} : a ∈ insertCount n ns ↔ a = n ∨ a ∈ ns := by
  induction ns with
  | nil => simp [insertCount]
  | cons m rest ih =>
    unfold insertCount
    split
    · simp
    · split
      · simp [ih, or_left_comm]
      · next h h' => simp [Nat.le_antisymm (Nat.not_lt.mp h') (Nat.not_lt.mp h)]

theorem pairwise_insertCount {n : Nat} {ns : List Nat} (h : ns.Pairwise (· < ·)) :
    (insertCount n ns).Pairwise (· < ·) := by
  induction ns with
  | nil => simp [insertCount]
  | cons m rest ih =>
    obtain ⟨hm, hr⟩ := List.pairwise_cons.mp h
    unfold insertCount
    split
    · next hn =>
      refine List.pairwise_cons.mpr ⟨?_, h⟩
      intro a ha
      rcases List.mem_cons.mp ha with rfl | ha
      · exact hn
      · exact Nat.lt_trans hn (hm a ha)
    · split
      · next hn =>
        refine List.pairwise_cons.mpr ⟨?_, ih hr⟩
        intro a ha
        rcases mem_insertCount.mp ha with rfl | ha
        · exact hn
        · exact hm a ha
      · exact h

@[simp] theorem mem_distinctCounts {a : Nat} {ns : List Nat} : a ∈ distinctCounts ns ↔ a ∈ ns := by
  induction ns with
  | nil => simp [distinctCounts]
  | cons n rest ih =>
    rw [distinctCounts, List.foldr_cons, mem_insertCount, List.mem_cons]
    exact or_congr_right ih

theorem pairwise_distinctCounts (ns : List Nat) : (distinctCounts ns).Pairwise (· < ·) := by
  induction ns with
  | nil => exact List.Pairwise.nil
  | cons n rest ih => exact pairwise_insertCount ih

/-- The largest request, with a notice when requests differ. -/
def aggregateRequests (requests : List Nat) : Nat × Option Notice :=
  let counts := distinctCounts requests
  let chosen := counts.getLastD 0
  (chosen, if counts.length ≤ 1 then none else some (.divergentRepetitions counts chosen))

structure Plan where
  /-- The unfinished accumulators, in the order in which they were listed. -/
  pending : List Nat
  /-- Repetitions for each of them; zero when nothing is left. -/
  repetitions : Nat
  notices : List Notice
deriving DecidableEq

namespace Plan

def done : Plan := ⟨[], 0, []⟩

variable {R κ : Type}

/-- Sizes a job for the given requests, each with the index of its accumulator. -/
def ofRequests (ceiling : Nat) (requests : List (Nat × Nat)) :
    Except (MeasurementError R) Plan :=
  if requests = [] then .ok done
  else
    let pending := requests.map Prod.fst
    let (chosen, divergence) := aggregateRequests (requests.map Prod.snd)
    if min (pending.length * chosen) maxWord ≤ ceiling then
      .ok ⟨pending, chosen, divergence.toList⟩
    else
      let granted := ceiling / pending.length
      if granted < minRepetitions then
        .error (.tooManySweeps pending.length granted ceiling)
      else .ok ⟨pending, granted, divergence.toList ++ [.throttled chosen granted ceiling]⟩

/-- Asks a criterion about every listed accumulator and keeps those that need more. The first
negative or missing answer ends the questions. -/
def ask (criterion : Criterion R κ) (accumulators : List (Accumulator R)) :
    List Nat → κ → Except (MeasurementError R) (List (Nat × Nat)) × κ
  | [], s => (.ok [], s)
  | k :: rest, s => match accumulators[k]? with
    | none => (.error (.fault (.outOfRange k accumulators.length)), s)
    | some a => match criterion a s with
      | (.error fault, s) => (.error (.fault fault), s)
      | (.ok answer, s) =>
        if answer < 0 then (.error (.negativeRepetitions answer), s)
        else
          let (requests, s) := ask criterion accumulators rest s
          (requests.map fun rs => if answer = 0 then rs else (k, answer.toNat) :: rs, s)

/-- Plans the next round for the listed accumulators. -/
def next (criterion : Criterion R κ) (accumulators : List (Accumulator R)) (ceiling : Nat)
    (todo : List Nat) (s : κ) : Except (MeasurementError R) Plan × κ :=
  let (requests, s) := ask criterion accumulators todo s
  (requests.bind (ofRequests ceiling), s)

end Plan

end PauliEstimation
