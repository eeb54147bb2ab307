import Mathlib.Data.List.GetD
import PauliEstimation.Measurement.Accumulator
import PauliEstimation.Noise.Readout
import PauliEstimation.Proofs.BitMatrix
import PauliEstimation.Proofs.Exact.Amplitude
import PauliEstimation.Proofs.Noise.Law
import PauliEstimation.Proofs.Traversal

namespace PauliEstimation

theorem zipWith_xor_true (row : List Bool) :
    List.zipWith xor row (List.replicate row.length true) = row.map not := by
  induction row with
  | nil => rfl
  | cons bit row ih => simp [List.replicate_succ, ih]

namespace BitMatrix

/-- Inverts every column. -/
def inverted? (m : BitMatrix) : Except Fault BitMatrix :=
  m.flipColumns? (List.replicate m.width true)

theorem inverted?_eq_ok (m : BitMatrix) :
    ∃ n, m.inverted? = .ok n ∧ n.width = m.width ∧ n.rows = m.rows.map (List.map not) := by
  obtain ⟨n, hn, hwidth, hrows⟩ := flipColumns?_of_length_eq (m := m)
    (List.length_replicate (n := m.width) (a := true))
  refine ⟨n, hn, hwidth, hrows.trans (List.map_congr_left fun row hr => ?_)⟩
  rw [← m.length_of_mem row hr, zipWith_xor_true]

theorem inverted?_inverted? {m n : BitMatrix} (h : m.inverted? = .ok n) :
    n.inverted? = .ok m := by
  obtain ⟨n', hn', hwidth, hrows⟩ := m.inverted?_eq_ok
  cases hn'.symm.trans h
  obtain ⟨m', hm', hwidth', hrows'⟩ := n.inverted?_eq_ok
  rw [hm', BitMatrix.ext (hwidth'.trans hwidth) (hrows'.trans _)]
  simp [hrows, Bool.involutive_not.comp_self]

/-- Inverting commutes with the check of the rows. -/
theorem ofRows?_bind_inverted? (width : Nat) (rows : List (List Bool)) :
    (ofRows? width rows).bind inverted? = ofRows? width (rows.map (List.map not)) := by
  by_cases h : ∀ row ∈ rows, row.length = width
  · obtain ⟨m, hm⟩ := exists_ofRows? h
    obtain ⟨n, hn, hwidth, hrows⟩ := m.inverted?_eq_ok
    have h' : ∀ row ∈ rows.map (List.map not), row.length = width := by simpa using h
    obtain ⟨n', hn'⟩ := exists_ofRows? h'
    obtain ⟨hmwidth, hmrows⟩ := ofRows?_eq_ok hm
    obtain ⟨hwidth', hrows'⟩ := ofRows?_eq_ok hn'
    rw [hm, hn']
    refine hn.trans (congrArg Except.ok (BitMatrix.ext ?_ ?_))
    · rw [hwidth, hmwidth, hwidth']
    · rw [hrows, hmrows, hrows', kept, kept]
      split <;> rfl
  · have h' : ¬∀ row ∈ rows.map (List.map not), row.length = width := by simpa using h
    rw [ofRows?, dif_neg h, ofRows?, dif_neg h', List.find?_map, Option.map_map]
    simp [Except.bind, Function.comp_def]

end BitMatrix

variable {R : Type} [Scalar R]

namespace ReadoutError

/-- The detector that treats each bit as this one treats the other. -/
def exchanged (e : ReadoutError R) : ReadoutError R := ⟨e.oneToZero, e.zeroToOne⟩

section Reports

variable {m : Type → Type} [Monad m] (e : ReadoutError R) (coin : R → m Bool)

/-- Reports every bit of a matrix, with coins of any kind. A noiseless detector tosses none. -/
def reportMatrix (bits : BitMatrix) : m (Except Fault BitMatrix) :=
  if e.IsNoiseless then pure (.ok bits)
  else BitMatrix.ofRows? bits.width <$> e.reportRows coin bits.rows

/-- Reports the inverse of a matrix and undoes the inversion. -/
def reportInverted (bits : BitMatrix) : m (Except Fault BitMatrix) :=
  match bits.inverted? with
  | .ok inverse => (·.bind BitMatrix.inverted?) <$> e.reportMatrix coin inverse
  | .error fault => pure (.error fault)

/-- On a random stream, the coins are drawn from the stream. -/
theorem report?_eq (bits : BitMatrix) (s : RandomStream) :
    e.report? bits s = ((e.reportMatrix streamCoin bits).run s).1.map
      (·, ((e.reportMatrix streamCoin bits).run s).2) := by
  unfold report? reportMatrix
  split
  next => rfl
  next =>
    show (BitMatrix.ofRows? _ _).bind _ = (BitMatrix.ofRows? _ _).map _
    cases BitMatrix.ofRows? bits.width ((e.reportRows streamCoin bits.rows).run s).1 with
    | ok m => rfl
    | error fault => rfl

variable [LawfulMonad m]

omit [Scalar R] in
theorem reportBit_exchanged (bit : Bool) :
    not <$> e.reportBit coin (!bit) = e.exchanged.reportBit coin bit := by
  have hp : e.exchanged.errorProbability bit = e.errorProbability (!bit) := by cases bit <;> rfl
  simp [reportBit, hp]

omit [Scalar R] in
theorem reportRows_exchanged (rows : List (List Bool)) :
    List.map (List.map not) <$> e.reportRows coin (rows.map (List.map not)) =
      e.exchanged.reportRows coin rows :=
  map_mapM_map (fun row => map_mapM_map (e.reportBit_exchanged coin) row) rows

/-- With coins of every kind, to invert twice around the detector is to exchange its errors. -/
theorem reportInverted_eq (bits : BitMatrix) :
    e.reportInverted coin bits = e.exchanged.reportMatrix coin bits := by
  obtain ⟨inverse, hinverse, hwidth, hrows⟩ := bits.inverted?_eq_ok
  have hnoise : e.exchanged.IsNoiseless ↔ e.IsNoiseless := and_comm
  rw [reportInverted, hinverse]
  unfold reportMatrix
  dsimp only
  by_cases h : e.IsNoiseless
  · rw [if_pos h, if_pos (hnoise.mpr h), map_pure]
    exact congrArg pure (BitMatrix.inverted?_inverted? hinverse)
  · rw [if_neg h, if_neg (mt hnoise.mp h), hwidth, hrows, ← reportRows_exchanged]
    simp only [Functor.map_map, BitMatrix.ofRows?_bind_inverted?]

end Reports

end ReadoutError

/-- The sign of the first row of a report on some columns. -/
noncomputable def reportedSign (columns : List Nat) (report : Except Fault BitMatrix) : ℝ :=
  match report.bind (·.row? 0) with
  | .ok row => Accumulator.rowSign columns row
  | .error _ => 0

theorem abs_rowSign (columns : List Nat) (row : List Bool) :
    |Accumulator.rowSign (R := ℝ) columns row| = 1 := by
  unfold Accumulator.rowSign
  split <;> simp

theorem abs_reportedSign_le (columns : List Nat) (report : Except Fault BitMatrix) :
    |reportedSign columns report| ≤ 1 := by
  unfold reportedSign
  split
  next row _ => exact (abs_rowSign columns row).le
  next => simp

/-- A bit as a sign. -/
noncomputable def bitSign (bit : Bool) : ℝ := if bit then -1 else 1

theorem rowSign_singleton (c : Nat) (row : List Bool) :
    Accumulator.rowSign [c] row = bitSign (row.getD c false) := by
  simp [Accumulator.rowSign, bitSign]

theorem abs_bitSign (bit : Bool) : |bitSign bit| = 1 := by
  cases bit <;> simp [bitSign]

theorem reportedSign_ofRows? {width c : Nat} {row : List Bool} (hrow : row.length = width)
    (hc : c < width) :
    reportedSign [c] (BitMatrix.ofRows? width [row]) = bitSign (row.getD c false) := by
  obtain ⟨m, hm⟩ := BitMatrix.exists_ofRows? (List.forall_mem_singleton.mpr hrow)
  obtain ⟨hwidth, hrows⟩ := BitMatrix.ofRows?_eq_ok hm
  rw [BitMatrix.kept_of_ne_zero (by omega)] at hrows
  have hfirst : m.row? 0 = .ok row := by
    rw [BitMatrix.row?, if_neg (by omega), hrows]
    rfl
  rw [reportedSign, hm]
  simp only [Except.bind, hfirst, rowSign_singleton]

namespace ReadoutError

/-- Both errors have a probability. -/
structure IsProper (e : ReadoutError ℝ) : Prop where
  zeroToOne_mem : e.zeroToOne ∈ Set.Icc 0 1
  oneToZero_mem : e.oneToZero ∈ Set.Icc 0 1

theorem mean_bitSign_reportBit {e : ReadoutError ℝ} (he : e.IsProper) (bit : Bool) :
    Law.mean (e.reportBit Law.coin bit) bitSign =
      (1 - 2 * e.errorProbability bit) * bitSign bit := by
  have hp : e.errorProbability bit ∈ Set.Icc 0 1 := by
    cases bit
    · exact he.zeroToOne_mem
    · exact he.oneToZero_mem
  rw [reportBit, Law.mean_bind _ _ fun b => (abs_bitSign b).le, Law.mean_coin hp.1 hp.2]
  simp only [Law.mean_pure]
  cases bit <;> simp [bitSign] <;> ring

/-- The mean sign of one column of a reported row. -/
theorem mean_reportedSign {e : ReadoutError ℝ} (he : e.IsProper) {row : List Bool} {c : Nat}
    (hc : c < row.length) :
    Law.mean (e.reportMatrix Law.coin (BitMatrix.replicate 1 row)) (reportedSign [c]) =
      (1 - 2 * e.errorProbability row[c]) * bitSign row[c] := by
  have hrows : (BitMatrix.replicate 1 row).rows = [row] := BitMatrix.kept_of_ne_zero (by omega) _
  by_cases hnoise : e.IsNoiseless
  · have hzero : e.errorProbability row[c] = 0 := by
      cases row[c]
      · exact le_antisymm hnoise.1 he.zeroToOne_mem.1
      · exact le_antisymm hnoise.2 he.oneToZero_mem.1
    have hok : BitMatrix.ofRows? row.length [row] = .ok (BitMatrix.replicate 1 row) :=
      dif_pos (by simp)
    rw [reportMatrix, if_pos hnoise, Law.mean_pure, ← hok, reportedSign_ofRows? rfl hc, hzero,
      List.getD_eq_getElem _ _ hc]
    ring
  · have hbound : ∀ report, |reportedSign [c] report| ≤ 1 := abs_reportedSign_le [c]
    calc
      _ = Law.mean (row.mapM (e.reportBit Law.coin)) fun reported =>
          reportedSign [c] (BitMatrix.ofRows? row.length [reported]) := by
        rw [reportMatrix, if_neg hnoise, hrows, reportRows, List.mapM_cons, List.mapM_nil]
        simp only [map_eq_pure_bind, bind_assoc, pure_bind]
        rw [Law.mean_bind _ _ hbound]
        simp only [Law.mean_pure]
        rfl
      _ = Law.mean (row.mapM (e.reportBit Law.coin)) fun reported =>
          bitSign (reported.getD c false) :=
        Law.mean_congr fun reported h =>
          reportedSign_ofRows? (Law.length_of_mem_support_mapM h) hc
      _ = _ := by
        rw [Law.mean_mapM_getD (fun b => (abs_bitSign b).le) false (List.getElem?_eq_getElem hc),
          mean_bitSign_reportBit he]

end ReadoutError

/-- The rows of some bits that are drawn from a law, as matrices of one row. -/
noncomputable def drawnRow {n : Nat} (law : PMF (Fin n → Bool)) : PMF BitMatrix :=
  (fun bits => BitMatrix.replicate 1 (List.ofFn bits)) <$> law

/-- The mean sign of some columns of a drawn row, as the detector reports it. -/
noncomputable def meanReported {n : Nat} (law : PMF (Fin n → Bool)) (e : ReadoutError ℝ)
    (columns : List Nat) : ℝ :=
  Law.mean (drawnRow law >>= e.reportMatrix Law.coin) (reportedSign columns)

/-- The same with the row inverted for the detector. -/
noncomputable def meanReportedInverted {n : Nat} (law : PMF (Fin n → Bool)) (e : ReadoutError ℝ)
    (columns : List Nat) : ℝ :=
  Law.mean (drawnRow law >>= e.reportInverted Law.coin) (reportedSign columns)

theorem meanReported_eq {n : Nat} (law : PMF (Fin n → Bool)) (e : ReadoutError ℝ)
    (columns : List Nat) :
    meanReported law e columns = ∑ bits, (law bits).toReal *
      Law.mean (e.reportMatrix Law.coin (BitMatrix.replicate 1 (List.ofFn bits)))
        (reportedSign columns) := by
  rw [meanReported, drawnRow, bind_map_left, Law.mean_bind _ _ (abs_reportedSign_le columns),
    Law.mean_of_fintype]

theorem meanReportedInverted_eq {n : Nat} (law : PMF (Fin n → Bool)) (e : ReadoutError ℝ)
    (columns : List Nat) :
    meanReportedInverted law e columns = meanReported law e.exchanged columns := by
  have hreport : e.reportInverted Law.coin = e.exchanged.reportMatrix Law.coin :=
    funext (e.reportInverted_eq Law.coin)
  rw [meanReportedInverted, hreport]
  rfl

/-- The average over both readings does not tell the two errors apart, and one column keeps its
noiseless mean up to a factor. -/
theorem symmetrization_cancels_asymmetry {n : Nat} (law : PMF (Fin n → Bool))
    (e : ReadoutError ℝ) (he : e.IsProper) (columns : List Nat) (hcols : ∀ c ∈ columns, c < n) :
    (meanReported law e columns + meanReportedInverted law e columns) / 2 =
        (meanReported law e.exchanged columns + meanReportedInverted law e.exchanged columns) / 2 ∧
      (columns.length = 1 →
        (meanReported law e columns + meanReportedInverted law e columns) / 2 =
          (1 - e.zeroToOne - e.oneToZero) *
            Law.mean law fun bits => Accumulator.rowSign columns (List.ofFn bits)) := by
  constructor
  · rw [meanReportedInverted_eq, meanReportedInverted_eq, add_comm]
    rfl
  · intro hlen
    obtain ⟨c, rfl⟩ := List.length_eq_one_iff.mp hlen
    have hc : c < n := hcols c (by simp)
    have hswap : e.exchanged.IsProper := ⟨he.oneToZero_mem, he.zeroToOne_mem⟩
    rw [meanReportedInverted_eq, meanReported_eq, meanReported_eq, ← Finset.sum_add_distrib,
      Finset.sum_div, Law.mean_of_fintype, Finset.mul_sum]
    apply Finset.sum_congr rfl
    intro bits _
    have hlt : c < (List.ofFn bits).length := by simpa using hc
    rw [ReadoutError.mean_reportedSign he hlt, ReadoutError.mean_reportedSign hswap hlt,
      rowSign_singleton, List.getD_eq_getElem _ _ hlt]
    have hsum : e.errorProbability (List.ofFn bits)[c] +
        e.exchanged.errorProbability (List.ofFn bits)[c] = e.zeroToOne + e.oneToZero := by
      cases (List.ofFn bits)[c]
      · rfl
      · exact add_comm _ _
    linear_combination (law bits).toReal * bitSign (List.ofFn bits)[c] * -hsum

/-- Two bits that always agree, one in a quarter of the cases, and a detector that loses ones. -/
theorem symmetrization_cancels_asymmetry_agreeing :
    let law : PMF (Fin 2 → Bool) := (fun bit _ => bit) <$> Law.coin (1 / 4)
    let e : ReadoutError ℝ := ⟨1 / 10, 3 / 10⟩
    e.IsProper ∧ (∀ c ∈ [1], c < 2) ∧
      (meanReported law e [1] + meanReportedInverted law e [1]) / 2 = 3 / 10 := by
  intro law e
  have he : e.IsProper := ⟨by norm_num [e], by norm_num [e]⟩
  have hcols : ∀ c ∈ [1], c < 2 := by decide
  refine ⟨he, hcols, ?_⟩
  have hmean : Law.mean law (fun bits => Accumulator.rowSign [1] (List.ofFn bits)) = 1 / 2 := by
    have hbound : ∀ bits : Fin 2 → Bool,
        |Accumulator.rowSign (R := ℝ) [1] (List.ofFn bits)| ≤ 1 :=
      fun bits => (abs_rowSign [1] _).le
    rw [Law.mean_map _ _ hbound, Law.mean_coin (by norm_num) (by norm_num)]
    norm_num [rowSign_singleton, bitSign]
  rw [(symmetrization_cancels_asymmetry law e he [1] hcols).2 rfl, hmean]
  norm_num [e]

end PauliEstimation
