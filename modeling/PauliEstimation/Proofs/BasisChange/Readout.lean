import PauliEstimation.Proofs.BasisChange.Table
import PauliEstimation.Proofs.Measurement.Values
import PauliEstimation.Proofs.Register.Factors

namespace PauliEstimation

/-- The number of set bits on some columns of a row, modulo two. -/
def rowParity (columns : List Nat) (row : List Bool) : Nat :=
  columns.countP (fun c => row.getD c false) % 2

/-- The value of an observable in a row whose columns are the listed qubits. -/
noncomputable def rowValue (qubits : List Qubit) (observable : PauliString ℝ) (row : List Bool) :
    ℝ :=
  observable.coefficient * (1 - 2 * rowParity (observable.qubits.map qubits.idxOf) row)

theorem mod_two_succ (n : Nat) : ((n + 1) % 2 == 1) = !(n % 2 == 1) := by
  rcases Nat.mod_two_eq_zero_or_one n with h | h
  · simp [Nat.add_mod, h]
  · simp [Nat.add_mod, h]

theorem foldl_bne (f : Nat → Bool) (columns : List Nat) (start : Bool) :
    columns.foldl (fun parity c => parity != f c) start =
      (start != (columns.countP f % 2 == 1)) := by
  induction columns generalizing start with
  | nil => simp
  | cons c rest ih =>
    rw [List.foldl_cons, ih, List.countP_cons]
    cases f c with
    | false => simp
    | true =>
      rw [if_pos rfl, mod_two_succ]
      cases start <;> simp

theorem prod_sign (f : Nat → Bool) (columns : List Nat) :
    (columns.map fun c => if f c then (-1 : ℝ) else 1).prod =
      1 - 2 * (columns.countP f % 2 : Nat) := by
  induction columns with
  | nil => simp
  | cons c rest ih =>
    rw [List.map_cons, List.prod_cons, ih, List.countP_cons]
    cases f c with
    | false => simp
    | true =>
      rcases Nat.mod_two_eq_zero_or_one (rest.countP f) with h | h
      · norm_num [Nat.add_mod, h]
      · norm_num [Nat.add_mod, h]

theorem rowSign_eq (columns : List Nat) (row : List Bool) :
    Accumulator.rowSign columns row = (1 - 2 * rowParity columns row : ℝ) := by
  unfold Accumulator.rowSign rowParity
  rw [foldl_bne]
  rcases Nat.mod_two_eq_zero_or_one (columns.countP fun c => row.getD c false) with h | h
  · rw [h]
    simp
  · rw [h]
    norm_num

/-- An accumulator on the columns of its qubits gives every row its value. -/
theorem Accumulator.values?_eq_rowValue {a : Accumulator ℝ} {s : Setting ℝ} {qubits : List Qubit}
    (hn : qubits.Nodup) (hsub : ∀ q ∈ s.observable.qubits, q ∈ qubits)
    (hc : a.columns = Job.columnsOf qubits) (hw : a.bits.width = qubits.length) :
    a.values? s = .ok (a.bits.rows.map (rowValue qubits s.observable)) := by
  rw [values?_of_columnsOf hn hsub hc hw]
  simp only [rowSign_eq]
  rfl

/-- The value of a row of bits whose flips are undone is a product over the qubits. -/
theorem rowValue_unflipped {qubits : List Qubit} {observable : PauliString ℝ}
    (hn : qubits.Nodup) (hsub : ∀ q ∈ observable.qubits, q ∈ qubits)
    (bits flips : Fin qubits.length → Bool) :
    rowValue qubits observable (List.zipWith xor (List.ofFn bits) (List.ofFn flips)) =
      observable.coefficient *
        ∏ k, BasisChange.readout (observable.get? (qubits.get k)) (flips k) (bits k) := by
  unfold rowValue rowParity
  rw [← prod_sign, ← PauliString.map_fst_siteFactors, List.map_map,
    prod_map_eq_prod_lookup _ (PauliString.nodup_siteFactors hsub)
      (PauliString.siteFactors_lt hsub)]
  congr 1
  apply Finset.prod_congr rfl
  intro k _
  have hbit : (List.zipWith xor (List.ofFn bits) (List.ofFn flips)).getD k false =
      xor (bits k) (flips k) := by
    simp
  rw [PauliString.lookup_siteFactors hn hsub (List.getElem?_eq_getElem k.isLt)]
  show (observable.get? (qubits.get k)).elim 1 _ = _
  cases observable.get? (qubits.get k) with
  | none => rfl
  | some axis =>
    simp only [Option.elim_some, Function.comp_apply, hbit]
    rfl

end PauliEstimation
