import PauliEstimation.Measurement.Session
import PauliEstimation.Proofs.QubitMap
import PauliEstimation.Proofs.Traversal

namespace PauliEstimation

theorem Job.get?_columnsOf {qubits : List Qubit} {k : Nat} {q : Qubit} (hn : qubits.Nodup)
    (hq : qubits[k]? = some q) : (columnsOf qubits).get? q = some k := by
  apply QubitMap.get?_ofList_of_mem
  · rwa [List.zipIdx_map_fst]
  · exact List.mem_of_getElem? (List.getElem?_zipIdx.trans (by rw [hq]; simp))

namespace Accumulator

variable {R : Type} [Scalar R]

/-- An observable on mapped columns has a value in every row. -/
theorem values?_eq_ok {a : Accumulator R} {s : Setting R} {columns : List Nat}
    (hc : List.Forall₂ (fun q c => a.columns.get? q = some c) s.observable.qubits columns)
    (hw : ∀ c ∈ columns, c < a.bits.width) :
    a.values? s =
      .ok (a.bits.rows.map fun row => s.observable.coefficient * rowSign columns row) := by
  have hfind : columns.find? (a.bits.width ≤ ·) = none := by
    apply List.find?_eq_none.mpr
    intro c hm
    simpa using hw c hm
  refine bind_eq_ok_iff.mpr ⟨columns, mapM_eq_ok_iff.mpr (hc.imp ?_), ?_⟩
  · intro q c hq
    rw [hq]
  · rw [hfind]
    rfl

/-- On the columns of its own qubits an accumulator gives every row its value. -/
theorem values?_of_columnsOf {a : Accumulator R} {s : Setting R} {qubits : List Qubit}
    (hn : qubits.Nodup) (hsub : ∀ q ∈ s.observable.qubits, q ∈ qubits)
    (hc : a.columns = Job.columnsOf qubits) (hw : a.bits.width = qubits.length) :
    a.values? s = .ok (a.bits.rows.map fun row =>
      s.observable.coefficient * rowSign (s.observable.qubits.map qubits.idxOf) row) := by
  have hcolumns : List.Forall₂ (fun q c => a.columns.get? q = some c) s.observable.qubits
      (s.observable.qubits.map qubits.idxOf) := by
    rw [List.forall₂_map_right_iff, List.forall₂_same]
    intro q hq
    rw [hc]
    exact Job.get?_columnsOf hn (List.getElem?_idxOf (hsub q hq))
  refine values?_eq_ok hcolumns fun c hm => ?_
  obtain ⟨q, hq, rfl⟩ := List.mem_map.mp hm
  rw [hw]
  exact List.idxOf_lt_length_of_mem (hsub q hq)

/-- Settings are looked for by equality, so one is found in the list if its coefficient is equal to
itself. -/
theorem listedValues?_of_beq {a : Accumulator R} {s : Setting R} (hs : s ∈ a.settings)
    (hc : (s.observable.coefficient == s.observable.coefficient) = true) :
    a.listedValues? s = liftFault (a.values? s) := by
  have hself : (s == s) = true := by
    show (decide (s.initial = s.initial) && (s.observable.coefficient == s.observable.coefficient &&
      decide (s.observable.factors = s.observable.factors))) = true
    simp [hc]
  exact if_pos (List.contains_iff_exists_mem_beq.mpr ⟨s, hs, hself⟩)

theorem listedValues?_of_mem [ReflBEq R] {a : Accumulator R} {s : Setting R}
    (hs : s ∈ a.settings) : a.listedValues? s = liftFault (a.values? s) :=
  listedValues?_of_beq hs (beq_self_eq_true _)

theorem covariance?_of_values? {a : Accumulator R} {values : Setting R → List R}
    (h : ∀ s ∈ a.settings, a.values? s = .ok (values s)) :
    a.covariance? = .ok (Statistics.covariances (a.settings.map values)) := by
  have hall : a.settings.mapM a.values? = .ok (a.settings.map values) := by
    rw [mapM_eq_ok_iff, List.forall₂_map_right_iff, List.forall₂_same]
    exact h
  exact bind_eq_ok_iff.mpr ⟨_, hall, rfl⟩

/-- How a setting is read off a row, whatever the rows are. -/
def reader? (columns : QubitMap Nat) (width : Nat) (s : Setting R) :
    Except Fault (List Bool → R) := do
  let columns ← s.observable.qubits.mapM fun q => match columns.get? q with
    | some c => .ok c
    | none => .error (.unknownQubit q)
  match columns.find? (width ≤ ·) with
  | some c => throw (.outOfRange c width)
  | none => return fun row => s.observable.coefficient * rowSign columns row

/-- With shots the rows only enter where they are read. -/
theorem values?_eq_map {a : Accumulator R} (h : 1 ≤ a.repetitions) (s : Setting R) :
    a.values? s = (reader? a.columns a.bits.width s).map (a.bits.rows.map ·) := by
  have hrows : a.bits.isEmpty = false :=
    List.isEmpty_eq_false_iff.mpr (List.length_pos_iff.mp h)
  unfold values? reader?
  generalize (s.observable.qubits.mapM _ : Except Fault (List Nat)) = located
  cases located with
  | error fault => rfl
  | ok columns =>
    simp only [bind, Except.bind, hrows]
    cases columns.find? (a.bits.width ≤ ·) <;> rfl

def readers? (a : Accumulator R) : Except Fault (List (List Bool → R)) :=
  a.settings.mapM (reader? a.columns a.bits.width)

theorem mapM_values? {a : Accumulator R} (h : 1 ≤ a.repetitions) :
    a.settings.mapM a.values? = a.readers?.map (List.map (a.bits.rows.map ·)) := by
  rw [funext (values?_eq_map h), mapM_map, readers?]

end Accumulator

end PauliEstimation
