import PauliEstimation.Proofs.BitMatrix.Flat
import PauliEstimation.Proofs.Measurement.EarlyRefusal
import PauliEstimation.Proofs.Measurement.VarianceBound

namespace PauliEstimation

/-- How many of a number of rows are counted. -/
def countedRows (width n : Nat) : Nat := if width = 0 then 0 else n

theorem countedRows_add (width m n : Nat) :
    countedRows width (m + n) = countedRows width m + countedRows width n := by
  unfold countedRows
  split <;> rfl

theorem countedRows_sum {α : Type} (width : Nat) (size : α → Nat) (xs : List α) :
    (xs.map fun x => countedRows width (size x)).sum = countedRows width (xs.map size).sum := by
  induction xs with
  | nil => exact (ite_self 0).symm
  | cons x xs ih => rw [List.map_cons, List.sum_cons, ih, List.map_cons, List.sum_cons,
      countedRows_add]

namespace BitMatrix

theorem length_kept (width : Nat) (rows : List (List Bool)) :
    (kept width rows).length = countedRows width rows.length := by
  unfold kept countedRows
  split <;> rfl

theorem countedRows_rowCount (m : BitMatrix) : countedRows m.width m.rowCount = m.rowCount := by
  rw [rowCount, ← length_kept, kept_rows]

/-- What can be put below a matrix: one row, or the rows of another matrix. -/
inductive Addition where
  | row (bits : List Bool)
  | block (matrix : BitMatrix)

namespace Addition

def width : Addition → Nat
  | row bits => bits.length
  | block m => m.width

def count : Addition → Nat
  | row _ => 1
  | block m => m.rowCount

end Addition

def add? (m : BitMatrix) : Addition → Except Fault BitMatrix
  | .row bits => m.push? bits
  | .block n => m.append? n

theorem exists_add? {m : BitMatrix} {x : Addition} (h : x.width = m.width) :
    ∃ n, m.add? x = .ok n ∧ n.width = m.width ∧
      n.rowCount = m.rowCount + countedRows m.width x.count := by
  cases x with
  | row bits =>
    obtain ⟨n, hn, hwidth, hrows⟩ := exists_push? h
    exact ⟨n, hn, hwidth, by rw [rowCount, hrows, List.length_append, length_kept]; rfl⟩
  | block k =>
    have hwidth : k.width = m.width := h
    obtain ⟨n, hn, hw, hrows⟩ := append?_of_width_eq hwidth
    have hcount : countedRows m.width k.rowCount = k.rowCount := hwidth ▸ k.countedRows_rowCount
    exact ⟨n, hn, hw, by rw [rowCount, hrows, List.length_append, Addition.count, hcount]; rfl⟩

/-- Additions of the right width never fail, and all their rows are counted if any is. -/
theorem exists_additions {m : BitMatrix} {additions : List Addition}
    (h : ∀ x ∈ additions, x.width = m.width) :
    ∃ n, additions.foldlM add? m = .ok n ∧ n.width = m.width ∧
      n.rowCount = m.rowCount + countedRows m.width (additions.map Addition.count).sum := by
  induction additions generalizing m with
  | nil =>
    have hnone : countedRows m.width 0 = 0 := ite_self 0
    exact ⟨m, rfl, rfl, by simp [hnone]⟩
  | cons x rest ih =>
    obtain ⟨hx, hrest⟩ := List.forall_mem_cons.mp h
    obtain ⟨k, hk, hkwidth, hkcount⟩ := exists_add? hx
    obtain ⟨n, hn, hnwidth, hncount⟩ := ih (m := k) (by rwa [hkwidth])
    refine ⟨n, bind_eq_ok_iff.mpr ⟨k, hk, hn⟩, hnwidth.trans hkwidth, ?_⟩
    rw [hncount, hkwidth, hkcount, List.map_cons, List.sum_cons, countedRows_add, Nat.add_assoc]

theorem exists_selectColumns?_rowCount {m : BitMatrix} {columns : List Nat}
    (h : ∀ c ∈ columns, c < m.width) :
    ∃ part, m.selectColumns? columns = .ok part ∧
      part.rowCount = countedRows columns.length m.rowCount := by
  obtain ⟨part, hpart⟩ := exists_selectColumns? h
  refine ⟨part, hpart, ?_⟩
  rw [rowCount, (selectColumns?_eq_ok hpart).2, length_kept, List.length_map, rowCount]

theorem exists_flipColumns?_rowCount {m : BitMatrix} {mask : List Bool}
    (h : mask.length = m.width) :
    ∃ flipped, m.flipColumns? mask = .ok flipped ∧ flipped.rowCount = m.rowCount := by
  obtain ⟨flipped, hflipped, _, hrows⟩ := flipColumns?_of_length_eq h
  exact ⟨flipped, hflipped, by rw [rowCount, hrows, List.length_map, rowCount]⟩

end BitMatrix

namespace FlatBits

def add? (f : FlatBits) : BitMatrix.Addition → Except Fault FlatBits
  | .row bits => f.push? bits
  | .block m => f.append? m.flat

end FlatBits

theorem BitMatrix.flat_add? (m : BitMatrix) (x : Addition) :
    (m.add? x).map flat = m.flat.add? x := by
  cases x with
  | row bits => exact m.flat_push? bits
  | block n => exact m.flat_append? n

namespace Accumulator

variable {R : Type}

/-- Takes in one batch of rows, as many as the sampler took shots. -/
def consumeRows? (a : Accumulator R) (rows : List (List Bool)) : Except Fault (Accumulator R) := do
  a.consume? (← BitMatrix.ofRows? a.bits.width rows)

theorem exists_consumeRows? {a : Accumulator R} {rows : List (List Bool)}
    (h : ∀ row ∈ rows, row.length = a.bits.width) :
    ∃ b, a.consumeRows? rows = .ok b ∧ a.Extends b [BitMatrix.kept a.bits.width rows] := by
  obtain ⟨batch, hbatch⟩ := BitMatrix.exists_ofRows? h
  obtain ⟨hwidth, hrows⟩ := BitMatrix.ofRows?_eq_ok hbatch
  obtain ⟨bits, hbits, _⟩ := BitMatrix.append?_of_width_eq hwidth
  obtain ⟨b, hb⟩ : ∃ b, a.consume? batch = .ok b :=
    ⟨_, bind_eq_ok_iff.mpr ⟨bits, hbits, rfl⟩⟩
  exact ⟨b, bind_eq_ok_iff.mpr ⟨batch, hbatch, hb⟩, hrows ▸ consume?_eq_ok hb⟩

theorem exists_consumed {a : Accumulator R} {batches : List (List (List Bool))}
    (h : ∀ rows ∈ batches, ∀ row ∈ rows, row.length = a.bits.width) :
    ∃ b, batches.foldlM consumeRows? a = .ok b ∧
      a.Extends b (batches.map (BitMatrix.kept a.bits.width)) := by
  induction batches generalizing a with
  | nil => exact ⟨a, rfl, Extends.refl a⟩
  | cons rows rest ih =>
    obtain ⟨hrows, hrest⟩ := List.forall_mem_cons.mp h
    obtain ⟨b, hb, hab⟩ := exists_consumeRows? hrows
    obtain ⟨c, hc, hbc⟩ := ih (a := b) (by rwa [hab.width_eq])
    rw [hab.width_eq] at hbc
    exact ⟨c, bind_eq_ok_iff.mpr ⟨b, hb, hc⟩, hab.trans hbc⟩

theorem Extends.repetitions_eq {a b : Accumulator R} {batches : List (List (List Bool))}
    (h : a.Extends b batches) : b.repetitions = a.repetitions + (batches.map List.length).sum := by
  rw [repetitions, BitMatrix.rowCount, h.rows_eq, List.length_append, List.length_flatten]
  rfl

end Accumulator

/-- Whatever rows and matrices are put below an empty matrix, the rows are counted exactly when they
have columns; the flat matrix divides to the same count. The same holds of selected columns, while a
mask keeps the count. So an accumulator without columns takes in batches of any size and reports no
repetition. -/
theorem rows_are_counted_by_columns {R : Type} (c : Nat) (additions : List BitMatrix.Addition)
    (columns : List Nat) (mask : List Bool) (spec : Spec R) (settings : List (Setting R))
    (index : QubitMap Nat) (batches : List (List (List Bool)))
    (hadditions : ∀ x ∈ additions, x.width = c) (hcolumns : ∀ k ∈ columns, k < c)
    (hmask : mask.length = c) (hindex : index.size = c)
    (hbatches : ∀ rows ∈ batches, ∀ row ∈ rows, row.length = c) :
    (∃ m, additions.foldlM BitMatrix.add? (BitMatrix.empty c) = .ok m ∧
      additions.foldlM FlatBits.add? (FlatBits.empty c) = .ok m.flat ∧
      m.rowCount = countedRows c (additions.map BitMatrix.Addition.count).sum ∧
      m.flat.rowCount = m.rowCount ∧ m.flat.rows = m.rows ∧
      (∃ part, m.selectColumns? columns = .ok part ∧
        m.flat.selectColumns? columns = .ok part.flat ∧
        part.rowCount = countedRows columns.length m.rowCount) ∧
      ∃ flipped, m.flipColumns? mask = .ok flipped ∧ m.flat.flipColumns? mask = .ok flipped.flat ∧
        flipped.rowCount = m.rowCount) ∧
    ∃ a, batches.foldlM Accumulator.consumeRows? (Accumulator.empty spec settings index) = .ok a ∧
      a.repetitions = countedRows c (batches.map List.length).sum ∧
      a.batches = batches.map fun rows => countedRows c rows.length := by
  constructor
  · obtain ⟨m, hm, hwidth, hcount⟩ :=
      BitMatrix.exists_additions (m := BitMatrix.empty c) hadditions
    have hempty : (BitMatrix.empty c).rowCount = 0 := congrArg List.length (ite_self [])
    have hflat : additions.foldlM FlatBits.add? (BitMatrix.empty c).flat = .ok m.flat := by
      rw [← map_foldlM BitMatrix.flat_add?, hm]
      rfl
    have hnone : (BitMatrix.empty c).flat = FlatBits.empty c := BitMatrix.flat_ofFitting _
    have hvalid : ∀ k ∈ columns, k < m.width := hwidth ▸ hcolumns
    obtain ⟨part, hpart, hpartcount⟩ := BitMatrix.exists_selectColumns?_rowCount hvalid
    obtain ⟨flipped, hflipped, hflippedcount⟩ :=
      BitMatrix.exists_flipColumns?_rowCount (hmask.trans hwidth.symm)
    refine ⟨m, hm, hnone ▸ hflat, ?_, m.rowCount_flat, m.rows_flat, ⟨part, hpart, ?_, hpartcount⟩,
      flipped, hflipped, ?_, hflippedcount⟩
    · rw [hcount, hempty, Nat.zero_add]
      rfl
    · rw [← m.flat_selectColumns?, hpart]
      rfl
    · rw [← m.flat_flipColumns?, hflipped]
      rfl
  · have hwidth : (Accumulator.empty spec settings index).bits.width = c := hindex
    have hfit : ∀ rows ∈ batches, ∀ row ∈ rows,
        row.length = (Accumulator.empty spec settings index).bits.width := by rwa [hwidth]
    obtain ⟨a, ha, hext⟩ := Accumulator.exists_consumed hfit
    have hfresh : (Accumulator.empty spec settings index).repetitions = 0 :=
      congrArg List.length (Accumulator.rows_empty spec settings index)
    have hlengths : (batches.map (BitMatrix.kept c)).map List.length =
        batches.map fun rows => countedRows c rows.length := by
      simp [Function.comp_def, BitMatrix.length_kept]
    rw [hwidth] at hext
    refine ⟨a, ha, ?_, hext.batches_eq.trans hlengths⟩
    rw [hext.repetitions_eq, hfresh, hlengths, Nat.zero_add, countedRows_sum]

/-- Two rows and a matrix of three rows, the second column twice, and batches of two and one. -/
theorem rows_are_counted_by_columns_five :
    let additions := [.row [true, false], .block (BitMatrix.replicate 3 [false, true]),
      .row [true, true]]
    let index : QubitMap Nat := Job.columnsOf [⟨0⟩, ⟨1⟩]
    (∀ x ∈ additions, BitMatrix.Addition.width x = 2) ∧ (∀ k ∈ [1, 1], k < 2) ∧
      [true, false].length = 2 ∧ index.size = 2 ∧
      (∀ rows ∈ [[[true, true], [false, true]], [[false, false]]], ∀ row ∈ rows, row.length = 2) ∧
      ∃ m, additions.foldlM BitMatrix.add? (BitMatrix.empty 2) = .ok m ∧ m.rowCount = 5 ∧
        m.flat.rowCount = 5 ∧
        ∃ part, m.selectColumns? [1, 1] = .ok part ∧ part.rowCount = 5 := by
  intro additions index
  have hadditions : ∀ x ∈ additions, BitMatrix.Addition.width x = 2 := by
    simp [additions, BitMatrix.Addition.width, BitMatrix.replicate]
  obtain ⟨⟨m, hm, _, hcount, hflat, _, ⟨part, hpart, _, hpartcount⟩, _⟩, _⟩ :=
    rows_are_counted_by_columns (R := Float) 2 additions [1, 1] [true, false]
      ⟨Setting.ofObservable (PauliString.single ⟨0⟩ .z), Bindings.empty⟩ [] index
      [[[true, true], [false, true]], [[false, false]]] hadditions (by decide) rfl rfl (by decide)
  have hfive : m.rowCount = 5 := hcount
  exact ⟨hadditions, by decide, rfl, rfl, by decide, m, hm, hfive, hflat.trans hfive, part, hpart,
    hpartcount.trans hfive⟩

/-- A matrix without columns counts none of the rows that are pushed to it. -/
theorem empty_rows_are_not_counted :
    ¬ ∀ (c : Nat) (additions : List BitMatrix.Addition) (m : BitMatrix),
      (∀ x ∈ additions, x.width = c) →
      additions.foldlM BitMatrix.add? (BitMatrix.empty c) = .ok m →
      m.rowCount = (additions.map BitMatrix.Addition.count).sum := by
  intro h
  have hwidth : ∀ x ∈ [BitMatrix.Addition.row []], x.width = 0 := List.forall_mem_singleton.mpr rfl
  have hone : (0 : Nat) = 1 := h 0 [.row []] (BitMatrix.empty 0) hwidth rfl
  cases hone

variable {R σ κ : Type} [Scalar R]

/-- When no group prepares or reads a qubit, a measurement under a policy that asks for a first shot
never succeeds, unless it has nothing to measure. -/
theorem endless_without_columns {sampler : Sampler R σ} {p : StoppingPolicy R}
    {config : MeasurementConfig} {c : Circuit R} {groups : List (SettingGroup R)} {sweep : Sweep R}
    {fuel : Nat} {s s' : σ} {t t' : κ} {run : MeasurementRun R} (hp : p.opening ≠ 0)
    (hqubits : Job.qubitsOf groups = [])
    (h : measure sampler p.criterion config c groups sweep fuel s t = (some (.ok run), s', t')) :
    run.accumulators = [] := by
  obtain ⟨job, session, hstart, hrun⟩ := exists_run_of_measure h
  rw [List.eq_nil_iff_forall_not_mem]
  intro a ha
  have hdone : p.more a = .ok 0 := Session.settled_of_run (Job.start?_settled _ hstart) hrun a ha
  have hwidth : a.bits.width = 0 := by
    rw [(Job.reads_of_run hstart hrun a ha).width_eq, hqubits]
    rfl
  have hnone : a.repetitions = 0 := congrArg List.length (a.bits.rows_of_width_zero hwidth)
  have hopening : p.more a = .ok p.opening := p.peaksAtStart.fresh a hnone
  exact hp (Except.ok.inj (hopening.symm.trans hdone))

end PauliEstimation
