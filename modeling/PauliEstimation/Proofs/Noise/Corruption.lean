import Mathlib.Data.List.Induction
import PauliEstimation.Noise.Readout
import PauliEstimation.Proofs.BitMatrix.Flat
import PauliEstimation.Proofs.RandomStream.Repeated

namespace PauliEstimation

theorem getElem?_append_of_eq_some {α : Type} {xs : List α} {x : α} {i : Nat}
    (h : xs[i]? = some x) (ys : List α) : (xs ++ ys)[i]? = some x := by
  rw [List.getElem?_append_left (List.getElem?_eq_some_iff.mp h).1, h]

theorem getElem?_concat_eq_some {α : Type} {xs : List α} {x y : α} {i : Nat}
    (h : (xs ++ [x])[i]? = some y) : xs[i]? = some y ∨ i = xs.length ∧ x = y := by
  rcases Nat.lt_trichotomy i xs.length with hlt | rfl | hgt
  · left
    rwa [List.getElem?_append_left hlt] at h
  · right
    rw [List.getElem?_concat_length] at h
    exact ⟨rfl, Option.some.inj h⟩
  · rw [List.getElem?_eq_none (by rw [List.length_append]; exact hgt)] at h
    cases h

section Floating

open Float.Model

theorem unpack_zero : (0.0 : Float).toModel.unpack = .zero .positive := by rfl

theorem not_zero_lt_of_le {x : UnpackedFloat} (h : x.le (.zero .positive)) :
    ¬ (UnpackedFloat.zero .positive).lt x := by
  cases x with
  | notANumber => cases h
  | zero sign => exact nofun
  | infinity sign | finite sign _ _ _ =>
    cases sign with
    | positive => cases h
    | negative => exact nofun

/-- What is not a number is neither at most zero nor above it. -/
theorem not_pos_of_le_zero (p : Float) (h : p ≤ 0.0) : ¬ 0.0 < p := by
  intro h'
  have hle : p.toModel.unpack.le (0.0 : Float).toModel.unpack := of_decide_eq_true h
  have hlt : (0.0 : Float).toModel.unpack.lt p.toModel.unpack := of_decide_eq_true h'
  rw [unpack_zero] at hle hlt
  exact not_zero_lt_of_le hle hlt

end Floating

namespace ReadoutError

variable {R : Type} [Scalar R]

/-- The first draws of a detector, and the stream that they leave. -/
def draws (R : Type) [Scalar R] (n : Nat) (s : RandomStream) : List R × RandomStream :=
  RandomStream.repeated (fun s => s.uniform context) n s

/-- The number of bits that may be reported wrongly. -/
def drawCount (e : ReadoutError R) (bits : List Bool) : Nat :=
  bits.countP fun bit => decide (0 < e.errorProbability bit)

/-- What a draw makes of a bit that may be reported wrongly. -/
def corrupted (e : ReadoutError R) (u : R) (bit : Bool) : Bool :=
  if u < e.errorProbability bit then !bit else bit

/-- The bits that may be reported wrongly take the draws in order. The others are reported as they
are, and the stream is left behind the last of the draws. -/
structure Corrupts (e : ReadoutError R) (s : RandomStream) (bits reported : List Bool)
    (s' : RandomStream) : Prop where
  length_eq : reported.length = bits.length
  stream_eq : s' = (draws R (e.drawCount bits) s).2
  keeps : ∀ (i : Nat) (bit : Bool), bits[i]? = some bit → ¬ 0 < e.errorProbability bit →
    reported[i]? = some bit
  draws_for : ∀ (i : Nat) (bit : Bool), bits[i]? = some bit → 0 < e.errorProbability bit →
    ∃ u, (draws R (e.drawCount bits) s).1[e.drawCount (bits.take i)]? = some u ∧
      reported[i]? = some (e.corrupted u bit)

variable (e : ReadoutError R)

theorem length_draws (n : Nat) (s : RandomStream) : (draws R n s).1.length = n :=
  RandomStream.length_repeated _ n s

theorem draws_succ (n : Nat) (s : RandomStream) :
    draws R (n + 1) s = ((draws R n s).1 ++ [((draws R n s).2.uniform context).1],
      ((draws R n s).2.uniform (R := R) context).2) :=
  RandomStream.repeated_succ _ n s

theorem drawCount_concat_of_pos {bit : Bool} (h : 0 < e.errorProbability bit) (bits : List Bool) :
    e.drawCount (bits ++ [bit]) = e.drawCount bits + 1 := by
  simp [drawCount, List.countP_append, h]

theorem drawCount_concat_of_not_pos {bit : Bool} (h : ¬ 0 < e.errorProbability bit)
    (bits : List Bool) : e.drawCount (bits ++ [bit]) = e.drawCount bits := by
  simp [drawCount, List.countP_append, h]

theorem run_reportBit_of_pos {bit : Bool} (h : 0 < e.errorProbability bit) (s : RandomStream) :
    (e.reportBit streamCoin bit).run s =
      (e.corrupted (s.uniform context).1 bit, (s.uniform (R := R) context).2) := by
  have hcoin : s.chance (e.errorProbability bit) context =
      (decide ((s.uniform (R := R) context).1 < e.errorProbability bit),
        (s.uniform (R := R) context).2) := if_pos h
  have hrun : (e.reportBit streamCoin bit).run s =
      (bit != (s.chance (e.errorProbability bit) context).1,
        (s.chance (e.errorProbability bit) context).2) := rfl
  rw [hrun, hcoin, corrupted]
  split
  next hu => rw [decide_eq_true hu, Bool.bne_true]
  next hu => rw [decide_eq_false hu, Bool.bne_false]

theorem run_reportBit_of_not_pos {bit : Bool} (h : ¬ 0 < e.errorProbability bit)
    (s : RandomStream) : (e.reportBit streamCoin bit).run s = (bit, s) := by
  have hcoin : s.chance (e.errorProbability bit) context = (false, s) := if_neg h
  have hrun : (e.reportBit streamCoin bit).run s =
      (bit != (s.chance (e.errorProbability bit) context).1,
        (s.chance (e.errorProbability bit) context).2) := rfl
  rw [hrun, hcoin, Bool.bne_false]

namespace Corrupts

variable {e} {s s' : RandomStream} {bits reported : List Bool} {bit : Bool}

theorem nil : e.Corrupts s [] [] s where
  length_eq := rfl
  stream_eq := rfl
  keeps i bit h := by simp at h
  draws_for i bit h := by simp at h

theorem take_concat {i : Nat} {b : Bool} (h : bits[i]? = some b) :
    (bits ++ [bit]).take i = bits.take i :=
  List.take_append_of_le_length (Nat.le_of_lt (List.getElem?_eq_some_iff.mp h).1)

/-- A bit that cannot be reported wrongly takes no draw. -/
theorem concat_kept (h : e.Corrupts s bits reported s') (hbit : ¬ 0 < e.errorProbability bit) :
    e.Corrupts s (bits ++ [bit]) (reported ++ [bit]) s' := by
  have hcount := e.drawCount_concat_of_not_pos hbit bits
  refine ⟨by simp [h.length_eq], hcount ▸ h.stream_eq, fun i b hi hb => ?_, fun i b hi hb => ?_⟩
  · rcases getElem?_concat_eq_some hi with hi | ⟨rfl, rfl⟩
    · exact getElem?_append_of_eq_some (h.keeps i b hi hb) _
    · rw [← h.length_eq, List.getElem?_concat_length]
  · rcases getElem?_concat_eq_some hi with hi | ⟨rfl, rfl⟩
    · obtain ⟨u, hu, hreported⟩ := h.draws_for i b hi hb
      refine ⟨u, ?_, getElem?_append_of_eq_some hreported _⟩
      rwa [hcount, take_concat hi]
    · exact absurd hb hbit

/-- A bit that may be reported wrongly takes the next draw. -/
theorem concat_drawn (h : e.Corrupts s bits reported s') (hbit : 0 < e.errorProbability bit) :
    e.Corrupts s (bits ++ [bit]) (reported ++ [e.corrupted (s'.uniform context).1 bit])
      (s'.uniform (R := R) context).2 := by
  have hcount := e.drawCount_concat_of_pos hbit bits
  have hdraws := draws_succ (R := R) (e.drawCount bits) s
  rw [← h.stream_eq, ← hcount] at hdraws
  refine ⟨by simp [h.length_eq], by rw [hdraws], fun i b hi hb => ?_, fun i b hi hb => ?_⟩
  · rcases getElem?_concat_eq_some hi with hi | ⟨rfl, rfl⟩
    · exact getElem?_append_of_eq_some (h.keeps i b hi hb) _
    · exact absurd hbit hb
  · rw [hdraws]
    rcases getElem?_concat_eq_some hi with hi | ⟨rfl, rfl⟩
    · obtain ⟨u, hu, hreported⟩ := h.draws_for i b hi hb
      refine ⟨u, ?_, getElem?_append_of_eq_some hreported _⟩
      rw [take_concat hi]
      exact getElem?_append_of_eq_some hu _
    · refine ⟨(s'.uniform context).1, ?_, by rw [← h.length_eq, List.getElem?_concat_length]⟩
      have hlast := length_draws (R := R) (e.drawCount bits) s
      dsimp only
      rw [List.take_left, List.getElem?_append_right (Nat.le_of_eq hlast), hlast, Nat.sub_self]
      rfl

/-- Without errors nothing is drawn and nothing changes. -/
theorem eq_of_not_pos (h : e.Corrupts s bits reported s')
    (hkept : ∀ bit, ¬ 0 < e.errorProbability bit) : reported = bits ∧ s' = s := by
  have hcount : e.drawCount bits = 0 := List.countP_eq_zero.mpr fun bit _ => by simp [hkept bit]
  refine ⟨List.ext_getElem? fun i => ?_, by rw [h.stream_eq, hcount]; rfl⟩
  cases hi : bits[i]? with
  | some bit => exact h.keeps i bit hi (hkept bit)
  | none =>
    rw [List.getElem?_eq_none_iff] at hi ⊢
    exact h.length_eq ▸ hi

end Corrupts

/-- Bits that are reported from left to right are corrupted by the draws in order. -/
theorem corrupts_run (bits : List Bool) (s : RandomStream) :
    e.Corrupts s bits ((bits.mapM (e.reportBit streamCoin)).run s).1
      ((bits.mapM (e.reportBit streamCoin)).run s).2 := by
  -- the last bit is the one whose draw depends on all others
  induction bits using List.reverseRecOn with
  | nil => exact .nil
  | append_singleton bits bit ih =>
    have hlast (s : RandomStream) : (([bit].mapM (e.reportBit streamCoin)).run s) =
        ([((e.reportBit streamCoin bit).run s).1], ((e.reportBit streamCoin bit).run s).2) := rfl
    rw [run_mapM_append, hlast]
    by_cases hbit : 0 < e.errorProbability bit
    · rw [e.run_reportBit_of_pos hbit]
      exact ih.concat_drawn hbit
    · rw [e.run_reportBit_of_not_pos hbit]
      exact ih.concat_kept hbit

section Matrix

variable (bits : BitMatrix) (s : RandomStream)

theorem length_of_reported :
    ∀ row ∈ ((e.reportRows streamCoin bits.rows).run s).1, row.length = bits.width := by
  have hrows : List.Forall₂ (fun row reported => reported.length = row.length) bits.rows
      ((e.reportRows streamCoin bits.rows).run s).1 :=
    forall₂_run_mapM (fun row s => (e.corrupts_run row s).length_eq) bits.rows s
  intro reported hr
  obtain ⟨row, hrow, hlen⟩ := forall₂_exists_of_mem hrows hr
  exact hlen.trans (bits.length_of_mem row hrow)

/-- The matrix that a detector reports. -/
def reported : BitMatrix := .ofFitting bits.width _ (e.length_of_reported bits s)

/-- The stream that the report of a matrix leaves. -/
def afterReport : RandomStream := ((e.reportRows streamCoin bits.rows).run s).2

/-- The report of a matrix is that of its cells. -/
theorem run_cells : (bits.flat.cells.mapM (e.reportBit streamCoin)).run s =
    ((e.reported bits s).flat.cells, e.afterReport bits s) := by
  rw [BitMatrix.cells_flat, run_mapM_flatten, reported, BitMatrix.flat_ofFitting]
  rfl

theorem cells_reported :
    (e.reported bits s).flat.cells = ((bits.flat.cells.mapM (e.reportBit streamCoin)).run s).1 := by
  rw [run_cells]

theorem afterReport_eq :
    e.afterReport bits s = ((bits.flat.cells.mapM (e.reportBit streamCoin)).run s).2 := by
  rw [run_cells]

theorem rowCount_reported : (e.reported bits s).rowCount = bits.rowCount := by
  rw [← BitMatrix.rowCount_flat, ← BitMatrix.rowCount_flat]
  have hlen := (e.corrupts_run bits.flat.cells s).length_eq
  rw [← cells_reported] at hlen
  unfold FlatBits.rowCount
  rw [hlen]
  rfl

/-- The report of two matrices in turn, and of the one below the other. -/
theorem append?_reported {a b ab : BitMatrix} (h : a.append? b = .ok ab) (s : RandomStream) :
    (e.reported a s).append? (e.reported b (e.afterReport a s)) = .ok (e.reported ab s) ∧
      e.afterReport b (e.afterReport a s) = e.afterReport ab s := by
  have hwidth : b.width = a.width := by
    by_contra hne
    cases h.symm.trans (BitMatrix.append?_of_width_ne hne)
  have hcells : ab.flat.cells = a.flat.cells ++ b.flat.cells := by
    rw [BitMatrix.cells_flat, (BitMatrix.append?_eq_ok h).2, List.flatten_append]
    rfl
  have hrun := run_mapM_append (e.reportBit streamCoin) a.flat.cells b.flat.cells s
  rw [← hcells, run_cells, run_cells, run_cells] at hrun
  obtain ⟨hreported, hafter⟩ := Prod.mk.inj hrun
  refine ⟨?_, hafter.symm⟩
  obtain ⟨n, hn, hnwidth, hnrows⟩ := BitMatrix.append?_of_width_eq
    (m := e.reported a s) (n := e.reported b (e.afterReport a s)) hwidth
  rw [hn]
  refine congrArg Except.ok (BitMatrix.flat_injective (FlatBits.ext ?_ ?_))
  · exact hnwidth.trans (BitMatrix.append?_eq_ok h).1.symm
  · rw [hreported, BitMatrix.cells_flat, hnrows, List.flatten_append]
    rfl

/-- One turn of the loop over the rows: the row is reported and put below those before it. -/
def reportRow? (acc : BitMatrix × RandomStream) (row : List Bool) :
    Except Fault (BitMatrix × RandomStream) := do
  let (reported, s) := (row.mapM (e.reportBit streamCoin)).run acc.2
  return (← acc.1.push? reported, s)

/-- Reports a matrix row by row, whether or not there is noise. -/
def reportEach? : Except Fault (BitMatrix × RandomStream) :=
  bits.rows.foldlM e.reportRow? (.empty bits.width, s)

omit bits in
theorem exists_foldlM_reportRow? {m : BitMatrix} {rows : List (List Bool)}
    (h : ∀ row ∈ rows, row.length = m.width) (s : RandomStream) :
    ∃ n, rows.foldlM e.reportRow? (m, s) = .ok (n, ((e.reportRows streamCoin rows).run s).2) ∧
      n.width = m.width ∧
      n.flat.cells = m.flat.cells ++ ((e.reportRows streamCoin rows).run s).1.flatten := by
  induction rows generalizing m s with
  | nil => exact ⟨m, rfl, rfl, (List.append_nil _).symm⟩
  | cons row rest ih =>
    obtain ⟨hrow, hrest⟩ := List.forall_mem_cons.mp h
    let first := (row.mapM (e.reportBit streamCoin)).run s
    have hfirst : first.1.length = m.width := (e.corrupts_run row s).length_eq.trans hrow
    obtain ⟨next, hnext, hwidth, hrows⟩ := BitMatrix.exists_push? hfirst
    obtain ⟨n, hn, hnwidth, hncells⟩ := ih (m := next) (hwidth ▸ hrest) first.2
    have hstep : e.reportRow? (m, s) row = .ok (next, first.2) :=
      bind_eq_ok_iff.mpr ⟨next, hnext, rfl⟩
    have hcells : next.flat.cells = m.flat.cells ++ first.1 := by
      rw [BitMatrix.cells_flat, hrows, List.flatten_append, BitMatrix.flatten_kept
        (List.forall_mem_singleton.mpr hfirst), List.flatten_singleton, BitMatrix.cells_flat]
    have hrun : (e.reportRows streamCoin (row :: rest)).run s =
        (first.1 :: ((e.reportRows streamCoin rest).run first.2).1,
          ((e.reportRows streamCoin rest).run first.2).2) := by
      rw [reportRows, List.mapM_cons]
      rfl
    refine ⟨n, ?_, hnwidth.trans hwidth, ?_⟩
    · rw [hrun]
      exact bind_eq_ok_iff.mpr ⟨_, hstep, hn⟩
    · rw [hncells, hcells, hrun, List.flatten_cons, List.append_assoc]

theorem reportEach?_eq : e.reportEach? bits s = .ok (e.reported bits s, e.afterReport bits s) := by
  obtain ⟨n, hn, hwidth, hcells⟩ := e.exists_foldlM_reportRow? (m := .empty bits.width)
    bits.length_of_mem s
  have hreported : n = e.reported bits s := by
    refine BitMatrix.flat_injective (FlatBits.ext hwidth ?_)
    rw [hcells, reported, BitMatrix.flat_ofFitting, BitMatrix.empty, BitMatrix.flat_ofFitting]
    rfl
  exact hreported ▸ hn

/-- A detector reports every matrix, and the loop agrees when it is left out. -/
theorem report?_eq_reported (hneg : ∀ p : R, p ≤ 0 → ¬ 0 < p) :
    e.report? bits s = .ok (e.reported bits s, e.afterReport bits s) := by
  unfold report?
  split
  next hnoise =>
    have hkept : ∀ bit, ¬ 0 < e.errorProbability bit := by
      intro bit
      cases bit with
      | false => exact hneg _ hnoise.1
      | true => exact hneg _ hnoise.2
    obtain ⟨hcells, hafter⟩ := (e.corrupts_run bits.flat.cells s).eq_of_not_pos hkept
    rw [← cells_reported] at hcells
    have hsame : e.reported bits s = bits := BitMatrix.flat_injective (FlatBits.ext rfl hcells)
    rw [hsame, afterReport_eq, hafter]
  next =>
    have hfit : BitMatrix.ofRows? bits.width ((e.reportRows streamCoin bits.rows).run s).1 =
        .ok (e.reported bits s) := dif_pos (e.length_of_reported bits s)
    exact bind_eq_ok_iff.mpr ⟨_, hfit, rfl⟩

end Matrix

/-- A detector reports every matrix as one of the same rows and columns. From left to right and from
top to bottom, the bits that may be reported wrongly take one draw each, and are inverted when the
draw is below their probability; the others take none and are kept. A noiseless detector, which is
not run, gives what the run would give. The report of one matrix below another is that of the first
and then, from the stream that it leaves, that of the second. -/
theorem report_draws_in_order (e : ReadoutError Float) (s : RandomStream) :
    (∀ bits, ∃ m s', e.report? bits s = .ok (m, s') ∧ e.reportEach? bits s = .ok (m, s') ∧
      m.width = bits.width ∧ m.rowCount = bits.rowCount ∧
      e.Corrupts s bits.flat.cells m.flat.cells s') ∧
    ∀ a b : BitMatrix, (do
        let ab ← a.append? b
        e.report? ab s) = (do
        let (a', s') ← e.report? a s
        let (b', s'') ← e.report? b s'
        return (← a'.append? b', s'')) := by
  have hreport := fun bits s => e.report?_eq_reported bits s not_pos_of_le_zero
  refine ⟨fun bits => ⟨_, _, hreport bits s, e.reportEach?_eq bits s, rfl,
    e.rowCount_reported bits s, ?_⟩, fun a b => ?_⟩
  · rw [cells_reported, afterReport_eq]
    exact e.corrupts_run _ s
  · simp only [hreport]
    show ((a.append? b).bind fun ab => .ok (e.reported ab s, e.afterReport ab s)) =
      ((e.reported a s).append? (e.reported b (e.afterReport a s))).bind
        fun m => .ok (m, e.afterReport b (e.afterReport a s))
    by_cases hwidth : b.width = a.width
    · obtain ⟨ab, hab, _⟩ := BitMatrix.append?_of_width_eq hwidth
      obtain ⟨happend, hafter⟩ := e.append?_reported hab s
      rw [hab, happend, hafter]
      rfl
    · have hreported : (e.reported b (e.afterReport a s)).width ≠ (e.reported a s).width := hwidth
      rw [BitMatrix.append?_of_width_ne hwidth, BitMatrix.append?_of_width_ne hreported]
      rfl

end ReadoutError

end PauliEstimation
