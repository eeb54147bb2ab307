import Mathlib.Data.List.GetD
import PauliEstimation.Measurement.Accumulator
import PauliEstimation.Proofs.BasisChange.Readout
import PauliEstimation.Proofs.BitMatrix.Bytes
import PauliEstimation.Proofs.Measurement.BatchSizes

namespace PauliEstimation

variable {R : Type}

structure Store (R : Type) where
  spec : Spec R
  settings : List (Setting R)
  columns : QubitMap Nat
  bits : ByteMatrix
  batches : List Nat

namespace Store

def empty (spec : Spec R) (settings : List (Setting R)) (columns : QubitMap Nat) : Store R :=
  ⟨spec, settings, columns, .empty columns.size, []⟩

def repetitions (a : Store R) : Nat := a.bits.rowCount

/-- Puts the rows of a batch below those that are stored. -/
def extend (batch : ByteMatrix) : EStateM Fault (Store R) Unit := fun a =>
  match a.bits.append? batch with
  | .ok bits => .ok () { a with bits }
  | .error fault => .error fault a

/-- Takes in one batch: first its rows, then its size. -/
def consume (batch : ByteMatrix) : EStateM Fault (Store R) Unit := do
  extend batch
  modify fun a => { a with batches := a.batches ++ [batch.rowCount] }

/-- Takes in one batch and goes on whether or not it is refused. -/
def offer (batch : ByteMatrix) : StateM (Store R) (Except Fault Unit) := fun a =>
  match consume batch a with
  | .ok _ a => (.ok (), a)
  | .error fault a => (.error fault, a)

/-- Takes in one batch after the other. -/
def offerAll (batches : List ByteMatrix) (a : Store R) : List (Except Fault Unit) × Store R :=
  (batches.mapM offer).run a

section Values

variable [Scalar R]

/-- The parity of the bytes on some columns of a row. -/
def parity? (columns : List Nat) (row : List UInt8) : Except Fault UInt8 :=
  columns.foldlM (fun parity c => do return parity ^^^ (← ByteMatrix.cell? row c)) 0

/-- The value of a setting's observable in one shot. -/
def rowValue? (s : Setting R) (columns : List Nat) (row : List UInt8) : Except Fault R := do
  let parity ← parity? columns row
  return s.observable.coefficient * (1 - Scalar.ofNat 2 * Scalar.ofNat parity.toNat)

def values? (a : Store R) (s : Setting R) : Except Fault (List R) := do
  let columns ← s.observable.qubits.mapM fun q => match a.columns.get? q with
    | some c => .ok c
    | none => .error (.unknownQubit q)
  a.bits.rows.mapM (rowValue? s columns)

end Values

end Store

/-- How an accumulator is stored. -/
def Accumulator.stored (a : Accumulator R) : Store R :=
  ⟨a.spec, a.settings, a.columns, a.bits.bytes, a.batches⟩

namespace Store

theorem stored_empty (spec : Spec R) (settings : List (Setting R)) (columns : QubitMap Nat) :
    (Accumulator.empty spec settings columns).stored = empty spec settings columns := by
  rw [Accumulator.stored, Accumulator.empty, BitMatrix.bytes_empty]
  rfl

theorem consume_of_width_eq {a : Store R} {batch : ByteMatrix} (h : batch.width = a.bits.width) :
    consume batch a = .ok () { a with
      bits := ⟨a.bits.width, a.bits.cells ++ batch.cells⟩
      batches := a.batches ++ [batch.rowCount] } := by
  have happend : a.bits.append? batch = .ok ⟨a.bits.width, a.bits.cells ++ batch.cells⟩ := if_pos h
  simp only [consume, bind, EStateM.bind, extend, happend]
  rfl

theorem consume_of_width_ne {a : Store R} {batch : ByteMatrix} (h : batch.width ≠ a.bits.width) :
    consume batch a = .error (.raggedRow a.bits.width batch.width) a := by
  have happend : a.bits.append? batch = .error (.raggedRow a.bits.width batch.width) := if_neg h
  simp only [consume, bind, EStateM.bind, extend, happend]

/-- A batch is taken in exactly when it has the width of the store. Otherwise nothing changes. -/
theorem consume_atomic (a : Store R) (batch : ByteMatrix) :
    ((∃ a', consume batch a = .ok () a') ↔ batch.width = a.bits.width) ∧
      ∀ fault a', consume batch a = .error fault a' → a' = a := by
  by_cases h : batch.width = a.bits.width
  · rw [consume_of_width_eq h]
    exact ⟨⟨fun _ => h, fun _ => ⟨_, rfl⟩⟩, fun _ _ he => nomatch he⟩
  · rw [consume_of_width_ne h]
    refine ⟨⟨fun ⟨_, he⟩ => (nomatch he), fun he => absurd he h⟩, fun _ _ he => ?_⟩
    cases he
    rfl

/-- What comes of a batch that is offered to a store of the given width. -/
def outcome (width : Nat) (batch : ByteMatrix) : Except Fault Unit :=
  if batch.width = width then .ok () else .error (.raggedRow width batch.width)

theorem offer_stored_of_width_eq {a : Accumulator R} {m : BitMatrix} (h : m.width = a.bits.width) :
    ∃ b, a.consume? m = .ok b ∧ offer m.bytes a.stored = (.ok (), b.stored) := by
  obtain ⟨bits, hbits, _⟩ := BitMatrix.append?_of_width_eq h
  have happend : a.bits.bytes.append? m.bytes = .ok bits.bytes := by
    rw [← BitMatrix.bytes_append?, hbits]
    rfl
  refine ⟨{ a with bits, batches := a.batches ++ [m.rowCount] },
    bind_eq_ok_iff.mpr ⟨bits, hbits, rfl⟩, ?_⟩
  have hcells : bits.bytes = ⟨a.bits.width, a.bits.bytes.cells ++ m.bytes.cells⟩ :=
    (Except.ok.inj (happend.symm.trans (if_pos h)))
  have hwidth : m.bytes.width = a.stored.bits.width := h
  rw [offer, consume_of_width_eq hwidth, m.rowCount_bytes]
  simp only [Accumulator.stored, hcells]
  rfl

theorem offer_of_width_ne {a : Store R} {batch : ByteMatrix} (h : batch.width ≠ a.bits.width) :
    offer batch a = (.error (.raggedRow a.bits.width batch.width), a) := by
  rw [offer, consume_of_width_ne h]

theorem offerAll_cons (batch : ByteMatrix) (batches : List ByteMatrix) (a : Store R) :
    offerAll (batch :: batches) a =
      ((offer batch a).1 :: (offerAll batches (offer batch a).2).1,
        (offerAll batches (offer batch a).2).2) := by
  rw [offerAll, List.mapM_cons]
  rfl

/-- A store that was offered batches is that of the accumulator that took in those of its width. -/
theorem offerAll_stored (batches : List BitMatrix) (a : Accumulator R) :
    ∃ b, (batches.filter (·.width = a.bits.width)).foldlM Accumulator.consume? a = .ok b ∧
      a.Extends b ((batches.filter (·.width = a.bits.width)).map BitMatrix.rows) ∧
      offerAll (batches.map BitMatrix.bytes) a.stored =
        (batches.map fun m => outcome a.bits.width m.bytes, b.stored) := by
  -- a batch that is taken in leaves the width as it is, so the rest is filtered by the same width
  induction batches generalizing a with
  | nil => exact ⟨a, rfl, .refl a, rfl⟩
  | cons m rest ih =>
    rw [List.map_cons, List.map_cons, offerAll_cons]
    by_cases h : m.width = a.bits.width
    · obtain ⟨b, hb, hoffer⟩ := offer_stored_of_width_eq h
      have hext := Accumulator.consume?_eq_ok hb
      obtain ⟨c, hc, hbc, hrest⟩ := ih b
      rw [hext.width_eq] at hc hbc hrest
      have hfilter : (m :: rest).filter (·.width = a.bits.width) =
          m :: rest.filter (·.width = a.bits.width) := List.filter_cons_of_pos (by simpa using h)
      refine ⟨c, ?_, ?_, ?_⟩
      · rw [hfilter]
        exact bind_eq_ok_iff.mpr ⟨b, hb, hc⟩
      · rw [hfilter]
        exact hext.trans hbc
      · rw [hoffer, hrest]
        simp [outcome, h]
    · obtain ⟨c, hc, hac, hrest⟩ := ih a
      have hfilter : (m :: rest).filter (·.width = a.bits.width) =
          rest.filter (·.width = a.bits.width) := List.filter_cons_of_neg (by simpa using h)
      refine ⟨c, hfilter ▸ hc, hfilter ▸ hac, ?_⟩
      have hwidth : m.bytes.width ≠ a.stored.bits.width := h
      have hoffer : offer m.bytes a.stored = (.error (.raggedRow a.bits.width m.width), a.stored) :=
        offer_of_width_ne hwidth
      rw [hoffer, hrest]
      simp [outcome, h]

section Values

theorem foldlM_parity? {columns : List Nat} {row : List Bool} (h : ∀ c ∈ columns, c < row.length)
    (start : Bool) :
    columns.foldlM (fun parity c => do
        return parity ^^^ (← ByteMatrix.cell? (row.map Bool.toUInt8) c)) start.toUInt8 =
      .ok (columns.foldl (fun parity c => parity != row.getD c false) start).toUInt8 := by
  induction columns generalizing start with
  | nil => rfl
  | cons c rest ih =>
    obtain ⟨hc, hrest⟩ := List.forall_mem_cons.mp h
    have hcell : ByteMatrix.cell? (row.map Bool.toUInt8) c = .ok (row.getD c false).toUInt8 := by
      rw [← FlatBits.bytes_cell?, FlatBits.cell?_of_lt hc]
      rfl
    rw [List.foldlM_cons, hcell, List.foldl_cons, ← ih hrest]
    show List.foldlM _ (start.toUInt8 ^^^ (row.getD c false).toUInt8) rest = _
    rw [← ByteMatrix.toUInt8_xor, Bool.bne_eq_xor]

theorem parity?_of_lt {columns : List Nat} {row : List Bool} (h : ∀ c ∈ columns, c < row.length) :
    parity? columns (row.map Bool.toUInt8) =
      .ok (columns.foldl (fun parity c => parity != row.getD c false) false).toUInt8 :=
  foldlM_parity? h false

/-- The row is read up to the first column past its end. -/
theorem parity?_of_find? {columns : List Nat} {row : List Bool} {c : Nat}
    (h : columns.find? (row.length ≤ ·) = some c) :
    parity? columns (row.map Bool.toUInt8) = .error (.outOfRange c row.length) := by
  obtain ⟨hc, before, after, rfl, hbefore⟩ := List.find?_eq_some_iff_append.mp h
  have hc : row.length ≤ c := by simpa using hc
  have hbefore : ∀ k ∈ before, k < row.length := by simpa using hbefore
  have hcell : ByteMatrix.cell? (row.map Bool.toUInt8) c = .error (.outOfRange c row.length) := by
    rw [← FlatBits.bytes_cell?, FlatBits.cell?_of_le hc]
    rfl
  have hstart := foldlM_parity? hbefore false
  rw [parity?, List.foldlM_append]
  refine bind_eq_error_iff.mpr (.inr ⟨_, hstart, ?_⟩)
  rw [List.foldlM_cons, hcell]
  rfl

/-- The sign of a parity, computed from its byte. -/
theorem sign_toUInt8 (parity : Bool) :
    (1 - Scalar.ofNat 2 * Scalar.ofNat parity.toUInt8.toNat : Float) =
      if parity then -1 else 1 := by
  cases parity <;> rfl

theorem rowValue?_of_lt (s : Setting Float) {columns : List Nat} {row : List Bool}
    (h : ∀ c ∈ columns, c < row.length) :
    rowValue? s columns (row.map Bool.toUInt8) =
      .ok (s.observable.coefficient * Accumulator.rowSign columns row) := by
  rw [rowValue?, parity?_of_lt h]
  exact congrArg (fun sign => Except.ok (s.observable.coefficient * sign)) (sign_toUInt8 _)

/-- The bytes of a store give the values of its bits. -/
theorem values?_stored (a : Accumulator Float) (s : Setting Float) :
    a.stored.values? s = a.values? s := by
  have hrows : a.stored.bits.rows = a.bits.rows.map (List.map Bool.toUInt8) := a.bits.rows_bytes
  unfold values? Accumulator.values?
  rw [hrows]
  refine bind_congr fun columns => ?_
  rw [List.mapM_map]
  cases hfind : columns.find? (a.bits.width ≤ ·) with
  | none =>
    have hlt : ∀ c ∈ columns, c < a.bits.width := by simpa [List.find?_eq_none] using hfind
    refine mapM_eq_ok_iff.mpr ?_
    rw [List.forall₂_map_right_iff, List.forall₂_same]
    intro row hrow
    exact rowValue?_of_lt s fun c hc => a.bits.length_of_mem row hrow ▸ hlt c hc
  | some c =>
    dsimp only
    by_cases hempty : a.bits.isEmpty
    · rw [if_pos hempty, List.isEmpty_iff.mp hempty]
      rfl
    · obtain ⟨row, rest, hall⟩ := List.exists_cons_of_ne_nil (mt List.isEmpty_iff.mpr hempty)
      have hlen : row.length = a.bits.width := a.bits.length_of_mem row (by simp [hall])
      have hstop : rowValue? s columns (row.map Bool.toUInt8) =
          .error (.outOfRange c a.bits.width) := by
        rw [rowValue?, parity?_of_find? (hlen ▸ hfind), hlen]
        rfl
      rw [if_neg hempty, hall, List.mapM_cons, Function.comp_apply, hstop]
      rfl

theorem rowSign_bytes (columns : List Nat) (row : List Bool) :
    (Accumulator.rowSign columns row : Float) =
      if columns.countP ((row.map Bool.toUInt8).getD · 0 = 1) % 2 = 1 then -1 else 1 := by
  have hbit (c : Nat) : decide ((row.map Bool.toUInt8).getD c 0 = 1) = row.getD c false := by
    have hzero : (0 : UInt8) = false.toUInt8 := rfl
    rw [hzero, List.getD_map]
    cases row.getD c false <;> rfl
  simp only [hbit]
  rw [Accumulator.rowSign, foldl_bne, Bool.false_bne]
  exact if_congr beq_iff_eq rfl rfl

/-- On valid columns every row has a value: the coefficient, with the sign of its parity. -/
theorem values?_of_columns {a : Accumulator Float} {s : Setting Float} {on : List Nat}
    (h : List.Forall₂ (fun q c => a.columns.get? q = some c ∧ c < a.bits.width)
      s.observable.qubits on) :
    a.stored.values? s = .ok (a.stored.bits.rows.map fun row =>
      s.observable.coefficient * if on.countP (row.getD · 0 = 1) % 2 = 1 then -1 else 1) := by
  have hlt : ∀ c ∈ on, c < a.bits.width := fun c hc =>
    have ⟨_, _, _, hc⟩ := forall₂_exists_of_mem h hc
    hc
  have hrows : a.stored.bits.rows = a.bits.rows.map (List.map Bool.toUInt8) := a.bits.rows_bytes
  rw [values?_stored, Accumulator.values?_eq_ok (h.imp fun _ _ hq => hq.1) hlt, hrows, List.map_map]
  exact congrArg Except.ok (List.map_congr_left fun row _ =>
    congrArg (s.observable.coefficient * ·) (rowSign_bytes on row))

end Values

/-- What a store holds that started without shots and accepted the given batches. The value of a
setting in a row is its coefficient with the sign of the parity on its columns. -/
structure Holds (a : Store Float) (columns : QubitMap Nat) (accepted : List ByteMatrix) :
    Prop where
  rows_eq : a.bits.rows = accepted.flatMap ByteMatrix.rows
  length_of_mem : ∀ row ∈ a.bits.rows, row.length = columns.size
  batches_eq : a.batches = accepted.map ByteMatrix.rowCount
  sum_batches : a.batches.sum = a.repetitions
  repetitions_eq : a.repetitions = a.bits.rows.length
  zero_or_one : ∀ byte ∈ a.bits.cells, byte = 0 ∨ byte = 1
  values?_eq : ∀ (s : Setting Float) (on : List Nat),
    List.Forall₂ (fun q c => columns.get? q = some c ∧ c < columns.size) s.observable.qubits on →
    a.values? s = .ok (a.bits.rows.map fun row =>
      s.observable.coefficient * if on.countP (row.getD · 0 = 1) % 2 = 1 then -1 else 1)

section Run

variable {spec : Spec Float} {settings : List (Setting Float)} {columns : QubitMap Nat}

/-- An accumulator that took in matrices is stored with their bytes. -/
theorem holds_stored {b : Accumulator Float} {matrices : List BitMatrix}
    (h : (Accumulator.empty spec settings columns).Extends b (matrices.map BitMatrix.rows)) :
    b.stored.Holds columns (matrices.map BitMatrix.bytes) := by
  have hrows : b.stored.bits.rows = b.bits.rows.map (List.map Bool.toUInt8) := b.bits.rows_bytes
  have hcount : b.stored.repetitions = b.repetitions := b.bits.rowCount_bytes
  have hwidth : b.bits.width = columns.size := h.width_eq
  constructor
  case rows_eq =>
    rw [hrows, h.rows_eq, Accumulator.rows_empty, List.nil_append, List.flatMap_map,
      List.map_flatten, List.map_map, List.flatMap_def]
    exact congrArg _ (List.map_congr_left fun m _ => m.rows_bytes.symm)
  case length_of_mem =>
    intro row hr
    rw [hrows] at hr
    obtain ⟨bits, hbits, rfl⟩ := List.mem_map.mp hr
    rw [List.length_map, b.bits.length_of_mem bits hbits, hwidth]
  case batches_eq =>
    show b.batches = _
    rw [h.batches_eq, List.map_map, List.map_map]
    exact List.map_congr_left fun m _ => m.rowCount_bytes.symm
  case sum_batches =>
    have hstart : (Accumulator.empty spec settings columns).IsCounted := by
      rw [Accumulator.IsCounted, Accumulator.repetitions, BitMatrix.rowCount,
        Accumulator.rows_empty]
      rfl
    rw [hcount]
    exact h.isCounted hstart
  case repetitions_eq =>
    rw [hcount, hrows, List.length_map]
    rfl
  case zero_or_one => exact fun byte => BitMatrix.eq_zero_or_one_of_mem_bytes
  case values?_eq =>
    intro s on hon
    refine values?_of_columns ?_
    rw [h.columns_eq, hwidth]
    exact hon

end Run

/-- A batch is taken in exactly when it has the width of the store, and is refused without a change
otherwise. However many are offered to a store without shots, it holds those of its width. So does
the accumulator of bits that takes in the same, and it gives every setting the same values. -/
theorem offered_batches_are_stored (spec : Spec Float) (settings : List (Setting Float))
    (columns : QubitMap Nat) (batches : List ByteMatrix) (h : ∀ batch ∈ batches, batch.Built) :
    (∀ (batch : ByteMatrix) (a : Store Float),
      ((∃ a', consume batch a = .ok () a') ↔ batch.width = a.bits.width) ∧
        ∀ fault a', consume batch a = .error fault a' → a' = a) ∧
    let accepted := batches.filter (·.width = columns.size)
    let offered := offerAll batches (empty spec settings columns)
    offered.1 = batches.map (outcome columns.size) ∧ offered.2.Holds columns accepted ∧
    ∃ (matrices : List BitMatrix) (b : Accumulator Float), matrices.map BitMatrix.bytes = accepted ∧
      matrices.foldlM Accumulator.consume? (.empty spec settings columns) = .ok b ∧
      offered.2 = b.stored ∧ ∀ s, offered.2.values? s = b.values? s := by
  refine ⟨fun batch a => consume_atomic a batch, ?_⟩
  intro accepted offered
  obtain ⟨matrices, hmatrices⟩ := exists_forall₂ fun b hb => (h b hb).exists_bits
  have hbatches : batches = matrices.map BitMatrix.bytes := by
    simpa using map_eq_map_of_forall₂ (f := id) (g := BitMatrix.bytes) hmatrices
      fun _ _ hm => hm.symm
  have haccepted : (matrices.filter (·.width = columns.size)).map BitMatrix.bytes = accepted := by
    unfold accepted
    rw [hbatches, List.filter_map]
    rfl
  have hwidth : (Accumulator.empty spec settings columns).bits.width = columns.size := rfl
  obtain ⟨b, hb, hext, hoffer⟩ := offerAll_stored matrices (.empty spec settings columns)
  rw [hwidth] at hb hext hoffer
  rw [stored_empty, ← hbatches] at hoffer
  have hstored : offered.2 = b.stored := congrArg Prod.snd hoffer
  refine ⟨(congrArg Prod.fst hoffer).trans ?_, ?_, _, b, haccepted, hb, hstored, fun s => ?_⟩
  · rw [hbatches, List.map_map]
    rfl
  · rw [hstored, ← haccepted]
    exact holds_stored hext
  · rw [hstored]
    exact values?_stored b s

/-- Of a batch with a byte above one, a batch of another width and a batch that is selected from a
wider matrix, the first and the last are stored. -/
theorem offered_batches_are_stored_refused :
    let zz : Setting Float := .ofObservable ⟨0.5, .ofList [(⟨0⟩, .z), (⟨1⟩, .z)]⟩
    let columns : QubitMap Nat := .ofList [(⟨0⟩, 0), (⟨1⟩, 1)]
    let batches : List ByteMatrix :=
      [.replicate 2 [3, 0], .replicate 1 [0, 1, 0], ⟨2, [1, 1]⟩]
    (∀ batch ∈ batches, batch.Built) ∧
      let offered := offerAll batches (empty ⟨zz, .empty⟩ [zz] columns)
      let a := offered.2
      offered.1 = [.ok (), .error (.raggedRow 2 3), .ok ()] ∧
        a.bits.rows = [[1, 0], [1, 0], [1, 1]] ∧ a.batches = [2, 1] ∧
        a.values? zz = .ok [0.5 * -1, 0.5 * -1, 0.5 * 1] := by
  intro zz columns batches
  have hselected : (ByteMatrix.replicate 1 [7, 0, 1]).selectColumns? [2, 0] = .ok ⟨2, [1, 1]⟩ := by
    rfl
  have hbuilt : ∀ batch ∈ batches, batch.Built := by
    simp only [batches, List.forall_mem_cons]
    exact ⟨.replicate 2 [3, 0], .replicate 1 [0, 1, 0], .select (.replicate 1 [7, 0, 1]) hselected,
      List.forall_mem_nil _⟩
  refine ⟨hbuilt, ?_⟩
  intro offered a
  obtain ⟨_, houtcomes, hholds, _⟩ :=
    offered_batches_are_stored ⟨zz, .empty⟩ [zz] columns batches hbuilt
  have hrows : a.bits.rows = [[1, 0], [1, 0], [1, 1]] := hholds.rows_eq.trans (by decide)
  have hon : List.Forall₂ (fun q c => columns.get? q = some c ∧ c < columns.size)
      zz.observable.qubits [0, 1] := .cons (by decide) (.cons (by decide) .nil)
  refine ⟨houtcomes.trans (by decide), hrows, hholds.batches_eq.trans (by decide), ?_⟩
  rw [hholds.values?_eq zz [0, 1] hon, hrows]
  rfl

end Store

end PauliEstimation
