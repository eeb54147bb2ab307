import PauliEstimation.Proofs.BitMatrix.Flat

/-!
Matrices in bytes: one byte for each bit, row after row. Bytes that come from outside keep only
their low bits, and no operation ever looks at a byte again. So whatever is built holds whole rows
of zeros and ones, those of a matrix of bits.
-/

namespace PauliEstimation

@[ext] structure ByteMatrix where
  width : Nat
  cells : List UInt8

namespace ByteMatrix

def empty (width : Nat) : ByteMatrix := ⟨width, []⟩

/-- A row whose bytes keep their low bits. -/
def masked (row : List UInt8) : List UInt8 := row.map (· &&& 1)

def push? (b : ByteMatrix) (row : List UInt8) : Except Fault ByteMatrix :=
  if row.length = b.width then .ok ⟨b.width, b.cells ++ masked row⟩
  else .error (.raggedRow b.width row.length)

def ofRows? (width : Nat) (rows : List (List UInt8)) : Except Fault ByteMatrix :=
  rows.foldlM push? (empty width)

def replicate (times : Nat) (row : List UInt8) : ByteMatrix :=
  ⟨row.length, (List.replicate times (masked row)).flatten⟩

def append? (b c : ByteMatrix) : Except Fault ByteMatrix :=
  if c.width = b.width then .ok ⟨b.width, b.cells ++ c.cells⟩
  else .error (.raggedRow b.width c.width)

def rowCount (b : ByteMatrix) : Nat := if b.width = 0 then 0 else b.cells.length / b.width

/-- All cells in chunks of the width, of which the last may be shorter. -/
def rows (b : ByteMatrix) : List (List UInt8) :=
  let size := max 1 b.width
  (List.range ((b.cells.length + (size - 1)) / size)).map fun i =>
    (b.cells.drop (i * size)).take size

def cell? (row : List UInt8) (c : Nat) : Except Fault UInt8 :=
  match row[c]? with
  | some byte => .ok byte
  | none => .error (.outOfRange c row.length)

def selectColumns? (b : ByteMatrix) (columns : List Nat) : Except Fault ByteMatrix := do
  let selected ← b.rows.mapM fun row => columns.mapM (cell? row)
  return ⟨columns.length, selected.flatten⟩

def flipColumns? (b : ByteMatrix) (mask : List Bool) : Except Fault ByteMatrix :=
  if mask.length = b.width then
    .ok ⟨b.width, b.cells.mapIdx fun i byte => byte ^^^ (mask.getD (i % b.width) false).toUInt8⟩
  else .error (.raggedRow b.width mask.length)

/-- What the constructors and operations build. -/
inductive Built : ByteMatrix → Prop where
  | empty (width : Nat) : Built (.empty width)
  | ofRows {width : Nat} {rows : List (List UInt8)} {b : ByteMatrix} :
    ofRows? width rows = .ok b → Built b
  | replicate (times : Nat) (row : List UInt8) : Built (.replicate times row)
  | push {b c : ByteMatrix} {row : List UInt8} : Built b → b.push? row = .ok c → Built c
  | append {b c d : ByteMatrix} : Built b → Built c → b.append? c = .ok d → Built d
  | select {b c : ByteMatrix} {columns : List Nat} :
    Built b → b.selectColumns? columns = .ok c → Built c
  | flip {b c : ByteMatrix} {mask : List Bool} : Built b → b.flipColumns? mask = .ok c → Built c

/-- The low bits of a row of bytes. -/
def lowBits (row : List UInt8) : List Bool := BitMatrix.bitsOfBytes (row.map UInt8.toNat)

theorem length_lowBits (row : List UInt8) : (lowBits row).length = row.length := by
  simp [lowBits, BitMatrix.bitsOfBytes]

theorem and_one_eq (byte : UInt8) : byte &&& 1 = (decide (byte.toNat % 2 = 1)).toUInt8 := by
  apply UInt8.toNat_inj.mp
  have hlow : (byte &&& 1).toNat = byte.toNat % 2 := Nat.and_one_is_mod byte.toNat
  rw [hlow]
  rcases Nat.mod_two_eq_zero_or_one byte.toNat with h | h
  · rw [h]
    rfl
  · rw [h]
    rfl

theorem masked_eq (row : List UInt8) : masked row = (lowBits row).map Bool.toUInt8 := by
  rw [lowBits, BitMatrix.bitsOfBytes, List.map_map, List.map_map]
  exact List.map_congr_left fun byte _ => and_one_eq byte

theorem toUInt8_xor (a b : Bool) : (a ^^ b).toUInt8 = a.toUInt8 ^^^ b.toUInt8 := by
  cases a <;> cases b <;> decide

end ByteMatrix

namespace FlatBits

/-- A flat matrix with a byte for each of its bits. -/
def bytes (f : FlatBits) : ByteMatrix := ⟨f.width, f.cells.map Bool.toUInt8⟩

@[simp] theorem width_bytes (f : FlatBits) : f.bytes.width = f.width := rfl

@[simp] theorem cells_bytes (f : FlatBits) : f.bytes.cells = f.cells.map Bool.toUInt8 := rfl

theorem pieces_eq (size n : Nat) (cells : List Bool) :
    pieces size n cells = (List.range n).map fun i => (cells.drop (i * size)).take size := by
  induction n generalizing cells with
  | zero => rfl
  | succ n ih =>
    rw [pieces, ih, List.range_succ_eq_map, List.map_cons, List.map_map, Nat.zero_mul,
      List.drop_zero]
    congr 1
    refine List.map_congr_left fun i _ => ?_
    rw [List.drop_drop, Function.comp_apply, Nat.succ_mul, Nat.add_comm]

theorem rows_bytes (f : FlatBits) : f.bytes.rows = f.rows.map (List.map Bool.toUInt8) := by
  unfold ByteMatrix.rows rows
  dsimp only
  rw [pieces_eq, List.map_map]
  simp [bytes, List.map_take, List.map_drop]

theorem rowCount_bytes (f : FlatBits) : f.bytes.rowCount = f.rowCount := by
  simp [ByteMatrix.rowCount, rowCount, bytes]

theorem bytes_push? (f : FlatBits) (row : List UInt8) :
    (f.push? (ByteMatrix.lowBits row)).map bytes = f.bytes.push? row := by
  unfold push? ByteMatrix.push?
  rw [apply_ite (Except.map bytes), ByteMatrix.length_lowBits, ByteMatrix.masked_eq, cells_bytes,
    ← List.map_append]
  rfl

theorem bytes_append? (f g : FlatBits) : (f.append? g).map bytes = f.bytes.append? g.bytes := by
  unfold append? ByteMatrix.append?
  rw [apply_ite (Except.map bytes), cells_bytes, cells_bytes, ← List.map_append]
  rfl

theorem bytes_cell? (row : List Bool) (c : Nat) :
    (cell? row c).map Bool.toUInt8 = ByteMatrix.cell? (row.map Bool.toUInt8) c := by
  unfold cell? ByteMatrix.cell?
  rw [List.getElem?_map, List.length_map]
  cases row[c]? <;> rfl

theorem bytes_selectColumns? (f : FlatBits) (columns : List Nat) :
    (f.selectColumns? columns).map bytes = f.bytes.selectColumns? columns := by
  have hrow (row : List Bool) : columns.mapM (ByteMatrix.cell? (row.map Bool.toUInt8)) =
      (columns.mapM (cell? row)).map (List.map Bool.toUInt8) := by
    rw [← mapM_map]
    exact mapM_congr fun c _ => (bytes_cell? row c).symm
  have hrows : f.bytes.rows.mapM (fun row => columns.mapM (ByteMatrix.cell? row)) =
      (f.rows.mapM fun row => columns.mapM (cell? row)).map
        (List.map (List.map Bool.toUInt8)) := by
    rw [rows_bytes, List.mapM_map, ← mapM_map]
    exact mapM_congr fun row _ => hrow row
  unfold selectColumns? ByteMatrix.selectColumns?
  rw [hrows]
  cases f.rows.mapM fun row => columns.mapM (cell? row) with
  | error fault => rfl
  | ok selected => exact congrArg Except.ok (ByteMatrix.ext rfl List.map_flatten)

theorem bytes_flipColumns? (f : FlatBits) (mask : List Bool) :
    (f.flipColumns? mask).map bytes = f.bytes.flipColumns? mask := by
  have hcells : (f.cells.mapIdx fun i bit => bit ^^ mask.getD (i % f.width) false).map
        Bool.toUInt8 =
      f.bytes.cells.mapIdx fun i byte => byte ^^^ (mask.getD (i % f.width) false).toUInt8 := by
    apply List.ext_getElem (by simp)
    intro i hi hi'
    simp [ByteMatrix.toUInt8_xor]
  unfold flipColumns? ByteMatrix.flipColumns?
  rw [apply_ite (Except.map bytes), width_bytes, ← hcells]
  rfl

end FlatBits

namespace BitMatrix

/-- A matrix with a byte for each of its bits. -/
def bytes (m : BitMatrix) : ByteMatrix := m.flat.bytes

@[simp] theorem width_bytes (m : BitMatrix) : m.bytes.width = m.width := rfl

theorem rows_bytes (m : BitMatrix) : m.bytes.rows = m.rows.map (List.map Bool.toUInt8) := by
  rw [bytes, FlatBits.rows_bytes, rows_flat]

theorem rowCount_bytes (m : BitMatrix) : m.bytes.rowCount = m.rowCount := by
  rw [bytes, FlatBits.rowCount_bytes, rowCount_flat]

theorem eq_zero_or_one_of_mem_bytes {m : BitMatrix} {byte : UInt8} (h : byte ∈ m.bytes.cells) :
    byte = 0 ∨ byte = 1 := by
  obtain ⟨bit, _, rfl⟩ := List.mem_map.mp h
  cases bit
  · exact .inl rfl
  · exact .inr rfl

theorem map_bytes (x : Except Fault BitMatrix) :
    x.map bytes = (x.map flat).map FlatBits.bytes := by
  cases x <;> rfl

theorem bytes_push? (m : BitMatrix) (row : List UInt8) :
    (m.push? (ByteMatrix.lowBits row)).map bytes = m.bytes.push? row := by
  rw [map_bytes, flat_push?, FlatBits.bytes_push?]
  rfl

theorem bytes_append? (m n : BitMatrix) :
    (m.append? n).map bytes = m.bytes.append? n.bytes := by
  rw [map_bytes, flat_append?, FlatBits.bytes_append?]
  rfl

theorem bytes_selectColumns? (m : BitMatrix) (columns : List Nat) :
    (m.selectColumns? columns).map bytes = m.bytes.selectColumns? columns := by
  rw [map_bytes, flat_selectColumns?, FlatBits.bytes_selectColumns?]
  rfl

theorem bytes_flipColumns? (m : BitMatrix) (mask : List Bool) :
    (m.flipColumns? mask).map bytes = m.bytes.flipColumns? mask := by
  rw [map_bytes, flat_flipColumns?, FlatBits.bytes_flipColumns?]
  rfl

theorem bytes_empty (width : Nat) : (empty width).bytes = .empty width := by
  rw [bytes, empty, flat_ofFitting]
  rfl

theorem bytes_replicate (times : Nat) (row : List UInt8) :
    (replicate times (ByteMatrix.lowBits row)).bytes = .replicate times row := by
  rw [bytes, replicate, flat_ofFitting]
  refine ByteMatrix.ext (ByteMatrix.length_lowBits row) ?_
  rw [FlatBits.cells_bytes, ByteMatrix.replicate, ByteMatrix.masked_eq, List.map_flatten,
    List.map_replicate]

theorem bytes_ofRows? (width : Nat) (rows : List (List UInt8)) :
    (ofRows? width (rows.map ByteMatrix.lowBits)).map bytes = ByteMatrix.ofRows? width rows := by
  rw [← foldlM_push?_empty, List.foldlM_map, map_foldlM bytes_push?, bytes_empty,
    ByteMatrix.ofRows?]

/-- The result of an operation on bytes that agrees with one on bits. -/
theorem exists_bytes_eq {x : Except Fault BitMatrix} {y : Except Fault ByteMatrix} {b : ByteMatrix}
    (hsame : x.map bytes = y) (h : y = .ok b) : ∃ m : BitMatrix, m.bytes = b := by
  obtain ⟨m, _, hm⟩ := map_eq_ok_iff.mp (hsame.trans h)
  exact ⟨m, hm⟩

end BitMatrix

/-- Whatever is built is a matrix of bits, with one byte for each bit. -/
theorem ByteMatrix.Built.exists_bits {b : ByteMatrix} (h : b.Built) :
    ∃ m : BitMatrix, m.bytes = b := by
  induction h with
  | empty width => exact ⟨.empty width, BitMatrix.bytes_empty width⟩
  | ofRows h => exact BitMatrix.exists_bytes_eq (BitMatrix.bytes_ofRows? _ _) h
  | replicate times row => exact ⟨_, BitMatrix.bytes_replicate times row⟩
  | push _ h ih =>
    obtain ⟨m, rfl⟩ := ih
    exact BitMatrix.exists_bytes_eq (m.bytes_push? _) h
  | append _ _ h ih ih' =>
    obtain ⟨m, rfl⟩ := ih
    obtain ⟨n, rfl⟩ := ih'
    exact BitMatrix.exists_bytes_eq (m.bytes_append? n) h
  | select _ h ih =>
    obtain ⟨m, rfl⟩ := ih
    exact BitMatrix.exists_bytes_eq (m.bytes_selectColumns? _) h
  | flip _ h ih =>
    obtain ⟨m, rfl⟩ := ih
    exact BitMatrix.exists_bytes_eq (m.bytes_flipColumns? _) h

end PauliEstimation
