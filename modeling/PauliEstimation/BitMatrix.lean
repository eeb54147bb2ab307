import PauliEstimation.Fault

namespace PauliEstimation

/-- One row for each shot, one column for each measured qubit. Without columns there are no rows, so
that shots that measure nothing are not counted. -/
@[ext] structure BitMatrix where
  width : Nat
  rows : List (List Bool)
  length_of_mem : ∀ row ∈ rows, row.length = width
  rows_of_width_zero : width = 0 → rows = []
deriving DecidableEq

namespace BitMatrix

/-- The rows that a matrix of the given width keeps. -/
def kept (width : Nat) (rows : List (List Bool)) : List (List Bool) :=
  if width = 0 then [] else rows

theorem mem_of_mem_kept {width : Nat} {rows : List (List Bool)} {row : List Bool}
    (h : row ∈ kept width rows) : row ∈ rows := by
  unfold kept at h
  split at h
  · simp at h
  · exact h

/-- The matrix of rows that are known to fit. -/
def ofFitting (width : Nat) (rows : List (List Bool)) (h : ∀ row ∈ rows, row.length = width) :
    BitMatrix where
  width := width
  rows := kept width rows
  length_of_mem row hr := h row (mem_of_mem_kept hr)
  rows_of_width_zero hw := if_pos hw

def empty (width : Nat) : BitMatrix := ofFitting width [] (by simp)

instance : Inhabited BitMatrix := ⟨empty 0⟩

/-- The low bit of each byte. -/
def bitsOfBytes (bytes : List Nat) : List Bool := bytes.map (· % 2 = 1)

/-- The matrix of the given rows. The first row of another width is refused. -/
def ofRows? (width : Nat) (rows : List (List Bool)) : Except Fault BitMatrix :=
  if h : ∀ row ∈ rows, row.length = width then .ok (ofFitting width rows h)
  else .error (.raggedRow width
    (((rows.find? fun row => row.length != width).map List.length).getD width))

def replicate (times : Nat) (row : List Bool) : BitMatrix :=
  ofFitting row.length (List.replicate times row) (by simp +contextual [List.mem_replicate])

/-- Adds the rows of a second matrix of the same width below. -/
def append? (m n : BitMatrix) : Except Fault BitMatrix :=
  if h : n.width = m.width then
    .ok (ofFitting m.width (m.rows ++ n.rows) (by
      intro row hr
      rcases List.mem_append.mp hr with hr | hr
      · exact m.length_of_mem row hr
      · exact h ▸ n.length_of_mem row hr))
  else .error (.raggedRow m.width n.width)

def push? (m : BitMatrix) (row : List Bool) : Except Fault BitMatrix := do
  m.append? (← ofRows? m.width [row])

def rowCount (m : BitMatrix) : Nat := m.rows.length

def isEmpty (m : BitMatrix) : Bool := m.rows.isEmpty

/-- One row. A matrix of width zero answers every position with the empty row. -/
def row? (m : BitMatrix) (k : Nat) : Except Fault (List Bool) :=
  if m.width = 0 then .ok []
  else match m.rows[k]? with
    | some row => .ok row
    | none => .error (.outOfRange k m.rowCount)

/-- The listed columns in the listed order. A column past the width is an error unless there is no
row to read it from. -/
def selectColumns? (m : BitMatrix) (columns : List Nat) : Except Fault BitMatrix :=
  match columns.find? (m.width ≤ ·) with
  | some c => if m.isEmpty then .ok (empty columns.length) else .error (.outOfRange c m.width)
  | none => .ok (ofFitting columns.length
      (m.rows.map fun row => columns.map fun c => row.getD c false) (by simp +contextual))

/-- Inverts the masked columns of every row. -/
def flipColumns? (m : BitMatrix) (mask : List Bool) : Except Fault BitMatrix :=
  if h : mask.length = m.width then
    .ok (ofFitting m.width (m.rows.map (List.zipWith xor · mask)) (by
      intro row hr
      obtain ⟨r, hm, rfl⟩ := List.mem_map.mp hr
      simp [m.length_of_mem r hm, h]))
  else .error (.raggedRow m.width mask.length)

@[simp] theorem rows_ofFitting {width : Nat} {rows : List (List Bool)}
    (h : ∀ row ∈ rows, row.length = width) : (ofFitting width rows h).rows = kept width rows := rfl

@[simp] theorem width_ofFitting {width : Nat} {rows : List (List Bool)}
    (h : ∀ row ∈ rows, row.length = width) : (ofFitting width rows h).width = width := rfl

theorem kept_rows (m : BitMatrix) : kept m.width m.rows = m.rows := by
  unfold kept
  split
  · next h => exact (m.rows_of_width_zero h).symm
  · rfl

theorem append?_of_width_eq {m n : BitMatrix} (h : n.width = m.width) :
    ∃ r, m.append? n = .ok r ∧ r.width = m.width ∧ r.rows = m.rows ++ n.rows := by
  refine ⟨_, dif_pos h, rfl, ?_⟩
  by_cases h0 : m.width = 0
  · simp [kept, h0, m.rows_of_width_zero h0, n.rows_of_width_zero (h.trans h0)]
  · simp [kept, h0]

theorem append?_of_width_ne {m n : BitMatrix} (h : n.width ≠ m.width) :
    m.append? n = .error (.raggedRow m.width n.width) :=
  dif_neg h

theorem flipColumns?_of_length_eq {m : BitMatrix} {mask : List Bool}
    (h : mask.length = m.width) :
    ∃ r, m.flipColumns? mask = .ok r ∧ r.width = m.width ∧
      r.rows = m.rows.map (List.zipWith xor · mask) := by
  refine ⟨_, dif_pos h, rfl, ?_⟩
  by_cases h0 : m.width = 0
  · simp [kept, h0, m.rows_of_width_zero h0]
  · simp [kept, h0]

theorem flipColumns?_of_length_ne {m : BitMatrix} {mask : List Bool}
    (h : mask.length ≠ m.width) :
    m.flipColumns? mask = .error (.raggedRow m.width mask.length) :=
  dif_neg h

end BitMatrix

end PauliEstimation
