import Mathlib.Data.Nat.Init
import PauliEstimation.Proofs.BitMatrix
import PauliEstimation.Proofs.Traversal

namespace PauliEstimation

/-- The bits of all rows, from left to right and from top to bottom. -/
@[ext] structure FlatBits where
  width : Nat
  cells : List Bool

namespace FlatBits

/-- The first `n` pieces of the given size. -/
def pieces (size : Nat) : Nat → List Bool → List (List Bool)
  | 0, _ => []
  | n + 1, cells => cells.take size :: pieces size n (cells.drop size)

def empty (width : Nat) : FlatBits := ⟨width, []⟩

def rowCount (f : FlatBits) : Nat := if f.width = 0 then 0 else f.cells.length / f.width

/-- All cells in pieces of the width, of which the last may be shorter. -/
def rows (f : FlatBits) : List (List Bool) :=
  let size := max 1 f.width
  pieces size ((f.cells.length + (size - 1)) / size) f.cells

def push? (f : FlatBits) (row : List Bool) : Except Fault FlatBits :=
  if row.length = f.width then .ok ⟨f.width, f.cells ++ row⟩
  else .error (.raggedRow f.width row.length)

def append? (f g : FlatBits) : Except Fault FlatBits :=
  if g.width = f.width then .ok ⟨f.width, f.cells ++ g.cells⟩
  else .error (.raggedRow f.width g.width)

def cell? (row : List Bool) (c : Nat) : Except Fault Bool :=
  match row[c]? with
  | some bit => .ok bit
  | none => .error (.outOfRange c row.length)

def selectColumns? (f : FlatBits) (columns : List Nat) : Except Fault FlatBits := do
  let selected ← f.rows.mapM fun row => columns.mapM (cell? row)
  return ⟨columns.length, selected.flatten⟩

/-- The column of a cell is its position modulo the width. -/
def flipColumns? (f : FlatBits) (mask : List Bool) : Except Fault FlatBits :=
  if mask.length = f.width then
    .ok ⟨f.width, f.cells.mapIdx fun i bit => bit ^^ mask.getD (i % f.width) false⟩
  else .error (.raggedRow f.width mask.length)

theorem pieces_flatten {size : Nat} {rows : List (List Bool)}
    (h : ∀ row ∈ rows, row.length = size) : pieces size rows.length rows.flatten = rows := by
  induction rows with
  | nil => rfl
  | cons row rest ih =>
    obtain ⟨hrow, hrest⟩ := List.forall_mem_cons.mp h
    rw [List.flatten_cons, List.length_cons, pieces, List.take_left' hrow, List.drop_left' hrow,
      ih hrest]

theorem cell?_of_lt {row : List Bool} {c : Nat} (h : c < row.length) :
    cell? row c = .ok (row.getD c false) := by
  simp [cell?, h]

theorem cell?_of_le {row : List Bool} {c : Nat} (h : row.length ≤ c) :
    cell? row c = .error (.outOfRange c row.length) := by
  simp [cell?, h]

end FlatBits

namespace BitMatrix

/-- The bits of a matrix without its rows. -/
def flat (m : BitMatrix) : FlatBits := ⟨m.width, m.rows.flatten⟩

@[simp] theorem width_flat (m : BitMatrix) : m.flat.width = m.width := rfl

@[simp] theorem cells_flat (m : BitMatrix) : m.flat.cells = m.rows.flatten := rfl

/-- Rows without columns have no cells. -/
theorem flatten_kept {width : Nat} {rows : List (List Bool)}
    (h : ∀ row ∈ rows, row.length = width) : (kept width rows).flatten = rows.flatten := by
  unfold kept
  split
  next hw =>
    have hlen := length_flatten_blocks h
    rw [hw, Nat.mul_zero] at hlen
    exact (List.eq_nil_of_length_eq_zero hlen).symm
  next => rfl

theorem length_cells_flat (m : BitMatrix) : m.flat.cells.length = m.rowCount * m.width :=
  length_flatten_blocks m.length_of_mem

/-- Dividing the number of cells by the width gives the number of rows back. -/
theorem rowCount_flat (m : BitMatrix) : m.flat.rowCount = m.rowCount := by
  unfold FlatBits.rowCount
  rw [length_cells_flat]
  split
  next hw => rw [rowCount, m.rows_of_width_zero hw, List.length_nil]
  next hw => exact Nat.mul_div_cancel _ (Nat.pos_of_ne_zero hw)

theorem rows_flat (m : BitMatrix) : m.flat.rows = m.rows := by
  unfold FlatBits.rows
  dsimp only
  rw [length_cells_flat]
  by_cases hw : m.width = 0
  · have hrows : m.rows = [] := m.rows_of_width_zero hw
    simp [flat, hw, hrows, FlatBits.pieces]
  · have hsize : max 1 m.flat.width = m.width := Nat.max_eq_right (Nat.pos_of_ne_zero hw)
    have hcount : (m.rowCount * m.width + (m.width - 1)) / m.width = m.rowCount := by
      rw [Nat.add_comm, Nat.add_mul_div_right _ _ (Nat.pos_of_ne_zero hw),
        Nat.div_eq_of_lt (by omega), Nat.zero_add]
    rw [hsize, hcount]
    exact FlatBits.pieces_flatten m.length_of_mem

theorem flat_injective : Function.Injective flat := fun m n h =>
  BitMatrix.ext (congrArg FlatBits.width h) (by rw [← rows_flat, h, rows_flat])

theorem flat_ofFitting {width : Nat} {rows : List (List Bool)}
    (h : ∀ row ∈ rows, row.length = width) :
    (ofFitting width rows h).flat = ⟨width, rows.flatten⟩ :=
  FlatBits.ext rfl (flatten_kept h)

theorem flat_append? (m n : BitMatrix) : (m.append? n).map flat = m.flat.append? n.flat := by
  unfold append? FlatBits.append?
  rw [width_flat, width_flat]
  by_cases hw : n.width = m.width
  · rw [dif_pos hw, if_pos hw]
    simp only [Except.map, flat_ofFitting, List.flatten_append, cells_flat]
  · rw [dif_neg hw, if_neg hw]
    rfl

theorem flat_push? (m : BitMatrix) (row : List Bool) :
    (m.push? row).map flat = m.flat.push? row := by
  unfold push? FlatBits.push?
  rw [width_flat]
  by_cases hw : row.length = m.width
  · have hfit : ∀ r ∈ [row], r.length = m.width := List.forall_mem_singleton.mpr hw
    have hrow : ofRows? m.width [row] = .ok (ofFitting m.width [row] hfit) := dif_pos hfit
    rw [hrow, if_pos hw]
    refine (flat_append? m _).trans ?_
    rw [flat_ofFitting, List.flatten_singleton]
    exact if_pos rfl
  · rw [ofRows?_cons_of_length_ne hw, if_neg hw]
    rfl

theorem mapIdx_flatten {width : Nat} {rows : List (List Bool)} {mask : List Bool}
    (hm : mask.length = width) (h : ∀ row ∈ rows, row.length = width) :
    (rows.flatten.mapIdx fun i bit => bit ^^ mask.getD (i % width) false) =
      (rows.map (List.zipWith xor · mask)).flatten := by
  induction rows with
  | nil => rfl
  | cons row rest ih =>
    obtain ⟨hrow, hrest⟩ := List.forall_mem_cons.mp h
    have hfirst : (row.mapIdx fun i bit => bit ^^ mask.getD (i % width) false) =
        List.zipWith xor row mask := by
      apply List.ext_getElem (by simp [hrow, hm])
      intro i hi hi'
      have hlt : i < width := by simpa [hrow] using hi
      simp [Nat.mod_eq_of_lt hlt, hm, hlt]
    -- the columns of the later rows are counted from the end of the first
    have hlater : (rest.flatten.mapIdx fun i bit =>
        bit ^^ mask.getD ((i + row.length) % width) false) =
        rest.flatten.mapIdx fun i bit => bit ^^ mask.getD (i % width) false := by
      simp only [hrow, Nat.add_mod_right]
    rw [List.flatten_cons, List.mapIdx_append, List.map_cons, List.flatten_cons, hfirst, hlater,
      ih hrest]

theorem flat_flipColumns? (m : BitMatrix) (mask : List Bool) :
    (m.flipColumns? mask).map flat = m.flat.flipColumns? mask := by
  unfold flipColumns? FlatBits.flipColumns?
  rw [width_flat, cells_flat]
  by_cases hw : mask.length = m.width
  · rw [dif_pos hw, if_pos hw, mapIdx_flatten hw m.length_of_mem]
    exact congrArg Except.ok (flat_ofFitting _)
  · rw [dif_neg hw, if_neg hw]
    rfl

theorem flat_selectColumns? (m : BitMatrix) (columns : List Nat) :
    (m.selectColumns? columns).map flat = m.flat.selectColumns? columns := by
  unfold selectColumns? FlatBits.selectColumns?
  rw [rows_flat]
  cases hfind : columns.find? (m.width ≤ ·) with
  | none =>
    have hin : ∀ c ∈ columns, c < m.width := by
      simpa [List.find?_eq_none] using hfind
    have hselected : m.rows.mapM (fun row => columns.mapM (FlatBits.cell? row)) =
        .ok (m.rows.map fun row => columns.map fun c => row.getD c false) := by
      rw [mapM_eq_ok_iff, List.forall₂_map_right_iff, List.forall₂_same]
      intro row hrow
      rw [mapM_eq_ok_iff, List.forall₂_map_right_iff, List.forall₂_same]
      intro c hc
      exact FlatBits.cell?_of_lt (m.length_of_mem row hrow ▸ hin c hc)
    rw [hselected]
    exact congrArg Except.ok (flat_ofFitting _)
  | some c =>
    obtain ⟨hc, before, after, hcolumns, hbefore⟩ := List.find?_eq_some_iff_append.mp hfind
    have hc : m.width ≤ c := by simpa using hc
    dsimp only
    by_cases hempty : m.isEmpty
    · rw [if_pos hempty, List.isEmpty_iff.mp hempty]
      exact congrArg Except.ok (flat_ofFitting _)
    · obtain ⟨row, rest, hrows⟩ := List.exists_cons_of_ne_nil (mt List.isEmpty_iff.mpr hempty)
      -- the first row is read up to the first column past its end
      have hlen : row.length = m.width := m.length_of_mem row (by simp [hrows])
      have hstop : columns.mapM (FlatBits.cell? row) = .error (.outOfRange c m.width) := by
        rw [hcolumns]
        refine mapM_eq_error (fun k hk => ?_) ?_
        · have hlt : k < m.width := by simpa using hbefore k hk
          exact ⟨_, FlatBits.cell?_of_lt (hlen ▸ hlt)⟩
        · rw [FlatBits.cell?_of_le (hlen ▸ hc), hlen]
      rw [if_neg hempty, hrows, List.mapM_cons, hstop]
      rfl

end BitMatrix

end PauliEstimation
