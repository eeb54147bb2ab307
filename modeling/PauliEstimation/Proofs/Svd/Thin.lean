import PauliEstimation.Svd.Reduction

namespace PauliEstimation

/-- A block of the given shape with all of its cells. -/
structure Block.HasShape {R : Type} (b : Block R) (rows cols : Nat) : Prop where
  rows_eq : b.rows = rows
  cols_eq : b.cols = cols
  size_cells : b.cells.size = rows * cols

structure Svd.IsThin {R : Type} (f : Svd R) (rows cols : Nat) : Prop where
  length_values : f.values.length = min rows cols
  left : f.left.HasShape rows (min rows cols)
  right : f.right.HasShape cols (min rows cols)

/-- That every full block has factors with as many columns as its shorter side is long. -/
def ThinSvd.IsThin (R : Type) [ThinSvd R] : Prop :=
  ∀ (rows cols : Nat) (block : Block R), block.HasShape rows cols →
    (ThinSvd.factor block).IsThin rows cols

theorem Reflector.length_tail_clearing (a : Column) :
    List.length (clearing a).1.tail = List.length a - 1 := by
  cases a with
  | nil => rfl
  | cons head tail =>
    simp only [clearing]
    split
    · rfl
    · exact List.length_map _

theorem Reflector.length_triangular (columns : List Column) :
    (triangular columns).2.length = columns.length := by
  match columns with
  | [] => simp [triangular]
  | first :: rest =>
    have hrest := length_triangular ((rest.map (clearing first).1.reflect).map List.tail)
    rw [triangular]
    simp only [List.length_cons, List.length_map, List.length_zip] at hrest ⊢
    rw [hrest, Nat.min_self]
termination_by columns.length
decreasing_by simp

namespace BidiagonalRow

theorem length_split (first : Column) (rest : List Column) :
    (split first rest).2.length = rest.length := by
  simp only [split, List.length_map, List.length_zip, List.length_cons,
    Reflector.length_tail_clearing]
  omega

theorem length_ofColumns (columns : List Column) :
    (ofColumns columns).length = columns.length := by
  induction columns using ofColumns.induct with
  | case1 => simp [ofColumns]
  | case2 first rest ih => rw [ofColumns, List.length_cons, ih, length_split, List.length_cons]

end BidiagonalRow

namespace RotatedBlock

theorem size_clear (b : RotatedBlock) (q p : Nat) : (b.clear q p).rows.size = b.rows.size := by
  simp only [clear]
  split <;> simp [Rotation.turn, Rotation.turnPlaces]

theorem size_pass (b : RotatedBlock) : b.pass.rows.size = b.rows.size := by
  unfold pass
  have hrow : ∀ (c : RotatedBlock) (p : Nat),
      ((List.range p).foldl (fun c q => c.clear q p) c).rows.size = c.rows.size := fun c p =>
    List.foldlRecOn (motive := fun d => d.rows.size = c.rows.size) _ _ rfl fun d hd q _ =>
      (size_clear d q p).trans hd
  exact List.foldlRecOn (motive := fun c : RotatedBlock => c.rows.size = b.rows.size)
    (List.range _) (fun c p => (List.range p).foldl (fun c q => c.clear q p) c) rfl
    fun c hc p _ => (hrow c p).trans hc

theorem size_reduce (fuel : Nat) (b : RotatedBlock) :
    (reduce fuel b).rows.size = b.rows.size := by
  induction fuel generalizing b with
  | zero => rfl
  | succ fuel ih =>
    simp only [reduce]
    split
    · exact size_pass b
    · exact (ih _).trans (size_pass b)

end RotatedBlock

namespace LowerBidiagonal

variable (b : LowerBidiagonal)

@[simp]
theorem size_setD (k : Nat) (x : Float) : (b.setD k x).diagonal.size = b.diagonal.size :=
  Array.size_setIfInBounds

@[simp]
theorem size_setE (k : Nat) (x : Float) : (b.setE k x).diagonal.size = b.diagonal.size := rfl

@[simp]
theorem size_turnLeft (r : Rotation) (i j : Nat) :
    (b.turnLeft r i j).diagonal.size = b.diagonal.size := rfl

@[simp]
theorem size_turnRight (r : Rotation) (i j : Nat) :
    (b.turnRight r i j).diagonal.size = b.diagonal.size := rfl

@[simp]
theorem size_clean : b.clean.diagonal.size = b.diagonal.size := Array.size_map

theorem size_detachFrom (vanished : Nat) (x : Float) (j rest : Nat) :
    (b.detachFrom vanished x j rest).diagonal.size = b.diagonal.size := by
  induction rest generalizing b x j with
  | zero => rfl
  | succ rest ih =>
    rw [detachFrom, ih]
    split <;> simp

theorem size_detach (first last : Nat) :
    (b.detach first last).diagonal.size = b.diagonal.size := by
  unfold detach
  refine List.foldlRecOn (motive := fun c => c.diagonal.size = b.diagonal.size) _ _ rfl
    fun (c : LowerBidiagonal) hc i _ => ?_
  dsimp only
  split
  · exact (size_detachFrom ..).trans hc
  · exact hc

theorem size_step (first last k : Nat) (x y : Float) :
    (b.step first last k x y).1.diagonal.size = b.diagonal.size := by
  simp only [step]
  split <;> split <;> simp

theorem size_sweep (first last : Nat) (mu : Float) :
    (b.sweep first last mu).diagonal.size = b.diagonal.size := by
  unfold sweep
  exact List.foldlRecOn
    (motive := fun s : LowerBidiagonal × Float × Float => s.1.diagonal.size = b.diagonal.size) _ _
    rfl fun s hs i _ => (size_step ..).trans hs

theorem size_reduce (fuel : Nat) : (reduce fuel b).diagonal.size = b.diagonal.size := by
  induction fuel generalizing b with
  | zero => rfl
  | succ fuel ih =>
    simp only [reduce]
    split
    · exact size_clean b
    split
    · rw [ih, size_detach, size_clean]
    split
    · rw [size_sweep, size_clean]
    · rw [ih, size_sweep, size_clean]

end LowerBidiagonal

namespace SingularTriple

theorem size_descending (ts : Array SingularTriple) : (descending ts).size = ts.size :=
  List.foldlRecOn (motive := fun us : Array SingularTriple => us.size = ts.size) _ _ rfl
    fun _ hus _ _ => Array.size_swapIfInBounds.trans hus

theorem size_ofDiagonals (diagonal below : Array Float) :
    (ofDiagonals diagonal below).size = diagonal.size := by
  unfold ofDiagonals
  split
  · rw [ofRotatedBlock, size_descending, Array.size_ofFn, RotatedBlock.size_reduce]
    exact Array.size_ofFn
  · simp only [ofLowerBidiagonal]
    rw [Array.size_map, size_descending, Array.size_ofFn]
    split
    · rfl
    · rw [LowerBidiagonal.size_reduce]
      exact Array.size_map

end SingularTriple

namespace Reduction

/-- Triples with a number of values and as many columns on either side. -/
def Triples.HasLength (t : Triples) (n : Nat) : Prop :=
  t.values.length = n ∧ t.left.length = n ∧ t.right.length = n

theorem hasLength_factorReduced (rows : Nat) (columns : List Column) :
    (factorReduced rows columns).HasLength columns.length := by
  simp [Triples.HasLength, factorReduced, SingularTriple.size_ofDiagonals,
    BidiagonalRow.length_ofColumns]

theorem hasLength_factorTall (rows : Nat) (columns : List Column) :
    (factorTall rows columns).HasLength columns.length := by
  unfold factorTall
  split
  · obtain ⟨hvalues, hleft, hright⟩ :=
      hasLength_factorReduced columns.length (Reflector.triangular columns).2
    rw [Reflector.length_triangular] at hvalues hleft hright
    exact ⟨hvalues, (List.length_map _).trans hleft, hright⟩
  · exact hasLength_factorReduced rows columns

theorem hasShape_blockOfColumns (rows : Nat) (columns : List Column) :
    (blockOfColumns rows columns).HasShape rows columns.length := by
  have hsize : (columns.map List.toArray).toArray.size = columns.length := by simp
  exact ⟨rfl, hsize, hsize ▸ Array.size_ofFn⟩

theorem factor_isThin (b : Block Float) : (factor b).IsThin b.rows b.cols := by
  unfold factor
  split
  · exact ⟨List.length_replicate, ⟨rfl, rfl, Array.size_ofFn⟩, ⟨rfl, rfl, Array.size_ofFn⟩⟩
  split
  next hle =>
    obtain ⟨hvalues, hleft, hright⟩ := hasLength_factorTall b.rows (columns b)
    have hcolumns : (columns b).length = min b.rows b.cols := by simp [columns, hle]
    rw [hcolumns] at hvalues hleft hright
    exact ⟨hvalues, hleft ▸ hasShape_blockOfColumns _ _, hright ▸ hasShape_blockOfColumns _ _⟩
  next hgt =>
    obtain ⟨hvalues, hleft, hright⟩ := hasLength_factorTall b.cols (conjugateRows b)
    have hrows : (conjugateRows b).length = min b.rows b.cols := by
      simp [conjugateRows, Nat.le_of_not_le hgt]
    rw [hrows] at hvalues hleft hright
    exact ⟨hvalues, hright ▸ hasShape_blockOfColumns _ _, hleft ▸ hasShape_blockOfColumns _ _⟩

theorem isThin : ThinSvd.IsThin Float := by
  rintro _ _ block ⟨rfl, rfl, _⟩
  exact factor_isThin block

end Reduction

end PauliEstimation
