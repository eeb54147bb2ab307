namespace PauliEstimation

theorem rowMajor_lt {rows cols i j : Nat} (hi : i < rows) (hj : j < cols) :
    i * cols + j < rows * cols :=
  Nat.lt_of_lt_of_le (by rw [Nat.succ_mul]; omega) (Nat.mul_le_mul_right cols hi)

theorem rowMajor_div {cols i j : Nat} (hj : j < cols) : (i * cols + j) / cols = i := by
  rw [Nat.mul_comm, Nat.mul_add_div (by omega), Nat.div_eq_of_lt hj, Nat.add_zero]

theorem rowMajor_mod {cols i j : Nat} (hj : j < cols) : (i * cols + j) % cols = j := by
  rw [Nat.mul_comm, Nat.mul_add_mod, Nat.mod_eq_of_lt hj]

/-- The row and the column of a position are in the table. -/
theorem lt_of_lt_rowMajor {rows cols k : Nat} (h : k < rows * cols) :
    k / cols < rows ∧ k % cols < cols :=
  ⟨Nat.div_lt_of_lt_mul (Nat.mul_comm rows cols ▸ h),
    Nat.mod_lt k (Nat.pos_of_ne_zero fun hc => by simp [hc] at h)⟩

end PauliEstimation
