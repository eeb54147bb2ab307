import Mathlib.Algebra.BigOperators.Fin
import Mathlib.Data.Fintype.BigOperators
import Mathlib.Data.Fintype.Pi
import PauliEstimation.Mps.Shots

namespace PauliEstimation.Mps

def bitsOf (n index : Nat) : Fin n → Bool := fun k => siteBit n index k

theorem bitsOf_injective {n i j : Nat} (hi : i < 2 ^ n) (hj : j < 2 ^ n)
    (h : bitsOf n i = bitsOf n j) : i = j := by
  apply Nat.eq_of_testBit_eq
  intro m
  by_cases hm : m < n
  · have hbit := congrFun h ⟨n - 1 - m, by omega⟩
    have hpos : n - 1 - (n - 1 - m) = m := by omega
    simpa [bitsOf, siteBit, hpos] using hbit
  · have hpow : 2 ^ n ≤ 2 ^ m := Nat.pow_le_pow_right (by omega) (by omega)
    rw [Nat.testBit_lt_two_pow (by omega), Nat.testBit_lt_two_pow (by omega)]

theorem bitsOf_bijective (n : Nat) :
    Function.Bijective fun k : Fin (2 ^ n) => bitsOf n k := by
  apply (Fintype.bijective_iff_injective_and_card _).mpr
  constructor
  · intro i j h
    exact Fin.ext (bitsOf_injective i.isLt j.isLt h)
  · simp

/-- A sum over all basis indices is one over all strings of bits. -/
theorem sum_bitsOf {M : Type} [AddCommMonoid M] (n : Nat) (f : (Fin n → Bool) → M) :
    ∑ k ∈ Finset.range (2 ^ n), f (bitsOf n k) = ∑ b, f b := by
  rw [Finset.sum_range]
  exact (bitsOf_bijective n).sum_comp f

theorem sum_twoBits {M : Type} [AddCommMonoid M] (f : (Fin 2 → Bool) → M) :
    ∑ b, f b = ∑ p, ∑ q, f ![p, q] := by
  rw [← (finTwoArrowEquiv Bool).symm.sum_comp, Fintype.sum_prod_type]
  rfl

theorem bitsOf_xor (n i j : Nat) :
    bitsOf n (i ^^^ j) = fun k => xor (bitsOf n i k) (bitsOf n j k) := by
  funext k
  exact Nat.testBit_xor _ _ _

theorem ofFn_bitsOf (n index : Nat) :
    List.ofFn (bitsOf n index) = shotRow n (List.range n) index := by
  apply List.ext_getElem
  · simp [shotRow]
  · intro k _ _
    simp [shotRow, bitsOf]

theorem ofFn_bitsOf_succ (n index : Nat) :
    List.ofFn (bitsOf (n + 1) index) = index.testBit n :: List.ofFn (bitsOf n index) := by
  rw [List.ofFn_succ]
  congr 2
  funext k
  have hpos : n - (k + 1) = n - 1 - k := by omega
  simp [bitsOf, siteBit, hpos]

end PauliEstimation.Mps
