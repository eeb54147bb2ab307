import Mathlib.Analysis.SpecialFunctions.Complex.Circle
import PauliEstimation.Amplitude

namespace PauliEstimation

noncomputable instance : Scalar ℝ where
  ofNat n := n
  sqrt := Real.sqrt
  cosPi t := Real.cos (Real.pi * t)
  sinPi t := Real.sin (Real.pi * t)
  ofWord w := w.toNat / 18446744073709551615
  decidableLT := inferInstance
  decidableLE := inferInstance

theorem Scalar.half_real : (Scalar.half : ℝ) = 1 / 2 := by
  show (1 : ℝ) / ((2 : Nat) : ℝ) = 1 / 2
  norm_num

namespace Amplitude

def toComplex (a : Amplitude ℝ) : ℂ := ⟨a.re, a.im⟩

theorem toComplex_injective : Function.Injective toComplex := by
  intro a b h
  exact Amplitude.ext (congrArg Complex.re h) (congrArg Complex.im h)

@[simp]
theorem toComplex_re (a : Amplitude ℝ) : a.toComplex.re = a.re := rfl

@[simp]
theorem toComplex_im (a : Amplitude ℝ) : a.toComplex.im = a.im := rfl

@[simp]
theorem toComplex_zero : toComplex 0 = 0 := rfl

@[simp]
theorem toComplex_one : toComplex 1 = 1 := rfl

@[simp]
theorem toComplex_i : toComplex i = Complex.I := rfl

@[simp]
theorem toComplex_ofReal (x : ℝ) : (ofReal x).toComplex = x := rfl

@[simp]
theorem toComplex_add (a b : Amplitude ℝ) : (a + b).toComplex = a.toComplex + b.toComplex := rfl

@[simp]
theorem toComplex_sub (a b : Amplitude ℝ) : (a - b).toComplex = a.toComplex - b.toComplex := rfl

@[simp]
theorem toComplex_neg (a : Amplitude ℝ) : (-a).toComplex = -a.toComplex := rfl

@[simp]
theorem toComplex_mul (a b : Amplitude ℝ) : (a * b).toComplex = a.toComplex * b.toComplex := by
  apply Complex.ext
  · rw [Complex.mul_re]
    rfl
  · rw [Complex.mul_im]
    rfl

@[simp]
theorem toComplex_conj (a : Amplitude ℝ) : a.conj.toComplex = star a.toComplex := rfl

@[simp]
theorem toComplex_scale (x : ℝ) (a : Amplitude ℝ) : (a.scale x).toComplex = a.toComplex * x := by
  apply Complex.ext
  · simp [scale]
  · simp [scale]

theorem normSq_eq (a : Amplitude ℝ) : a.normSq = Complex.normSq a.toComplex := rfl

/-- The phase of exponent `t` is `e^{iπt}`. -/
theorem toComplex_phase (t : ℝ) :
    (phase t).toComplex = Complex.exp ((Real.pi * t : ℝ) * Complex.I) := by
  rw [Complex.exp_mul_I, ← Complex.ofReal_cos, ← Complex.ofReal_sin]
  apply Complex.ext
  · rw [Complex.add_re, Complex.ofReal_re, Complex.re_ofReal_mul, Complex.I_re, mul_zero, add_zero]
    rfl
  · rw [Complex.add_im, Complex.ofReal_im, Complex.im_ofReal_mul, Complex.I_im, mul_one, zero_add]
    rfl

theorem beq_zero_iff {a : Amplitude ℝ} : (a == 0) = true ↔ a.toComplex = 0 := by
  constructor
  · intro h
    obtain ⟨hr, hi⟩ := (Bool.and_eq_true _ _).mp h
    exact Complex.ext (eq_of_beq hr) (eq_of_beq hi)
  · intro h
    obtain rfl : a = 0 := toComplex_injective h
    exact (Bool.and_eq_true _ _).mpr ⟨beq_self_eq_true (0 : ℝ), beq_self_eq_true (0 : ℝ)⟩

/-- A fold whose every step adds an amplitude comes to their sum. -/
theorem toComplex_fold {n : Nat} {step : Nat → Amplitude ℝ → Amplitude ℝ} {g : Nat → ℂ}
    (h : ∀ k acc, (step k acc).toComplex = acc.toComplex + g k) (a : Amplitude ℝ) :
    (n.fold (fun k _ acc => step k acc) a).toComplex =
      a.toComplex + ∑ k ∈ Finset.range n, g k := by
  induction n with
  | zero => simp
  | succ n ih => rw [Nat.fold_succ, h, ih, Finset.sum_range_succ, add_assoc]

theorem toComplex_addRange (n : Nat) (f : Nat → Amplitude ℝ) (a : Amplitude ℝ) :
    (addRange n f a).toComplex = a.toComplex + ∑ k ∈ Finset.range n, (f k).toComplex :=
  toComplex_fold (fun k acc => toComplex_add acc (f k)) a

theorem toComplex_sumRange (n : Nat) (f : Nat → Amplitude ℝ) :
    (sumRange n f).toComplex = ∑ k ∈ Finset.range n, (f k).toComplex := by
  rw [sumRange, toComplex_addRange, toComplex_zero, zero_add]

end Amplitude

end PauliEstimation
