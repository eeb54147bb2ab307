import Mathlib.Analysis.Normed.Group.InfiniteSum
import Mathlib.Probability.ProbabilityMassFunction.Constructions

namespace PauliEstimation.Law

variable {α β : Type}

/-- The mean of a quantity under a law. -/
noncomputable def mean (d : PMF α) (f : α → ℝ) : ℝ := tsum fun a => (d a).toReal * f a

theorem tsum_toReal (d : PMF α) : tsum (fun a => (d a).toReal) = 1 := by
  rw [← ENNReal.tsum_toReal_eq d.apply_ne_top, d.tsum_coe, ENNReal.toReal_one]

theorem mean_pure (a : α) (f : α → ℝ) : mean (pure a) f = f a := by
  unfold mean
  rw [tsum_eq_single a]
  · simp [pure]
  · intro b hb
    simp [pure, hb]

theorem mean_const (d : PMF α) (c : ℝ) : mean d (fun _ => c) = c := by
  rw [mean, tsum_mul_right, tsum_toReal, one_mul]

/-- Only the values that can occur count. -/
theorem mean_congr {d : PMF α} {f g : α → ℝ} (h : ∀ a ∈ d.support, f a = g a) :
    mean d f = mean d g := by
  refine tsum_congr fun a => ?_
  by_cases ha : a ∈ d.support
  · rw [h a ha]
  · rw [(d.apply_eq_zero_iff a).mpr ha, ENNReal.toReal_zero, zero_mul, zero_mul]

theorem mean_of_fintype [Fintype α] (d : PMF α) (f : α → ℝ) :
    mean d f = ∑ a, (d a).toReal * f a :=
  tsum_fintype _

theorem summable_bind (d : PMF α) (k : α → PMF β) {f : β → ℝ} {c : ℝ} (hf : ∀ b, |f b| ≤ c) :
    Summable (Function.uncurry fun a b => (d a).toReal * (k a b).toReal * f b) := by
  have htotal : tsum (fun p : α × β => d p.1 * k p.1 p.2) ≠ ⊤ := by
    rw [ENNReal.tsum_prod (f := fun a b => d a * k a b)]
    simp [ENNReal.tsum_mul_left, PMF.tsum_coe]
  refine ((ENNReal.summable_toReal htotal).mul_right c).of_norm_bounded fun p => ?_
  rw [ENNReal.toReal_mul, Real.norm_eq_abs, Function.uncurry, abs_mul,
    abs_of_nonneg (by positivity)]
  exact mul_le_mul_of_nonneg_left (hf p.2) (by positivity)

/-- The mean over two draws is the mean of the means over the second. -/
theorem mean_bind (d : PMF α) (k : α → PMF β) {f : β → ℝ} {c : ℝ} (hf : ∀ b, |f b| ≤ c) :
    mean (d >>= k) f = mean d fun a => mean (k a) f := by
  have hfinite : ∀ b a, d a * k a b ≠ ⊤ :=
    fun b a => ENNReal.mul_ne_top (d.apply_ne_top a) ((k a).apply_ne_top b)
  calc
    _ = tsum fun b => tsum fun a => (d a).toReal * (k a b).toReal * f b := by
      refine tsum_congr fun b => ?_
      rw [show (d >>= k) b = tsum fun a => d a * k a b from PMF.bind_apply d k b,
        ENNReal.tsum_toReal_eq (hfinite b), ← tsum_mul_right]
      simp only [ENNReal.toReal_mul]
    _ = tsum fun a => tsum fun b => (d a).toReal * (k a b).toReal * f b :=
      (summable_bind d k hf).tsum_comm
    _ = _ := by
      simp only [mean, mul_assoc, tsum_mul_left]

theorem mean_map (d : PMF α) (g : α → β) {f : β → ℝ} {c : ℝ} (hf : ∀ b, |f b| ≤ c) :
    mean (g <$> d) f = mean d fun a => f (g a) := by
  rw [map_eq_pure_bind, mean_bind _ _ hf]
  simp only [mean_pure]

theorem length_of_mem_support_mapM {f : α → PMF β} {xs : List α} {ys : List β}
    (h : ys ∈ (xs.mapM f).support) : ys.length = xs.length := by
  induction xs generalizing ys with
  | nil =>
    rw [List.mapM_nil] at h
    rw [(PMF.mem_support_pure_iff _ _).mp h, List.length_nil, List.length_nil]
  | cons x xs ih =>
    rw [List.mapM_cons] at h
    obtain ⟨y, _, h⟩ := (PMF.mem_support_bind_iff _ _ _).mp h
    obtain ⟨rest, hrest, h⟩ := (PMF.mem_support_bind_iff _ _ _).mp h
    rw [(PMF.mem_support_pure_iff _ _).mp h, List.length_cons, List.length_cons, ih hrest]

/-- Each place of a list of independent draws follows its own law. -/
theorem mean_mapM_getD {f : α → PMF β} {g : β → ℝ} {c : ℝ} (hg : ∀ b, |g b| ≤ c) (d : β)
    {xs : List α} {k : Nat} {x : α} (hx : xs[k]? = some x) :
    mean (xs.mapM f) (fun ys => g (ys.getD k d)) = mean (f x) g := by
  induction xs generalizing k with
  | nil => simp at hx
  | cons x₀ xs ih =>
    have hbound : ∀ ys : List β, |g (ys.getD k d)| ≤ c := fun ys => hg _
    rw [List.mapM_cons, mean_bind _ _ hbound]
    simp only [mean_bind _ _ hbound, mean_pure]
    cases k with
    | zero =>
      obtain rfl : x₀ = x := by simpa using hx
      simp only [List.getD_cons_zero, mean_const]
    | succ k =>
      simp only [List.getD_cons_succ, ih (by simpa using hx), mean_const]

/-- A coin that shows true with probability `p`, which is brought between zero and one. -/
noncomputable def coin (p : ℝ) : PMF Bool :=
  PMF.ofFintype (fun b => ENNReal.ofReal (if b then max 0 (min p 1) else 1 - max 0 (min p 1))) (by
    rw [Fintype.sum_bool, ← ENNReal.ofReal_add] <;> simp)

theorem mean_coin {p : ℝ} (h₀ : 0 ≤ p) (h₁ : p ≤ 1) (f : Bool → ℝ) :
    mean (coin p) f = p * f true + (1 - p) * f false := by
  rw [mean_of_fintype, Fintype.sum_bool]
  simp [coin, h₀, h₁]

end PauliEstimation.Law
