import PauliEstimation.Mps.Marginal
import PauliEstimation.Proofs.Exact.Dense

namespace PauliEstimation.Mps

/-- The pairs of indices of a bond of the state and the same bond of its conjugate. -/
def bondPairs (bond : Nat) : Finset (Nat × Nat) := Finset.range bond ×ˢ Finset.range bond

theorem mem_bondPairs {bond : Nat} {x : Nat × Nat} :
    x ∈ bondPairs bond ↔ x.1 < bond ∧ x.2 < bond := by
  simp [bondPairs]

/-- The entry of an environment at a pair of bond indices. -/
noncomputable def envEntry (env : Array (Amplitude ℝ)) (bond : Nat) (x : Nat × Nat) : ℂ :=
  (env.getD (x.1 * bond + x.2) 0).toComplex

/-- The entries of a site and of its conjugate for one outcome. -/
noncomputable def outcomeEntry (a : Tensor ℝ) (p : Bool) (x y : Nat × Nat) : ℂ :=
  (a.entry x.1 p.toNat y.1).toComplex * star (a.entry x.2 p.toNat y.2).toComplex

/-- The sum of the products of the amplitudes that two values of the first bond give to a string of
bits, each string weighted. -/
noncomputable def gram (sites : List (Tensor ℝ)) (w : List Bool → ℂ) (x : Nat × Nat) : ℂ :=
  ∑ b : Fin sites.length → Bool, w (List.ofFn b) *
    (chainAmplitude sites (List.ofFn b) x.1 * star (chainAmplitude sites (List.ofFn b) x.2))

/-- Singles out the strings that have a given bit at a position. -/
def hasBit (k : Nat) (p : Bool) (bits : List Bool) : ℂ := if bits[k]? = some p then 1 else 0

/-- The weight of a chain behind an environment. -/
noncomputable def enclosed (env : Array (Amplitude ℝ)) (bond : Nat) (sites : List (Tensor ℝ))
    (w : List Bool → ℂ) : ℂ :=
  ∑ x ∈ bondPairs bond, envEntry env bond x * gram sites w x

theorem toComplex_sumEnv {env : Array (Amplitude ℝ)} {bond : Nat}
    {add : Nat → Nat → Amplitude ℝ → Amplitude ℝ → Amplitude ℝ} {g : Nat × Nat → ℂ}
    (h : ∀ l l' e acc, (add l l' e acc).toComplex = acc.toComplex + e.toComplex * g (l, l')) :
    (sumEnv env bond add).toComplex = ∑ x ∈ bondPairs bond, envEntry env bond x * g x := by
  unfold sumEnv
  rw [Amplitude.toComplex_fold (g := fun l => ∑ l' ∈ Finset.range bond,
    envEntry env bond (l, l') * g (l, l')), Amplitude.toComplex_zero, zero_add, bondPairs,
    Finset.sum_product]
  intro l acc
  apply Amplitude.toComplex_fold
  intro l' acc
  dsimp only
  split
  next he => rw [envEntry, Amplitude.beq_zero_iff.mp he, zero_mul, add_zero]
  next => exact h l l' _ acc

theorem sum_range_two (g : Nat → ℂ) : ∑ p ∈ Finset.range 2, g p = ∑ p : Bool, g p.toNat := by
  rw [Finset.sum_range_succ, Finset.sum_range_one, Fintype.sum_bool, add_comm]
  rfl

theorem envEntry_absorbLeft {env : Array (Amplitude ℝ)} {a : Tensor ℝ} {y : Nat × Nat}
    (hp : a.phys = 2) (hy : y ∈ bondPairs a.right) :
    envEntry (absorbLeft env a) a.right y =
      ∑ x ∈ bondPairs a.left, envEntry env a.left x * ∑ p, outcomeEntry a p x y := by
  obtain ⟨hr, hr'⟩ := mem_bondPairs.mp hy
  have hlt : y.1 * a.right + y.2 < a.right * a.right := rowMajor_lt hr hr'
  rw [envEntry, absorbLeft, Array.getD_eq_getD_getElem?, Array.getElem?_ofFn, dif_pos hlt,
    Option.getD_some]
  simp only [rowMajor_div hr', rowMajor_mod hr']
  apply toComplex_sumEnv
  intro l l' e acc
  rw [Amplitude.toComplex_addRange, hp, sum_range_two, Finset.mul_sum]
  refine congrArg (acc.toComplex + ·) (Finset.sum_congr rfl fun p _ => ?_)
  rw [Amplitude.toComplex_mul, Amplitude.toComplex_mul, Amplitude.toComplex_conj, mul_assoc]
  rfl

theorem envEntry_absorbRight {env : Array (Amplitude ℝ)} {a : Tensor ℝ} {x : Nat × Nat}
    (hp : a.phys = 2) (hx : x ∈ bondPairs a.left) :
    envEntry (absorbRight a env) a.left x =
      ∑ y ∈ bondPairs a.right, envEntry env a.right y * ∑ p, outcomeEntry a p x y := by
  obtain ⟨hl, hl'⟩ := mem_bondPairs.mp hx
  have hlt : x.1 * a.left + x.2 < a.left * a.left := rowMajor_lt hl hl'
  rw [envEntry, absorbRight, Array.getD_eq_getD_getElem?, Array.getElem?_ofFn, dif_pos hlt,
    Option.getD_some]
  simp only [rowMajor_div hl', rowMajor_mod hl']
  apply toComplex_sumEnv (g := fun y => ∑ p, outcomeEntry a p x y)
  intro r r' e acc
  rw [Amplitude.toComplex_addRange, hp, sum_range_two, Finset.mul_sum]
  refine congrArg (acc.toComplex + ·) (Finset.sum_congr rfl fun p _ => ?_)
  rw [Amplitude.toComplex_mul, Amplitude.toComplex_mul, Amplitude.toComplex_conj,
    mul_comm (a.entry x.1 p.toNat r).toComplex, mul_assoc]
  rfl

/-- A sum over the strings of a chain splits off the first bit. -/
theorem sum_ofFn_succ {n : Nat} (f : List Bool → ℂ) :
    ∑ b : Fin (n + 1) → Bool, f (List.ofFn b) =
      ∑ p, ∑ b : Fin n → Bool, f (p :: List.ofFn b) := by
  rw [← (Fin.consEquiv fun _ : Fin (n + 1) => Bool).sum_comp, Fintype.sum_prod_type]
  refine Finset.sum_congr rfl fun p _ => Finset.sum_congr rfl fun b _ => ?_
  exact congrArg f (List.ofFn_cons p b)

theorem gram_nil (w : List Bool → ℂ) (x : Nat × Nat) : gram [] w x = w [] := by
  simp [gram, chainAmplitude]

theorem chainAmplitude_cons_mul_star (a : Tensor ℝ) (rest : List (Tensor ℝ)) (p : Bool)
    (bits : List Bool) (x : Nat × Nat) :
    chainAmplitude (a :: rest) (p :: bits) x.1 * star (chainAmplitude (a :: rest) (p :: bits) x.2) =
      ∑ y ∈ bondPairs a.right, outcomeEntry a p x y *
        (chainAmplitude rest bits y.1 * star (chainAmplitude rest bits y.2)) := by
  rw [chainAmplitude, chainAmplitude, star_sum, Finset.sum_mul_sum, bondPairs, Finset.sum_product]
  refine Finset.sum_congr rfl fun r _ => Finset.sum_congr rfl fun r' _ => ?_
  rw [star_mul', outcomeEntry, mul_mul_mul_comm]

theorem gram_cons (a : Tensor ℝ) (rest : List (Tensor ℝ)) (w : List Bool → ℂ) (x : Nat × Nat) :
    gram (a :: rest) w x = ∑ p, ∑ y ∈ bondPairs a.right,
      outcomeEntry a p x y * gram rest (fun bits => w (p :: bits)) y := by
  rw [gram, List.length_cons, sum_ofFn_succ fun bits => w bits *
    (chainAmplitude (a :: rest) bits x.1 * star (chainAmplitude (a :: rest) bits x.2))]
  apply Finset.sum_congr rfl
  intro p _
  simp only [gram, chainAmplitude_cons_mul_star, Finset.mul_sum]
  rw [Finset.sum_comm]
  exact Finset.sum_congr rfl fun y _ => Finset.sum_congr rfl fun b _ => mul_left_comm _ _ _

/-- A right environment holds the Gram matrix of the chain that it stands for. -/
theorem envEntry_rightEnv {sites : List (Tensor ℝ)} {bond : Nat} {x : Nat × Nat}
    (h : IsChain bond sites) (hx : x ∈ bondPairs bond) :
    envEntry (rightEnv sites) bond x = gram sites (fun _ => 1) x := by
  induction sites generalizing bond x with
  | nil =>
    obtain rfl : bond = 1 := h
    obtain ⟨h₁, h₂⟩ := mem_bondPairs.mp hx
    rw [gram_nil, envEntry, Nat.lt_one_iff.mp h₁, Nat.lt_one_iff.mp h₂]
    rfl
  | cons a rest ih =>
    obtain ⟨rfl, hp, _, _, hrest⟩ := h
    rw [rightEnv, List.foldr_cons, ← rightEnv, envEntry_absorbRight hp hx, gram_cons,
      Finset.sum_comm]
    apply Finset.sum_congr rfl
    intro y hy
    rw [ih hrest hy, mul_comm, Finset.sum_mul]

/-- Moving a left environment across a site keeps the enclosed weight, if the outcome on that site
does not matter. -/
theorem enclosed_absorbLeft {env : Array (Amplitude ℝ)} {bond : Nat} {a : Tensor ℝ}
    {rest : List (Tensor ℝ)} {w w' : List Bool → ℂ} (h : IsChain bond (a :: rest))
    (hw : ∀ p bits, w (p :: bits) = w' bits) :
    enclosed (absorbLeft env a) a.right rest w' = enclosed env bond (a :: rest) w := by
  obtain ⟨rfl, hp, _⟩ := h
  unfold enclosed
  calc
    _ = ∑ y ∈ bondPairs a.right, ∑ x ∈ bondPairs a.left,
        envEntry env a.left x * (∑ p, outcomeEntry a p x y) * gram rest w' y := by
      apply Finset.sum_congr rfl
      intro y hy
      rw [envEntry_absorbLeft hp hy, Finset.sum_mul]
    _ = _ := by
      rw [Finset.sum_comm]
      apply Finset.sum_congr rfl
      intro x _
      simp only [gram_cons, hw]
      rw [Finset.sum_comm, Finset.mul_sum]
      exact Finset.sum_congr rfl fun y _ => by rw [← Finset.sum_mul, mul_assoc]

/-- The weight of an outcome between the environments of a site is that of the strings that have the
outcome there. -/
theorem outcomeWeight_eq {env : Array (Amplitude ℝ)} {bond : Nat} {a : Tensor ℝ}
    {rest : List (Tensor ℝ)} (h : IsChain bond (a :: rest)) (p : Bool) :
    outcomeWeight env (rightEnv rest) a p.toNat =
      (enclosed env bond (a :: rest) (hasBit 0 p)).re := by
  obtain ⟨rfl, _, _, _, hrest⟩ := h
  have hweight : outcomeWeight env (rightEnv rest) a p.toNat =
      (∑ x ∈ bondPairs a.left, ∑ y ∈ bondPairs a.right,
        envEntry env a.left x * outcomeEntry a p x y * envEntry (rightEnv rest) a.right y).re := by
    rw [outcomeWeight, ← Amplitude.toComplex_re, Amplitude.toComplex_fold fun l acc =>
      Amplitude.toComplex_fold (fun l' acc => Amplitude.toComplex_fold (fun r acc =>
        Amplitude.toComplex_addRange _ _ acc) acc) acc]
    simp only [Amplitude.toComplex_zero, zero_add, Amplitude.toComplex_mul,
      Amplitude.toComplex_conj, bondPairs, Finset.sum_product, outcomeEntry, envEntry, mul_assoc]
  rw [hweight, enclosed]
  congr 1
  apply Finset.sum_congr rfl
  intro x _
  rw [gram_cons, Finset.sum_eq_single p, Finset.mul_sum]
  · apply Finset.sum_congr rfl
    intro y hy
    rw [envEntry_rightEnv hrest hy, mul_assoc]
    simp [hasBit]
  · intro q _ hq
    simp [gram, hasBit, hq]
  · simp

/-- Moving a left environment up to a site keeps the weight of the strings that have an outcome on
that site. -/
theorem enclosed_foldl_absorbLeft {sites : List (Tensor ℝ)} (env : Array (Amplitude ℝ))
    {bond k : Nat} {a : Tensor ℝ} (h : IsChain bond sites) (ha : sites[k]? = some a) (p : Bool) :
    IsChain a.left (a :: sites.drop (k + 1)) ∧
      enclosed ((sites.take k).foldl absorbLeft env) a.left (a :: sites.drop (k + 1)) (hasBit 0 p) =
        enclosed env bond sites (hasBit k p) := by
  induction k generalizing sites env bond with
  | zero =>
    cases sites with
    | nil => simp at ha
    | cons b rest =>
      obtain rfl : b = a := by simpa using ha
      obtain rfl : b.left = bond := h.1
      exact ⟨h, rfl⟩
  | succ k ih =>
    cases sites with
    | nil => simp at ha
    | cons b rest =>
      have hrest : IsChain b.right rest := h.2.2.2.2
      obtain ⟨hchain, hmove⟩ := ih (absorbLeft env b) hrest (by simpa using ha)
      refine ⟨hchain, hmove.trans (enclosed_absorbLeft h fun q bits => ?_)⟩
      simp [hasBit]

/-- The weight of a whole state is the sum of its squared amplitudes, each weighted. -/
theorem enclosed_one (psi : Mps ℝ) (w : List Bool → ℂ) :
    enclosed #[1] 1 psi.sites w =
      ∑ b : Fin psi.size → Bool, w (List.ofFn b) * (Complex.normSq (psi.amplitude b) : ℂ) := by
  rw [enclosed, bondPairs, Finset.range_one, Finset.singleton_product_singleton,
    Finset.sum_singleton]
  simp only [gram, Complex.star_def, Complex.mul_conj]
  exact one_mul _

/-- The weight of an outcome between the environments of a site sums the squared amplitudes of the
strings that have the outcome there. -/
theorem outcomeWeight_site {psi : Mps ℝ} {k : Fin psi.size} {a : Tensor ℝ} (h : psi.WellFormed)
    (ha : psi.sites[k.val]? = some a) (p : Bool) :
    outcomeWeight (leftEnv (psi.sites.take k)) (rightEnv (psi.sites.drop (k + 1))) a p.toNat =
      ∑ b : Fin psi.size → Bool, Complex.normSq (psi.amplitude b) * (if b k = p then 1 else 0) := by
  obtain ⟨hchain, hmove⟩ := enclosed_foldl_absorbLeft #[1] h ha p
  rw [outcomeWeight_eq hchain, leftEnv, hmove, enclosed_one, Complex.re_sum]
  apply Finset.sum_congr rfl
  intro b _
  have hbit : (List.ofFn b)[k.val]? = some (b k) := by simp
  rw [hasBit, hbit, mul_comm]
  by_cases hp : b k = p
  · simp [hp]
  · simp [hp]

end PauliEstimation.Mps
