import Mathlib.Algebra.Ring.Nat
import PauliEstimation.Mps.StateVector

namespace PauliEstimation.Mps

variable {R : Type} [Scalar R]

/-- A chain that starts from a bond of the given dimension. Neighbours share their bonds, no bond is
empty, and the last is one. -/
def IsChain : Nat → List (Tensor R) → Prop
  | bond, [] => bond = 1
  | bond, a :: rest =>
    a.left = bond ∧ a.phys = 2 ∧ 0 < a.right ∧ a.cells.size = a.left * a.phys * a.right ∧
      IsChain a.right rest

def WellFormed (psi : Mps R) : Prop := IsChain 1 psi.sites

theorem isChain_zero (n : Nat) : IsChain 1 (zero (R := R) n).sites := by
  unfold zero
  induction n with
  | zero => rfl
  | succ n ih => exact ⟨rfl, rfl, Nat.one_pos, by simp [zeroSite, Tensor.ofFn], ih⟩

theorem wellFormed_zero (n : Nat) : (zero (R := R) n).WellFormed := isChain_zero n

theorem isChain_set_rotate {sites : List (Tensor R)} {bond k : Nat} {a : Tensor R} (u : Gate R 2)
    (h : IsChain bond sites) (ha : sites[k]? = some a) :
    IsChain bond (sites.set k (a.rotate u)) := by
  induction sites generalizing bond k with
  | nil => simp at ha
  | cons b rest ih =>
    obtain ⟨hl, hp, hr, hc, hrest⟩ := h
    cases k with
    | zero =>
      obtain rfl : b = a := by simpa using ha
      exact ⟨hl, hp, hr, by simp [Tensor.rotate, Tensor.ofFn], hrest⟩
    | succ k => exact ⟨hl, hp, hr, hc, ih hrest (by simpa using ha)⟩

omit [Scalar R] in
theorem getElem?_of_site? {psi : Mps R} {k : Nat} {a : Tensor R} (h : psi.site? k = .ok a) :
    psi.sites[k]? = some a := by
  unfold site? at h
  split at h
  next b hb => rw [hb, Except.ok.inj h]
  next => cases h

omit [Scalar R] in
theorem site?_of_getElem? {psi : Mps R} {k : Nat} {a : Tensor R} (ha : psi.sites[k]? = some a) :
    psi.site? k = .ok a := by
  rw [site?, ha]

theorem applyOne?_of_getElem? {psi : Mps R} {k : Nat} {a : Tensor R} (u : Gate R 2)
    (ha : psi.sites[k]? = some a) : psi.applyOne? k u = .ok ⟨psi.sites.set k (a.rotate u)⟩ := by
  rw [applyOne?, site?_of_getElem? ha]
  rfl

theorem applyPair?_of_getElem? [ThinSvd R] {psi : Mps R} {k : Nat} {a b : Tensor R} (u : Gate R 4)
    (trunc : Truncation R) (ha : psi.sites[k]? = some a) (hb : psi.sites[k + 1]? = some b) :
    psi.applyPair? k u trunc =
      let f := ThinSvd.factor (pairBlock u (contract a b))
      let kept := trunc.kept f.values
      .ok ⟨(psi.sites.set k (splitLeft f a.left kept)).set (k + 1)
        (splitRight f kept b.right)⟩ := by
  rw [applyPair?, site?_of_getElem? ha, site?_of_getElem? hb]
  rfl

section Dense

variable {partials : Array (Amplitude R)} {bond c : Nat}

theorem size_extend {a : Tensor R} (hb : 0 < bond) (hs : partials.size = c * bond) :
    (extend partials bond a).size = c * 2 * a.right := by
  simp [extend, hs, hb]

theorem size_extendAll {sites : List (Tensor R)} (h : IsChain bond sites) (hb : 0 < bond)
    (hs : partials.size = c * bond) :
    (extendAll partials bond sites).size = c * 2 ^ sites.length := by
  induction sites generalizing bond c partials with
  | nil =>
    obtain rfl : bond = 1 := h
    simpa [extendAll] using hs
  | cons a rest ih =>
    obtain ⟨_, _, hr, _, hrest⟩ := h
    rw [extendAll, ih hrest hr (size_extend hb hs), List.length_cons, Nat.pow_succ, Nat.mul_assoc,
      Nat.mul_comm 2]

end Dense

theorem size_stateVector {psi : Mps R} (h : psi.WellFormed) :
    psi.stateVector.size = 2 ^ psi.size := by
  rw [stateVector, size_extendAll (c := 1) h Nat.one_pos rfl, Nat.one_mul, size]

end PauliEstimation.Mps
