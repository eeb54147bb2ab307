import Mathlib.Data.List.Induction
import Mathlib.Logic.Function.Basic
import PauliEstimation.Proofs.Mps.Shape
import PauliEstimation.Proofs.Svd.Thin
import PauliEstimation.Proofs.Traversal

namespace PauliEstimation

variable {R : Type}

/-- A gate on one site of a chain, or on a site and its right neighbour with a truncation of the bond
between them. -/
inductive ChainGate (R : Type) where
  | one (site : Nat) (u : Gate R 2)
  | pair (site : Nat) (u : Gate R 4) (trunc : Truncation R)

namespace ChainGate

/-- Whether the sites of a gate are among the first `n`. -/
def InRange (n : Nat) : ChainGate R → Prop
  | one k _ => k < n
  | pair k _ _ => k + 1 < n

/-- The bound that a gate sets on the bond right of a site. -/
def bondCap? (k : Nat) : ChainGate R → Option Nat
  | one _ _ => none
  | pair j _ trunc => if j = k then some (max 1 trunc.maxBond) else none

/-- The bound that the last truncation sets on the bond right of a site, one if there was none. -/
def bondCap (gates : List (ChainGate R)) (k : Nat) : Nat :=
  (gates.filterMap (bondCap? k)).getLast?.getD 1

theorem bondCap_append (gates : List (ChainGate R)) (g : ChainGate R) (k : Nat) :
    bondCap (gates ++ [g]) k = (g.bondCap? k).getD (bondCap gates k) := by
  unfold bondCap
  rw [List.filterMap_append, List.filterMap_cons, List.filterMap_nil]
  cases g.bondCap? k with
  | none => simp
  | some cap => simp

variable [Scalar R] [ThinSvd R]

def act? (psi : Mps R) : ChainGate R → Except Fault (Mps R)
  | one k u => psi.applyOne? k u
  | pair k u trunc => psi.applyPair? k u trunc

/-- The state of `n` sites after gates that are applied to `|0…0⟩` one after another. -/
def run? (n : Nat) (gates : List (ChainGate R)) : Except Fault (Mps R) :=
  gates.foldlM act? (Mps.zero n)

theorem run?_append (n : Nat) (gates : List (ChainGate R)) (g : ChainGate R) :
    run? n (gates ++ [g]) = run? n gates >>= fun psi => act? psi g := by
  simp [run?, List.foldlM_append]

end ChainGate

/-- A site of a qubit between bonds of the given dimensions. -/
structure Tensor.IsSite (a : Tensor R) (left right : Nat) : Prop where
  left_eq : a.left = left
  phys_eq : a.phys = 2
  right_eq : a.right = right
  size_cells : a.cells.size = a.left * a.phys * a.right

namespace Mps

/-- The dimension of the bond left of a site, one past the last site. -/
def bond (psi : Mps R) (k : Nat) : Nat := (psi.sites[k]?.map Tensor.left).getD 1

theorem bondDims_getElem? {psi : Mps R} {k : Nat} (hk : k + 1 < psi.size) :
    psi.bondDims[k]? = some (psi.bond (k + 1)) := by
  have hsite : psi.sites[k + 1]? = some psi.sites[k + 1] := List.getElem?_eq_getElem hk
  simp [bondDims, bond, hsite]

/-- Bonds of `n` sites. Each is bounded by the number of states of the sites left of it, by that of the
sites right of it, and by a cap of its own. -/
structure BondBounds (n : Nat) (cap bond : Nat → Nat) : Prop where
  pos : ∀ k, 1 ≤ bond k
  le_left : ∀ k, bond k ≤ 2 ^ k
  le_right : ∀ k, bond k ≤ 2 ^ (n - k)
  le_cap : ∀ k, bond (k + 1) ≤ cap k

section Bounds

variable {n k kept : Nat} {cap cap' bond : Nat → Nat}

theorem BondBounds.zero (h : BondBounds n cap bond) : bond 0 = 1 :=
  Nat.le_antisymm (h.le_left 0) (h.pos 0)

theorem BondBounds.last (h : BondBounds n cap bond) : bond n = 1 :=
  Nat.le_antisymm (by simpa using h.le_right n) (h.pos n)

/-- A bond inside may be replaced by one of at most twice either neighbour. -/
theorem BondBounds.update (h : BondBounds n cap bond) (hk : k + 1 < n) (hpos : 1 ≤ kept)
    (hleft : kept ≤ 2 * bond k) (hright : kept ≤ 2 * bond (k + 2)) (hcap : kept ≤ cap' k)
    (hother : ∀ j ≠ k, cap' j = cap j) :
    BondBounds n cap' (Function.update bond (k + 1) kept) := by
  refine ⟨?_, ?_, ?_, ?_⟩
  · exact (Function.forall_update_iff bond fun _ m => 1 ≤ m).mpr ⟨hpos, fun j _ => h.pos j⟩
  · refine (Function.forall_update_iff bond fun j m => m ≤ 2 ^ j).mpr ⟨?_, fun j _ => h.le_left j⟩
    have hbefore := h.le_left k
    rw [Nat.pow_succ]
    omega
  · refine (Function.forall_update_iff bond fun j m => m ≤ 2 ^ (n - j)).mpr
      ⟨?_, fun j _ => h.le_right j⟩
    have hafter := h.le_right (k + 2)
    rw [show n - (k + 1) = n - (k + 2) + 1 by omega, Nat.pow_succ]
    omega
  · intro j
    by_cases hj : j = k
    · rw [hj, Function.update_self]
      exact hcap
    · rw [Function.update_of_ne (by omega), hother j hj]
      exact h.le_cap j

end Bounds

/-- A chain of `n` sites for qubits with bounded bonds. -/
structure Bonded (psi : Mps R) (n : Nat) (cap : Nat → Nat) : Prop where
  size_eq : psi.size = n
  isSite : ∀ k (a : Tensor R), psi.sites[k]? = some a → a.IsSite (psi.bond k) (psi.bond (k + 1))
  bounds : BondBounds n cap psi.bond

theorem isChain_of_isSite {sites : List (Tensor R)} {bond : Nat → Nat}
    (h : ∀ k (a : Tensor R), sites[k]? = some a → a.IsSite (bond k) (bond (k + 1)))
    (hpos : ∀ k, 1 ≤ bond k) (hend : bond sites.length = 1) : IsChain (bond 0) sites := by
  induction sites generalizing bond with
  | nil => exact hend
  | cons a rest ih =>
    obtain ⟨hleft, hphys, hright, hcells⟩ := h 0 a rfl
    refine ⟨hleft, hphys, hright ▸ hpos 1, hcells, ?_⟩
    rw [hright]
    exact @ih (fun k => bond (k + 1)) (fun k b hb => h (k + 1) b hb) (fun k => hpos _) hend

theorem Bonded.wellFormed {psi : Mps R} {n : Nat} {cap : Nat → Nat} (h : psi.Bonded n cap) :
    psi.WellFormed := by
  have hend : psi.bond psi.sites.length = 1 := by
    rw [show psi.sites.length = n from h.size_eq]
    exact h.bounds.last
  have hchain := isChain_of_isSite h.isSite h.bounds.pos hend
  rwa [h.bounds.zero] at hchain

section Sites

variable {psi : Mps R} {n : Nat} {cap : Nat → Nat}

theorem Bonded.left_end {a : Tensor R} (h : psi.Bonded n cap) (ha : psi.sites[0]? = some a) :
    a.left = 1 :=
  (h.isSite 0 a ha).left_eq.trans h.bounds.zero

theorem Bonded.right_end {b : Tensor R} (h : psi.Bonded n cap) (hn : 1 ≤ n)
    (hb : psi.sites[n - 1]? = some b) : b.right = 1 := by
  have hright := (h.isSite (n - 1) b hb).right_eq
  rwa [Nat.sub_add_cancel hn, h.bounds.last] at hright

theorem Bonded.shared {k : Nat} {a b : Tensor R} (h : psi.Bonded n cap)
    (ha : psi.sites[k]? = some a) (hb : psi.sites[k + 1]? = some b) : a.right = b.left :=
  (h.isSite k a ha).right_eq.trans (h.isSite (k + 1) b hb).left_eq.symm

theorem Bonded.exists_bondDim {k : Nat} (h : psi.Bonded n cap) (hk : k + 1 < n) :
    ∃ d, psi.bondDims[k]? = some d ∧ 1 ≤ d ∧ d ≤ min (2 ^ (k + 1)) (2 ^ (n - 1 - k)) ∧ d ≤ cap k := by
  have hright := h.bounds.le_right (k + 1)
  rw [show n - (k + 1) = n - 1 - k by omega] at hright
  exact ⟨psi.bond (k + 1), bondDims_getElem? (h.size_eq.symm ▸ hk), h.bounds.pos _,
    Nat.le_min.mpr ⟨h.bounds.le_left _, hright⟩, h.bounds.le_cap k⟩

end Sites

section Replacement

variable {psi : Mps R} {n k : Nat} {cap cap' : Nat → Nat} {a c d : Tensor R}

theorem bond_eq_left (ha : psi.sites[k]? = some a) : psi.bond k = a.left := by
  simp [bond, ha]

theorem bond_set (hk : k < psi.size) :
    (⟨psi.sites.set k c⟩ : Mps R).bond = Function.update psi.bond k c.left := by
  funext j
  by_cases hj : j = k
  · subst hj
    rw [Function.update_self]
    exact bond_eq_left (List.getElem?_set_self hk)
  · rw [Function.update_of_ne hj, bond, List.getElem?_set_ne (Ne.symm hj), bond]

theorem getElem?_set_cases {α : Type} {xs : List α} {j : Nat} {x y : α}
    (h : (xs.set k x)[j]? = some y) : j = k ∧ y = x ∨ j ≠ k ∧ xs[j]? = some y := by
  by_cases hj : j = k
  · subst hj
    have hlt : j < xs.length := by simpa using (List.getElem?_eq_some_iff.mp h).1
    rw [List.getElem?_set_self hlt] at h
    exact .inl ⟨rfl, (Option.some.inj h).symm⟩
  · exact .inr ⟨hj, by rwa [List.getElem?_set_ne (Ne.symm hj)] at h⟩

theorem Bonded.exists_site (h : psi.Bonded n cap) (hk : k < n) : ∃ a, psi.sites[k]? = some a :=
  ⟨_, List.getElem?_eq_getElem (show k < psi.size by rwa [h.size_eq])⟩

/-- A site may be replaced by one between the same bonds. -/
theorem Bonded.set (h : psi.Bonded n cap) (hk : k < n)
    (hc : c.IsSite (psi.bond k) (psi.bond (k + 1))) :
    (⟨psi.sites.set k c⟩ : Mps R).Bonded n cap := by
  have hbond : (⟨psi.sites.set k c⟩ : Mps R).bond = psi.bond := by
    rw [bond_set (h.size_eq.symm ▸ hk), hc.left_eq, Function.update_eq_self]
  refine ⟨List.length_set.trans h.size_eq, ?_, hbond ▸ h.bounds⟩
  intro j d hd
  rw [hbond]
  rcases getElem?_set_cases hd with ⟨rfl, rfl⟩ | ⟨_, hd⟩
  · exact hc
  · exact h.isSite j d hd

/-- Two neighbours may be replaced by sites with another bond between them. -/
theorem Bonded.set_pair {kept : Nat} (h : psi.Bonded n cap) (hk : k + 1 < n)
    (hc : c.IsSite (psi.bond k) kept) (hd : d.IsSite kept (psi.bond (k + 2)))
    (hbounds : BondBounds n cap' (Function.update psi.bond (k + 1) kept)) :
    (⟨(psi.sites.set k c).set (k + 1) d⟩ : Mps R).Bonded n cap' := by
  have hsize : psi.sites.length = n := h.size_eq
  have hfirst : (⟨psi.sites.set k c⟩ : Mps R).bond = psi.bond := by
    rw [bond_set (show k < psi.sites.length by omega), hc.left_eq, Function.update_eq_self]
  have hbond : (⟨(psi.sites.set k c).set (k + 1) d⟩ : Mps R).bond =
      Function.update psi.bond (k + 1) kept := by
    have hsecond : k + 1 < (⟨psi.sites.set k c⟩ : Mps R).size := by simpa [size, hsize] using hk
    rw [← hfirst, ← hd.left_eq]
    exact bond_set hsecond
  refine ⟨by simp [size, hsize], ?_, hbond ▸ hbounds⟩
  intro j e he
  rw [hbond]
  rcases getElem?_set_cases he with ⟨rfl, rfl⟩ | ⟨hj, he⟩
  · rwa [Function.update_self, Function.update_of_ne (by omega)]
  rcases getElem?_set_cases he with ⟨rfl, rfl⟩ | ⟨hj', he⟩
  · rwa [Function.update_self, Function.update_of_ne (by omega)]
  · rw [Function.update_of_ne hj, Function.update_of_ne (by omega)]
    exact h.isSite j e he

end Replacement

variable [Scalar R]

theorem isSite_zeroSite : (zeroSite (R := R)).IsSite 1 1 := ⟨rfl, rfl, rfl, Array.size_ofFn⟩

theorem bond_zeros (n : Nat) : (zero (R := R) n).bond = fun _ => 1 := by
  funext k
  unfold bond zero
  rw [List.getElem?_replicate]
  split <;> rfl

theorem bonded_zero (n : Nat) : (zero (R := R) n).Bonded n (ChainGate.bondCap (R := R) []) where
  size_eq := List.length_replicate
  isSite k a ha := by
    obtain rfl := List.eq_of_mem_replicate (List.mem_of_getElem? ha)
    rw [bond_zeros]
    exact isSite_zeroSite
  bounds := by
    rw [bond_zeros]
    exact ⟨fun _ => Nat.le_refl 1, fun _ => Nat.one_le_two_pow, fun _ => Nat.one_le_two_pow,
      fun _ => Nat.le_refl 1⟩

theorem isSite_rotate {a : Tensor R} {left right : Nat} (u : Gate R 2) (h : a.IsSite left right) :
    (a.rotate u).IsSite left right :=
  ⟨h.left_eq, h.phys_eq, h.right_eq, Array.size_ofFn⟩

theorem isSite_splitLeft (f : Svd R) (left kept : Nat) : (splitLeft f left kept).IsSite left kept :=
  ⟨rfl, rfl, rfl, Array.size_ofFn⟩

theorem isSite_splitRight (f : Svd R) (kept right : Nat) :
    (splitRight f kept right).IsSite kept right :=
  ⟨rfl, rfl, rfl, Array.size_ofFn⟩

theorem hasShape_pairBlock (u : Gate R 4) (a b : Tensor R) :
    (pairBlock u (contract a b)).HasShape (2 * a.left) (2 * b.right) :=
  ⟨rfl, rfl, Array.size_ofFn⟩

end Mps

section Step

variable [Scalar R] [ThinSvd R] {n k : Nat} {psi : Mps R}

/-- The factors at a gate on two neighbours have all the columns that are kept. -/
theorem Mps.Bonded.kept_le {cap : Nat → Nat} {a b : Tensor R} (hthin : ThinSvd.IsThin R)
    (h : psi.Bonded n cap) (ha : psi.sites[k]? = some a) (hb : psi.sites[k + 1]? = some b)
    (u : Gate R 4) (trunc : Truncation R) :
    (ThinSvd.factor (pairBlock u (contract a b))).IsThin (2 * a.left) (2 * b.right) ∧
      trunc.kept (ThinSvd.factor (pairBlock u (contract a b))).values ≤
        min (2 * a.left) (2 * b.right) := by
  have hf := hthin _ _ _ (hasShape_pairBlock u a b)
  refine ⟨hf, ?_⟩
  have hkept := trunc.kept_le_length (ThinSvd.factor (pairBlock u (contract a b))).values
  have hleft : 1 ≤ a.left := (h.isSite k a ha).left_eq ▸ h.bounds.pos k
  have hright : 1 ≤ b.right := (h.isSite (k + 1) b hb).right_eq ▸ h.bounds.pos (k + 2)
  rw [hf.length_values] at hkept
  omega

/-- A gate in range applies, and the bound it sets takes the place of the one before. -/
theorem ChainGate.exists_act? {gates : List (ChainGate R)} {g : ChainGate R}
    (hthin : ThinSvd.IsThin R) (h : psi.Bonded n (bondCap gates)) (hg : g.InRange n) :
    ∃ psi', act? psi g = .ok psi' ∧ psi'.Bonded n (bondCap (gates ++ [g])) := by
  cases g with
  | one k u =>
    obtain ⟨a, ha⟩ := h.exists_site hg
    have hcap : bondCap (gates ++ [one k u]) = bondCap gates := funext (bondCap_append gates _)
    refine ⟨_, Mps.applyOne?_of_getElem? u ha, ?_⟩
    rw [hcap]
    exact h.set hg (Mps.isSite_rotate u (h.isSite k a ha))
  | pair k u trunc =>
    obtain ⟨a, ha⟩ := h.exists_site (Nat.lt_of_succ_lt hg)
    obtain ⟨b, hb⟩ := h.exists_site hg
    have hleft := (h.isSite k a ha).left_eq
    have hright := (h.isSite (k + 1) b hb).right_eq
    obtain ⟨_, hkept⟩ := h.kept_le hthin ha hb u trunc
    obtain ⟨hrows, hcols⟩ := Nat.le_min.mp hkept
    refine ⟨_, Mps.applyPair?_of_getElem? u trunc ha hb, ?_⟩
    refine h.set_pair hg (by rw [← hleft]; exact Mps.isSite_splitLeft ..)
      (by rw [← hright]; exact Mps.isSite_splitRight ..) ?_
    apply h.bounds.update hg (trunc.one_le_kept _) (hleft ▸ hrows) (hright ▸ hcols)
    · rw [bondCap_append, bondCap?, if_pos rfl]
      exact trunc.kept_le _
    · intro j hj
      rw [bondCap_append, bondCap?, if_neg (Ne.symm hj), Option.getD_none]

/-- Gates in range take the state of all zeros to a chain with bounded bonds. -/
theorem ChainGate.exists_run? (hthin : ThinSvd.IsThin R) (gates : List (ChainGate R))
    (hgates : ∀ g ∈ gates, g.InRange n) :
    ∃ psi, run? n gates = .ok psi ∧ psi.Bonded n (bondCap gates) := by
  induction gates using List.reverseRecOn with
  | nil => exact ⟨Mps.zero n, rfl, Mps.bonded_zero n⟩
  | append_singleton gates g ih =>
    obtain ⟨hbefore, hg⟩ := List.forall_mem_append.mp hgates
    obtain ⟨psi, hrun, hpsi⟩ := ih hbefore
    obtain ⟨psi', happly, hpsi'⟩ := exists_act? hthin hpsi (hg g (List.mem_singleton_self g))
    exact ⟨psi', by rw [run?_append, hrun]; exact happly, hpsi'⟩

end Step

end PauliEstimation
