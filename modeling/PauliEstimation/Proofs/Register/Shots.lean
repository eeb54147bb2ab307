import PauliEstimation.Proofs.BitMatrix
import PauliEstimation.Proofs.RandomStream.Repeated
import PauliEstimation.Proofs.Register.Steps

namespace PauliEstimation

variable {R : Type} [Scalar R]

namespace Register

/-- The bit that a basis index has on the site of a qubit. -/
def bitAt (qubits : List Qubit) (index : Nat) (q : Qubit) : Bool :=
  Mps.siteBit qubits.length index (qubits.idxOf q)

theorem bitAt_get {qubits : List Qubit} (hn : qubits.Nodup) (index : Nat)
    (k : Fin qubits.length) :
    bitAt qubits index (qubits.get k) = Mps.siteBit qubits.length index k := by
  have hk : qubits.idxOf (qubits.get k) = k := hn.idxOf_getElem k k.isLt
  rw [bitAt, hk]

end Register

/-- Every row reads the measured qubits off the basis index of its shot. -/
structure BitMatrix.Reads (bits : BitMatrix) (qubits : List Qubit) (indices : List Nat)
    (measured : List Qubit) : Prop where
  width_eq : bits.width = measured.length
  rows_eq : bits.rows = kept measured.length
    (indices.map fun index => measured.map (Register.bitAt qubits index))

theorem BitMatrix.reads_empty (qubits measured : List Qubit) :
    (empty measured.length).Reads qubits [] measured :=
  ⟨rfl, rfl⟩

theorem BitMatrix.Reads.append {m n r : BitMatrix} {qubits measured : List Qubit}
    {indices more : List Nat} (hm : m.Reads qubits indices measured)
    (hn : n.Reads qubits more measured) (h : m.append? n = .ok r) :
    r.Reads qubits (indices ++ more) measured := by
  obtain ⟨hwidth, hrows⟩ := append?_eq_ok h
  refine ⟨hwidth.trans hm.width_eq, ?_⟩
  rw [hrows, hm.rows_eq, hn.rows_eq, List.map_append, kept_append]

namespace Mps

/-- The end of the cumulative range. -/
def total (psi : Mps R) : R :=
  let table := cumulative psi.stateVector
  table.getD (table.size - 1) 0

/-- The basis index that a draw selects. -/
def drawn (psi : Mps R) (u : R) : Nat := outcome (cumulative psi.stateVector) (u * psi.total)

/-- The draws of a number of shots. -/
def draws (R : Type) [Scalar R] (shots : Nat) (s : RandomStream) : List R :=
  (RandomStream.repeated (fun s => s.uniform shotContext) shots s).1

/-- The stream that the draws of a number of shots leave. -/
def afterDraws (R : Type) [Scalar R] (shots : Nat) (s : RandomStream) : RandomStream :=
  (RandomStream.repeated (fun s => s.uniform (R := R) shotContext) shots s).2

theorem length_of_drawn (psi : Mps R) (sites : List Nat) (us : List R) :
    ∀ row ∈ us.map fun u => shotRow psi.size sites (psi.drawn u), row.length = sites.length := by
  intro row hr
  obtain ⟨u, _, rfl⟩ := List.mem_map.mp hr
  exact length_shotRow _ _ _

/-- One row for each draw. -/
def sampled (psi : Mps R) (sites : List Nat) (shots : Nat) (s : RandomStream) : BitMatrix :=
  BitMatrix.ofFitting sites.length _ (length_of_drawn psi sites (draws R shots s))

/-- The state is small enough to be sampled, and every shot has a bit for each listed site. -/
structure CanSample (psi : Mps R) (sites : List Nat) (shots : Nat) : Prop where
  size_le : psi.size ≤ maxDenseSites
  sites_lt : 0 < shots → ∀ k ∈ sites, k < psi.size

variable {psi : Mps R} {sites : List Nat} {shots : Nat} {s s' : RandomStream} {bits : BitMatrix}

omit [Scalar R] in
theorem CanSample.mono {part : List Nat} (h : psi.CanSample sites shots)
    (hsub : ∀ k ∈ part, k ∈ sites) : psi.CanSample part shots :=
  ⟨h.size_le, fun hpos k hk => h.sites_lt hpos k (hsub k hk)⟩

theorem sample?_eq_sampled (h : psi.CanSample sites shots) (s : RandomStream) :
    psi.sample? sites shots s = .ok (psi.sampled sites shots s, afterDraws R shots s) := by
  have hshots : RandomStream.repeated (shot (cumulative psi.stateVector) psi.size sites) shots s =
      ((draws R shots s).map fun u => shotRow psi.size sites (psi.drawn u),
        afterDraws R shots s) :=
    RandomStream.repeated_map (fun s => s.uniform shotContext)
      (fun u => shotRow psi.size sites (psi.drawn u)) shots s
  have hrows : BitMatrix.ofRows? sites.length
      ((draws R shots s).map fun u => shotRow psi.size sites (psi.drawn u)) =
        .ok (psi.sampled sites shots s) := dif_pos (length_of_drawn psi sites (draws R shots s))
  unfold sample?
  rw [if_neg (Nat.not_lt.mpr h.size_le)]
  simp only [hshots, hrows]
  split
  next hpos =>
    rw [checkSites_eq_ok_iff.mpr (h.sites_lt hpos)]
    rfl
  next => rfl

theorem canSample_of_sample? {e : BitMatrix × RandomStream}
    (h : psi.sample? sites shots s = .ok e) : psi.CanSample sites shots := by
  unfold sample? at h
  split at h
  next => cases h
  next hsize =>
    refine ⟨Nat.not_lt.mp hsize, fun hpos => ?_⟩
    rw [if_pos hpos] at h
    obtain ⟨_, hsites, _⟩ := bind_eq_ok_iff.mp h
    exact checkSites_eq_ok_iff.mp hsites

theorem sample?_eq_ok (h : psi.sample? sites shots s = .ok (bits, s')) :
    ∃ indices : List Nat, indices.length = shots ∧ bits.width = sites.length ∧
      bits.rows = BitMatrix.kept sites.length (indices.map (shotRow psi.size sites)) := by
  cases (sample?_eq_sampled (canSample_of_sample? h) s).symm.trans h
  refine ⟨(draws R shots s).map psi.drawn, ?_, rfl, ?_⟩
  · rw [List.length_map]
    exact RandomStream.length_repeated _ _ _
  · rw [List.map_map]
    rfl

end Mps

namespace Register

variable {r : Register R} {qubits measured : List Qubit} {shots : Nat} {s s' : RandomStream}
  {bits : BitMatrix}

theorem IsOn.of_sample? (h : r.IsOn qubits)
    (hr : r.sample? measured shots s = .ok (bits, s')) :
    ∃ indices : List Nat, indices.length = shots ∧ bits.Reads qubits indices measured := by
  obtain ⟨sites, hsites, hr⟩ := bind_eq_ok_iff.mp hr
  obtain ⟨indices, hlen, hwidth, hrows⟩ := Mps.sample?_eq_ok hr
  have hsites : sites = measured.map qubits.idxOf := by
    have hmap := map_eq_map_of_forall₂ (f := qubits.idxOf) (g := id) (mapM_eq_ok_iff.mp hsites)
      fun q k hk => h.qubits_eq ▸ (site?_eq_ok_iff.mp hk).2
    simpa using hmap.symm
  subst hsites
  rw [List.length_map] at hwidth hrows
  refine ⟨indices, hlen, hwidth, hrows.trans (congrArg _ (List.map_congr_left fun index _ => ?_))⟩
  rw [Mps.shotRow, List.map_map, h.size_eq]
  rfl

omit [Scalar R] in
theorem IsOn.sites_lt {sites : List Nat} (h : r.IsOn qubits)
    (hsites : measured.mapM r.site? = .ok sites) : ∀ k ∈ sites, k < r.state.size := by
  intro k hk
  obtain ⟨q, _, hq⟩ := forall₂_exists_of_mem (mapM_eq_ok_iff.mp hsites) hk
  rw [h.size_eq, ← h.qubits_eq]
  exact (site?_eq_ok_iff.mp hq).1

theorem IsOn.exists_sample? (h : r.IsOn qubits) (hm : ∀ q ∈ measured, q ∈ qubits)
    (hsize : qubits.length ≤ Mps.maxDenseSites) : ∃ e, r.sample? measured shots s = .ok e :=
  exists_bind (exists_mapM fun q hq => ⟨_, h.site?_eq_ok (hm q hq)⟩) fun _ hsites =>
    ⟨_, Mps.sample?_eq_sampled ⟨h.size_eq ▸ hsize, fun _ => h.sites_lt hsites⟩ s⟩

end Register

end PauliEstimation
