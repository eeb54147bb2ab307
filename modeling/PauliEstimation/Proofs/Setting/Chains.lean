import PauliEstimation.Hamiltonian
import PauliEstimation.Proofs.Setting.Join
import PauliEstimation.Proofs.Setting.Partition

namespace PauliEstimation

variable {R : Type}

namespace Setting

/-- Reads every qubit along one axis and starts from `|0⟩`. -/
structure IsAlong (axis : Pauli) (s : Setting R) : Prop where
  axis_eq : ∀ q p, s.observable.get? q = some p → p = axis
  zero_eq : ∀ q e, s.initial.get? q = some e → e = Eigenstate.zero

theorem IsAlong.agrees {axis : Pauli} {s t : Setting R} (hs : s.IsAlong axis)
    (ht : t.IsAlong axis) : s.Agrees t :=
  ⟨fun q a b ha hb => (hs.axis_eq q a ha).trans (ht.axis_eq q b hb).symm,
    fun q a b ha hb => (hs.zero_eq q a ha).trans (ht.zero_eq q b hb).symm⟩

/-- The setting that reads the listed qubits along one axis. -/
def along [One R] (qubits : List Qubit) (axis : Pauli) : Setting R :=
  ⟨ProductState.zeros qubits, 1, QubitMap.ofList (qubits.map (·, axis))⟩

theorem get?_initial_ofObservable (p : PauliString R) (q : Qubit) :
    (ofObservable p).initial.get? q = (p.get? q).map fun _ => Eigenstate.zero := by
  rw [ofObservable, ProductState.zeros, QubitMap.get?_ofList_const]
  cases hq : p.get? q with
  | none =>
    refine if_neg fun hmem => ?_
    obtain ⟨axis, haxis⟩ := QubitMap.mem_keys_iff.mp hmem
    cases hq.symm.trans haxis
  | some axis => exact if_pos (QubitMap.mem_keys_iff.mpr ⟨axis, hq⟩)

theorem isAlong_ofObservable {axis : Pauli} {p : PauliString R}
    (h : ∀ q a, p.get? q = some a → a = axis) : (ofObservable p).IsAlong axis where
  axis_eq := h
  zero_eq q e he := by
    rw [get?_initial_ofObservable] at he
    obtain ⟨_, _, rfl⟩ := Option.map_eq_some_iff.mp he
    rfl

end Setting

namespace SettingGroup

variable [One R]

/-- Groups that a setting cannot be merged into are passed over. -/
theorem place_append {before : List (SettingGroup R)} {s : Setting R}
    (h : ∀ g ∈ before, g.max.mergedWith? s = none) (after : List (SettingGroup R)) :
    place s (before ++ after) = before ++ place s after := by
  induction before with
  | nil => rfl
  | cons g before ih =>
    obtain ⟨hg, hrest⟩ := List.forall_mem_cons.mp h
    simp only [List.cons_append, place, hg, ih hrest]

theorem IsUnion.isAlong {g : SettingGroup R} {axis : Pauli} (h : g.IsUnion)
    (hs : ∀ s ∈ g.settings, s.IsAlong axis) : g.max.IsAlong axis where
  axis_eq q p hp := by
    obtain ⟨s, hmem, hq⟩ := (h.observable_iff q p).mp hp
    exact (hs s hmem).axis_eq q p hq
  zero_eq q e he := by
    obtain ⟨s, hmem, hq⟩ := (h.initial_iff q e).mp he
    exact (hs s hmem).zero_eq q e hq

/-- Settings along one axis that conflict with all groups so far open one more group, which takes
them all in. -/
theorem foldl_place_along {axis : Pauli} {before : List (SettingGroup R)}
    {settings : List (Setting R)} (hne : settings ≠ [])
    (hs : ∀ s ∈ settings, s.IsAlong axis)
    (hb : ∀ g ∈ before, ∀ s ∈ settings, g.max.mergedWith? s = none) :
    ∃ max, settings.foldl (fun groups s => place s groups) before =
        before ++ [⟨max, settings⟩] ∧
      IsUnion ⟨max, settings⟩ := by
  -- from the right, so that the last setting meets the group of all others
  induction settings using List.reverseRecOn with
  | nil => exact absurd rfl hne
  | append_singleton settings s ih =>
    have hsettings : ∀ t ∈ settings, t.IsAlong axis :=
      fun t ht => hs t (List.mem_append_left _ ht)
    have hlast : s.IsAlong axis := hs s (by simp)
    have hskip : ∀ g ∈ before, g.max.mergedWith? s = none := fun g hg => hb g hg s (by simp)
    rw [List.foldl_append, List.foldl_cons, List.foldl_nil]
    by_cases hfirst : settings = []
    · subst hfirst
      refine ⟨s.unscaled, ?_, isUnion_singleton s⟩
      have hplace := place_append hskip []
      rwa [List.append_nil] at hplace
    · obtain ⟨max, hfold, hunion⟩ := ih hfirst hsettings
        fun g hg t ht => hb g hg t (List.mem_append_left _ ht)
      obtain ⟨u, hu⟩ :=
        Setting.exists_mergedWith?_iff.mpr ((hunion.isAlong hsettings).agrees hlast)
      refine ⟨u, ?_, hunion.merge hu⟩
      rw [hfold, place_append hskip]
      simp only [place, hu]

theorem greedy_along {axis : Pauli} {settings : List (Setting R)} (hne : settings ≠ [])
    (hs : ∀ s ∈ settings, s.IsAlong axis) :
    ∃ max, greedy settings = [⟨max, settings⟩] ∧ IsUnion ⟨max, settings⟩ :=
  foldl_place_along hne hs (by simp)

end SettingGroup

section Terms

variable [Scalar R]

theorem get?_bond (k : Nat) (axis : Pauli) (w : R) (q : Qubit) :
    (bond k axis w).get? q = if q ∈ [⟨k⟩, ⟨k + 1⟩] then some axis else none :=
  QubitMap.get?_ofList_const [⟨k⟩, ⟨k + 1⟩] axis q

theorem isAlong_bond (k : Nat) (axis : Pauli) (w : R) :
    (Setting.ofObservable (bond k axis w)).IsAlong axis := by
  refine Setting.isAlong_ofObservable fun q a ha => ?_
  rw [get?_bond, Option.ite_none_right_eq_some] at ha
  exact (Option.some.inj ha.2).symm

theorem isAlong_of_mem_terms {c : IsingChain R} {p : PauliString R} (h : p ∈ c.terms) :
    (Setting.ofObservable p).IsAlong .z := by
  rcases List.mem_append.mp h with h | h
  · obtain ⟨e, _, rfl⟩ := List.mem_map.mp h
    refine Setting.isAlong_ofObservable fun q a ha => ?_
    have hone : ((QubitMap.empty.insert ⟨e.1⟩ Pauli.z).get? q) = some a := ha
    rw [QubitMap.get?_insert, QubitMap.get?_empty, Option.ite_none_right_eq_some] at hone
    exact (Option.some.inj hone.2).symm
  · obtain ⟨e, _, rfl⟩ := List.mem_map.mp h
    exact isAlong_bond e.1 .z e.2

/-- A list of one value that is not zero has that value at every position. -/
theorem nonzero_replicate {w : R} (h : (w == 0) = false) (m : Nat) :
    nonzero (List.replicate m w) = (List.range m).map (·, w) := by
  have hall : (List.replicate m w).zipIdx.map (fun e => (e.2, e.1)) = (List.range m).map (·, w) :=
    List.ext_getElem (by simp) (by simp)
  rw [nonzero, hall, List.filter_eq_self]
  intro e he
  obtain ⟨k, _, rfl⟩ := List.mem_map.mp he
  simp [h]

/-- The settings of all bonds of a chain along one axis. -/
def bondSettings (n : Nat) (w : R) (axis : Pauli) : List (Setting R) :=
  (List.range (n - 1)).map fun k => Setting.ofObservable (bond k axis w)

theorem map_terms_uniform {w : R} (h : (w == 0) = false) (n : Nat) :
    (HeisenbergChain.uniform n w).terms.map Setting.ofObservable =
      [Pauli.x, .y, .z].flatMap (bondSettings n w) := by
  simp only [HeisenbergChain.terms, HeisenbergChain.uniform, bonds, nonzero_replicate h,
    bondSettings, List.map_append, List.map_map, List.flatMap_cons, List.flatMap_nil,
    List.append_nil, List.append_assoc]
  rfl

theorem mem_range {n : Nat} {q : Qubit} : q ∈ Qubit.range n ↔ q.index < n := by
  simp [Qubit.range, Qubit.ext_iff]

/-- The bonds of a chain of two or more qubits touch all its qubits. -/
theorem touched_iff {n : Nat} (hn : 2 ≤ n) (q : Qubit) :
    (∃ k < n - 1, q ∈ [(⟨k⟩ : Qubit), ⟨k + 1⟩]) ↔ q ∈ Qubit.range n := by
  rw [mem_range]
  simp only [List.mem_cons, List.not_mem_nil, or_false, Qubit.ext_iff]
  constructor
  · rintro ⟨k, hk, hq⟩
    omega
  · intro hq
    by_cases hfirst : q.index = 0
    · exact ⟨0, by omega, by omega⟩
    · exact ⟨q.index - 1, by omega, by omega⟩

/-- A map that gives one value to the qubits of all bonds gives it to the whole chain. -/
theorem eq_ofList_range {α : Type} {n : Nat} {m : QubitMap α} {v : α} (hn : 2 ≤ n)
    (h : ∀ q a, m.get? q = some a ↔ ∃ k < n - 1, q ∈ [(⟨k⟩ : Qubit), ⟨k + 1⟩] ∧ v = a) :
    m = QubitMap.ofList ((Qubit.range n).map (·, v)) := by
  refine QubitMap.ext_get? fun q => Option.ext fun a => ?_
  rw [h, QubitMap.get?_ofList_const, Option.ite_none_right_eq_some, ← touched_iff hn,
    Option.some_inj]
  simp only [← and_assoc, exists_and_right]

theorem eq_along_of_isUnion {n : Nat} {w : R} {axis : Pauli} {max : Setting R} (hn : 2 ≤ n)
    (h : SettingGroup.IsUnion ⟨max, bondSettings n w axis⟩) :
    max = Setting.along (Qubit.range n) axis := by
  obtain ⟨initial, coefficient, factors⟩ := max
  obtain rfl : coefficient = 1 := h.coefficient_eq
  have hfactors : factors = QubitMap.ofList ((Qubit.range n).map (·, axis)) := by
    refine eq_ofList_range hn fun q a => (h.observable_iff q a).trans ?_
    simp only [bondSettings, List.mem_map, List.mem_range, exists_exists_and_eq_and,
      Setting.ofObservable, get?_bond, Option.ite_none_right_eq_some, Option.some_inj]
  have hinitial : initial = ProductState.zeros (Qubit.range n) := by
    refine eq_ofList_range hn fun q e => (h.initial_iff q e).trans ?_
    simp only [bondSettings, List.mem_map, List.mem_range, exists_exists_and_eq_and,
      Setting.get?_initial_ofObservable, get?_bond, Option.map_if, Option.ite_none_right_eq_some,
      Option.some_inj]
  rw [hfactors, hinitial]
  rfl

/-- A whole chain along one axis conflicts with the bonds along another. -/
theorem mergedWith?_along_bond {n k : Nat} {axis axis' : Pauli} (w : R) (hne : axis ≠ axis')
    (hk : k < n) :
    (Setting.along (Qubit.range n) axis).mergedWith? (Setting.ofObservable (bond k axis' w)) =
      none := by
  rw [Setting.mergedWith?_eq_none_iff]
  intro hagree
  have hchain : (QubitMap.ofList ((Qubit.range n).map (·, axis))).get? ⟨k⟩ = some axis := by
    rw [QubitMap.get?_ofList_const, if_pos (mem_range.mpr hk)]
  have hbond : (bond k axis' w).factors.get? ⟨k⟩ = some axis' := by
    rw [← PauliString.get?, get?_bond, if_pos List.mem_cons_self]
  exact hne (hagree.1 ⟨k⟩ axis axis' hchain hbond)

/-- The group of the bonds along one axis. -/
def axisGroup (n : Nat) (w : R) (axis : Pauli) : SettingGroup R :=
  ⟨Setting.along (Qubit.range n) axis, bondSettings n w axis⟩

theorem foldl_place_bonds {n : Nat} (w : R) {axis : Pauli} {axes : List Pauli} (hn : 2 ≤ n)
    (hnew : axis ∉ axes) :
    (bondSettings n w axis).foldl (fun groups s => SettingGroup.place s groups)
        (axes.map (axisGroup n w)) = (axes ++ [axis]).map (axisGroup n w) := by
  have hsome : bondSettings n w axis ≠ [] := by
    simp only [bondSettings, ne_eq, List.map_eq_nil_iff, List.range_eq_nil]
    omega
  have halong : ∀ s ∈ bondSettings n w axis, s.IsAlong axis := by
    intro s hs
    obtain ⟨k, _, rfl⟩ := List.mem_map.mp hs
    exact isAlong_bond k axis w
  have hconflict : ∀ g ∈ axes.map (axisGroup n w), ∀ s ∈ bondSettings n w axis,
      g.max.mergedWith? s = none := by
    intro g hg s hs
    obtain ⟨axis', haxis', rfl⟩ := List.mem_map.mp hg
    obtain ⟨k, hk, rfl⟩ := List.mem_map.mp hs
    have hne : axis' ≠ axis := fun he => hnew (he ▸ haxis')
    have hlt := List.mem_range.mp hk
    exact mergedWith?_along_bond w hne (by omega)
  obtain ⟨max, hfold, hunion⟩ := SettingGroup.foldl_place_along hsome halong hconflict
  obtain rfl := eq_along_of_isUnion hn hunion
  rw [hfold, List.map_append]
  rfl

/-- The bonds of one axis after the other make one group for each axis. -/
theorem greedy_bondSettings {n : Nat} (w : R) {axes : List Pauli} (hn : 2 ≤ n)
    (h : axes.Nodup) :
    SettingGroup.greedy (axes.flatMap (bondSettings n w)) = axes.map (axisGroup n w) := by
  unfold SettingGroup.greedy
  -- the groups of the axes so far already read the whole chain, so no bond of the next one joins
  induction axes using List.reverseRecOn with
  | nil => rfl
  | append_singleton axes axis ih =>
    obtain ⟨haxes, _, hnew⟩ := List.nodup_append.mp h
    have haxis : axis ∉ axes := fun hmem => hnew axis hmem axis (by simp) rfl
    rw [List.flatMap_append, List.foldl_append, ih haxes, List.flatMap_singleton,
      foldl_place_bonds w hn haxis]

end Terms

/-- The terms of an Ising chain, read from `|0⟩`, make no group if there are none and otherwise one
group with all of them in order. The terms of a uniform Heisenberg chain make three groups, along
`X`, `Y` and `Z`: each holds the bonds of its axis in order, and its max setting has coefficient one
and this axis and `|0⟩` on exactly the qubits of the chain. -/
theorem chain_terms_group_by_axis [Scalar R] :
    (∀ c : IsingChain R,
      (c.terms = [] → SettingGroup.greedy (c.terms.map Setting.ofObservable) = []) ∧
      (c.terms ≠ [] → ∃ max, SettingGroup.greedy (c.terms.map Setting.ofObservable) =
        [⟨max, c.terms.map Setting.ofObservable⟩])) ∧
    ∀ (n : Nat) (w : R), 2 ≤ n → (w == 0) = false →
      SettingGroup.greedy ((HeisenbergChain.uniform n w).terms.map Setting.ofObservable) =
        [Pauli.x, .y, .z].map (axisGroup n w) ∧
      ∀ axis, (axisGroup n w axis).settings =
          (List.range (n - 1)).map (fun k => Setting.ofObservable (bond k axis w)) ∧
        (axisGroup n w axis).max.observable.coefficient = 1 ∧
        ∀ q, (axisGroup n w axis).max.observable.get? q =
            (if q.index < n then some axis else none) ∧
          (axisGroup n w axis).max.initial.get? q =
            if q.index < n then some Eigenstate.zero else none := by
  refine ⟨fun c => ⟨fun h => by rw [h]; rfl, fun h => ?_⟩, fun n w hn hw => ⟨?_, fun axis => ?_⟩⟩
  · have halong : ∀ s ∈ c.terms.map Setting.ofObservable, s.IsAlong .z := by
      intro s hs
      obtain ⟨p, hp, rfl⟩ := List.mem_map.mp hs
      exact isAlong_of_mem_terms hp
    obtain ⟨max, hmax, _⟩ := SettingGroup.greedy_along (mt List.map_eq_nil_iff.mp h) halong
    exact ⟨max, hmax⟩
  · rw [map_terms_uniform hw]
    exact greedy_bondSettings w hn (by decide)
  · have hlookup : ∀ {α : Type} (a : α) (q : Qubit),
        (QubitMap.ofList ((Qubit.range n).map (·, a))).get? q =
          if q.index < n then some a else none := by
      intro α a q
      simp only [QubitMap.get?_ofList_const, mem_range]
    exact ⟨rfl, rfl, fun q => ⟨hlookup axis q, hlookup Eigenstate.zero q⟩⟩

/-- A field and a coupling share a group although another field is zero. Three qubits have two bonds
along each axis, and `Y` is read on the last of them in the second group. -/
theorem chain_terms_group_by_axis_three :
    let c : IsingChain Float := ⟨[0, 0.5], [-1]⟩
    c.terms ≠ [] ∧ 2 ≤ 3 ∧ ((0.25 : Float) == 0) = false ∧
      (∃ max, SettingGroup.greedy (c.terms.map Setting.ofObservable) =
        [⟨max, c.terms.map Setting.ofObservable⟩]) ∧
      ∃ g : SettingGroup Float,
        (SettingGroup.greedy
          ((HeisenbergChain.uniform 3 0.25).terms.map Setting.ofObservable))[1]? = some g ∧
        g.settings.length = 2 ∧ g.max.observable.get? ⟨2⟩ = some .y ∧
        g.max.observable.get? ⟨3⟩ = none ∧ g.max.initial.get? ⟨2⟩ = some Eigenstate.zero := by
  intro c
  have hterms : c.terms ≠ [] := List.ne_nil_of_length_pos (by decide)
  have hw : ((0.25 : Float) == 0) = false := by decide
  obtain ⟨hising, hheisenberg⟩ := chain_terms_group_by_axis (R := Float)
  obtain ⟨hgroups, haxes⟩ := hheisenberg 3 0.25 (by decide) hw
  obtain ⟨hsettings, _, hget⟩ := haxes .y
  have hsecond := congrArg (fun groups => groups[1]?) hgroups
  exact ⟨hterms, by decide, hw, (hising c).2 hterms, axisGroup 3 0.25 .y, hsecond,
    congrArg List.length hsettings, (hget ⟨2⟩).1, (hget ⟨3⟩).1, (hget ⟨2⟩).2⟩

end PauliEstimation
