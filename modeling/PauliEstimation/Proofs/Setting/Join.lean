import PauliEstimation.Proofs.QubitMap
import PauliEstimation.Proofs.Setting.Merging

namespace PauliEstimation.Setting

section Union

variable {α : Type} [DecidableEq α] {l m n u : QubitMap α}

/-- The union of two maps is the map with the entries of either. -/
theorem union?_eq_some_iff : union? m n = some u ↔
    ∀ q a, u.get? q = some a ↔ m.get? q = some a ∨ n.get? q = some a := by
  constructor
  · intro h q a
    exact get?_union?_eq_some_iff h
  · intro h
    have hagree : m.Agrees n := by
      intro q a b ha hb
      have hu := (h q a).mpr (Or.inl ha)
      exact Option.some.inj (hu.symm.trans ((h q b).mpr (Or.inr hb)))
    obtain ⟨v, hv⟩ := exists_union? hagree
    have huv : u = v := by
      refine QubitMap.ext_get? fun q => Option.ext fun a => ?_
      rw [h, get?_union?_eq_some_iff hv]
    rw [hv, huv]

theorem union?_comm (m n : QubitMap α) : union? m n = union? n m := by
  refine Option.ext fun u => ?_
  rw [union?_eq_some_iff, union?_eq_some_iff]
  simp only [or_comm]

theorem union?_self (m : QubitMap α) : union? m m = some m :=
  union?_eq_some_iff.mpr fun _ _ => (or_self_iff).symm

/-- The union of three maps, the first two united first. -/
theorem bind_union?_eq_some_iff : ((union? l m).bind fun v => union? v n) = some u ↔
    ∀ q a, u.get? q = some a ↔ l.get? q = some a ∨ m.get? q = some a ∨ n.get? q = some a := by
  constructor
  · intro h q a
    obtain ⟨v, hv, hu⟩ := Option.bind_eq_some_iff.mp h
    rw [union?_eq_some_iff.mp hu, union?_eq_some_iff.mp hv, or_assoc]
  · intro h
    -- all three lie in `u`, so that the first two agree
    have hagree : l.Agrees m := by
      intro q a b ha hb
      have hu := (h q a).mpr (Or.inl ha)
      exact Option.some.inj (hu.symm.trans ((h q b).mpr (Or.inr (Or.inl hb))))
    obtain ⟨v, hv⟩ := exists_union? hagree
    refine Option.bind_eq_some_iff.mpr ⟨v, hv, union?_eq_some_iff.mpr fun q a => ?_⟩
    rw [h, union?_eq_some_iff.mp hv, or_assoc]

theorem union?_assoc (l m n : QubitMap α) :
    ((union? l m).bind fun v => union? v n) = (union? m n).bind fun v => union? l v := by
  have hcomm : ((union? m n).bind fun v => union? l v) = (union? m n).bind fun v => union? v l := by
    simp only [union?_comm l]
  rw [hcomm]
  refine Option.ext fun u => ?_
  rw [bind_union?_eq_some_iff, bind_union?_eq_some_iff]
  simp only [or_comm, or_left_comm]

omit [DecidableEq α] in
theorem within_iff : Within m n ↔ ∀ q a, m.get? q = some a → n.get? q = some a :=
  ⟨fun h q a ha => h (q, a) (QubitMap.get?_eq_some_iff.mp ha),
    fun h f hf => h f.1 f.2 (QubitMap.get?_eq_some_iff.mpr hf)⟩

/-- A union lies within the maps that both lie within, and in no others. -/
theorem within_of_union? (h : union? m n = some u) :
    Within u l ↔ Within m l ∧ Within n l := by
  rw [within_iff, within_iff, within_iff]
  have hu := union?_eq_some_iff.mp h
  constructor
  · intro hl
    exact ⟨fun q a ha => hl q a ((hu q a).mpr (Or.inl ha)),
      fun q a ha => hl q a ((hu q a).mpr (Or.inr ha))⟩
  · rintro ⟨hm, hn⟩ q a ha
    rcases (hu q a).mp ha with ha | ha
    · exact hm q a ha
    · exact hn q a ha

end Union

variable {R : Type} [One R] {r s t u v : Setting R}

omit [One R] in
theorem isCompatibleWith_refl (s : Setting R) : s.IsCompatibleWith s :=
  ⟨within_iff.mpr fun _ _ ha => ha, within_iff.mpr fun _ _ ha => ha⟩

theorem mergedWith?_eq_some_iff : s.mergedWith? t = some u ↔ u.observable.coefficient = 1 ∧
    union? s.observable.factors t.observable.factors = some u.observable.factors ∧
      union? s.initial t.initial = some u.initial := by
  constructor
  · exact mergedWith?_eq_some
  · rintro ⟨hc, hf, hi⟩
    obtain ⟨initial, coefficient, factors⟩ := u
    obtain rfl : coefficient = 1 := hc
    exact Option.bind_eq_some_iff.mpr ⟨factors, hf, Option.bind_eq_some_iff.mpr ⟨initial, hi, rfl⟩⟩

theorem exists_mergedWith?_iff : (∃ u, s.mergedWith? t = some u) ↔ s.Agrees t := by
  constructor
  · rintro ⟨u, h⟩
    exact agrees_of_mergedWith? h
  · intro hagree
    cases hm : s.mergedWith? t with
    | none => exact absurd hagree (mergedWith?_eq_none_iff.mp hm)
    | some u => exact ⟨u, rfl⟩

/-- A merged setting is compatible with the settings that both are compatible with, and with no
others. -/
theorem isCompatibleWith_of_mergedWith? (h : s.mergedWith? t = some u) :
    u.IsCompatibleWith v ↔ s.IsCompatibleWith v ∧ t.IsCompatibleWith v := by
  obtain ⟨_, hf, hi⟩ := mergedWith?_eq_some h
  unfold IsCompatibleWith
  rw [within_of_union? hf, within_of_union? hi, and_and_and_comm]

theorem mergedWith?_comm (s t : Setting R) : s.mergedWith? t = t.mergedWith? s := by
  unfold mergedWith?
  rw [union?_comm s.observable.factors, union?_comm s.initial]

theorem mergedWith?_self (s : Setting R) : s.mergedWith? s = some s.unscaled :=
  mergedWith?_eq_some_iff.mpr ⟨rfl, union?_self _, union?_self _⟩

/-- Merging twice unites the maps twice. -/
theorem bind_mergedWith?_eq_some_iff : ((s.mergedWith? t).bind fun v => v.mergedWith? r) = some u ↔
    u.observable.coefficient = 1 ∧
      ((union? s.observable.factors t.observable.factors).bind fun m =>
        union? m r.observable.factors) = some u.observable.factors ∧
      ((union? s.initial t.initial).bind fun m => union? m r.initial) = some u.initial := by
  simp only [Option.bind_eq_some_iff, mergedWith?_eq_some_iff]
  constructor
  · rintro ⟨v, ⟨_, hf, hi⟩, hc, hf', hi'⟩
    exact ⟨hc, ⟨_, hf, hf'⟩, ⟨_, hi, hi'⟩⟩
  · rintro ⟨hc, ⟨factors, hf, hf'⟩, ⟨initial, hi, hi'⟩⟩
    exact ⟨⟨initial, 1, factors⟩, ⟨rfl, hf, hi⟩, hc, hf', hi'⟩

theorem mergedWith?_assoc (s t r : Setting R) :
    ((s.mergedWith? t).bind fun v => v.mergedWith? r) =
      (t.mergedWith? r).bind fun v => s.mergedWith? v := by
  have hcomm : ((t.mergedWith? r).bind fun v => s.mergedWith? v) =
      (t.mergedWith? r).bind fun v => v.mergedWith? s := by
    simp only [mergedWith?_comm s]
  rw [hcomm]
  refine Option.ext fun u => ?_
  rw [bind_mergedWith?_eq_some_iff, bind_mergedWith?_eq_some_iff, union?_assoc, union?_assoc]
  simp only [union?_comm s.observable.factors, union?_comm s.initial]

section Factors

/-- Multiplies one factor in where none is, and fails where another is. -/
def multiplyIn? {α σ : Type} [DecidableEq α] (get? : σ → Qubit → Option α)
    (with? : σ → Qubit → α → Except Fault σ) (s : σ) (f : Qubit × α) : Option σ :=
  match get? s f.1 with
  | none => (with? s f.1 f.2).toOption
  | some a => if a = f.2 then some s else none

/-- A merge that starts from the identity and multiplies in one factor after the other. -/
def mergedByFactors? (s t : Setting R) : Option (Setting R) := do
  let own ← (PauliString.ofFactors? 1 s.observable.factors.toList).toOption
  let observable ← t.observable.factors.toList.foldlM
    (multiplyIn? PauliString.get? PauliString.with?) own
  let initial ← t.initial.toList.foldlM (multiplyIn? QubitMap.get? ProductState.with?)
    (QubitMap.ofList s.initial.toList)
  return ⟨initial, observable⟩

omit [One R] in
theorem foldlM_with?_of_fresh {es : List (Qubit × Pauli)} {c : R} {m : QubitMap Pauli}
    (hn : (es.map Prod.fst).Nodup) (hm : ∀ q ∈ es.map Prod.fst, m.get? q = none) :
    es.foldlM (fun s f => s.with? f.1 f.2) (PauliString.mk c m) =
      .ok ⟨c, es.foldl (fun m e => m.insert e.1 e.2) m⟩ := by
  induction es generalizing m with
  | nil => rfl
  | cons e rest ih =>
    obtain ⟨he, hrest⟩ := List.nodup_cons.mp hn
    obtain ⟨hfresh, hlater⟩ := List.forall_mem_cons.mp hm
    have hwith : (PauliString.mk c m).with? e.1 e.2 = .ok ⟨c, m.insert e.1 e.2⟩ := by
      simp [PauliString.with?, QubitMap.contains, hfresh]
    have hnone : ∀ q ∈ rest.map Prod.fst, (m.insert e.1 e.2).get? q = none := by
      intro q hq
      have hne : e.1 ≠ q := fun heq => he (heq ▸ hq)
      rw [QubitMap.get?_insert, if_neg hne, hlater q hq]
    rw [List.foldlM_cons, hwith, List.foldl_cons]
    exact ih hrest hnone

omit [One R] in
/-- The factors of a string multiply to the string again. -/
theorem ofFactors?_toList (c : R) (m : QubitMap Pauli) :
    PauliString.ofFactors? c m.toList = .ok ⟨c, m⟩ := by
  have hfold := foldlM_with?_of_fresh (c := c) m.nodup_keys fun _ _ => QubitMap.get?_empty _
  exact hfold.trans (congrArg (fun m => Except.ok (PauliString.mk c m)) m.ofList_toList)

omit [One R] in
theorem foldlM_multiplyIn?_with? (c : R) (es : List (Qubit × Pauli)) (m : QubitMap Pauli) :
    es.foldlM (multiplyIn? PauliString.get? PauliString.with?) ⟨c, m⟩ =
      (es.foldlM addFactor? m).map (PauliString.mk c) := by
  induction es generalizing m with
  | nil => rfl
  | cons e rest ih =>
    have hstep : multiplyIn? PauliString.get? PauliString.with? ⟨c, m⟩ e =
        (addFactor? m e).map (PauliString.mk c) := by
      unfold multiplyIn? addFactor?
      cases hm : m.get? e.1 with
      | none => simp [PauliString.get?, PauliString.with?, QubitMap.contains, hm, Except.toOption]
      | some a => by_cases ha : a = e.2 <;> simp [PauliString.get?, hm, ha]
    rw [List.foldlM_cons, List.foldlM_cons, hstep]
    cases addFactor? m e with
    | none => rfl
    | some v => exact ih v

theorem multiplyIn?_productWith? :
    multiplyIn? QubitMap.get? ProductState.with? = addFactor? (α := Eigenstate) := by
  funext m e
  unfold multiplyIn? addFactor?
  cases hm : m.get? e.1 with
  | none => simp [ProductState.with?, QubitMap.contains, hm, Except.toOption]
  | some a => rfl

/-- No factor is multiplied in where one stands, so that the factors never overlap. -/
theorem mergedByFactors?_eq (s t : Setting R) : s.mergedByFactors? t = s.mergedWith? t := by
  unfold mergedByFactors? mergedWith?
  rw [ofFactors?_toList, multiplyIn?_productWith?, QubitMap.ofList_toList, union?_eq_foldlM,
    union?_eq_foldlM]
  simp only [Except.toOption, bind, Option.bind]
  rw [foldlM_multiplyIn?_with?]
  cases t.observable.factors.toList.foldlM addFactor? s.observable.factors with
  | none => rfl
  | some m => rfl

end Factors

end PauliEstimation.Setting

namespace PauliEstimation

/-- Two settings can be merged exactly when they agree on the qubits they share. The merged setting
has coefficient one and is the least that both are compatible with. Merging is commutative and, as a
partial operation, associative; a setting merged with itself is the unscaled setting. All merged
settings have coefficient one, so these equations also hold where coefficients are compared. -/
theorem merging_joins {R : Type} [One R] (r s t : Setting R) :
    ((∃ u, s.mergedWith? t = some u) ↔ s.Agrees t) ∧
      (∀ u, s.mergedWith? t = some u → u.observable.coefficient = 1 ∧
        s.IsCompatibleWith u ∧ t.IsCompatibleWith u ∧
        ∀ v, s.IsCompatibleWith v → t.IsCompatibleWith v → u.IsCompatibleWith v) ∧
      s.mergedWith? t = t.mergedWith? s ∧
      ((s.mergedWith? t).bind fun u => u.mergedWith? r) =
        (t.mergedWith? r).bind (fun u => s.mergedWith? u) ∧
      s.mergedWith? s = some s.unscaled := by
  refine ⟨Setting.exists_mergedWith?_iff, fun u h => ?_, Setting.mergedWith?_comm s t,
    Setting.mergedWith?_assoc s t r, Setting.mergedWith?_self s⟩
  have hcompatible := fun v => Setting.isCompatibleWith_of_mergedWith? (v := v) h
  obtain ⟨hs, ht⟩ := (hcompatible u).mp (Setting.isCompatibleWith_refl u)
  exact ⟨(Setting.mergedWith?_eq_some h).1, hs, ht, fun v hv hv' => (hcompatible v).mpr ⟨hv, hv'⟩⟩

/-- `Z` on one qubit and `X` on another. -/
theorem merging_joins_apart :
    let s : Setting Float := Setting.ofObservable (PauliString.single ⟨0⟩ .z)
    let t : Setting Float := Setting.ofObservable (PauliString.single ⟨1⟩ .x)
    ∃ u, s.mergedWith? t = some u ∧ u.observable.qubits = [⟨0⟩, ⟨1⟩] ∧ s.IsCompatibleWith u ∧
      t.IsCompatibleWith u ∧ t.mergedWith? s = some u := by
  intro s t
  obtain ⟨_, hleast, hcomm, _⟩ := merging_joins s s t
  obtain ⟨u, hu, hqubits⟩ : ∃ u, s.mergedWith? t = some u ∧ u.observable.qubits = [⟨0⟩, ⟨1⟩] :=
    ⟨_, rfl, rfl⟩
  obtain ⟨_, hs, ht, _⟩ := hleast u hu
  exact ⟨u, hu, hqubits, hs, ht, hcomm.symm.trans hu⟩

end PauliEstimation
