import PauliEstimation.Setting

namespace PauliEstimation

/-- Two maps give the qubits they share the same values. -/
def QubitMap.Agrees {α : Type} (m n : QubitMap α) : Prop :=
  ∀ q a b, m.get? q = some a → n.get? q = some b → a = b

theorem QubitMap.Agrees.of_extends {α : Type} {m m' n : QubitMap α} (h : m'.Agrees n)
    (hext : ∀ q a, m.get? q = some a → m'.get? q = some a) : m.Agrees n :=
  fun q a b hm hn => h q a b (hext q a hm) hn

namespace Setting

section Union

variable {α : Type} [DecidableEq α]

/-- Adds one entry of the second map to the first. -/
def addFactor? (m : QubitMap α) (f : Qubit × α) : Option (QubitMap α) :=
  match m.get? f.1 with
  | none => some (m.insert f.1 f.2)
  | some a => if a = f.2 then some m else none

theorem union?_eq_foldlM (m n : QubitMap α) : union? m n = n.toList.foldlM addFactor? m := rfl

theorem addFactor?_eq_some {m u : QubitMap α} {f : Qubit × α} (h : addFactor? m f = some u) :
    (∀ a, m.get? f.1 = some a → a = f.2) ∧ u.get? f.1 = some f.2 ∧
      ∀ q, q ≠ f.1 → u.get? q = m.get? q := by
  unfold addFactor? at h
  split at h
  next hm =>
    cases Option.some.inj h
    refine ⟨by simp [hm], by simp, fun q hq => ?_⟩
    rw [QubitMap.get?_insert, if_neg (Ne.symm hq)]
  next a hm =>
    split at h
    next ha =>
      cases Option.some.inj h
      exact ⟨fun b hb => (Option.some.inj (hm.symm.trans hb)).symm.trans ha, ha ▸ hm,
        fun _ _ => rfl⟩
    next => cases h

theorem exists_addFactor? {m : QubitMap α} {f : Qubit × α}
    (h : ∀ a, m.get? f.1 = some a → a = f.2) : ∃ u, addFactor? m f = some u := by
  unfold addFactor?
  split
  next => exact ⟨_, rfl⟩
  next a hm => exact ⟨m, if_pos (h a hm)⟩

theorem foldlM_addFactor?_eq_some {es : List (Qubit × α)} {m u : QubitMap α}
    (hasc : es.Pairwise (·.1 < ·.1)) (h : es.foldlM addFactor? m = some u) :
    (∀ e ∈ es, ∀ a, m.get? e.1 = some a → a = e.2) ∧
      ∀ q, u.get? q = (QubitMap.findEntry q es).or (m.get? q) := by
  induction es generalizing m with
  | nil =>
    cases Option.some.inj h
    exact ⟨by simp, fun q => rfl⟩
  | cons e rest ih =>
    obtain ⟨he, hrest⟩ := List.pairwise_cons.mp hasc
    obtain ⟨v, hv, h⟩ := Option.bind_eq_some_iff.mp h
    obtain ⟨hagree, hself, hother⟩ := addFactor?_eq_some hv
    obtain ⟨hih, hget⟩ := ih hrest h
    constructor
    · intro d hd a ha
      rcases List.mem_cons.mp hd with rfl | hd
      · exact hagree a ha
      · have hne : d.1 ≠ e.1 := fun hde => Qubit.lt_irrefl e.1 (hde ▸ he d hd)
        exact hih d hd a ((hother d.1 hne).trans ha)
    · intro q
      rw [hget, QubitMap.findEntry]
      by_cases hq : e.1 = q
      · subst hq
        rw [if_pos rfl, QubitMap.findEntry_eq_none_of_lt he, hself]
        rfl
      · rw [if_neg hq, hother q (Ne.symm hq)]

theorem exists_foldlM_addFactor? {es : List (Qubit × α)} {m : QubitMap α}
    (hasc : es.Pairwise (·.1 < ·.1)) (h : ∀ e ∈ es, ∀ a, m.get? e.1 = some a → a = e.2) :
    ∃ u, es.foldlM addFactor? m = some u := by
  induction es generalizing m with
  | nil => exact ⟨m, rfl⟩
  | cons e rest ih =>
    obtain ⟨he, hrest⟩ := List.pairwise_cons.mp hasc
    obtain ⟨v, hv⟩ := exists_addFactor? (h e (by simp))
    obtain ⟨_, _, hother⟩ := addFactor?_eq_some hv
    obtain ⟨u, hu⟩ := ih (m := v) hrest fun d hd a ha => by
      have hne : d.1 ≠ e.1 := fun hde => Qubit.lt_irrefl e.1 (hde ▸ he d hd)
      exact h d (List.mem_cons_of_mem _ hd) a ((hother d.1 hne).symm.trans ha)
    exact ⟨u, Option.bind_eq_some_iff.mpr ⟨v, hv, hu⟩⟩

theorem union?_eq_some {m n u : QubitMap α} (h : union? m n = some u) :
    m.Agrees n ∧ ∀ q, u.get? q = (n.get? q).or (m.get? q) := by
  rw [union?_eq_foldlM] at h
  obtain ⟨hagree, hget⟩ := foldlM_addFactor?_eq_some n.ascending h
  exact ⟨fun q a b ha hb => hagree (q, b) (QubitMap.get?_eq_some_iff.mp hb) a ha, hget⟩

theorem exists_union? {m n : QubitMap α} (h : m.Agrees n) : ∃ u, union? m n = some u :=
  exists_foldlM_addFactor? n.ascending fun e he a ha =>
    h e.1 a e.2 ha (QubitMap.get?_eq_some_iff.mpr he)

/-- Where the maps agree, their union has exactly the entries of either. -/
theorem get?_union?_eq_some_iff {m n u : QubitMap α} (h : union? m n = some u) {q : Qubit} {a : α} :
    u.get? q = some a ↔ m.get? q = some a ∨ n.get? q = some a := by
  obtain ⟨hagree, hget⟩ := union?_eq_some h
  rw [hget, Option.or_eq_some_iff]
  constructor
  · rintro (hn | ⟨_, hm⟩)
    · exact Or.inr hn
    · exact Or.inl hm
  · rintro (hm | hn)
    · cases hn : n.get? q with
      | none => exact Or.inr ⟨rfl, hm⟩
      | some b => exact Or.inl (congrArg some (hagree q a b hm hn).symm)
    · exact Or.inl hn

end Union

variable {R : Type} [One R]

theorem mergedWith?_eq_some {s t u : Setting R} (h : s.mergedWith? t = some u) :
    u.observable.coefficient = 1 ∧
      union? s.observable.factors t.observable.factors = some u.observable.factors ∧
      union? s.initial t.initial = some u.initial := by
  obtain ⟨factors, hf, h⟩ := Option.bind_eq_some_iff.mp h
  obtain ⟨initial, hi, h⟩ := Option.bind_eq_some_iff.mp h
  cases Option.some.inj h
  exact ⟨rfl, hf, hi⟩

/-- Two settings can be merged when they prepare and read the qubits they share alike. -/
def Agrees (s t : Setting R) : Prop :=
  s.observable.factors.Agrees t.observable.factors ∧ s.initial.Agrees t.initial

theorem agrees_of_mergedWith? {s t u : Setting R} (h : s.mergedWith? t = some u) : s.Agrees t := by
  obtain ⟨_, hf, hi⟩ := mergedWith?_eq_some h
  exact ⟨(union?_eq_some hf).1, (union?_eq_some hi).1⟩

theorem mergedWith?_eq_none_iff {s t : Setting R} : s.mergedWith? t = none ↔ ¬ s.Agrees t := by
  constructor
  · intro h hagree
    obtain ⟨factors, hf⟩ := exists_union? hagree.1
    obtain ⟨initial, hi⟩ := exists_union? hagree.2
    simp [mergedWith?, hf, hi] at h
  · intro h
    cases hm : s.mergedWith? t with
    | none => rfl
    | some u => exact absurd (agrees_of_mergedWith? hm) h

/-- A conflict with a setting outlasts every growth of that setting. -/
theorem mergedWith?_eq_none_of_extends {s s' t : Setting R} (h : s.mergedWith? t = none)
    (hobs : ∀ q a, s.observable.get? q = some a → s'.observable.get? q = some a)
    (hinit : ∀ q a, s.initial.get? q = some a → s'.initial.get? q = some a) :
    s'.mergedWith? t = none := by
  rw [mergedWith?_eq_none_iff] at h ⊢
  exact fun hagree => h ⟨hagree.1.of_extends hobs, hagree.2.of_extends hinit⟩

end Setting

end PauliEstimation
