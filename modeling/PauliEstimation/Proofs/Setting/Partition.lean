import Mathlib.Data.List.Basic
import Mathlib.Data.List.Induction
import PauliEstimation.Proofs.Setting.Merging
import PauliEstimation.Setting.Grouping

namespace PauliEstimation

variable {R : Type}

namespace SettingGroup

/-- The settings that carry the label `i`, in their order. -/
def labelled (settings : List (Setting R)) (labels : List Nat) (i : Nat) : List (Setting R) :=
  ((settings.zip labels).filter (·.2 = i)).map Prod.fst

theorem labelled_append {settings : List (Setting R)} {labels : List Nat} (s : Setting R)
    (l i : Nat) (h : labels.length = settings.length) :
    labelled (settings ++ [s]) (labels ++ [l]) i =
      labelled settings labels i ++ if l = i then [s] else [] := by
  unfold labelled
  rw [List.zip_append h.symm, List.filter_append, List.map_append]
  by_cases hl : l = i
  · simp [hl]
  · simp [hl]

theorem labelled_of_notMem {settings : List (Setting R)} {labels : List Nat} {i : Nat}
    (h : i ∉ labels) : labelled settings labels i = [] := by
  unfold labelled
  rw [List.map_eq_nil_iff, List.filter_eq_nil_iff]
  intro e he
  have hmem := (List.of_mem_zip he).2
  have hne : e.2 ≠ i := fun hi => h (hi ▸ hmem)
  simpa using hne

/-- Every occurrence of a setting carries the position of its one group. Members stand in their
order, and groups in the order of their first members. -/
structure IsPartition (settings : List (Setting R)) (labels : List Nat)
    (groups : List (SettingGroup R)) : Prop where
  length_labels : labels.length = settings.length
  label_lt : ∀ l ∈ labels, l < groups.length
  settings_eq : ∀ i g, groups[i]? = some g → g.settings = labelled settings labels i
  nonempty : ∀ i < groups.length, i ∈ labels
  ordered : ∀ i j, i < j → j < groups.length → labels.idxOf i < labels.idxOf j

theorem IsPartition.join {settings : List (Setting R)} {labels : List Nat}
    {before after : List (SettingGroup R)} {g : SettingGroup R} (s u : Setting R)
    (h : IsPartition settings labels (before ++ g :: after)) :
    IsPartition (settings ++ [s]) (labels ++ [before.length])
      (before ++ ⟨u, g.settings ++ [s]⟩ :: after) := by
  have hlen : (before ++ (⟨u, g.settings ++ [s]⟩ : SettingGroup R) :: after).length =
      (before ++ g :: after).length := by simp
  constructor
  · simp [h.length_labels]
  · intro l hl
    rw [hlen]
    rcases List.mem_append.mp hl with hl | hl
    · exact h.label_lt l hl
    · simp [List.mem_singleton.mp hl]
  · intro i g' hi
    rw [labelled_append s before.length i h.length_labels]
    by_cases hb : before.length = i
    · subst hb
      have hg : (before ++ g :: after)[before.length]? = some g := by simp
      obtain rfl : (⟨u, g.settings ++ [s]⟩ : SettingGroup R) = g' := by simpa using hi
      rw [if_pos rfl, ← h.settings_eq _ g hg]
    · rw [if_neg hb, List.append_nil]
      apply h.settings_eq
      rw [← hi, List.getElem?_append, List.getElem?_append]
      split
      next => rfl
      next hlt =>
        have hpos : i - before.length ≠ 0 := by omega
        rw [List.getElem?_cons, List.getElem?_cons, if_neg hpos, if_neg hpos]
  · intro i hi
    rw [hlen] at hi
    exact List.mem_append_left _ (h.nonempty i hi)
  · intro i j hij hj
    rw [hlen] at hj
    rw [List.idxOf_append_of_mem (h.nonempty i (by omega)),
      List.idxOf_append_of_mem (h.nonempty j hj)]
    exact h.ordered i j hij hj

theorem IsPartition.opened {settings : List (Setting R)} {labels : List Nat}
    {groups : List (SettingGroup R)} (s u : Setting R) (h : IsPartition settings labels groups) :
    IsPartition (settings ++ [s]) (labels ++ [groups.length]) (groups ++ [⟨u, [s]⟩]) := by
  have hnew : groups.length ∉ labels := fun hm => Nat.lt_irrefl _ (h.label_lt _ hm)
  have hlast : (labels ++ [groups.length]).idxOf groups.length = labels.length := by
    rw [List.idxOf_append_of_notMem hnew, List.idxOf_cons_self, Nat.add_zero]
  constructor
  · simp [h.length_labels]
  · intro l hl
    rw [List.length_append, List.length_singleton]
    rcases List.mem_append.mp hl with hl | hl
    · have := h.label_lt l hl
      omega
    · have := List.mem_singleton.mp hl
      omega
  · intro i g hi
    rw [labelled_append s groups.length i h.length_labels]
    rw [List.getElem?_append] at hi
    split at hi
    next hlt =>
      rw [if_neg (by omega), List.append_nil]
      exact h.settings_eq i g hi
    next hge =>
      have hlt := (List.getElem?_eq_some_iff.mp hi).1
      rw [List.length_singleton] at hlt
      obtain rfl : groups.length = i := by omega
      obtain rfl : (⟨u, [s]⟩ : SettingGroup R) = g := by simpa using hi
      rw [if_pos rfl, labelled_of_notMem hnew, List.nil_append]
  · intro i hi
    rw [List.length_append, List.length_singleton] at hi
    rcases Nat.lt_succ_iff_lt_or_eq.mp hi with hi | rfl
    · exact List.mem_append_left _ (h.nonempty i hi)
    · simp
  · intro i j hij hj
    rw [List.length_append, List.length_singleton] at hj
    have hi := h.nonempty i (by omega)
    rw [List.idxOf_append_of_mem hi]
    rcases Nat.lt_succ_iff_lt_or_eq.mp hj with hj | rfl
    · rw [List.idxOf_append_of_mem (h.nonempty j hj)]
      exact h.ordered i j hij hj
    · rw [hlast]
      exact List.idxOf_lt_length_of_mem hi

variable [One R]

/-- The max setting of a group has coefficient one and exactly the entries of its members. -/
structure IsUnion (g : SettingGroup R) : Prop where
  coefficient_eq : g.max.observable.coefficient = 1
  observable_iff : ∀ q axis, g.max.observable.get? q = some axis ↔
    ∃ s ∈ g.settings, s.observable.get? q = some axis
  initial_iff : ∀ q state, g.max.initial.get? q = some state ↔
    ∃ s ∈ g.settings, s.initial.get? q = some state

theorem isUnion_singleton (s : Setting R) : IsUnion ⟨s.unscaled, [s]⟩ :=
  ⟨rfl, fun q axis => by simp [Setting.unscaled, PauliString.get?],
    fun q state => by simp [Setting.unscaled]⟩

theorem IsUnion.merge {g : SettingGroup R} {s u : Setting R} (h : g.IsUnion)
    (hm : g.max.mergedWith? s = some u) : IsUnion ⟨u, g.settings ++ [s]⟩ := by
  obtain ⟨hc, hobs, hinit⟩ := Setting.mergedWith?_eq_some hm
  refine ⟨hc, fun q axis => ?_, fun q state => ?_⟩
  · have hg := h.observable_iff q axis
    have hu := Setting.get?_union?_eq_some_iff hobs (q := q) (a := axis)
    simp only [PauliString.get?, List.mem_append, List.mem_singleton, or_and_right, exists_or,
      exists_eq_left] at hg ⊢
    rw [hu, hg]
  · rw [Setting.get?_union?_eq_some_iff hinit, h.initial_iff]
    simp only [List.mem_append, List.mem_singleton, or_and_right, exists_or, exists_eq_left]

theorem IsUnion.isCompatibleWith {g : SettingGroup R} {s : Setting R} (h : g.IsUnion)
    (hs : s ∈ g.settings) : s.IsCompatibleWith g.max := by
  constructor
  · intro f hf
    exact (h.observable_iff f.1 f.2).mpr ⟨s, hs, QubitMap.get?_eq_some_iff.mpr hf⟩
  · intro f hf
    exact (h.initial_iff f.1 f.2).mpr ⟨s, hs, QubitMap.get?_eq_some_iff.mpr hf⟩

/-- A setting joins the first group that it can be merged into, or opens one at the end. -/
theorem place_cases (s : Setting R) (groups : List (SettingGroup R)) :
    (∃ before g after u, groups = before ++ g :: after ∧
      (∀ h ∈ before, h.max.mergedWith? s = none) ∧ g.max.mergedWith? s = some u ∧
      place s groups = before ++ ⟨u, g.settings ++ [s]⟩ :: after) ∨
    ((∀ h ∈ groups, h.max.mergedWith? s = none) ∧
      place s groups = groups ++ [⟨s.unscaled, [s]⟩]) := by
  induction groups with
  | nil => exact Or.inr ⟨by simp, rfl⟩
  | cons g rest ih =>
    cases hm : g.max.mergedWith? s with
    | some u => exact Or.inl ⟨[], g, rest, u, rfl, by simp, hm, by simp [place, hm]⟩
    | none =>
      have hplace : place s (g :: rest) = g :: place s rest := by simp [place, hm]
      rcases ih with ⟨before, g', after, u, rfl, hb, hu, hp⟩ | ⟨hall, hp⟩
      · refine Or.inl ⟨g :: before, g', after, u, rfl, ?_, hu, by rw [hplace, hp]; rfl⟩
        exact List.forall_mem_cons.mpr ⟨hm, hb⟩
      · exact Or.inr ⟨List.forall_mem_cons.mpr ⟨hm, hall⟩, by rw [hplace, hp]; rfl⟩

/-- No setting of the second group can be merged into the first. -/
def Excludes (g h : SettingGroup R) : Prop := ∀ s ∈ h.settings, g.max.mergedWith? s = none

theorem Excludes.grow {g h : SettingGroup R} {s u : Setting R} (settings : List (Setting R))
    (he : g.Excludes h) (hu : g.max.mergedWith? s = some u) : Excludes ⟨u, settings⟩ h := by
  obtain ⟨_, hobs, hinit⟩ := Setting.mergedWith?_eq_some hu
  intro t ht
  refine Setting.mergedWith?_eq_none_of_extends (he t ht) ?_ ?_
  · exact fun q a ha => (Setting.get?_union?_eq_some_iff hobs).mpr (Or.inl ha)
  · exact fun q a ha => (Setting.get?_union?_eq_some_iff hinit).mpr (Or.inl ha)

theorem Excludes.append {g h : SettingGroup R} {s : Setting R} (max : Setting R)
    (he : g.Excludes h) (hs : g.max.mergedWith? s = none) :
    g.Excludes ⟨max, h.settings ++ [s]⟩ := by
  intro t ht
  rcases List.mem_append.mp ht with ht | ht
  · exact he t ht
  · exact List.mem_singleton.mp ht ▸ hs

/-- Growing one group keeps what its max setting excludes, and the groups before it exclude the new
member too. -/
theorem pairwise_excludes_join {before after : List (SettingGroup R)} {g : SettingGroup R}
    {s u : Setting R} (h : (before ++ g :: after).Pairwise Excludes)
    (hb : ∀ g' ∈ before, g'.max.mergedWith? s = none) (hu : g.max.mergedWith? s = some u) :
    (before ++ ⟨u, g.settings ++ [s]⟩ :: after).Pairwise Excludes := by
  obtain ⟨hbefore, htail, hcross⟩ := List.pairwise_append.mp h
  obtain ⟨hafter, hrest⟩ := List.pairwise_cons.mp htail
  refine List.pairwise_append.mpr ⟨hbefore, List.pairwise_cons.mpr ⟨?_, hrest⟩, ?_⟩
  · exact fun g' hg' => (hafter g' hg').grow _ hu
  · intro g' hg' d hd
    rcases List.mem_cons.mp hd with rfl | hd
    · exact (hcross g' hg' g List.mem_cons_self).append u (hb g' hg')
    · exact hcross g' hg' d (List.mem_cons_of_mem _ hd)

theorem pairwise_excludes_opened {groups : List (SettingGroup R)} {s : Setting R} (max : Setting R)
    (h : groups.Pairwise Excludes) (hs : ∀ g ∈ groups, g.max.mergedWith? s = none) :
    (groups ++ [SettingGroup.mk max [s]]).Pairwise Excludes := by
  refine List.pairwise_append.mpr ⟨h, List.pairwise_singleton _ _, ?_⟩
  intro g hg d hd t ht
  rw [List.mem_singleton.mp hd] at ht
  exact List.mem_singleton.mp ht ▸ hs g hg

/-- What greedy grouping keeps from one setting to the next. -/
structure IsFaithful (settings : List (Setting R)) (groups : List (SettingGroup R)) : Prop where
  partition : ∃ labels, IsPartition settings labels groups
  union : ∀ g ∈ groups, g.IsUnion
  excludes : groups.Pairwise Excludes

theorem IsFaithful.place {settings : List (Setting R)} {groups : List (SettingGroup R)}
    (h : IsFaithful settings groups) (s : Setting R) :
    IsFaithful (settings ++ [s]) (place s groups) := by
  obtain ⟨labels, hpart⟩ := h.partition
  rcases place_cases s groups with ⟨before, g, after, u, rfl, hb, hu, hp⟩ | ⟨hall, hp⟩
  · rw [hp]
    obtain ⟨hbefore, htail⟩ := List.forall_mem_append.mp h.union
    obtain ⟨hg, hafter⟩ := List.forall_mem_cons.mp htail
    exact ⟨⟨_, hpart.join s u⟩,
      List.forall_mem_append.mpr ⟨hbefore, List.forall_mem_cons.mpr ⟨hg.merge hu, hafter⟩⟩,
      pairwise_excludes_join h.excludes hb hu⟩
  · rw [hp]
    exact ⟨⟨_, hpart.opened s s.unscaled⟩,
      List.forall_mem_append.mpr ⟨h.union, List.forall_mem_singleton.mpr (isUnion_singleton s)⟩,
      pairwise_excludes_opened s.unscaled h.excludes hall⟩

theorem isFaithful_greedy (settings : List (Setting R)) :
    IsFaithful settings (greedy settings) := by
  induction settings using List.reverseRecOn with
  | nil => exact ⟨⟨[], by constructor <;> simp [greedy]⟩, by simp [greedy], List.Pairwise.nil⟩
  | append_singleton settings s ih =>
    have hstep : greedy (settings ++ [s]) = SettingGroup.place s (greedy settings) := by
      simp [greedy]
    rw [hstep]
    exact ih.place s

end SettingGroup

/-- Greedy grouping parts the settings among the groups. Each group is the union of its members, who
are compatible with it, and conflicts with all members of later groups. -/
theorem greedy_groups_are_faithful [One R] (settings : List (Setting R)) :
    (∃ labels, SettingGroup.IsPartition settings labels (SettingGroup.greedy settings)) ∧
      (∀ g ∈ SettingGroup.greedy settings,
        g.IsUnion ∧ ∀ s ∈ g.settings, s.IsCompatibleWith g.max) ∧
      (SettingGroup.greedy settings).Pairwise fun g h =>
        ∀ s ∈ h.settings, g.max.mergedWith? s = none := by
  have h := SettingGroup.isFaithful_greedy settings
  refine ⟨h.partition, fun g hg => ?_, h.excludes⟩
  exact ⟨h.union g hg, fun s hs => (h.union g hg).isCompatibleWith hs⟩

end PauliEstimation
