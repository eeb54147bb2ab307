import PauliEstimation.Qubit

namespace PauliEstimation

@[ext] structure QubitMap (α : Type) where
  entries : List (Qubit × α)
  ascending : entries.Pairwise (·.1 < ·.1)

namespace QubitMap

variable {α : Type}

instance [DecidableEq α] : DecidableEq (QubitMap α) := fun m n =>
  decidable_of_iff (m.entries = n.entries) QubitMap.ext_iff.symm

def insertEntry (q : Qubit) (a : α) : List (Qubit × α) → List (Qubit × α)
  | [] => [(q, a)]
  | e :: rest =>
    if q < e.1 then (q, a) :: e :: rest
    else if e.1 < q then e :: insertEntry q a rest
    else (q, a) :: rest

theorem mem_insertEntry {q : Qubit} {a : α} {es : List (Qubit × α)} {e : Qubit × α}
    (h : e ∈ insertEntry q a es) : e = (q, a) ∨ e ∈ es := by
  induction es with
  | nil => exact Or.inl (by simpa [insertEntry] using h)
  | cons d rest ih =>
    unfold insertEntry at h
    split at h
    · simpa using h
    · split at h
      · rcases List.mem_cons.mp h with rfl | h
        · simp
        · rcases ih h with rfl | h
          · simp
          · simp [h]
      · rcases List.mem_cons.mp h with rfl | h
        · simp
        · simp [h]

theorem pairwise_insertEntry {q : Qubit} {a : α} {es : List (Qubit × α)}
    (h : es.Pairwise (·.1 < ·.1)) : (insertEntry q a es).Pairwise (·.1 < ·.1) := by
  induction es with
  | nil => simp [insertEntry]
  | cons d rest ih =>
    obtain ⟨hd, hr⟩ := List.pairwise_cons.mp h
    unfold insertEntry
    split
    · next hq =>
      refine List.pairwise_cons.mpr ⟨?_, h⟩
      intro e he
      rcases List.mem_cons.mp he with rfl | he
      · exact hq
      · exact Qubit.lt_trans hq (hd e he)
    · split
      · next hq =>
        refine List.pairwise_cons.mpr ⟨?_, ih hr⟩
        intro e he
        rcases mem_insertEntry he with rfl | he
        · exact hq
        · exact hd e he
      · next h₁ h₂ =>
        refine List.pairwise_cons.mpr ⟨?_, hr⟩
        intro e he
        exact Qubit.eq_of_not_lt h₁ h₂ ▸ hd e he

def empty : QubitMap α := ⟨[], List.Pairwise.nil⟩

instance : EmptyCollection (QubitMap α) := ⟨empty⟩

instance : Inhabited (QubitMap α) := ⟨empty⟩

/-- Maps `q` to `a`, whatever it was mapped to before. -/
def insert (m : QubitMap α) (q : Qubit) (a : α) : QubitMap α :=
  ⟨insertEntry q a m.entries, pairwise_insertEntry m.ascending⟩

/-- A repeated qubit keeps its last value. -/
def ofList (es : List (Qubit × α)) : QubitMap α := es.foldl (fun m e => m.insert e.1 e.2) empty

def findEntry (q : Qubit) : List (Qubit × α) → Option α
  | [] => none
  | e :: rest => if e.1 = q then some e.2 else findEntry q rest

def get? (m : QubitMap α) (q : Qubit) : Option α := findEntry q m.entries

def contains (m : QubitMap α) (q : Qubit) : Bool := (m.get? q).isSome

def toList (m : QubitMap α) : List (Qubit × α) := m.entries

def keys (m : QubitMap α) : List Qubit := m.entries.map Prod.fst

def values (m : QubitMap α) : List α := m.entries.map Prod.snd

def size (m : QubitMap α) : Nat := m.entries.length

def isEmpty (m : QubitMap α) : Bool := m.entries.isEmpty

theorem findEntry_insertEntry (q p : Qubit) (a : α) (es : List (Qubit × α)) :
    findEntry p (insertEntry q a es) = if q = p then some a else findEntry p es := by
  induction es with
  | nil => rfl
  | cons d rest ih =>
    unfold insertEntry
    split
    · rfl
    · split
      · next h =>
        by_cases hp : d.1 = p
        · have hne : q ≠ p := fun hq => Qubit.lt_irrefl p (by rwa [hp, hq] at h)
          simp [findEntry, hp, hne]
        · simp [findEntry, hp, ih]
      · next h₁ h₂ =>
        by_cases hp : q = p
        · simp [findEntry, hp]
        · simp [findEntry, hp, ← Qubit.eq_of_not_lt h₁ h₂]

theorem findEntry_eq_none_of_lt {q : Qubit} {es : List (Qubit × α)} (h : ∀ e ∈ es, q < e.1) :
    findEntry q es = none := by
  induction es with
  | nil => rfl
  | cons e rest ih =>
    have hne : e.1 ≠ q := fun he => Qubit.lt_irrefl q (he ▸ h e List.mem_cons_self)
    rw [findEntry, if_neg hne]
    exact ih fun d hd => h d (List.mem_cons_of_mem _ hd)

theorem eq_of_findEntry {es fs : List (Qubit × α)} (hes : es.Pairwise (·.1 < ·.1))
    (hfs : fs.Pairwise (·.1 < ·.1)) (h : ∀ q, findEntry q es = findEntry q fs) : es = fs := by
  induction es generalizing fs with
  | nil => cases fs with
    | nil => rfl
    | cons d fs => simpa [findEntry] using h d.1
  | cons e es ih => cases fs with
    | nil => simpa [findEntry] using h e.1
    | cons d fs =>
      obtain ⟨he, hes⟩ := List.pairwise_cons.mp hes
      obtain ⟨hd, hfs⟩ := List.pairwise_cons.mp hfs
      have hed : e.1 = d.1 := by
        refine Qubit.eq_of_not_lt (fun hlt => ?_) (fun hlt => ?_)
        · have hnone : findEntry e.1 (d :: fs) = none :=
            findEntry_eq_none_of_lt (List.forall_mem_cons.mpr
              ⟨hlt, fun x hx => Qubit.lt_trans hlt (hd x hx)⟩)
          have := h e.1
          rw [hnone, findEntry, if_pos rfl] at this
          exact Option.some_ne_none _ this
        · have hnone : findEntry d.1 (e :: es) = none :=
            findEntry_eq_none_of_lt (List.forall_mem_cons.mpr
              ⟨hlt, fun x hx => Qubit.lt_trans hlt (he x hx)⟩)
          have := h d.1
          rw [hnone, findEntry, if_pos rfl] at this
          exact Option.some_ne_none _ this.symm
      have hval : e.2 = d.2 := by simpa [findEntry, hed] using h e.1
      have htail : es = fs := by
        refine ih hes hfs fun q => ?_
        by_cases hq : e.1 = q
        · subst hq
          rw [findEntry_eq_none_of_lt he, findEntry_eq_none_of_lt (hed ▸ hd)]
        · have := h q
          rwa [findEntry, findEntry, if_neg hq, if_neg (hed ▸ hq)] at this
      rw [htail, Prod.ext hed hval]

/-- A map is determined by its lookups. -/
theorem ext_get? {m n : QubitMap α} (h : ∀ q, m.get? q = n.get? q) : m = n :=
  QubitMap.ext (eq_of_findEntry m.ascending n.ascending h)

theorem findEntry_eq_some_iff {q : Qubit} {a : α} {es : List (Qubit × α)}
    (h : es.Pairwise (·.1 < ·.1)) : findEntry q es = some a ↔ (q, a) ∈ es := by
  induction es with
  | nil => simp [findEntry]
  | cons e rest ih =>
    obtain ⟨he, hr⟩ := List.pairwise_cons.mp h
    by_cases hq : e.1 = q
    · subst hq
      have hm : (e.1, a) ∉ rest := fun hm => Qubit.lt_irrefl e.1 (he (e.1, a) hm)
      rw [findEntry, if_pos rfl, List.mem_cons, or_iff_left hm, Option.some.injEq]
      exact ⟨fun ha => ha ▸ rfl, fun ha => ha ▸ rfl⟩
    · have hne : (q, a) ≠ e := fun ha => hq (ha ▸ rfl)
      rw [findEntry, if_neg hq, ih hr, List.mem_cons, or_iff_right hne]

theorem get?_eq_some_iff {m : QubitMap α} {q : Qubit} {a : α} :
    m.get? q = some a ↔ (q, a) ∈ m.toList :=
  findEntry_eq_some_iff m.ascending

theorem mem_keys_iff {m : QubitMap α} {q : Qubit} : q ∈ m.keys ↔ ∃ a, m.get? q = some a := by
  simp [keys, get?_eq_some_iff, toList]

@[simp] theorem get?_empty (q : Qubit) : (empty : QubitMap α).get? q = none := rfl

@[simp] theorem get?_insert (m : QubitMap α) (q p : Qubit) (a : α) :
    (m.insert q a).get? p = if q = p then some a else m.get? p :=
  findEntry_insertEntry q p a m.entries

end QubitMap

end PauliEstimation
