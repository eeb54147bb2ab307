namespace PauliEstimation

@[ext] structure Bindings (α : Type) where
  entries : List (String × α)
  names_nodup : (entries.map Prod.fst).Nodup

namespace Bindings

variable {α : Type}

def setEntry (name : String) (a : α) : List (String × α) → List (String × α)
  | [] => [(name, a)]
  | e :: rest => if e.1 = name then (name, a) :: rest else e :: setEntry name a rest

def findEntry (name : String) : List (String × α) → Option α
  | [] => none
  | e :: rest => if e.1 = name then some e.2 else findEntry name rest

theorem map_fst_setEntry (name : String) (a : α) (es : List (String × α)) :
    (setEntry name a es).map Prod.fst =
      if name ∈ es.map Prod.fst then es.map Prod.fst else es.map Prod.fst ++ [name] := by
  induction es with
  | nil => simp [setEntry]
  | cons e rest ih =>
    by_cases h : e.1 = name
    · simp [setEntry, h]
    · have hm : name ∈ (e :: rest).map Prod.fst ↔ name ∈ rest.map Prod.fst := by
        rw [List.map_cons, List.mem_cons, or_iff_right (Ne.symm h)]
      rw [setEntry, if_neg h, List.map_cons, ih]
      by_cases hr : name ∈ rest.map Prod.fst
      · rw [if_pos hr, if_pos (hm.mpr hr), List.map_cons]
      · rw [if_neg hr, if_neg (mt hm.mp hr), List.map_cons, List.cons_append]

theorem nodup_setEntry {name : String} {a : α} {es : List (String × α)}
    (h : (es.map Prod.fst).Nodup) : ((setEntry name a es).map Prod.fst).Nodup := by
  rw [map_fst_setEntry]
  split
  · exact h
  · next hn =>
    refine List.nodup_append.mpr ⟨h, by simp, ?_⟩
    intro x hx y hy
    rw [List.mem_singleton.mp hy]
    exact fun he => hn (he ▸ hx)

def empty : Bindings α := ⟨[], List.nodup_nil⟩

instance : EmptyCollection (Bindings α) := ⟨empty⟩

instance : Inhabited (Bindings α) := ⟨empty⟩

/-- Binds a name at the end, or overwrites its value where it stands. -/
def set (b : Bindings α) (name : String) (a : α) : Bindings α :=
  ⟨setEntry name a b.entries, nodup_setEntry b.names_nodup⟩

def get? (b : Bindings α) (name : String) : Option α := findEntry name b.entries

/-- Sets every binding of the second, in its order, on the first. -/
def extend (b c : Bindings α) : Bindings α := c.entries.foldl (fun b e => b.set e.1 e.2) b

def ofList (es : List (String × α)) : Bindings α := es.foldl (fun b e => b.set e.1 e.2) empty

def toList (b : Bindings α) : List (String × α) := b.entries

def names (b : Bindings α) : List String := b.entries.map Prod.fst

def size (b : Bindings α) : Nat := b.entries.length

def isEmpty (b : Bindings α) : Bool := b.entries.isEmpty

/-- Bindings are equal when the same names carry equal values in the same order. -/
instance [BEq α] : BEq (Bindings α) := ⟨fun b c => b.entries == c.entries⟩

theorem findEntry_setEntry (name other : String) (a : α) (es : List (String × α)) :
    findEntry other (setEntry name a es) = if name = other then some a else findEntry other es := by
  induction es with
  | nil => rfl
  | cons e rest ih =>
    by_cases h : e.1 = name
    · by_cases ho : name = other <;> simp [setEntry, findEntry, h, ho]
    · rw [setEntry, if_neg h, findEntry, findEntry]
      by_cases ho : e.1 = other
      · have hn : name ≠ other := fun hn => h (ho.trans hn.symm)
        rw [if_pos ho, if_neg hn, if_pos ho]
      · rw [if_neg ho, if_neg ho, ih]

@[simp] theorem get?_empty (name : String) : (empty : Bindings α).get? name = none := rfl

@[simp] theorem get?_set (b : Bindings α) (name other : String) (a : α) :
    (b.set name a).get? other = if name = other then some a else b.get? other :=
  findEntry_setEntry name other a b.entries

theorem findEntry_eq_none_iff {name : String} {es : List (String × α)} :
    findEntry name es = none ↔ name ∉ es.map Prod.fst := by
  induction es with
  | nil => simp [findEntry]
  | cons e rest ih =>
    by_cases h : e.1 = name
    · simp [findEntry, h]
    · rw [findEntry, if_neg h, ih, List.map_cons, List.mem_cons, or_iff_right (Ne.symm h)]

theorem get?_eq_none_iff {b : Bindings α} {name : String} :
    b.get? name = none ↔ name ∉ b.names :=
  findEntry_eq_none_iff

theorem get?_foldl_set {es : List (String × α)} (h : (es.map Prod.fst).Nodup) (b : Bindings α)
    (name : String) :
    (es.foldl (fun b e => b.set e.1 e.2) b).get? name = (findEntry name es).or (b.get? name) := by
  induction es generalizing b with
  | nil => rfl
  | cons e rest ih =>
    obtain ⟨he, hr⟩ := List.nodup_cons.mp h
    rw [List.foldl_cons, ih hr, get?_set, findEntry]
    by_cases hn : e.1 = name
    · rw [if_pos hn, if_pos hn, findEntry_eq_none_iff.mpr (hn ▸ he)]
      rfl
    · rw [if_neg hn, if_neg hn]

/-- The second bindings win. -/
@[simp] theorem get?_extend (b c : Bindings α) (name : String) :
    (b.extend c).get? name = (c.get? name).or (b.get? name) :=
  get?_foldl_set c.names_nodup b name

theorem names_set (b : Bindings α) (name : String) (a : α) :
    (b.set name a).names = if name ∈ b.names then b.names else b.names ++ [name] :=
  map_fst_setEntry name a b.entries

end Bindings

end PauliEstimation
