import Mathlib.Data.List.Induction
import PauliEstimation.Bindings

namespace PauliEstimation.Bindings

variable {α : Type} {b c : Bindings α}

theorem eq_of_findEntry {es fs : List (String × α)} (hes : (es.map Prod.fst).Nodup)
    (hnames : es.map Prod.fst = fs.map Prod.fst)
    (hvalues : ∀ name, findEntry name es = findEntry name fs) : es = fs := by
  induction es generalizing fs with
  | nil => exact (List.map_eq_nil_iff.mp hnames.symm).symm
  | cons e es ih =>
    cases fs with
    | nil => cases hnames
    | cons f fs =>
      obtain ⟨hname, hrest⟩ := List.cons.inj hnames
      obtain ⟨he, hes⟩ := List.nodup_cons.mp hes
      have hvalue : e.2 = f.2 := by
        have hfound := hvalues e.1
        rw [findEntry, findEntry, if_pos rfl, if_pos hname.symm] at hfound
        exact Option.some.inj hfound
      have hlater : ∀ name, findEntry name es = findEntry name fs := by
        intro name
        by_cases hn : e.1 = name
        · -- the first name is not among the others
          rw [findEntry_eq_none_iff.mpr (hn ▸ he), findEntry_eq_none_iff.mpr (hrest ▸ hn ▸ he)]
        · have hfound := hvalues name
          rwa [findEntry, findEntry, if_neg hn, if_neg (hname ▸ hn)] at hfound
      rw [Prod.ext hname hvalue, ih hes hrest hlater]

/-- Bindings are determined by their names, in order, and the values of these. -/
theorem ext_get? (hnames : b.names = c.names) (hvalues : ∀ name, b.get? name = c.get? name) :
    b = c :=
  Bindings.ext (eq_of_findEntry b.names_nodup hnames hvalues)

theorem names_foldl_set {es : List (String × α)} (h : (es.map Prod.fst).Nodup) (b : Bindings α) :
    (es.foldl (fun b e => b.set e.1 e.2) b).names =
      b.names ++ (es.map Prod.fst).filter (· ∉ b.names) := by
  induction es generalizing b with
  | nil => simp
  | cons e rest ih =>
    obtain ⟨he, hrest⟩ := List.nodup_cons.mp h
    rw [List.foldl_cons, ih hrest, names_set, List.map_cons]
    by_cases hb : e.1 ∈ b.names
    · rw [if_pos hb, List.filter_cons_of_neg (by simpa using hb)]
    · have hfilter : (rest.map Prod.fst).filter (· ∉ b.names ++ [e.1]) =
          (rest.map Prod.fst).filter (· ∉ b.names) := by
        refine List.filter_congr fun name hname => ?_
        have hne : name ≠ e.1 := fun heq => he (heq ▸ hname)
        simp [hne]
      rw [if_neg hb, hfilter, List.filter_cons_of_pos (by simpa using hb), List.append_assoc,
        List.singleton_append]

/-- The names of the first stand first, and those that are new with the second follow. -/
theorem names_extend (b c : Bindings α) :
    (b.extend c).names = b.names ++ c.names.filter (· ∉ b.names) :=
  names_foldl_set c.names_nodup b

/-- A name that is bound again keeps its place. -/
example : ((ofList [("a", 1), ("b", 2)]).extend (ofList [("c", 3), ("a", 4)])).toList =
    [("a", 4), ("b", 2), ("c", 3)] := by
  decide

/-- To assign in the second bindings is to assign in what they extend. -/
theorem extend_set (b c : Bindings α) (name : String) (a : α) :
    b.extend (c.set name a) = (b.extend c).set name a := by
  refine ext_get? ?_ fun other => ?_
  · have hmem : name ∈ (b.extend c).names ↔ name ∈ b.names ∨ name ∈ c.names := by
      rw [names_extend, List.mem_append, List.mem_filter, decide_eq_true_iff]
      tauto
    rw [names_extend, names_set, names_set]
    by_cases hc : name ∈ c.names
    · rw [if_pos hc, if_pos (hmem.mpr (.inr hc)), names_extend]
    · rw [if_neg hc, List.filter_append, names_extend]
      by_cases hb : name ∈ b.names
      · simp [hb]
      · simp [hb, hc]
  · rw [get?_extend, get?_set, get?_set, get?_extend]
    split <;> rfl

/-- To assign one value after another in the second bindings is to assign them in what these
extend. -/
theorem extend_foldl_set (b c : Bindings α) (es : List (String × α)) :
    b.extend (es.foldl (fun c e => c.set e.1 e.2) c) =
      es.foldl (fun b e => b.set e.1 e.2) (b.extend c) := by
  induction es generalizing c with
  | nil => rfl
  | cons e rest ih => rw [List.foldl_cons, List.foldl_cons, ih, extend_set]

theorem extend_assoc (b c d : Bindings α) : (b.extend c).extend d = b.extend (c.extend d) :=
  (extend_foldl_set b c d.entries).symm

@[simp] theorem extend_empty (b : Bindings α) : b.extend empty = b := rfl

@[simp] theorem empty_extend (b : Bindings α) : empty.extend b = b := by
  refine ext_get? ?_ fun name => ?_
  · rw [names_extend]
    simp [names, empty]
  · rw [get?_extend, get?_empty, Option.or_none]

theorem ofList_concat (es : List (String × α)) (e : String × α) :
    ofList (es ++ [e]) = (ofList es).set e.1 e.2 := by
  rw [ofList, List.foldl_append]
  rfl

theorem ofList_append (es fs : List (String × α)) :
    ofList (es ++ fs) = (ofList es).extend (ofList fs) := by
  rw [ofList, List.foldl_append]
  exact (extend_foldl_set _ empty fs).symm

/-- The value of a name is the last that is listed for it. -/
theorem get?_ofList (es : List (String × α)) (name : String) :
    (ofList es).get? name = (es.filter (·.1 = name)).getLast?.map Prod.snd := by
  induction es using List.reverseRecOn with
  | nil => rfl
  | append_singleton es e ih =>
    rw [ofList_concat, get?_set, ih, List.filter_append]
    by_cases he : e.1 = name
    · simp [he]
    · simp [he]

/-- The names are those that are listed, each where it is listed first. -/
theorem names_ofList (es : List (String × α)) :
    (ofList es).names = (es.map Prod.fst).eraseDups := by
  induction es using List.reverseRecOn with
  | nil => rfl
  | append_singleton es e ih =>
    rw [ofList_concat, names_set, ih, List.map_append, List.eraseDups_append]
    by_cases he : e.1 ∈ es.map Prod.fst
    · simp [List.removeAll, he]
    · simp [List.removeAll, he, List.eraseDups_cons]

/-- The ways in which bindings are made. -/
inductive Term (α : Type)
  | empty
  | set (t : Term α) (name : String) (a : α)
  | extend (t u : Term α)
  | ofList (es : List (String × α))

namespace Term

def eval : Term α → Bindings α
  | empty => .empty
  | set t name a => t.eval.set name a
  | extend t u => t.eval.extend u.eval
  | ofList es => .ofList es

/-- All that is assigned, in order, also where a later assignment overwrites it. -/
def assignments : Term α → List (String × α)
  | empty => []
  | set t name a => t.assignments ++ [(name, a)]
  | extend t u => t.assignments ++ u.assignments
  | ofList es => es

theorem eval_eq_ofList (t : Term α) : t.eval = .ofList t.assignments := by
  induction t with
  | empty => rfl
  | set t name a ih => rw [eval, ih, assignments, ofList_concat]
  | extend t u iht ihu => rw [eval, iht, ihu, assignments, ofList_append]
  | ofList es => rfl

theorem get?_eval (t : Term α) (name : String) :
    t.eval.get? name = (t.assignments.filter (·.1 = name)).getLast?.map Prod.snd := by
  rw [eval_eq_ofList, get?_ofList]

theorem names_eval (t : Term α) : t.eval.names = (t.assignments.map Prod.fst).eraseDups := by
  rw [eval_eq_ofList, names_ofList]

end Term

end PauliEstimation.Bindings
