namespace PauliEstimation

/-- A qubit of a line, addressed by its index. -/
@[ext] structure Qubit where
  index : Nat
deriving DecidableEq, Repr, Inhabited

namespace Qubit

instance : LT Qubit := ⟨fun p q => p.index < q.index⟩

theorem lt_iff {p q : Qubit} : p < q ↔ p.index < q.index := Iff.rfl

instance : DecidableLT Qubit := fun p q => inferInstanceAs (Decidable (p.index < q.index))

theorem lt_irrefl (q : Qubit) : ¬ q < q := Nat.lt_irrefl _

theorem lt_trans {p q r : Qubit} (h : p < q) (h' : q < r) : p < r := Nat.lt_trans h h'

theorem eq_of_not_lt {p q : Qubit} (h : ¬ p < q) (h' : ¬ q < p) : p = q :=
  Qubit.ext (Nat.le_antisymm (Nat.not_lt.mp h') (Nat.not_lt.mp h))

def text (q : Qubit) : String := "q(" ++ toString q.index ++ ")"

/-- The qubits `0, …, n - 1`. -/
def range (n : Nat) : List Qubit := (List.range n).map Qubit.mk

/-- Puts a qubit into an ascending list unless it is there. -/
def insertAscending (q : Qubit) : List Qubit → List Qubit
  | [] => [q]
  | p :: rest =>
    if q < p then q :: p :: rest
    else if p < q then p :: insertAscending q rest
    else p :: rest

/-- The distinct qubits of a list in ascending order. -/
def ascending (qs : List Qubit) : List Qubit := qs.foldr insertAscending []

theorem mem_insertAscending {a q : Qubit} {qs : List Qubit} :
    a ∈ insertAscending q qs ↔ a = q ∨ a ∈ qs := by
  induction qs with
  | nil => simp [insertAscending]
  | cons p rest ih =>
    unfold insertAscending
    split
    · simp
    · split
      · simp [ih, or_left_comm]
      · next h h' => simp [eq_of_not_lt h h']

theorem pairwise_insertAscending {q : Qubit} {qs : List Qubit} (h : qs.Pairwise (· < ·)) :
    (insertAscending q qs).Pairwise (· < ·) := by
  induction qs with
  | nil => simp [insertAscending]
  | cons p rest ih =>
    obtain ⟨hp, hr⟩ := List.pairwise_cons.mp h
    unfold insertAscending
    split
    · next hq =>
      refine List.pairwise_cons.mpr ⟨?_, h⟩
      intro a ha
      rcases List.mem_cons.mp ha with rfl | ha
      · exact hq
      · exact lt_trans hq (hp a ha)
    · split
      · next hq =>
        refine List.pairwise_cons.mpr ⟨?_, ih hr⟩
        intro a ha
        rcases mem_insertAscending.mp ha with rfl | ha
        · exact hq
        · exact hp a ha
      · exact h

@[simp] theorem mem_ascending {a : Qubit} {qs : List Qubit} : a ∈ ascending qs ↔ a ∈ qs := by
  induction qs with
  | nil => simp [ascending]
  | cons q rest ih =>
    rw [ascending, List.foldr_cons, mem_insertAscending, List.mem_cons]
    exact or_congr_right ih

theorem pairwise_ascending (qs : List Qubit) : (ascending qs).Pairwise (· < ·) := by
  induction qs with
  | nil => exact List.Pairwise.nil
  | cons q rest ih => exact pairwise_insertAscending ih

end Qubit

end PauliEstimation
