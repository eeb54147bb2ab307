import PauliEstimation.Mps.Shots

namespace PauliEstimation.RandomStream

/-- Draws that are read through a function afterwards. -/
theorem repeated_map {α β : Type} (draw : RandomStream → α × RandomStream) (f : α → β)
    (n : Nat) (s : RandomStream) :
    repeated (fun s => (f (draw s).1, (draw s).2)) n s =
      ((repeated draw n s).1.map f, (repeated draw n s).2) := by
  induction n with
  | zero => rfl
  | succ n ih => rw [repeated_succ, repeated_succ, ih, List.map_append, List.map_singleton]

theorem length_repeated {α : Type} (draw : RandomStream → α × RandomStream) (n : Nat)
    (s : RandomStream) : (repeated draw n s).1.length = n := by
  induction n with
  | zero => rfl
  | succ n ih => rw [repeated_succ, List.length_append, ih, List.length_singleton]

theorem repeated_add {α : Type} (draw : RandomStream → α × RandomStream) (m n : Nat)
    (s : RandomStream) :
    repeated draw (m + n) s =
      ((repeated draw m s).1 ++ (repeated draw n (repeated draw m s).2).1,
        (repeated draw n (repeated draw m s).2).2) := by
  induction n with
  | zero => simp
  | succ n ih => rw [Nat.add_succ, repeated_succ, ih, repeated_succ, List.append_assoc]

theorem exists_of_mem_repeated {α : Type} {draw : RandomStream → α × RandomStream}
    {n : Nat} {s : RandomStream} {x : α} (h : x ∈ (repeated draw n s).1) :
    ∃ s, (draw s).1 = x := by
  induction n with
  | zero => cases h
  | succ n ih =>
    rw [repeated_succ, List.mem_append, List.mem_singleton] at h
    rcases h with h | rfl
    · exact ih h
    · exact ⟨_, rfl⟩

end PauliEstimation.RandomStream
