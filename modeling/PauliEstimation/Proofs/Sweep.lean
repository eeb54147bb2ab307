import PauliEstimation.Proofs.Bindings
import PauliEstimation.Proofs.Traversal
import PauliEstimation.Sweep

namespace PauliEstimation.Sweep

variable {R : Type}

/-- The points of a product, in one block for each point of the first sweep. -/
def blocks (s t : Sweep R) : List (List (Bindings R)) :=
  s.points.map fun p => t.points.map fun q => p.extend q

theorem points_product (s t : Sweep R) : (s.product t).points = (s.blocks t).flatten :=
  List.flatMap_def ..

theorem length_of_mem_blocks {s t : Sweep R} : ∀ block ∈ s.blocks t, block.length = t.size := by
  intro block h
  obtain ⟨p, _, rfl⟩ := List.mem_map.mp h
  exact List.length_map ..

theorem size_product (s t : Sweep R) : (s.product t).size = s.size * t.size := by
  rw [size, points_product, length_flatten_blocks length_of_mem_blocks, blocks, List.length_map]
  rfl

theorem getElem?_product {s t : Sweep R} {i j : Nat} {p q : Bindings R}
    (hp : s.points[i]? = some p) (hq : t.points[j]? = some q) :
    (s.product t).points[i * t.size + j]? = some (p.extend q) := by
  have hblock : (s.blocks t)[i]? = some (t.points.map fun q => p.extend q) := by
    rw [blocks, List.getElem?_map, hp]
    rfl
  have hj : j < t.size := (List.getElem?_eq_some_iff.mp hq).1
  rw [points_product, getElem?_flatten_blocks length_of_mem_blocks hblock hj, List.getElem?_map, hq]
  rfl

theorem product_assoc (s t u : Sweep R) : (s.product t).product u = s.product (t.product u) := by
  unfold product
  rw [List.flatMap_assoc]
  simp only [List.flatMap_map, List.map_flatMap, List.map_map, Function.comp_def,
    Bindings.extend_assoc]

theorem product_unit (s : Sweep R) : s.product unit = s := by
  simp [product, unit]

theorem unit_product (s : Sweep R) : unit.product s = s := by
  simp [product, unit]

/-- However bindings are made, their names are distinct and stand in the order in which they were
first assigned to, and each has the value that was assigned last. Extending bindings is associative,
with the empty ones as identity. So the sweeps are a monoid: their product has one point for each
pair of points, the first sweep varying slowest, and is associative, with the sweep of one empty
point as identity. -/
theorem sweeps_form_monoid (R : Type) :
    (∀ t : Bindings.Term R, t.eval.names.Nodup ∧
      t.eval.names = (t.assignments.map Prod.fst).eraseDups ∧
      ∀ name, t.eval.get? name =
        (t.assignments.filter (·.1 = name)).getLast?.map Prod.snd) ∧
    (∀ b c d : Bindings R, (b.extend c).extend d = b.extend (c.extend d)) ∧
    (∀ b : Bindings R, Bindings.empty.extend b = b ∧ b.extend .empty = b) ∧
    (∀ s t : Sweep R, (s.product t).size = s.size * t.size ∧
      ∀ (i : Fin s.size) (j : Fin t.size), (s.product t).points[i * t.size + j]? =
        some ((s.points.get i).extend (t.points.get j))) ∧
    (∀ s t u : Sweep R, (s.product t).product u = s.product (t.product u)) ∧
    ∀ s : Sweep R, unit.product s = s ∧ s.product unit = s := by
  refine ⟨fun t => ⟨t.eval.names_nodup, t.names_eval, t.get?_eval⟩, Bindings.extend_assoc,
    fun b => ⟨b.empty_extend, b.extend_empty⟩, fun s t => ⟨size_product s t, fun i j => ?_⟩,
    product_assoc, fun s => ⟨unit_product s, product_unit s⟩⟩
  exact getElem?_product (List.getElem?_eq_getElem i.isLt) (List.getElem?_eq_getElem j.isLt)

end PauliEstimation.Sweep
