import PauliEstimation.Measurement.Session
import PauliEstimation.Proofs.BitMatrix
import PauliEstimation.Proofs.Traversal

namespace PauliEstimation

variable {R : Type}

/-- The rows a result holds for a variant, with the variant's flips undone. -/
def Variant.reading (v : Variant R) (result : PointResult R) : List (List Bool) :=
  match result.measurements.get? BasisChange.key with
  | some bits => bits.rows.map (List.zipWith xor · v.flips)
  | none => []

namespace Accumulator

theorem rows_empty (spec : Spec R) (settings : List (Setting R)) (columns : QubitMap Nat) :
    (empty spec settings columns).bits.rows = [] :=
  ite_self []

/-- The second accumulator is the first after it took in the batches. -/
structure Extends (a b : Accumulator R) (batches : List (List (List Bool))) : Prop where
  spec_eq : b.spec = a.spec
  settings_eq : b.settings = a.settings
  columns_eq : b.columns = a.columns
  width_eq : b.bits.width = a.bits.width
  rows_eq : b.bits.rows = a.bits.rows ++ batches.flatten
  batches_eq : b.batches = a.batches ++ batches.map List.length

theorem Extends.refl (a : Accumulator R) : a.Extends a [] :=
  ⟨rfl, rfl, rfl, rfl, by simp, by simp⟩

theorem Extends.trans {a b c : Accumulator R} {batches more : List (List (List Bool))}
    (h : a.Extends b batches) (h' : b.Extends c more) : a.Extends c (batches ++ more) where
  spec_eq := h'.spec_eq.trans h.spec_eq
  settings_eq := h'.settings_eq.trans h.settings_eq
  columns_eq := h'.columns_eq.trans h.columns_eq
  width_eq := h'.width_eq.trans h.width_eq
  rows_eq := by rw [h'.rows_eq, h.rows_eq, List.flatten_append, List.append_assoc]
  batches_eq := by rw [h'.batches_eq, h.batches_eq, List.map_append, List.append_assoc]

/-- The batches determine what they extend an accumulator to. -/
theorem Extends.unique {a b b' : Accumulator R} {batches : List (List (List Bool))}
    (h : a.Extends b batches) (h' : a.Extends b' batches) : b = b' := by
  have hbits : b.bits = b'.bits :=
    BitMatrix.ext (h.width_eq.trans h'.width_eq.symm) (h.rows_eq.trans h'.rows_eq.symm)
  have hbatches := h.batches_eq.trans h'.batches_eq.symm
  have hspec := h.spec_eq.trans h'.spec_eq.symm
  have hsettings := h.settings_eq.trans h'.settings_eq.symm
  have hcolumns := h.columns_eq.trans h'.columns_eq.symm
  cases b
  cases b'
  simp_all

theorem Extends.eq_of_nil {a b : Accumulator R} (h : a.Extends b []) : b = a :=
  h.unique (refl a)

theorem consume?_eq_ok {a b : Accumulator R} {batch : BitMatrix}
    (h : a.consume? batch = .ok b) : a.Extends b [batch.rows] := by
  obtain ⟨bits, hb, h⟩ := bind_eq_ok_iff.mp h
  cases h
  obtain ⟨hw, hr⟩ := BitMatrix.append?_eq_ok hb
  exact ⟨rfl, rfl, rfl, hw, by simpa using hr, rfl⟩

end Accumulator

namespace Session

/-- A result is taken in by the accumulator of its variant and by no other. -/
theorem deliverOne?_eq_ok {accumulators next : List (Accumulator R)} {v : Variant R}
    {result : PointResult R} (h : deliverOne? accumulators v result = .ok next) :
    ∃ bits a b, result.measurements.get? BasisChange.key = some bits ∧
      v.flips.length = bits.width ∧ accumulators[v.index]? = some a ∧
      a.Extends b [v.reading result] ∧ next = accumulators.set v.index b := by
  unfold deliverOne? at h
  split at h
  next => cases h
  next bits hb =>
    obtain ⟨corrected, hc, h⟩ := bind_eq_ok_iff.mp h
    obtain ⟨hw, hrows⟩ := BitMatrix.flipColumns?_eq_ok hc
    split at h
    next => cases h
    next a ha =>
      obtain ⟨b, hab, h⟩ := bind_eq_ok_iff.mp h
      have hext := Accumulator.consume?_eq_ok hab
      have hreading : v.reading result = corrected.rows := by
        simp [Variant.reading, hb, hrows]
      exact ⟨bits, a, b, hb, hw, ha, hreading ▸ hext, (Except.ok.inj h).symm⟩

theorem deliverOne?_extends {accumulators next : List (Accumulator R)} {v : Variant R}
    {result : PointResult R} (h : deliverOne? accumulators v result = .ok next) {k : Nat}
    {a : Accumulator R} (ha : accumulators[k]? = some a) :
    ∃ b, next[k]? = some b ∧
      a.Extends b (if v.index = k then [v.reading result] else []) := by
  obtain ⟨_, old, new, _, _, hold, hext, rfl⟩ := deliverOne?_eq_ok h
  by_cases hk : v.index = k
  · subst hk
    obtain rfl : old = a := Option.some.inj (hold.symm.trans ha)
    have hlt : v.index < accumulators.length := (List.getElem?_eq_some_iff.mp ha).1
    exact ⟨new, by simp [hlt], by simpa using hext⟩
  · exact ⟨a, by rw [List.getElem?_set_ne hk, ha], by simpa [hk] using Accumulator.Extends.refl a⟩

/-- The batches that a list of variants with their results holds for one accumulator. -/
def batchesFor (k : Nat) (delivered : List (Variant R × PointResult R)) :
    List (List (List Bool)) :=
  delivered.flatMap fun e => if e.1.index = k then [e.1.reading e.2] else []

theorem deliverAll_extends {delivered : List (Variant R × PointResult R)}
    {accumulators next : List (Accumulator R)}
    (h : delivered.foldlM (fun as e => deliverOne? as e.1 e.2) accumulators = .ok next) :
    next.length = accumulators.length ∧
      ∀ (k : Nat) (a : Accumulator R), accumulators[k]? = some a →
        ∃ b, next[k]? = some b ∧ a.Extends b (batchesFor k delivered) := by
  induction delivered generalizing accumulators with
  | nil =>
    cases h
    exact ⟨rfl, fun k a ha => ⟨a, ha, Accumulator.Extends.refl a⟩⟩
  | cons e rest ih =>
    obtain ⟨middle, hm, h⟩ := bind_eq_ok_iff.mp h
    obtain ⟨hlen, hrest⟩ := ih h
    obtain ⟨_, _, _, _, _, _, _, hset⟩ := deliverOne?_eq_ok hm
    refine ⟨by rw [hlen, hset, List.length_set], ?_⟩
    intro k a ha
    obtain ⟨b, hb, hab⟩ := deliverOne?_extends hm ha
    obtain ⟨c, hc, hbc⟩ := hrest k b hb
    exact ⟨c, hc, hab.trans hbc⟩

theorem deliverAll_widths {delivered : List (Variant R × PointResult R)}
    {accumulators next : List (Accumulator R)}
    (h : delivered.foldlM (fun as e => deliverOne? as e.1 e.2) accumulators = .ok next) :
    ∀ e ∈ delivered, ∃ bits, e.2.measurements.get? BasisChange.key = some bits ∧
      e.1.flips.length = bits.width := by
  induction delivered generalizing accumulators with
  | nil => simp
  | cons e rest ih =>
    obtain ⟨middle, hm, h⟩ := bind_eq_ok_iff.mp h
    obtain ⟨bits, _, _, hb, hw, _⟩ := deliverOne?_eq_ok hm
    intro d hd
    rcases List.mem_cons.mp hd with rfl | hd
    · exact ⟨bits, hb, hw⟩
    · exact ih h d hd

theorem deliver?_eq_ok {variants : List (Variant R)} {results : List (PointResult R)}
    {accumulators next : List (Accumulator R)}
    (h : deliver? variants results accumulators = .ok next) :
    results.length = variants.length ∧
      (variants.zip results).foldlM (fun as e => deliverOne? as e.1 e.2) accumulators =
        .ok next := by
  unfold deliver? at h
  split at h
  next hl => exact ⟨hl, liftFault_eq_ok_iff.mp h⟩
  next => cases h

end Session

end PauliEstimation
