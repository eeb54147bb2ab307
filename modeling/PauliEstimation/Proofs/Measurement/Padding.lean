import PauliEstimation.Measurement.BasisChange
import PauliEstimation.Proofs.Traversal

namespace PauliEstimation

namespace BasisChange

theorem get?_padMap {α : Type} (m : QubitMap α) (qubits : List Qubit) (a : α) (q : Qubit) :
    (padMap m qubits a).get? q = (m.get? q).or (if q ∈ qubits then some a else none) := by
  unfold padMap
  induction qubits generalizing m with
  | nil => simp
  | cons p rest ih =>
    rw [List.foldl_cons, ih]
    by_cases hp : m.contains p
    · rw [if_pos hp]
      obtain ⟨b, hb⟩ := Option.isSome_iff_exists.mp hp
      by_cases hq : q = p
      · subst hq
        simp [hb]
      · simp [hq]
    · rw [if_neg hp]
      have hnone : m.get? p = none := by simpa [QubitMap.contains] using hp
      by_cases hq : q = p
      · subst hq
        simp [hnone]
      · simp [hq, Ne.symm hq]

theorem get?_padMap_of_some {α : Type} {m : QubitMap α} {q : Qubit} {b : α}
    (h : m.get? q = some b) (qubits : List Qubit) (a : α) :
    (padMap m qubits a).get? q = some b := by
  rw [get?_padMap, h, Option.some_or]

theorem mem_keys_padMap {α : Type} (m : QubitMap α) {qubits : List Qubit} (a : α) {q : Qubit}
    (h : q ∈ qubits) : q ∈ (padMap m qubits a).keys := by
  rw [QubitMap.mem_keys_iff, get?_padMap, if_pos h]
  cases m.get? q with
  | none => exact ⟨a, rfl⟩
  | some b => exact ⟨b, rfl⟩

/-- A map `n` that has the entries of `m`, the value `a` on the listed qubits where `m` has none, and
nothing else. -/
structure IsPadding {α : Type} (m : QubitMap α) (qubits : List Qubit) (a : α)
    (n : QubitMap α) : Prop where
  keeps : ∀ q b, m.get? q = some b → n.get? q = some b
  fills : ∀ q ∈ qubits, m.get? q = none → n.get? q = some a
  nowhere_else : ∀ q, q ∉ qubits → m.get? q = none → n.get? q = none

section PadMap

variable {α : Type} {m n : QubitMap α} {qubits qubits' : List Qubit} {a : α}

theorem isPadding_padMap (m : QubitMap α) (qubits : List Qubit) (a : α) :
    IsPadding m qubits a (padMap m qubits a) where
  keeps _ _ h := get?_padMap_of_some h qubits a
  fills q hq h := by rw [get?_padMap, h, if_pos hq, Option.none_or]
  nowhere_else q hq h := by rw [get?_padMap, h, if_neg hq, Option.none_or]

theorem padMap_congr (h : ∀ q, q ∈ qubits ↔ q ∈ qubits') (m : QubitMap α) (a : α) :
    padMap m qubits a = padMap m qubits' a := by
  refine QubitMap.ext_get? fun q => ?_
  simp only [get?_padMap, h]

theorem padMap_padMap (m : QubitMap α) (qubits qubits' : List Qubit) (a : α) :
    padMap (padMap m qubits a) qubits' a = padMap m (qubits ++ qubits') a :=
  List.foldl_append.symm

end PadMap

variable {R : Type}

/-- The setting with `Z` and `|0⟩` on the qubits it does not touch. -/
def padded (s : Setting R) (qubits : List Qubit) : Setting R :=
  ⟨padMap s.initial qubits Eigenstate.zero,
    { s.observable with factors := padMap s.observable.factors qubits .z }⟩

theorem pad?_eq_padded [Scalar R] {s : Setting R} (qubits : List Qubit)
    (h : (s.observable.coefficient == 1) = true) : pad? s qubits = .ok (padded s qubits) :=
  if_pos h

theorem pad?_eq_error [Scalar R] {s : Setting R} (qubits : List Qubit)
    (h : (s.observable.coefficient == 1) = false) :
    pad? s qubits = .error (.unscaledPadding s.observable.coefficient) :=
  if_neg (by simp [h])

theorem isCompatibleWith_padded {s max : Setting R} (h : s.IsCompatibleWith max)
    (qubits : List Qubit) : s.IsCompatibleWith (padded max qubits) :=
  ⟨fun f hf => get?_padMap_of_some (h.1 f hf) qubits _,
    fun f hf => get?_padMap_of_some (h.2 f hf) qubits _⟩

theorem mem_qubits_padded (s : Setting R) {qubits : List Qubit} {q : Qubit} (h : q ∈ qubits) :
    q ∈ (padded s qubits).observable.qubits ∧ q ∈ (padded s qubits).initial.keys :=
  ⟨mem_keys_padMap _ _ h, mem_keys_padMap _ _ h⟩

/-- Padding multiplies a factor in only where none is. -/
theorem foldlM_with?_eq_padMap (s : PauliString R) (qubits : List Qubit) (axis : Pauli) :
    qubits.foldlM (fun s q => if s.contains q then .ok s else s.with? q axis) s =
      .ok { s with factors := padMap s.factors qubits axis } := by
  induction qubits generalizing s with
  | nil => rfl
  | cons p rest ih =>
    rw [List.foldlM_cons, padMap, List.foldl_cons]
    by_cases hp : s.factors.contains p
    · rw [if_pos hp]
      simp only [PauliString.contains, hp, if_true]
      exact ih s
    · rw [if_neg hp]
      simp only [PauliString.contains, PauliString.with?, hp]
      exact ih { s with factors := s.factors.insert p axis }

theorem foldlM_productWith?_eq_padMap (s : ProductState) (qubits : List Qubit) (e : Eigenstate) :
    qubits.foldlM (fun s q => if s.contains q then .ok s else ProductState.with? s q e) s =
      .ok (padMap s qubits e) := by
  induction qubits generalizing s with
  | nil => rfl
  | cons p rest ih =>
    rw [List.foldlM_cons, padMap, List.foldl_cons]
    by_cases hp : s.contains p
    · simp only [hp, if_true]
      exact ih s
    · simp only [ProductState.with?, hp]
      exact ih (s.insert p e)

theorem padded_congr {qubits qubits' : List Qubit} (h : ∀ q, q ∈ qubits ↔ q ∈ qubits')
    (s : Setting R) : padded s qubits = padded s qubits' := by
  rw [padded, padded, padMap_congr h, padMap_congr h]

theorem padded_padded (s : Setting R) (qubits qubits' : List Qubit) :
    padded (padded s qubits) qubits' = padded s (qubits ++ qubits') := by
  simp only [padded, padMap_padMap]

section Pad

variable [Scalar R]

theorem pad?_congr {qubits qubits' : List Qubit} (h : ∀ q, q ∈ qubits ↔ q ∈ qubits')
    (s : Setting R) : pad? s qubits = pad? s qubits' := by
  cases hc : s.observable.coefficient == 1 with
  | false => rw [pad?_eq_error qubits hc, pad?_eq_error qubits' hc]
  | true => rw [pad?_eq_padded qubits hc, pad?_eq_padded qubits' hc, padded_congr h]

theorem pad?_bind_pad? (s : Setting R) (qubits qubits' : List Qubit) :
    ((pad? s qubits).bind fun p => pad? p qubits') = pad? s (qubits ++ qubits') := by
  cases hc : s.observable.coefficient == 1 with
  | false =>
    rw [pad?_eq_error qubits hc, pad?_eq_error _ hc]
    rfl
  | true =>
    -- the coefficient is still one after the first padding
    rw [pad?_eq_padded qubits hc, pad?_eq_padded _ hc, ← padded_padded]
    exact pad?_eq_padded qubits' hc

theorem pad?_eq_ok_iff {s p : Setting R} {qubits : List Qubit} : pad? s qubits = .ok p ↔
    (s.observable.coefficient == 1) = true ∧ p = padded s qubits := by
  cases hc : s.observable.coefficient == 1 with
  | false => simp [pad?_eq_error qubits hc]
  | true => simp [pad?_eq_padded qubits hc, eq_comm]

theorem pad?_of_pad? {s p : Setting R} {qubits : List Qubit} (h : pad? s qubits = .ok p) :
    pad? p qubits = .ok p := by
  have hbind := pad?_bind_pad? s qubits qubits
  rw [h] at hbind
  calc pad? p qubits = pad? s (qubits ++ qubits) := hbind
    _ = pad? s qubits := pad?_congr (by simp) s
    _ = .ok p := h

/-- Padding that multiplies one factor in after the other and can fail on each. -/
def padByFactors? (s : Setting R) (qubits : List Qubit) :
    Except (MeasurementError R) (Setting R) :=
  if s.observable.coefficient == 1 then do
    let observable ← liftFault (qubits.foldlM
      (fun p q => if p.contains q then .ok p else p.with? q .z) s.observable)
    let initial ← liftFault (qubits.foldlM
      (fun p q => if p.contains q then .ok p else ProductState.with? p q Eigenstate.zero)
      s.initial)
    return ⟨initial, observable⟩
  else .error (.unscaledPadding s.observable.coefficient)

theorem padByFactors?_eq (s : Setting R) (qubits : List Qubit) :
    padByFactors? s qubits = pad? s qubits := by
  rw [padByFactors?, foldlM_with?_eq_padMap, foldlM_productWith?_eq_padMap]
  rfl

end Pad

end BasisChange

/-- A setting can be padded exactly if its coefficient is one. It keeps its factors and its states
then, gets `Z` and `|0⟩` where the listed qubits have none, and nothing else; whatever could be read
from its shots still can. How the qubits are listed does not matter, padding by two lists one after
the other is padding by both, and padding again changes nothing. Multiplied in one by one, the
factors never overlap. -/
theorem padding_completes_settings {R : Type} [Scalar R] (s : Setting R) :
    (∀ qubits, (∃ p, BasisChange.pad? s qubits = .ok p) ↔
        (s.observable.coefficient == 1) = true) ∧
      (∀ qubits p, BasisChange.pad? s qubits = .ok p →
        p.observable.coefficient = s.observable.coefficient ∧
        BasisChange.IsPadding s.observable.factors qubits .z p.observable.factors ∧
        BasisChange.IsPadding s.initial qubits Eigenstate.zero p.initial ∧
        (∀ t : Setting R, t.IsCompatibleWith s → t.IsCompatibleWith p) ∧
        BasisChange.pad? p qubits = .ok p) ∧
      (∀ qubits qubits', (∀ q, q ∈ qubits ↔ q ∈ qubits') →
        BasisChange.pad? s qubits = BasisChange.pad? s qubits') ∧
      (∀ qubits qubits', ((BasisChange.pad? s qubits).bind fun p => BasisChange.pad? p qubits') =
        BasisChange.pad? s (qubits ++ qubits')) ∧
      ∀ qubits, BasisChange.padByFactors? s qubits = BasisChange.pad? s qubits ∧
        ∀ q, BasisChange.padByFactors? s qubits ≠ .error (.fault (.overlappingFactor q)) := by
  refine ⟨fun qubits => ?_, fun qubits p h => ?_, fun _ _ h => BasisChange.pad?_congr h s,
    BasisChange.pad?_bind_pad? s, fun qubits => ⟨BasisChange.padByFactors?_eq s qubits,
      fun q h => ?_⟩⟩
  · simp [BasisChange.pad?_eq_ok_iff]
  · have hagain := BasisChange.pad?_of_pad? h
    obtain ⟨_, rfl⟩ := BasisChange.pad?_eq_ok_iff.mp h
    exact ⟨rfl, BasisChange.isPadding_padMap _ _ _, BasisChange.isPadding_padMap _ _ _,
      fun t ht => BasisChange.isCompatibleWith_padded ht qubits, hagain⟩
  · rw [BasisChange.padByFactors?_eq] at h
    cases hc : s.observable.coefficient == 1 with
    | false => cases (BasisChange.pad?_eq_error qubits hc).symm.trans h
    | true => cases (BasisChange.pad?_eq_padded qubits hc).symm.trans h

/-- `X` on one qubit and a state on another one, padded by a list with a repetition. -/
theorem padding_completes_settings_apart :
    let s : Setting Float := ⟨QubitMap.ofList [(⟨2⟩, ⟨.x, false⟩)], PauliString.ofList [(⟨1⟩, .x)]⟩
    ∃ p, BasisChange.pad? s [⟨3⟩, ⟨1⟩, ⟨3⟩] = .ok p ∧ BasisChange.pad? s [⟨1⟩, ⟨3⟩] = .ok p ∧
      BasisChange.pad? p [⟨3⟩, ⟨1⟩, ⟨3⟩] = .ok p ∧ s.IsCompatibleWith p ∧
      p.observable.get? ⟨1⟩ = some .x ∧ p.observable.get? ⟨2⟩ = none ∧
      p.observable.get? ⟨3⟩ = some .z ∧ p.initial.get? ⟨2⟩ = some ⟨.x, false⟩ ∧
      p.initial.get? ⟨3⟩ = some Eigenstate.zero := by
  intro s
  obtain ⟨hok, hpadded, hlist, _, _⟩ := padding_completes_settings s
  obtain ⟨p, hp⟩ := (hok [⟨3⟩, ⟨1⟩, ⟨3⟩]).mpr (by decide)
  obtain ⟨_, hobs, hinit, hcompatible, hagain⟩ := hpadded _ p hp
  have hsame := hlist [⟨3⟩, ⟨1⟩, ⟨3⟩] [⟨1⟩, ⟨3⟩] fun q => by
    simp only [List.mem_cons, List.not_mem_nil, or_false]
    exact ⟨fun h => h.elim Or.inr id, Or.inr⟩
  exact ⟨p, hp, hsame ▸ hp, hagain, hcompatible s (by decide), hobs.keeps ⟨1⟩ .x rfl,
    hobs.nowhere_else ⟨2⟩ (by decide) rfl, hobs.fills ⟨3⟩ (by decide) rfl,
    hinit.keeps ⟨2⟩ ⟨.x, false⟩ rfl, hinit.fills ⟨3⟩ (by decide) rfl⟩

end PauliEstimation
