import PauliEstimation.Measurement.BasisChange
import PauliEstimation.Proofs.Traversal

namespace PauliEstimation

/-- Numbers are told apart by their decimal digits. -/
theorem toList_toString_inj {m n : Nat} (h : (toString m).toList = (toString n).toList) : m = n := by
  rw [Nat.toString_eq_repr, Nat.toString_eq_repr, Nat.toList_repr, Nat.toList_repr] at h
  have hnumber := congrArg (fun digits => Nat.ofDigitChars 10 digits 0) h
  simpa using hnumber

theorem Qubit.text_injective {p q : Qubit} (h : p.text = q.text) : p = q := by
  have hlist := congrArg String.toList h
  simp only [text, String.toList_append] at hlist
  exact Qubit.ext (toList_toString_inj (List.append_cancel_left (List.append_cancel_right hlist)))

namespace BasisChange

namespace Slot

@[simp]
theorem symbol_inj {slot slot' : Slot} {p q : Qubit} :
    slot.symbol p = slot'.symbol q ↔ slot = slot' ∧ p = q := by
  constructor
  · intro h
    have hlist := congrArg String.toList h
    have hlen : slot.text.toList.length = slot'.text.toList.length := by
      cases slot <;> cases slot' <;> rfl
    simp only [symbol, String.toList_append] at hlist
    obtain ⟨hq, hs⟩ := List.append_inj' hlist hlen
    refine ⟨?_, Qubit.text_injective (String.toList_inj.mp (List.append_cancel_right hq))⟩
    have hs := String.toList_inj.mp hs
    revert hs
    cases slot <;> cases slot' <;> simp [text]
  · rintro ⟨rfl, rfl⟩
    rfl

/-- Whether the template has the layer. -/
def isUsed (needsInitial : Bool) : Slot → Bool
  | xInitial | yInitial => needsInitial
  | xFinal | yFinal => true

end Slot

variable {R : Type} [Scalar R]

/-- The exponent of a qubit in a layer. -/
def slotExponent? (s : Setting R) (flip : Bool) (q : Qubit) : Slot → Option R
  | .xInitial => (s.initial.get? q).map fun state => (initialExponents state).1
  | .yInitial => (s.initial.get? q).map fun state => (initialExponents state).2
  | .xFinal => (s.observable.get? q).map fun axis => (finalExponents axis flip).1
  | .yFinal => (s.observable.get? q).map fun axis => (finalExponents axis flip).2

omit [Scalar R] in
theorem get?_setPair {x y : Slot} {q : Qubit} {exponents : R × R} {b : Bindings R} {slot : Slot}
    {p : Qubit} :
    (setPair x y q exponents b).get? (slot.symbol p) =
      if y = slot ∧ q = p then some exponents.2
      else if x = slot ∧ q = p then some exponents.1 else b.get? (slot.symbol p) := by
  simp [setPair]

/-- Binding a qubit sets the symbols of that qubit in the layers of the template, and no other. -/
theorem get?_of_bindQubit? {s : Setting R} {needsInitial flip : Bool} {b b' : Bindings R}
    {q : Qubit} (h : bindQubit? s needsInitial b q flip = .ok b') (slot : Slot) (p : Qubit) :
    b'.get? (slot.symbol p) =
      if q = p ∧ slot.isUsed needsInitial then slotExponent? s flip q slot
      else b.get? (slot.symbol p) := by
  unfold bindQubit? at h
  split at h
  next => cases h
  next axis haxis =>
    dsimp only at h
    split at h
    next hneeds =>
      split at h
      next => cases h
      next state hstate =>
        cases h
        simp only [get?_setPair]
        by_cases hq : q = p
        · subst hq
          cases slot <;>
            simp [slotExponent?, Slot.isUsed, hneeds, hstate, haxis]
        · simp [hq]
    next hneeds =>
      cases h
      simp only [get?_setPair]
      by_cases hq : q = p
      · subst hq
        cases slot <;> simp [slotExponent?, Slot.isUsed, hneeds, haxis]
      · simp [hq]

theorem bindQubit?_eq_ok {s : Setting R} {needsInitial : Bool} {q : Qubit} (b : Bindings R)
    (flip : Bool) (hobs : q ∈ s.observable.qubits)
    (hinit : needsInitial = true → q ∈ s.initial.keys) :
    ∃ b', bindQubit? s needsInitial b q flip = .ok b' := by
  obtain ⟨axis, haxis⟩ := QubitMap.mem_keys_iff.mp hobs
  unfold bindQubit?
  rw [show s.observable.get? q = some axis from haxis]
  dsimp only
  split
  next hneeds =>
    obtain ⟨state, hstate⟩ := QubitMap.mem_keys_iff.mp (hinit hneeds)
    rw [hstate]
    exact ⟨_, rfl⟩
  next => exact ⟨_, rfl⟩

theorem bindAll_eq_ok {s : Setting R} {needsInitial : Bool} {es : List (Qubit × Bool)}
    (b : Bindings R) (hn : (es.map Prod.fst).Nodup)
    (hobs : ∀ e ∈ es, e.1 ∈ s.observable.qubits)
    (hinit : needsInitial = true → ∀ e ∈ es, e.1 ∈ s.initial.keys) :
    ∃ b', es.foldlM (fun b e => bindQubit? s needsInitial b e.1 e.2) b = .ok b' ∧
      (∀ (slot : Slot) (p : Qubit), p ∉ es.map Prod.fst →
        b'.get? (slot.symbol p) = b.get? (slot.symbol p)) ∧
      ∀ e ∈ es, ∀ slot : Slot, slot.isUsed needsInitial →
        b'.get? (slot.symbol e.1) = slotExponent? s e.2 e.1 slot := by
  induction es generalizing b with
  | nil => exact ⟨b, rfl, by simp, by simp⟩
  | cons e rest ih =>
    obtain ⟨he, hrest⟩ := List.nodup_cons.mp hn
    obtain ⟨b₁, hb₁⟩ := bindQubit?_eq_ok b e.2 (hobs e (by simp))
      fun hneeds => hinit hneeds e (by simp)
    obtain ⟨b', hb', hframe, hset⟩ := ih b₁ hrest
      (fun d hd => hobs d (List.mem_cons_of_mem _ hd))
      fun hneeds d hd => hinit hneeds d (List.mem_cons_of_mem _ hd)
    have hstep := get?_of_bindQubit? hb₁
    refine ⟨b', bind_eq_ok_iff.mpr ⟨b₁, hb₁, hb'⟩, ?_, ?_⟩
    · intro slot p hp
      obtain ⟨hpe, hp⟩ := not_or.mp (mt List.mem_cons.mpr hp)
      rw [hframe slot p hp, hstep, if_neg fun h => hpe h.1.symm]
    · intro d hd slot hused
      rcases List.mem_cons.mp hd with rfl | hd
      · rw [hframe slot d.1 he, hstep, if_pos ⟨rfl, hused⟩]
      · exact hset d hd slot hused

/-- A setting that covers the qubits can be bound, and all symbols in use get their exponents. -/
theorem bindings?_eq_ok {s : Setting R} {flips : List Bool} {qubits : List Qubit}
    {needsInitial : Bool} (hn : qubits.Nodup) (hlen : flips.length = qubits.length)
    (hobs : ∀ q ∈ qubits, q ∈ s.observable.qubits)
    (hinit : needsInitial = true → ∀ q ∈ qubits, q ∈ s.initial.keys) :
    ∃ b, bindings? s flips qubits needsInitial = .ok b ∧
      ∀ (k : Nat) (q : Qubit) (flip : Bool), qubits[k]? = some q → flips[k]? = some flip →
        ∀ slot : Slot, slot.isUsed needsInitial →
          b.get? (slot.symbol q) = slotExponent? s flip q slot := by
  have hfst : ((qubits.zip flips).map Prod.fst).Nodup := by
    rwa [List.map_fst_zip (by omega)]
  have hinit' : needsInitial = true → ∀ e ∈ qubits.zip flips, e.1 ∈ s.initial.keys :=
    fun hneeds e he => hinit hneeds e.1 (List.of_mem_zip he).1
  obtain ⟨b, hb, _, hset⟩ := bindAll_eq_ok Bindings.empty hfst
    (fun e he => hobs e.1 (List.of_mem_zip he).1) hinit'
  refine ⟨b, by rw [bindings?, if_pos hlen.symm, hb], ?_⟩
  intro k q flip hq hf slot hused
  have hmem : (q, flip) ∈ qubits.zip flips :=
    List.mem_of_getElem? (List.getElem?_zip_eq_some.mpr ⟨hq, hf⟩)
  exact hset (q, flip) hmem slot hused

omit [Scalar R] in
/-- A layer whose symbols are bound turns every qubit by what its symbol is bound to. -/
theorem resolve_layer_map {α : Type} {b : Bindings R} {slot : Slot} {xs : List α} {q : α → Qubit}
    {e : α → R} (h : ∀ x ∈ xs, b.get? (slot.symbol (q x)) = some (e x)) :
    (layer slot (xs.map q)).mapM (Operation.resolve b) =
      .ok (xs.map fun x => .power slot.axis (q x) (.value (e x))) := by
  apply mapM_eq_ok_iff.mpr
  rw [layer, List.map_map, List.forall₂_map_left_iff, List.forall₂_map_right_iff,
    List.forall₂_same]
  intro x hx
  simp [Operation.resolve, Exponent.resolve, h x hx, Except.map]

omit [Scalar R] in
theorem resolve_layer {b : Bindings R} {slot : Slot} {qubits : List Qubit} {e : Qubit → R}
    (h : ∀ q ∈ qubits, b.get? (slot.symbol q) = some (e q)) :
    (layer slot qubits).mapM (Operation.resolve b) =
      .ok (qubits.map fun q => .power slot.axis q (.value (e q))) := by
  rw [← resolve_layer_map h, List.map_id']

end BasisChange

end PauliEstimation
