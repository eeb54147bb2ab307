import Mathlib.Data.List.Forall2
import PauliEstimation.BitMatrix
import PauliEstimation.Proofs.Traversal

namespace PauliEstimation.BitMatrix

theorem kept_append (width : Nat) (xs ys : List (List Bool)) :
    kept width (xs ++ ys) = kept width xs ++ kept width ys := by
  unfold kept
  split <;> rfl

theorem kept_of_ne_zero {width : Nat} (h : width ≠ 0) (rows : List (List Bool)) :
    kept width rows = rows :=
  if_neg h

theorem forall₂_kept {r : List Bool → List Bool → Prop} (width : Nat) {xs ys : List (List Bool)}
    (h : List.Forall₂ r xs ys) : List.Forall₂ r (kept width xs) (kept width ys) := by
  unfold kept
  split
  next => exact .nil
  next => exact h

theorem ofRows?_eq_ok {width : Nat} {rows : List (List Bool)} {m : BitMatrix}
    (h : ofRows? width rows = .ok m) : m.width = width ∧ m.rows = kept width rows := by
  unfold ofRows? at h
  split at h
  next =>
    cases h
    exact ⟨rfl, rfl⟩
  next => cases h

theorem exists_ofRows? {width : Nat} {rows : List (List Bool)}
    (h : ∀ row ∈ rows, row.length = width) : ∃ m, ofRows? width rows = .ok m :=
  ⟨_, dif_pos h⟩

theorem append?_eq_ok {m n r : BitMatrix} (h : m.append? n = .ok r) :
    r.width = m.width ∧ r.rows = m.rows ++ n.rows := by
  by_cases hw : n.width = m.width
  · obtain ⟨_, hr, h₁, h₂⟩ := append?_of_width_eq hw
    cases hr.symm.trans h
    exact ⟨h₁, h₂⟩
  · rw [append?_of_width_ne hw] at h
    cases h

theorem exists_push? {m : BitMatrix} {row : List Bool} (h : row.length = m.width) :
    ∃ n, m.push? row = .ok n ∧ n.width = m.width ∧ n.rows = m.rows ++ kept m.width [row] := by
  have hfit : ∀ r ∈ [row], r.length = m.width := List.forall_mem_singleton.mpr h
  obtain ⟨single, hsingle⟩ := exists_ofRows? hfit
  obtain ⟨hwidth, hrows⟩ := ofRows?_eq_ok hsingle
  obtain ⟨n, hn, hw, hr⟩ := append?_of_width_eq hwidth
  exact ⟨n, bind_eq_ok_iff.mpr ⟨single, hsingle, hn⟩, hw, hrows ▸ hr⟩

theorem ofRows?_cons_of_length_ne {width : Nat} {row : List Bool} (h : row.length ≠ width)
    (rest : List (List Bool)) :
    ofRows? width (row :: rest) = .error (.raggedRow width row.length) := by
  simp [ofRows?, h]

theorem push?_of_length_ne {m : BitMatrix} {row : List Bool} (h : row.length ≠ m.width) :
    m.push? row = .error (.raggedRow m.width row.length) :=
  bind_of_error (ofRows?_cons_of_length_ne h [])

/-- Rows that are pushed one after the other are put below together, or the first that does not fit
is refused. -/
theorem foldlM_push? (m : BitMatrix) (rows : List (List Bool)) :
    rows.foldlM push? m = ofRows? m.width rows >>= m.append? := by
  induction rows generalizing m with
  | nil =>
    obtain ⟨r, hr, hwidth, hrows⟩ := append?_of_width_eq (m := m) (n := .empty m.width) rfl
    have hsame : r = m := BitMatrix.ext hwidth (by rw [hrows, empty, rows_ofFitting, kept]; simp)
    exact (hsame ▸ hr).symm
  | cons row rest ih =>
    rw [List.foldlM_cons]
    by_cases hrow : row.length = m.width
    · obtain ⟨n, hn, hwidth, hrows⟩ := exists_push? hrow
      rw [hn]
      refine (ih n).trans ?_
      rw [hwidth]
      by_cases hrest : ∀ r ∈ rest, r.length = m.width
      · have hall : ∀ r ∈ row :: rest, r.length = m.width := List.forall_mem_cons.mpr ⟨hrow, hrest⟩
        obtain ⟨below, hbelow⟩ := exists_ofRows? hrest
        obtain ⟨all, hall⟩ := exists_ofRows? hall
        obtain ⟨hwbelow, hrbelow⟩ := ofRows?_eq_ok hbelow
        obtain ⟨hwall, hrall⟩ := ofRows?_eq_ok hall
        obtain ⟨r, hr, hwr, hrr⟩ := append?_of_width_eq (hwbelow.trans hwidth.symm)
        obtain ⟨t, ht, hwt, hrt⟩ := append?_of_width_eq hwall
        have hsame : r = t := BitMatrix.ext (hwr.trans (hwidth.trans hwt.symm)) (by
          rw [hrr, hrt, hrbelow, hrall, hrows, List.append_assoc, ← kept_append]
          rfl)
        rw [hbelow, hall]
        exact hr.trans (hsame ▸ ht.symm)
      · have hall : ¬∀ r ∈ row :: rest, r.length = m.width :=
          fun h => hrest (List.forall_mem_cons.mp h).2
        rw [ofRows?, dif_neg hrest, ofRows?, dif_neg hall,
          List.find?_cons_of_neg (by simpa using hrow)]
        rfl
    · rw [push?_of_length_ne hrow, ofRows?_cons_of_length_ne hrow]
      rfl

theorem foldlM_push?_empty (width : Nat) (rows : List (List Bool)) :
    rows.foldlM push? (empty width) = ofRows? width rows := by
  rw [foldlM_push?]
  show (ofRows? width rows).bind (empty width).append? = _
  cases hrows : ofRows? width rows with
  | error fault => rfl
  | ok m =>
    obtain ⟨hwidth, _⟩ := ofRows?_eq_ok hrows
    obtain ⟨r, hr, hwr, hrr⟩ := append?_of_width_eq (m := empty width) hwidth
    have hsame : r = m := BitMatrix.ext (hwr.trans hwidth.symm) (by
      rw [hrr, empty, rows_ofFitting, kept, ite_self, List.nil_append])
    exact hsame ▸ hr

theorem flipColumns?_eq_ok {m r : BitMatrix} {mask : List Bool}
    (h : m.flipColumns? mask = .ok r) :
    mask.length = m.width ∧ r.rows = m.rows.map (List.zipWith xor · mask) := by
  by_cases hw : mask.length = m.width
  · obtain ⟨_, hr, _, h₂⟩ := flipColumns?_of_length_eq hw
    cases hr.symm.trans h
    exact ⟨hw, h₂⟩
  · rw [flipColumns?_of_length_ne hw] at h
    cases h

theorem selectColumns?_eq_ok {m part : BitMatrix} {columns : List Nat}
    (h : m.selectColumns? columns = .ok part) :
    part.width = columns.length ∧ part.rows =
      kept columns.length (m.rows.map fun row => columns.map fun c => row.getD c false) := by
  unfold selectColumns? at h
  split at h
  next =>
    split at h
    next hempty =>
      cases h
      rw [List.isEmpty_iff.mp hempty]
      exact ⟨rfl, rfl⟩
    next => cases h
  next =>
    cases h
    exact ⟨rfl, rfl⟩

theorem exists_selectColumns? {m : BitMatrix} {columns : List Nat}
    (h : ∀ c ∈ columns, c < m.width) : ∃ part, m.selectColumns? columns = .ok part := by
  have hnone : columns.find? (m.width ≤ ·) = none := by
    simpa [List.find?_eq_none] using h
  unfold selectColumns?
  rw [hnone]
  exact ⟨_, rfl⟩

theorem forall₂_getD {r : Bool → Bool → Prop} {xs ys : List Bool} {d : Bool}
    (h : List.Forall₂ r xs ys) (hd : r d d) (k : Nat) : r (xs.getD k d) (ys.getD k d) := by
  induction h generalizing k with
  | nil => exact hd
  | cons hx _ ih =>
    cases k with
    | zero => exact hx
    | succ k => exact ih k

theorem forall₂_selectColumns? {m n p q : BitMatrix} {columns : List Nat}
    {r : Bool → Bool → Prop} (hp : m.selectColumns? columns = .ok p)
    (hq : n.selectColumns? columns = .ok q) (h : List.Forall₂ (List.Forall₂ r) m.rows n.rows)
    (hr : ∀ b, r b b) : List.Forall₂ (List.Forall₂ r) p.rows q.rows := by
  rw [(selectColumns?_eq_ok hp).2, (selectColumns?_eq_ok hq).2]
  apply forall₂_kept
  rw [List.forall₂_map_left_iff, List.forall₂_map_right_iff]
  refine h.imp fun row row' hrow => ?_
  rw [List.forall₂_map_left_iff, List.forall₂_map_right_iff, List.forall₂_same]
  exact fun c _ => forall₂_getD hrow (hr false) c

end PauliEstimation.BitMatrix
