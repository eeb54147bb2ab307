import PauliEstimation.Proofs.Mps.Bonds

/-!
Checked access: gates on a chain and its dense expansion once more, with every entry read by indices
that are checked and written at a place that is checked. On chains with bounded bonds the checked
programs come to their ends with the results of the others, so no entry is read or written out of
range.
-/

namespace PauliEstimation

variable {R : Type} [Scalar R]

namespace Checked

section Loops

theorem foldlM_range_succ {ε α : Type} (n : Nat) (step : α → Nat → Except ε α) (start : α) :
    (List.range (n + 1)).foldlM step start =
      (List.range n).foldlM step start >>= fun acc => step acc n := by
  simp [List.range_succ]

/-- A loop over a range of indices in which no step fails. -/
theorem foldlM_range_eq_ok {ε α : Type} {n : Nat} {step : α → Nat → Except ε α}
    {next : Nat → α → α} {start : α} (h : ∀ k < n, ∀ acc, step acc k = .ok (next k acc)) :
    (List.range n).foldlM step start = .ok (n.fold (fun k _ acc => next k acc) start) := by
  induction n with
  | zero => rfl
  | succ n ih =>
    rw [foldlM_range_succ, ih fun k hk => h k (Nat.lt_succ_of_lt hk), Nat.fold_succ]
    exact h n (Nat.lt_succ_self n) _

def sumRange? (n : Nat) (f : Nat → Except Fault (Amplitude R)) : Except Fault (Amplitude R) :=
  (List.range n).foldlM (fun acc k => do return acc + (← f k)) 0

theorem sumRange?_eq_ok {n : Nat} {f : Nat → Except Fault (Amplitude R)} {g : Nat → Amplitude R}
    (h : ∀ k < n, f k = .ok (g k)) : sumRange? n f = .ok (Amplitude.sumRange n g) :=
  foldlM_range_eq_ok fun k hk acc => by rw [h k hk]; rfl

end Loops

section Cells

def read? (cells : Array (Amplitude R)) (i : Nat) : Except Fault (Amplitude R) :=
  if h : i < cells.size then .ok cells[i] else .error (.outOfRange i cells.size)

def write? (cells : Array (Amplitude R)) (i : Nat) (a : Amplitude R) :
    Except Fault (Array (Amplitude R)) :=
  if i < cells.size then .ok (cells.setIfInBounds i a) else .error (.outOfRange i cells.size)

theorem read?_eq_ok {cells : Array (Amplitude R)} {i : Nat} (h : i < cells.size) :
    read? cells i = .ok (cells.getD i 0) := by
  simp [read?, h, Array.getD]

/-- An array of zeros into which values are written one after another, each at a place of its own. -/
def filled? (n : Nat) (place : Nat → Nat) (value : Nat → Except Fault (Amplitude R)) :
    Except Fault (Array (Amplitude R)) :=
  (List.range n).foldlM (fun cells k => do write? cells (place k) (← value k))
    (Array.replicate n 0)

theorem setIfInBounds_ofFn {n m : Nat} (g : Nat → Amplitude R) :
    (Array.ofFn fun k : Fin n => if k.val < m then g k else 0).setIfInBounds m (g m) =
      Array.ofFn fun k : Fin n => if k.val < m + 1 then g k else 0 := by
  apply Array.ext
  · simp
  intro i hi hi'
  have hin : i < n := by simpa using hi'
  rw [Array.getElem_setIfInBounds (by simpa using hin)]
  simp only [Array.getElem_ofFn]
  by_cases him : m = i
  · simp [him]
  · have hlt : i < m + 1 ↔ i < m := by omega
    simp [him, hlt]

/-- The array after the first values were written. -/
theorem foldlM_write?_eq_ok {n : Nat} {place : Nat → Nat}
    {value : Nat → Except Fault (Amplitude R)} {g : Nat → Amplitude R}
    (hplace : ∀ k < n, place k = k) (hvalue : ∀ k < n, value k = .ok (g k)) {m : Nat} (hm : m ≤ n) :
    (List.range m).foldlM (fun cells k => do write? cells (place k) (← value k))
        (Array.replicate n 0) =
      .ok (Array.ofFn fun k : Fin n => if k.val < m then g k else 0) := by
  induction m with
  | zero => simp [pure, Except.pure, Array.ext_iff]
  | succ m ih =>
    rw [foldlM_range_succ, ih (Nat.le_of_succ_le hm)]
    show (do write? _ (place m) (← value m)) = _
    rw [hvalue m hm, hplace m hm]
    show write? _ m (g m) = _
    rw [write?, if_pos (by rw [Array.size_ofFn]; exact hm)]
    exact congrArg Except.ok (setIfInBounds_ofFn g)

theorem filled?_eq_ok {n : Nat} (place : Nat → Nat) (value : Nat → Except Fault (Amplitude R))
    (g : Nat → Amplitude R) (hplace : ∀ k < n, place k = k) (hvalue : ∀ k < n, value k = .ok (g k)) :
    filled? n place value = .ok (Array.ofFn fun k : Fin n => g k) := by
  rw [filled?, foldlM_write?_eq_ok hplace hvalue (Nat.le_refl n)]
  simp

end Cells

section Tables

/-- The entry of a gate in a row and a column. -/
def gateCell? {d : Nat} (u : Gate R d) (i j : Nat) : Except Fault (Amplitude R) :=
  if i < d ∧ j < d then .ok (u.entry i j) else .error (.outOfRange (i * d + j) (d * d))

/-- The entry of a tensor at an index triple. -/
def cell? (t : Tensor R) (l p r : Nat) : Except Fault (Amplitude R) :=
  if l < t.left ∧ p < t.phys ∧ r < t.right then t.get? l p r
  else .error (.outOfRange (t.offset l p r) t.cells.size)

/-- The entry of a block in a row and a column. -/
def blockCell? (b : Block R) (i j : Nat) : Except Fault (Amplitude R) :=
  if i < b.rows ∧ j < b.cols then read? b.cells (i * b.cols + j)
  else .error (.outOfRange (i * b.cols + j) b.cells.size)

def value? (values : List R) (m : Nat) : Except Fault R :=
  if h : m < values.length then .ok values[m] else .error (.outOfRange m values.length)

theorem gateCell?_eq_ok {d : Nat} (u : Gate R d) {i j : Nat} (hi : i < d) (hj : j < d) :
    gateCell? u i j = .ok (u.entry i j) :=
  if_pos ⟨hi, hj⟩

theorem cell?_eq_ok {t : Tensor R} {l p r : Nat} (hfull : t.cells.size = t.left * t.phys * t.right)
    (hl : l < t.left) (hp : p < t.phys) (hr : r < t.right) :
    cell? t l p r = .ok (t.entry l p r) := by
  have hlt : t.offset l p r < t.cells.size := hfull ▸ rowMajor_lt (rowMajor_lt hl hp) hr
  simp [cell?, hl, hp, hr, Tensor.get?, Tensor.entry, Array.getD_eq_getD_getElem?, hlt]

theorem blockCell?_eq_ok {b : Block R} {rows cols i j : Nat} (h : b.HasShape rows cols)
    (hi : i < rows) (hj : j < cols) : blockCell? b i j = .ok (b.entry i j) := by
  obtain ⟨rfl, rfl, hfull⟩ := h
  rw [blockCell?, if_pos ⟨hi, hj⟩, read?_eq_ok (hfull ▸ rowMajor_lt hi hj), Block.entry]

theorem value?_eq_ok {values : List R} {m : Nat} (hm : m < values.length) :
    value? values m = .ok (values.getD m 0) := by
  simp [value?, hm]

/-- A tensor whose entries are written one after another. -/
def tensor? (left phys right : Nat) (f : Nat → Nat → Nat → Except Fault (Amplitude R)) :
    Except Fault (Tensor R) := do
  let cells ← filled? (left * phys * right)
    (fun k => (k / right / phys * phys + k / right % phys) * right + k % right)
    fun k => f (k / right / phys) (k / right % phys) (k % right)
  return ⟨left, phys, right, cells⟩

theorem tensor?_eq_ok (left phys right : Nat) {f : Nat → Nat → Nat → Except Fault (Amplitude R)}
    {g : Nat → Nat → Nat → Amplitude R}
    (h : ∀ l < left, ∀ p < phys, ∀ r < right, f l p r = .ok (g l p r)) :
    tensor? left phys right f = .ok (Tensor.ofFn left phys right g) := by
  have hcells := filled?_eq_ok (n := left * phys * right)
    (fun k => (k / right / phys * phys + k / right % phys) * right + k % right)
    (fun k => f (k / right / phys) (k / right % phys) (k % right))
    (fun k => g (k / right / phys) (k / right % phys) (k % right))
    (fun k _ => by rw [Nat.div_add_mod', Nat.div_add_mod'])
    (fun k hk => by
      obtain ⟨hrow, hr⟩ := lt_of_lt_rowMajor hk
      obtain ⟨hl, hp⟩ := lt_of_lt_rowMajor hrow
      exact h _ hl _ hp _ hr)
  rw [tensor?, hcells]
  rfl

/-- A block whose entries are written one after another. -/
def block? (rows cols : Nat) (f : Nat → Nat → Except Fault (Amplitude R)) :
    Except Fault (Block R) := do
  let cells ← filled? (rows * cols) (fun k => k / cols * cols + k % cols)
    fun k => f (k / cols) (k % cols)
  return ⟨rows, cols, cells⟩

theorem block?_eq_ok {rows cols : Nat} {f : Nat → Nat → Except Fault (Amplitude R)}
    {g : Nat → Nat → Amplitude R} (h : ∀ i < rows, ∀ j < cols, f i j = .ok (g i j)) :
    block? rows cols f = .ok (Block.ofFn rows cols g) := by
  have hcells := filled?_eq_ok (n := rows * cols) (fun k => k / cols * cols + k % cols)
    (fun k => f (k / cols) (k % cols)) (fun k => g (k / cols) (k % cols))
    (fun k _ => Nat.div_add_mod' k cols)
    (fun k hk => h _ (lt_of_lt_rowMajor hk).1 _ (lt_of_lt_rowMajor hk).2)
  rw [block?, hcells]
  rfl

end Tables

section Gates

def rotate? (u : Gate R 2) (t : Tensor R) : Except Fault (Tensor R) :=
  tensor? t.left t.phys t.right fun l p r => do
    return (← gateCell? u p 0) * (← cell? t l 0 r) + (← gateCell? u p 1) * (← cell? t l 1 r)

def contract? (a b : Tensor R) : Except Fault (Tensor R) :=
  tensor? a.left 4 b.right fun l q r =>
    sumRange? a.right fun m => do return (← cell? a l (q / 2) m) * (← cell? b m (q % 2) r)

def pairBlock? (u : Gate R 4) (pair : Tensor R) : Except Fault (Block R) :=
  block? (2 * pair.left) (2 * pair.right) fun i j =>
    let row := 2 * (i % 2) + j / pair.right
    sumRange? 4 fun q => do
      return (← gateCell? u row q) * (← cell? pair (i / 2) q (j % pair.right))

def splitLeft? (f : Svd R) (left kept : Nat) : Except Fault (Tensor R) :=
  tensor? left 2 kept fun l p m => do
    return (← blockCell? f.left (l * 2 + p) m).scale (← value? f.values m)

def splitRight? (f : Svd R) (kept right : Nat) : Except Fault (Tensor R) :=
  tensor? kept 2 right fun m p r => do return (← blockCell? f.right (p * right + r) m).conj

variable {a b : Tensor R} {left right : Nat}

theorem site_cell?_eq_ok {l p r : Nat} (h : a.IsSite left right) (hl : l < left) (hp : p < 2)
    (hr : r < right) : cell? a l p r = .ok (a.entry l p r) := by
  obtain ⟨rfl, hphys, rfl, hfull⟩ := h
  exact cell?_eq_ok hfull hl (hphys ▸ hp) hr

theorem rotate?_eq_ok (u : Gate R 2) (h : a.IsSite left right) :
    rotate? u a = .ok (a.rotate u) := by
  refine tensor?_eq_ok _ _ _ fun l hl p hp r hr => ?_
  rw [h.left_eq] at hl
  rw [h.phys_eq] at hp
  rw [h.right_eq] at hr
  rw [gateCell?_eq_ok u hp Nat.two_pos, gateCell?_eq_ok u hp Nat.one_lt_two,
    site_cell?_eq_ok h hl Nat.two_pos hr, site_cell?_eq_ok h hl Nat.one_lt_two hr]
  rfl

theorem contract?_eq_ok {middle : Nat} (ha : a.IsSite left middle) (hb : b.IsSite middle right) :
    contract? a b = .ok (Mps.contract a b) := by
  refine tensor?_eq_ok _ _ _ fun l hl q hq r hr => sumRange?_eq_ok fun m hm => ?_
  rw [ha.left_eq] at hl
  rw [hb.right_eq] at hr
  rw [ha.right_eq] at hm
  rw [site_cell?_eq_ok ha hl (Nat.div_lt_of_lt_mul hq) hm,
    site_cell?_eq_ok hb hm (Nat.mod_lt q Nat.two_pos) hr]
  rfl

theorem pairBlock?_eq_ok (u : Gate R 4) (a b : Tensor R) :
    pairBlock? u (Mps.contract a b) = .ok (Mps.pairBlock u (Mps.contract a b)) := by
  refine block?_eq_ok fun i hi j hj => sumRange?_eq_ok fun q hq => ?_
  obtain ⟨hcol, hr⟩ := lt_of_lt_rowMajor hj
  have hrow : 2 * (i % 2) + j / (Mps.contract a b).right < 4 := by omega
  rw [gateCell?_eq_ok u hrow hq,
    cell?_eq_ok Array.size_ofFn (Nat.div_lt_of_lt_mul hi) hq hr]
  rfl

theorem splitLeft?_eq_ok {f : Svd R} {cols kept : Nat} (hf : f.IsThin (2 * left) cols)
    (hkept : kept ≤ min (2 * left) cols) :
    splitLeft? f left kept = .ok (Mps.splitLeft f left kept) := by
  refine tensor?_eq_ok _ _ _ fun l hl p hp m hm => ?_
  have hcol := Nat.lt_of_lt_of_le hm hkept
  rw [blockCell?_eq_ok hf.left (by omega) hcol, value?_eq_ok (hf.length_values ▸ hcol)]
  rfl

theorem splitRight?_eq_ok {f : Svd R} {rows kept : Nat} (hf : f.IsThin rows (2 * right))
    (hkept : kept ≤ min rows (2 * right)) :
    splitRight? f kept right = .ok (Mps.splitRight f kept right) := by
  refine tensor?_eq_ok _ _ _ fun m hm p hp r hr => ?_
  rw [blockCell?_eq_ok hf.right (rowMajor_lt hp hr) (Nat.lt_of_lt_of_le hm hkept)]
  rfl

end Gates

section Dense

/-- Adds what a partial amplitude contributes to the next one at one value of their bond. -/
def absorb? (partials : Array (Amplitude R)) (bond : Nat) (a : Tensor R) (bits p r : Nat)
    (acc : Amplitude R) (l : Nat) : Except Fault (Amplitude R) := do
  let v ← read? partials (bits * bond + l)
  if v == 0 then return acc else return acc + v * (← cell? a l p r)

/-- The next partial amplitudes are written like the entries of a tensor. -/
def extend? (partials : Array (Amplitude R)) (bond : Nat) (a : Tensor R) :
    Except Fault (Array (Amplitude R)) := do
  let next ← tensor? (partials.size / bond) 2 a.right fun bits p r =>
    (List.range a.left).foldlM (absorb? partials bond a bits p r) 0
  return next.cells

def extendAll? (partials : Array (Amplitude R)) (bond : Nat) :
    List (Tensor R) → Except Fault (Array (Amplitude R))
  | [] => .ok partials
  | a :: rest => do extendAll? (← extend? partials bond a) a.right rest

def stateVector? (psi : Mps R) : Except Fault (Array (Amplitude R)) := extendAll? #[1] 1 psi.sites

variable {partials : Array (Amplitude R)} {bond c : Nat}

theorem absorb?_eq_ok {a : Tensor R} {right bits p r l : Nat} (ha : a.IsSite bond right)
    (hs : partials.size = c * bond) (hbits : bits < c) (hp : p < 2) (hr : r < right) (hl : l < bond)
    (acc : Amplitude R) :
    absorb? partials bond a bits p r acc l =
      let v := partials.getD (bits * bond + l) 0
      .ok (if v == 0 then acc else acc + v * a.entry l p r) := by
  rw [absorb?, read?_eq_ok (hs ▸ rowMajor_lt hbits hl), site_cell?_eq_ok ha hl hp hr]
  show (if partials.getD (bits * bond + l) 0 == 0 then _ else _) = _
  split
  next h => simp only [h]; rfl
  next h => simp only [h]; rfl

theorem extend?_eq_ok {a : Tensor R} {right : Nat} (ha : a.IsSite bond right) (hb : 0 < bond)
    (hs : partials.size = c * bond) : extend? partials bond a = .ok (Mps.extend partials bond a) := by
  have hnext := tensor?_eq_ok (partials.size / bond) 2 a.right
    (f := fun bits p r => (List.range a.left).foldlM (absorb? partials bond a bits p r) 0)
    fun bits hbits p hp r hr => foldlM_range_eq_ok fun l hl acc =>
      absorb?_eq_ok ha hs (by rwa [hs, Nat.mul_div_cancel c hb] at hbits) hp (ha.right_eq ▸ hr)
        (ha.left_eq ▸ hl) acc
  rw [extend?, hnext]
  rfl

theorem extendAll?_eq_ok {sites : List (Tensor R)} (h : Mps.IsChain bond sites) (hb : 0 < bond)
    (hs : partials.size = c * bond) :
    extendAll? partials bond sites = .ok (Mps.extendAll partials bond sites) := by
  induction sites generalizing bond c partials with
  | nil => rfl
  | cons a rest ih =>
    obtain ⟨hleft, hphys, hright, hfull, hrest⟩ := h
    rw [extendAll?, extend?_eq_ok ⟨hleft, hphys, rfl, hfull⟩ hb hs]
    exact ih hrest hright (Mps.size_extend hb hs)

theorem stateVector?_eq_ok {psi : Mps R} (h : psi.WellFormed) :
    stateVector? psi = .ok psi.stateVector :=
  extendAll?_eq_ok (c := 1) h Nat.one_pos rfl

end Dense

section Run

def zeroSite? : Except Fault (Tensor R) := (Tensor.zeros 1 2 1).set? 0 0 0 1

theorem zeroSite?_eq_ok : zeroSite? = .ok (Mps.zeroSite (R := R)) := by
  rfl

def applyOne? (psi : Mps R) (k : Nat) (u : Gate R 2) : Except Fault (Mps R) := do
  let a ← psi.site? k
  return ⟨psi.sites.set k (← rotate? u a)⟩

def applyPair? [ThinSvd R] (psi : Mps R) (k : Nat) (u : Gate R 4) (trunc : Truncation R) :
    Except Fault (Mps R) := do
  let a ← psi.site? k
  let b ← psi.site? (k + 1)
  let f := ThinSvd.factor (← pairBlock? u (← contract? a b))
  let kept := trunc.kept f.values
  let first ← splitLeft? f a.left kept
  let second ← splitRight? f kept b.right
  return ⟨(psi.sites.set k first).set (k + 1) second⟩

def act? [ThinSvd R] (psi : Mps R) : ChainGate R → Except Fault (Mps R)
  | .one k u => applyOne? psi k u
  | .pair k u trunc => applyPair? psi k u trunc

/-- The run of gates from `|0…0⟩` with checked access. -/
def run? [ThinSvd R] (n : Nat) (gates : List (ChainGate R)) : Except Fault (Mps R) := do
  let site ← zeroSite?
  gates.foldlM act? ⟨List.replicate n site⟩

variable [ThinSvd R] {psi : Mps R} {n : Nat}

theorem act?_eq {cap : Nat → Nat} {g : ChainGate R} (hthin : ThinSvd.IsThin R)
    (h : psi.Bonded n cap) (hg : g.InRange n) : act? psi g = g.act? psi := by
  cases g with
  | one k u =>
    obtain ⟨a, ha⟩ := h.exists_site hg
    have hrotate := rotate?_eq_ok u (h.isSite k a ha)
    simp only [act?, applyOne?, Mps.site?_of_getElem? ha, bind, Except.bind, hrotate]
    exact (Mps.applyOne?_of_getElem? u ha).symm
  | pair k u trunc =>
    obtain ⟨a, ha⟩ := h.exists_site (Nat.lt_of_succ_lt hg)
    obtain ⟨b, hb⟩ := h.exists_site hg
    obtain ⟨hf, hkept⟩ := h.kept_le hthin ha hb u trunc
    have hcontract := contract?_eq_ok (h.isSite k a ha) (h.isSite (k + 1) b hb)
    simp only [act?, applyPair?, Mps.site?_of_getElem? ha, Mps.site?_of_getElem? hb, bind,
      Except.bind, hcontract, pairBlock?_eq_ok, splitLeft?_eq_ok hf hkept,
      splitRight?_eq_ok hf hkept]
    exact (Mps.applyPair?_of_getElem? u trunc ha hb).symm

theorem run?_append (n : Nat) (gates : List (ChainGate R)) (g : ChainGate R) :
    run? n (gates ++ [g]) = run? n gates >>= fun psi => act? psi g := by
  simp [run?, List.foldlM_append]

/-- A run of gates in range reads and writes no entry out of range. -/
theorem run?_eq (hthin : ThinSvd.IsThin R) (gates : List (ChainGate R))
    (hgates : ∀ g ∈ gates, g.InRange n) : run? n gates = ChainGate.run? n gates := by
  induction gates using List.reverseRecOn with
  | nil =>
    rw [run?, zeroSite?_eq_ok]
    rfl
  | append_singleton gates g ih =>
    obtain ⟨hbefore, hg⟩ := List.forall_mem_append.mp hgates
    obtain ⟨psi, hrun, hpsi⟩ := ChainGate.exists_run? hthin gates hbefore
    rw [run?_append, ih hbefore, ChainGate.run?_append, hrun]
    exact act?_eq hthin hpsi (hg g (List.mem_singleton_self g))

end Run

end Checked

/-- Gates in range keep the sites, their physical dimension and the bonds they share. A bond is never
larger than the number of states on either side of it or than its last truncation allows, and no entry
is read or written out of range. -/
theorem ChainGate.run_keeps_shape [ThinSvd R] (hthin : ThinSvd.IsThin R) {n : Nat} (hn : 1 ≤ n)
    (gates : List (ChainGate R)) (hgates : ∀ g ∈ gates, g.InRange n) :
    ∃ psi, run? n gates = .ok psi ∧ Checked.run? n gates = .ok psi ∧ psi.size = n ∧
      (∀ a ∈ psi.sites, a.phys = 2 ∧ a.cells.size = a.left * a.phys * a.right) ∧
      (∃ a, psi.sites[0]? = some a ∧ a.left = 1) ∧
      (∃ b, psi.sites[n - 1]? = some b ∧ b.right = 1) ∧
      (∀ k a b, psi.sites[k]? = some a → psi.sites[k + 1]? = some b → a.right = b.left) ∧
      (∀ k, k + 1 < n → ∃ d, psi.bondDims[k]? = some d ∧ 1 ≤ d ∧
        d ≤ min (2 ^ (k + 1)) (2 ^ (n - 1 - k)) ∧ d ≤ bondCap gates k) ∧
      psi.stateVector.size = 2 ^ n ∧ Checked.stateVector? psi = .ok psi.stateVector := by
  obtain ⟨psi, hrun, h⟩ := exists_run? hthin gates hgates
  obtain ⟨a, ha⟩ := h.exists_site (show 0 < n from hn)
  obtain ⟨b, hb⟩ := h.exists_site (show n - 1 < n by omega)
  refine ⟨psi, hrun, (Checked.run?_eq hthin gates hgates).trans hrun, h.size_eq, ?_,
    ⟨a, ha, h.left_end ha⟩, ⟨b, hb, h.right_end hn hb⟩, fun k a b => h.shared,
    fun k => h.exists_bondDim, ?_, Checked.stateVector?_eq_ok h.wellFormed⟩
  · intro c hc
    obtain ⟨k, hk⟩ := List.mem_iff_getElem?.mp hc
    have hsite := h.isSite k c hk
    exact ⟨hsite.phys_eq, hsite.size_cells⟩
  · rw [Mps.size_stateVector h.wellFormed, h.size_eq]

/-- Three qubits under a Hadamard gate and two CNOT gates, the second of which keeps one singular value
of the floating-point decomposition. -/
theorem ChainGate.run_keeps_shape_cnots :
    let gates : List (ChainGate Float) :=
      [one 0 Gate.hadamard, pair 0 Gate.cnot .exact, pair 1 Gate.cnot ⟨1, 0⟩]
    ThinSvd.IsThin Float ∧ 1 ≤ 3 ∧ (∀ g ∈ gates, g.InRange 3) ∧
      ∃ psi d e, run? 3 gates = .ok psi ∧ Checked.run? 3 gates = .ok psi ∧
        psi.bondDims[0]? = some d ∧ d ≤ 2 ∧ psi.bondDims[1]? = some e ∧ e = 1 ∧
        psi.stateVector.size = 8 := by
  intro gates
  have hgates : ∀ g ∈ gates, g.InRange 3 := by simp [gates, InRange]
  obtain ⟨psi, hrun, hchecked, _, _, _, _, _, hbonds, hdense, _⟩ :=
    run_keeps_shape Reduction.isThin (by decide) gates hgates
  obtain ⟨d, hd, _, hmin, _⟩ := hbonds 0 (by decide)
  obtain ⟨e, he, hpos, _, hcap⟩ := hbonds 1 (by decide)
  exact ⟨Reduction.isThin, by decide, hgates, psi, d, e, hrun, hchecked, hd,
    (Nat.le_min.mp hmin).1, he, Nat.le_antisymm hcap hpos, hdense⟩

end PauliEstimation
