import PauliEstimation.Register

/-!
Runs in place: the steps of a circuit as updates of one register and one stream, check by check.
Each of them may stop half way. They leave what the runs by value report.
-/

namespace PauliEstimation

/-- Updates of a register and a stream. One that fails leaves them as they are at that time. -/
abbrev InPlace (R : Type) := EStateM Fault (Register R × RandomStream)

namespace InPlace

variable {R α : Type}

def check (f : Register R → Except Fault α) : InPlace R α := fun e =>
  match f e.1 with
  | .ok a => .ok a e
  | .error fault => .error fault e

/-- Replaces the state of the register. -/
def update (f : Register R → Except Fault (Mps R)) : InPlace R Unit := do
  let state ← check f
  modify fun e => ({ e.1 with state }, e.2)

/-- A step by value, taken in place. -/
def ofStep (f : Register R → Except Fault (Register R × α)) : InPlace R α := fun e =>
  match f e.1 with
  | .ok (r, a) => .ok a (r, e.2)
  | .error fault => .error fault e

variable [Scalar R]

def applyOne (q : Qubit) (u : Gate R 2) : InPlace R (List Nat) := do
  let k ← check (·.site? q)
  update (·.state.applyOne? k u)
  return [k]

def applyPair [ThinSvd R] (a b : Qubit) (u : Gate R 4) : InPlace R (List Nat) := do
  let i ← check (·.site? a)
  let j ← check (·.site? b)
  if i + 1 = j then update fun r => r.state.applyPair? i u r.trunc
  else if j + 1 = i then update fun r => r.state.applyPair? j u.swapped r.trunc
  else throw (.nonAdjacent a b)
  return [i, j]

def step [ThinSvd R] : Operation R → InPlace R (List Nat)
  | .power axis q e => do applyOne q (Gate.power axis (← check fun _ => e.value?))
  | .hadamard q => applyOne q Gate.hadamard
  | .cnot c t => applyPair c t Gate.cnot
  | .cz a b => applyPair a b Gate.cz
  | .measure _ _ => return []

def kick (p : R) (k : Nat) : InPlace R Unit := fun e =>
  match e.1.state.depolarize k p e.2 with
  | (.ok state, s) => .ok () ({ e.1 with state }, s)
  | (.error fault, s) => .error fault (e.1, s)

def applyCircuit [ThinSvd R] (c : Circuit R) : InPlace R Unit :=
  forM c.operations fun op => do let _ ← step op

def applyCircuitNoisy [ThinSvd R] (c : Circuit R) (p : R) : InPlace R Unit :=
  forM c.operations fun op => do forM (← step op) (kick p)

omit [Scalar R] in
theorem check_bind_ofStep {β : Type} (f : Register R → Except Fault β)
    (g : β → Register R → Except Fault (Register R × α)) :
    (check f >>= fun b => ofStep (g b)) = ofStep fun r => f r >>= fun b => g b r := by
  funext e
  simp only [bind, EStateM.bind, check, ofStep, Except.bind]
  cases f e.1 <;> rfl

omit [Scalar R] in
theorem update_bind_pure (f : Register R → Except Fault (Mps R)) (a : α) :
    (update f >>= fun _ => pure a) = ofStep fun r => do return ({ r with state := ← f r }, a) := by
  funext e
  simp only [bind, EStateM.bind, update, check, ofStep, Except.bind]
  cases f e.1 <;> rfl

theorem applyOne_eq (q : Qubit) (u : Gate R 2) : applyOne q u = ofStep (·.applyOne? q u) := by
  simp only [applyOne, update_bind_pure, check_bind_ofStep]
  rfl

theorem applyPair_eq [ThinSvd R] (a b : Qubit) (u : Gate R 4) :
    applyPair a b u = ofStep (·.applyPair? a b u) := by
  -- each branch is one update; together they are one step that looks at the sites first
  have hbranches : ∀ i j : Nat,
      (if i + 1 = j then update (fun r => r.state.applyPair? i u r.trunc) >>= fun _ => pure [i, j]
        else if j + 1 = i then
          update (fun r => r.state.applyPair? j u.swapped r.trunc) >>= fun _ => pure [i, j]
        else throw (.nonAdjacent a b) >>= fun (_ : Unit) => pure [i, j] : InPlace R (List Nat)) =
      ofStep fun r => if i + 1 = j then
          return ({ r with state := ← r.state.applyPair? i u r.trunc }, [i, j])
        else if j + 1 = i then
          return ({ r with state := ← r.state.applyPair? j u.swapped r.trunc }, [i, j])
        else throw (.nonAdjacent a b) := by
    intro i j
    simp only [update_bind_pure]
    split
    next => rfl
    next => split <;> rfl
  unfold applyPair
  simp only [hbranches, check_bind_ofStep]
  rfl

/-- Whatever fails in an operation fails before its update. -/
theorem step_eq [ThinSvd R] (op : Operation R) : step op = ofStep (·.step? op) := by
  cases op with
  | power axis q e =>
    simp only [step, applyOne_eq, check_bind_ofStep]
    rfl
  | hadamard q => exact applyOne_eq q _
  | cnot c t => exact applyPair_eq c t _
  | cz a b => exact applyPair_eq a b _
  | measure qs key => rfl

/-- An operation that fails has changed nothing. -/
theorem step_of_error [ThinSvd R] {op : Operation R} {r : Register R} {fault : Fault}
    (h : r.step? op = .error fault) (s : RandomStream) :
    step op (r, s) = .error fault (r, s) := by
  rw [step_eq]
  simp only [ofStep, h]

/-- A run by value, taken in place. -/
def ofRun (f : Register R → RandomStream → Register.Progress R) : InPlace R Unit := fun e =>
  match f e.1 e.2 with
  | ⟨r, s, none⟩ => .ok () (r, s)
  | ⟨r, s, some fault⟩ => .error fault (r, s)

theorem forM_kick_eq (p : R) (sites : List Nat) :
    forM sites (kick p) = ofRun fun r s => Register.kickAll p r s sites := by
  induction sites with
  | nil => rfl
  | cons k sites ih =>
    rw [List.forM_cons, ih]
    funext ⟨r, s⟩
    simp only [bind, EStateM.bind, kick, ofRun, Register.kickAll]
    rcases r.state.depolarize k p s with ⟨fault | state, s'⟩ <;> rfl

variable [ThinSvd R]

theorem applyCircuit_eq (c : Circuit R) :
    applyCircuit c = ofRun fun r s => ⟨(r.applyCircuit c).1, s, (r.applyCircuit c).2⟩ := by
  unfold applyCircuit Register.applyCircuit
  induction c.operations with
  | nil => rfl
  | cons op ops ih =>
    rw [List.forM_cons, ih, step_eq]
    funext ⟨r, s⟩
    simp only [bind, EStateM.bind, ofStep, ofRun, Register.applyAll]
    rcases r.step? op with fault | ⟨r', sites⟩ <;> rfl

theorem applyCircuitNoisy_eq (c : Circuit R) (p : R) :
    applyCircuitNoisy c p = ofRun fun r s => r.applyCircuitNoisy c p s := by
  unfold applyCircuitNoisy Register.applyCircuitNoisy
  induction c.operations with
  | nil => rfl
  | cons op ops ih =>
    rw [List.forM_cons, ih, step_eq]
    simp only [forM_kick_eq]
    funext ⟨r, s⟩
    simp only [bind, EStateM.bind, ofStep, ofRun, Register.applyAllNoisy]
    rcases r.step? op with fault | ⟨r', sites⟩
    · rfl
    · dsimp only
      rcases Register.kickAll p r' s sites with ⟨r'', s'', _ | fault⟩ <;> rfl

end InPlace

end PauliEstimation
