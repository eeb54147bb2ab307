import PauliEstimation.Bindings
import PauliEstimation.Pauli

namespace PauliEstimation

inductive Exponent (R : Type) where
  | value (x : R)
  | symbol (name : String)
deriving BEq

/-- A power of a Pauli operator, a Hadamard, a controlled gate, or a joint measurement whose columns
follow the listed qubits. -/
inductive Operation (R : Type) where
  | power (axis : Pauli) (qubit : Qubit) (exponent : Exponent R)
  | hadamard (qubit : Qubit)
  | cnot (control target : Qubit)
  | cz (a b : Qubit)
  | measure (qubits : List Qubit) (key : String)

abbrev Moment (R : Type) := List (Operation R)

structure Circuit (R : Type) where
  moments : List (Moment R)

variable {R : Type}

namespace Exponent

/-- The exponent as a number, if it is one. -/
def value? : Exponent R → Except Fault R
  | value x => .ok x
  | symbol name => .error (.unresolvedSymbol name)

def resolve (bindings : Bindings R) : Exponent R → Except Fault (Exponent R)
  | value x => .ok (value x)
  | symbol name => match bindings.get? name with
    | some x => .ok (value x)
    | none => .error (.unresolvedSymbol name)

def symbol? : Exponent R → Option String
  | value _ => none
  | symbol name => some name

end Exponent

namespace Operation

instance [BEq R] : BEq (Operation R) where
  beq
    | power a q e, power a' q' e' => a = a' && q = q' && e == e'
    | hadamard q, hadamard q' => q = q'
    | cnot c t, cnot c' t' => c = c' && t = t'
    | cz a b, cz a' b' => a = a' && b = b'
    | measure qs k, measure qs' k' => qs = qs' && k = k'
    | _, _ => false

def qubits : Operation R → List Qubit
  | power _ q _ => [q]
  | hadamard q => [q]
  | cnot c t => [c, t]
  | cz a b => [a, b]
  | measure qs _ => qs

/-- The symbol in the exponent, if there is one. -/
def symbol? : Operation R → Option String
  | power _ _ e => e.symbol?
  | _ => none

def measurement? : Operation R → Option (String × List Qubit)
  | measure qs key => some (key, qs)
  | _ => none

def resolve (bindings : Bindings R) : Operation R → Except Fault (Operation R)
  | power a q e => (e.resolve bindings).map (power a q)
  | op => .ok op

end Operation

namespace Circuit

instance : EmptyCollection (Circuit R) := ⟨⟨[]⟩⟩

instance : Inhabited (Circuit R) := ⟨∅⟩

instance [BEq R] : BEq (Circuit R) := ⟨fun c d => c.moments == d.moments⟩

instance : Append (Circuit R) := ⟨fun c d => ⟨c.moments ++ d.moments⟩⟩

def push (c : Circuit R) (moment : Moment R) : Circuit R := ⟨c.moments ++ [moment]⟩

def operations (c : Circuit R) : List (Operation R) := c.moments.flatten

/-- The qubits of all operations, measured ones included, in ascending order. -/
def qubits (c : Circuit R) : List Qubit := Qubit.ascending (c.operations.flatMap Operation.qubits)

/-- The symbols in use, in the order of their first use. -/
def symbols (c : Circuit R) : List String :=
  (c.operations.filterMap Operation.symbol?).foldl
    (fun names name => if name ∈ names then names else names ++ [name]) []

def isParameterized (c : Circuit R) : Bool := c.operations.any (·.symbol?.isSome)

/-- Every measurement, in program order. -/
def measurements (c : Circuit R) : List (String × List Qubit) :=
  c.operations.filterMap Operation.measurement?

/-- The columns of the first measurement under a key. -/
def measurement? (c : Circuit R) (key : String) : Except Fault (List Qubit) :=
  match c.measurements.find? (·.1 = key) with
  | some m => .ok m.2
  | none => .error (.missingKey key)

/-- Replaces every symbol by its value. The first unbound symbol is the error. -/
def resolve (c : Circuit R) (bindings : Bindings R) : Except Fault (Circuit R) :=
  (c.moments.mapM (List.mapM (Operation.resolve bindings))).map Circuit.mk

@[simp] theorem operations_append (c d : Circuit R) :
    (c ++ d).operations = c.operations ++ d.operations :=
  List.flatten_append

@[simp] theorem mem_qubits {c : Circuit R} {q : Qubit} :
    q ∈ c.qubits ↔ ∃ op ∈ c.operations, q ∈ op.qubits := by
  simp [qubits]

end Circuit

end PauliEstimation
