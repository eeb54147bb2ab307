import PauliEstimation.Decimal.Numeral

/-!
Options of the estimator's command line. Every option is given at most once, as `--name value` or
`--name=value`. A separate value that starts with a dash, other than a single dash, is read as
another option.
-/

namespace PauliEstimation.Estimator

inductive Model where
  | ising
  | heisenberg
deriving DecidableEq, Repr

inductive Policy where
  | variance
  | repetitions
deriving DecidableEq, Repr

structure Options where
  /-- Number of qubits. -/
  n : Nat := 4
  model : Model := .heisenberg
  /-- Field along `Z`, for the Ising chain. -/
  field : Float := 0.5
  /-- Coupling between neighbours. -/
  coupling : Float := 1.0
  policy : Policy := .variance
  /-- Target variance per term, for the variance policy. -/
  varianceBound : Float := 1e-4
  /-- Shots per group, for the repetitions policy. -/
  totalRepetitions : Nat := 10000
  chunk : Nat := 10000
  symmetrize : Bool := false
  maxRepetitionsPerJob : Nat := 3000000
  maxRounds : Option Nat := none
  maxBond : Nat := 64
  cutoff : Float := 1e-10
  /-- Depolarizing probability per gate. -/
  p : Float := 0.0
  trajectories : Nat := 16
  p01 : Float := 0.0
  p10 : Float := 0.0
  seed : String := "estimator"
  /-- Accepted for schedulers. The output does not depend on it. -/
  threads : Nat := 0
  /-- File for the table of terms. -/
  out : Option String := none

/-- What a list of arguments asks for. -/
inductive Request where
  | run (options : Options)
  | help
  | version
  | badUsage (reason : String)

def Model.ofName? : String → Option Model
  | "ising" => some .ising
  | "heisenberg" => some .heisenberg
  | _ => none

def Policy.ofName? : String → Option Policy
  | "variance" => some .variance
  | "repetitions" => some .repetitions
  | _ => none

namespace Options

/-- Stores the value of an option, if it can be read. -/
abbrev Setter := String → Options → Option Options

def ofWord (store : Nat → Options → Options) : Setter := fun v o =>
  (Decimal.readWord? v).map (store · o)

def ofNumber (store : Float → Options → Options) : Setter := fun v o =>
  (Decimal.readNumber? v).map (store · o)

/-- The options that take a value. -/
def setters : List (String × Setter) :=
  [("n", ofWord fun x o => { o with n := x }),
   ("model", fun v o => (Model.ofName? v).map fun x => { o with model := x }),
   ("field", ofNumber fun x o => { o with field := x }),
   ("coupling", ofNumber fun x o => { o with coupling := x }),
   ("policy", fun v o => (Policy.ofName? v).map fun x => { o with policy := x }),
   ("variance-bound", ofNumber fun x o => { o with varianceBound := x }),
   ("total-repetitions", ofWord fun x o => { o with totalRepetitions := x }),
   ("chunk", ofWord fun x o => { o with chunk := x }),
   ("max-repetitions-per-job", ofWord fun x o => { o with maxRepetitionsPerJob := x }),
   ("max-rounds", ofWord fun x o => { o with maxRounds := some x }),
   ("max-bond", ofWord fun x o => { o with maxBond := x }),
   ("cutoff", ofNumber fun x o => { o with cutoff := x }),
   ("p", ofNumber fun x o => { o with p := x }),
   ("trajectories", ofWord fun x o => { o with trajectories := x }),
   ("p01", ofNumber fun x o => { o with p01 := x }),
   ("p10", ofNumber fun x o => { o with p10 := x }),
   ("seed", fun v o => some { o with seed := v }),
   ("threads", ofWord fun x o => { o with threads := x }),
   ("out", fun v o => some { o with out := some v })]

end Options

/-- The name and the attached value of an argument `--name` or `--name=value`. -/
def splitLong? (arg : String) : Option (String × Option String) :=
  match arg.toList with
  | '-' :: '-' :: rest =>
    let name := rest.takeWhile (· != '=')
    let value := match rest.dropWhile (· != '=') with
      | [] => none
      | _ :: tail => some (String.ofList tail)
    some (String.ofList name, value)
  | _ => none

def looksLikeOption (arg : String) : Bool :=
  match arg.toList with
  | '-' :: _ :: _ => true
  | _ => false

/-- Stores one value and marks the option as seen. -/
def store (seen : List String) (name value : String) (setter : Options.Setter) (o : Options) :
    Except String (List String × Options) :=
  if name ∈ seen then .error ("the option --" ++ name ++ " cannot be used multiple times")
  else match setter value o with
    | some o => .ok (name :: seen, o)
    | none => .error ("invalid value for --" ++ name)

def parse (seen : List String) (o : Options) : List String → Request
  | [] => .run o
  | "--" :: [] => .run o
  | "--" :: arg :: _ => .badUsage ("unexpected argument " ++ arg)
  | "-h" :: _ => .help
  | "-V" :: _ => .version
  | arg :: rest =>
    match splitLong? arg with
    | none => .badUsage ("unexpected argument " ++ arg)
    | some ("help", none) => .help
    | some ("version", none) => .version
    | some ("symmetrize", none) =>
      if "symmetrize" ∈ seen then .badUsage "the option --symmetrize cannot be used multiple times"
      else parse ("symmetrize" :: seen) { o with symmetrize := true } rest
    | some (name, attached) =>
      match Options.setters.lookup name with
      | none => .badUsage ("unexpected argument " ++ arg)
      | some setter =>
        match attached, rest with
        | some value, rest => match store seen name value setter o with
          | .ok (seen, o) => parse seen o rest
          | .error reason => .badUsage reason
        | none, [] => .badUsage ("a value is required for --" ++ name)
        | none, value :: rest =>
          if looksLikeOption value then .badUsage ("a value is required for --" ++ name)
          else match store seen name value setter o with
            | .ok (seen, o) => parse seen o rest
            | .error reason => .badUsage reason

def Request.ofArgs (args : List String) : Request := parse [] {} args

def version : String := "estimator 0.1.0"

def usage : List String :=
  ["Adaptive shot-based energy estimation on a GHZ state", "",
   "Usage: estimator [--symmetrize] [--name value]...", "", "Options with a value:"] ++
  Options.setters.map fun e => "  --" ++ e.1

end PauliEstimation.Estimator
