import PauliEstimation.Svd.Rotation

/-!
Real blocks with a diagonal and entries right below it, made diagonal by sweeps of plane rotations.
A sweep turns two columns so that the shifted square of the block is one step nearer to diagonal,
and then chases the entry that this leaves outside off the end of the block.
-/

namespace PauliEstimation

/-- A real block under reduction: the sum over `k` of `left k` times `right k` times `diagonal k`
and of `left (k + 1)` times `right k` times `below k`. -/
structure LowerBidiagonal where
  diagonal : Array Float
  below : Array Float
  left : Array (Array Float)
  right : Array (Array Float)

namespace LowerBidiagonal

@[inline] def d (b : LowerBidiagonal) (k : Nat) : Float := b.diagonal.getD k 0.0

@[inline] def e (b : LowerBidiagonal) (k : Nat) : Float := b.below.getD k 0.0

def setD (b : LowerBidiagonal) (k : Nat) (x : Float) : LowerBidiagonal :=
  { b with diagonal := b.diagonal.setIfInBounds k x }

def setE (b : LowerBidiagonal) (k : Nat) (x : Float) : LowerBidiagonal :=
  { b with below := b.below.setIfInBounds k x }

def turnLeft (b : LowerBidiagonal) (r : Rotation) (i j : Nat) : LowerBidiagonal :=
  { b with left := r.turn i j b.left }

def turnRight (b : LowerBidiagonal) (r : Rotation) (i j : Nat) : LowerBidiagonal :=
  { b with right := r.turn i j b.right }

def ofDiagonals (diagonal below : Array Float) : LowerBidiagonal :=
  let units := Rotation.unitVectors diagonal.size
  ⟨diagonal, below, units, units⟩

/-- The size, in units of the largest entry, up to which entries are negligible. -/
def negligible : Float := 128.0 * 2.220446049250313e-16

/-- The least number of full precision. -/
def leastNormal : Float := 2.2250738585072014e-308

/-- Replaces negligible entries by zeros, those below the diagonal first. -/
def clean (b : LowerBidiagonal) : LowerBidiagonal :=
  { b with
    below := b.below.mapIdx fun k x =>
      if x.abs ≤ negligible * ((b.d k).abs + (b.d (k + 1)).abs) then 0.0 else x
    diagonal := b.diagonal.map fun x => if x.abs ≤ negligible then 0.0 else x }

/-- Whether the block falls apart between a place and the next one. -/
def isSplit (b : LowerBidiagonal) (k : Nat) : Bool := (b.e k).abs ≤ leastNormal

/-- The last place that is joined to the place before it, among the first places. -/
def lastJoined (b : LowerBidiagonal) : Nat → Nat
  | 0 => 0
  | k + 1 => if b.isSplit k then b.lastJoined k else k + 1

/-- The first of the places that are joined to a place without a gap. -/
def firstJoined (b : LowerBidiagonal) : Nat → Nat
  | 0 => 0
  | k + 1 => if b.isSplit k then k + 1 else b.firstJoined k

/-- Clears the entry `x` that the column of a zero on the diagonal has in the row `j`, and then what
this leaves in the rows after it. The vectors turn with the vanished place first, the entries with
it second. -/
def detachFrom (b : LowerBidiagonal) (vanished : Nat) (x : Float) (j : Nat) : Nat → LowerBidiagonal
  | 0 => b
  | rest + 1 =>
    let r := Rotation.clearing (b.d j) x
    let b := b.setD j (r.first (b.d j) x).abs
    let next := b.e j
    let b := if rest = 0 then b else b.setE j (r.cos * next)
    (b.turnRight r vanished j).detachFrom vanished (r.sin * next) (j + 1) rest

/-- Detaches every place with a zero on the diagonal from the places after it, up to a last one. -/
def detach (b : LowerBidiagonal) (first last : Nat) : LowerBidiagonal :=
  (List.range (last - first)).foldl (fun b i =>
    let k := first + i
    if b.d k == 0.0 then (b.setE k 0.0).detachFrom k (b.e k) (k + 1) (last - k) else b) b

/-- The value nearest to the last one, of the last two rows of the square of the block. -/
def shift (b : LowerBidiagonal) (first last : Nat) : Float :=
  let x := b.d (last - 1)
  let above := if last - first = 1 then 0.0 else b.e (last - 2)
  let y := b.e (last - 1)
  let head := x * x + above * above
  let tail := b.d last * b.d last + y * y
  let beside := x * y
  if beside * beside > leastNormal then
    let gap := (head - tail) * 0.5
    let root := Float.sqrt (gap * gap + beside * beside)
    tail - beside * beside / (gap + (if gap < 0.0 then -root else root))
  else tail

/-- One step of a sweep at a place, given the two entries to clear into its first. It leaves the
two entries that the next step clears. -/
def step (b : LowerBidiagonal) (first last k : Nat) (x y : Float) :
    LowerBidiagonal × Float × Float :=
  let r := Rotation.clearing x y
  let b := if first < k then b.setE (k - 1) (r.first x y).abs else b
  let head := r.first (b.d k) (b.e k)
  let beside := r.second (b.d k) (b.e k)
  let outside := r.sin * b.d (k + 1)
  let tail := r.cos * b.d (k + 1)
  let b := b.turnLeft r k (k + 1)
  let r := Rotation.clearing head outside
  let b := b.setD k (r.first head outside).abs
  let b := b.setE k (r.first beside tail)
  let b := b.setD (k + 1) (r.second beside tail)
  let next := b.e (k + 1)
  let b := if k + 1 < last then b.setE (k + 1) (r.cos * next) else b
  (b.turnRight r k (k + 1), b.e k, r.sin * next)

/-- A sweep over the places from a first to a last one. -/
def sweep (b : LowerBidiagonal) (first last : Nat) (mu : Float) : LowerBidiagonal :=
  let start := (b, b.d first * b.d first - mu, b.d first * b.e first)
  ((List.range (last - first)).foldl
    (fun s i => s.1.step first last (first + i) s.2.1 s.2.2) start).1

/-- Sweeps until nothing is left below the diagonal. A sweep with an undefined shift leaves
undefined entries only, so it is the last. -/
def reduce : Nat → LowerBidiagonal → LowerBidiagonal
  | 0, b => b
  | fuel + 1, b =>
    let b := b.clean
    let last := b.lastJoined (b.diagonal.size - 1)
    if last = 0 then b
    else
      let first := b.firstJoined last
      if (List.range (last - first)).any fun i => b.d (first + i) == 0.0 then
        reduce fuel (b.detach first last)
      else
        let mu := b.shift first last
        let b := b.sweep first last mu
        if mu.isNaN then b else reduce fuel b

/-- The block in units of its largest entry. -/
def inUnits (b : LowerBidiagonal) (unit : Float) : LowerBidiagonal :=
  { b with diagonal := b.diagonal.map (· / unit), below := b.below.map (· / unit) }

/-- The largest size of an entry. -/
def largest (b : LowerBidiagonal) : Float := b.below.foldl grown (b.diagonal.foldl grown 0.0)

/-- Far more sweeps than the two or three that a place takes. -/
def sweepLimit (b : LowerBidiagonal) : Nat := 30 * b.diagonal.size * b.diagonal.size

end LowerBidiagonal

end PauliEstimation
