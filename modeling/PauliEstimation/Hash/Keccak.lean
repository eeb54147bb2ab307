namespace PauliEstimation.Keccak

structure Plane where
  a : UInt64
  b : UInt64
  c : UInt64
  d : UInt64
  e : UInt64
deriving DecidableEq, Inhabited

structure State where
  first : Plane
  second : Plane
  third : Plane
  fourth : Plane
  fifth : Plane
deriving DecidableEq, Inhabited

namespace Plane

def zero : Plane := ⟨0, 0, 0, 0, 0⟩

def xor (p q : Plane) : Plane := ⟨p.a ^^^ q.a, p.b ^^^ q.b, p.c ^^^ q.c, p.d ^^^ q.d, p.e ^^^ q.e⟩

def lanes (p : Plane) : List UInt64 := [p.a, p.b, p.c, p.d, p.e]

/-- The first five lanes of a list; missing lanes are zero. -/
def ofLanes (ws : List UInt64) : Plane :=
  ⟨ws.getD 0 0, ws.getD 1 0, ws.getD 2 0, ws.getD 3 0, ws.getD 4 0⟩

end Plane

def rotate (w : UInt64) (n : UInt64) : UInt64 :=
  if n = 0 then w else (w <<< n) ||| (w >>> (64 - n))

namespace State

def zero : State := ⟨.zero, .zero, .zero, .zero, .zero⟩

def xor (s t : State) : State :=
  ⟨s.first.xor t.first, s.second.xor t.second, s.third.xor t.third, s.fourth.xor t.fourth,
    s.fifth.xor t.fifth⟩

def lanes (s : State) : List UInt64 :=
  s.first.lanes ++ s.second.lanes ++ s.third.lanes ++ s.fourth.lanes ++ s.fifth.lanes

theorem length_lanes (s : State) : s.lanes.length = 25 := rfl

/-- The state of the given lanes; missing lanes are zero. -/
def ofLanes (ws : List UInt64) : State :=
  let rest := ws.drop 5
  let rest' := rest.drop 5
  let rest'' := rest'.drop 5
  ⟨.ofLanes ws, .ofLanes rest, .ofLanes rest', .ofLanes rest'', .ofLanes (rest''.drop 5)⟩

/-- Adds the parities of the two neighbouring columns to every bit. -/
def theta (s : State) : State :=
  let p := s.first.xor (s.second.xor (s.third.xor (s.fourth.xor s.fifth)))
  let d : Plane := ⟨p.e ^^^ rotate p.b 1, p.a ^^^ rotate p.c 1, p.b ^^^ rotate p.d 1,
    p.c ^^^ rotate p.e 1, p.d ^^^ rotate p.a 1⟩
  ⟨s.first.xor d, s.second.xor d, s.third.xor d, s.fourth.xor d, s.fifth.xor d⟩

/-- Rotates every lane by its own offset and moves it to its new place. -/
def rhoPi (s : State) : State where
    first := ⟨rotate s.first.a 0,
      rotate s.second.b 44,
      rotate s.third.c 43,
      rotate s.fourth.d 21,
      rotate s.fifth.e 14⟩
    second := ⟨rotate s.first.d 28,
      rotate s.second.e 20,
      rotate s.third.a 3,
      rotate s.fourth.b 45,
      rotate s.fifth.c 61⟩
    third := ⟨rotate s.first.b 1,
      rotate s.second.c 6,
      rotate s.third.d 25,
      rotate s.fourth.e 8,
      rotate s.fifth.a 18⟩
    fourth := ⟨rotate s.first.e 27,
      rotate s.second.a 36,
      rotate s.third.b 10,
      rotate s.fourth.c 15,
      rotate s.fifth.d 56⟩
    fifth := ⟨rotate s.first.c 62,
      rotate s.second.d 55,
      rotate s.third.e 39,
      rotate s.fourth.a 41,
      rotate s.fifth.b 2⟩

/-- The nonlinear step within each plane. -/
def chiPlane (p : Plane) : Plane :=
  ⟨p.a ^^^ (~~~p.b &&& p.c), p.b ^^^ (~~~p.c &&& p.d), p.c ^^^ (~~~p.d &&& p.e),
    p.d ^^^ (~~~p.e &&& p.a), p.e ^^^ (~~~p.a &&& p.b)⟩

def chi (s : State) : State :=
  ⟨chiPlane s.first, chiPlane s.second, chiPlane s.third, chiPlane s.fourth, chiPlane s.fifth⟩

def iota (constant : UInt64) (s : State) : State :=
  { s with first := { s.first with a := s.first.a ^^^ constant } }

def round (s : State) (constant : UInt64) : State := iota constant (chi (rhoPi (theta s)))

end State

def roundConstants : List UInt64 :=
  [0x0000000000000001, 0x0000000000008082, 0x800000000000808a, 0x8000000080008000,
   0x000000000000808b, 0x0000000080000001, 0x8000000080008081, 0x8000000000008009,
   0x000000000000008a, 0x0000000000000088, 0x0000000080008009, 0x000000008000000a,
   0x000000008000808b, 0x800000000000008b, 0x8000000000008089, 0x8000000000008003,
   0x8000000000008002, 0x8000000000000080, 0x000000000000800a, 0x800000008000000a,
   0x8000000080008081, 0x8000000000008080, 0x0000000080000001, 0x8000000080008008]

def permute (s : State) : State := roundConstants.foldl State.round s

end PauliEstimation.Keccak
