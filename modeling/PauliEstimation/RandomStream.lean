import PauliEstimation.Hash.Shake
import PauliEstimation.Scalar

namespace PauliEstimation

/-- The bytes of a text in UTF-8. -/
def utf8 (s : String) : List UInt8 := s.toList.flatMap String.utf8EncodeChar

/-- Eight bytes, most significant first. -/
def bigEndian (w : UInt64) : List UInt8 :=
  [(w >>> 56).toUInt8, (w >>> 48).toUInt8, (w >>> 40).toUInt8, (w >>> 32).toUInt8,
    (w >>> 24).toUInt8, (w >>> 16).toUInt8, (w >>> 8).toUInt8, w.toUInt8]

def ofBigEndian (bytes : List UInt8) : UInt64 :=
  bytes.foldl (fun w b => (w <<< 8) ||| b.toUInt64) 0

/-- A state of 32 bytes, which every draw replaces by a hash, with the number of draws so far. -/
structure RandomStream where
  state : List UInt8
  step : UInt64
deriving DecidableEq

namespace RandomStream

def seedMessage (seed : List UInt8) : List UInt8 := seed ++ utf8 "OND_INIT"

def forkMessage (state label : List UInt8) : List UInt8 := state ++ label ++ utf8 "OND_FORK"

def advanceMessage (state : List UInt8) (step : UInt64) : List UInt8 :=
  state ++ bigEndian step ++ utf8 "QSIM"

def drawMessage (state context : List UInt8) : List UInt8 := state ++ context

def ofSeed (seed : List UInt8) : RandomStream := ⟨Shake256.digest 32 (seedMessage seed), 0⟩

/-- The stream of a labelled part of the work. Forking does not draw. -/
def fork (s : RandomStream) (label : List UInt8) : RandomStream :=
  ⟨Shake256.digest 32 (forkMessage s.state label), 0⟩

/-- One draw: advances the state, then hashes it with the context. -/
def next (s : RandomStream) (context : List UInt8) : UInt64 × RandomStream :=
  let step := s.step + 1
  let state := Shake256.digest 32 (advanceMessage s.state step)
  (ofBigEndian (Shake256.digest 8 (drawMessage state context)), ⟨state, step⟩)

/-- One draw as a number from 0 to 1. -/
def uniform {R : Type} [Scalar R] (s : RandomStream) (context : List UInt8) : R × RandomStream :=
  let (w, s) := s.next context
  (Scalar.ofWord w, s)

/-- True with probability `p`. A probability that is not above zero draws nothing. -/
def chance {R : Type} [Scalar R] (s : RandomStream) (p : R) (context : List UInt8) :
    Bool × RandomStream :=
  if 0 < p then
    let (x, s) := s.uniform context
    (decide (x < p), s)
  else (false, s)

end RandomStream

end PauliEstimation
