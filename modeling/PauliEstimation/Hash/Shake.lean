import PauliEstimation.Hash.Keccak

namespace PauliEstimation.Shake256

open Keccak

/-- Words taken in or given out per permutation. -/
def rate : Nat := 17

/-- Bytes of a block. -/
def blockBytes : Nat := 8 * rate

def bytesOfWord (w : UInt64) : List UInt8 :=
  [w.toUInt8, (w >>> 8).toUInt8, (w >>> 16).toUInt8, (w >>> 24).toUInt8, (w >>> 32).toUInt8,
    (w >>> 40).toUInt8, (w >>> 48).toUInt8, (w >>> 56).toUInt8]

/-- The words of a message whose length is a multiple of eight, each with its least significant byte
first. -/
def wordsOfBytes : List UInt8 → List UInt64
  | a :: b :: c :: d :: e :: f :: g :: h :: rest =>
    (a.toUInt64 ||| (b.toUInt64 <<< 8) ||| (c.toUInt64 <<< 16) ||| (d.toUInt64 <<< 24) |||
      (e.toUInt64 <<< 32) ||| (f.toUInt64 <<< 40) ||| (g.toUInt64 <<< 48) |||
      (h.toUInt64 <<< 56)) :: wordsOfBytes rest
  | _ => []

/-- Marks the end of the message and of the block. The message grows to whole blocks. -/
def pad (message : List UInt8) : List UInt8 :=
  let gap := blockBytes - message.length % blockBytes
  if gap = 1 then message ++ [0x9f]
  else message ++ 0x1f :: (List.replicate (gap - 2) 0 ++ [0x80])

def absorb : Nat → List UInt64 → State → State
  | 0, _, s => s
  | blocks + 1, words, s =>
    absorb blocks (words.drop rate) (permute (s.xor (State.ofLanes (words.take rate))))

/-- Words of output, with a permutation after each full block of them. -/
def squeeze (words : Nat) (s : State) : List UInt64 :=
  if words ≤ rate then s.lanes.take words
  else s.lanes.take rate ++ squeeze (words - rate) (permute s)
termination_by words
decreasing_by
  simp only [rate] at *
  omega

/-- The first `length` bytes of output for a message. -/
def digest (length : Nat) (message : List UInt8) : List UInt8 :=
  let words := wordsOfBytes (pad message)
  let s := absorb (words.length / rate) words State.zero
  ((squeeze ((length + 7) / 8) s).flatMap bytesOfWord).take length

theorem length_squeeze (words : Nat) (s : State) : (squeeze words s).length = words := by
  fun_induction squeeze words s with
  | case1 words s h =>
    have := State.length_lanes s
    simp only [rate] at h
    rw [List.length_take]
    omega
  | case2 words s h ih =>
    have := State.length_lanes s
    simp only [rate] at h ih ⊢
    rw [List.length_append, List.length_take, ih]
    omega

theorem length_bytes (ws : List UInt64) : (ws.flatMap bytesOfWord).length = 8 * ws.length := by
  induction ws with
  | nil => rfl
  | cons w ws ih =>
    rw [List.flatMap_cons, List.length_append, ih, List.length_cons]
    simp only [bytesOfWord, List.length_cons, List.length_nil]
    omega

@[simp] theorem length_digest (length : Nat) (message : List UInt8) :
    (digest length message).length = length := by
  simp only [digest, List.length_take, length_bytes, length_squeeze]
  omega

end PauliEstimation.Shake256
