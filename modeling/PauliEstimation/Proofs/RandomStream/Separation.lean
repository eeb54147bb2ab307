import Mathlib.Data.List.Basic
import Mathlib.Data.List.Induction
import PauliEstimation.Measurement.MpsSampler
import PauliEstimation.Proofs.BasisChange.Binding

/-!
Separation of random streams. Streams of a sampler that belong to different parts of its work differ,
or else two messages that were hashed on the way to them are different and have the same digest. What
is hashed from one state in different roles differs as well.
-/

namespace PauliEstimation

theorem utf8_injective : Function.Injective utf8 := by
  intro s t h
  have hbytes : s.toList.utf8Encode = t.toList.utf8Encode := congrArg List.toByteArray h
  rw [String.utf8Encode_toList, String.utf8Encode_toList] at hbytes
  exact String.toByteArray_inj.mp hbytes

theorem bigEndian_injective : Function.Injective bigEndian := by
  intro v w h
  have hbytes := congrArg (List.map UInt8.toNat) h
  have hv := v.toNat_lt
  have hw := w.toNat_lt
  -- the bytes as digits of the words to the base 256
  simp [bigEndian, Nat.shiftRight_eq_div_pow] at hbytes
  apply UInt64.toNat_inj.mp
  omega

namespace RandomStream

/-- Some two of the messages differ and have the same digest. -/
def Collides (messages : List (List UInt8)) : Prop :=
  ∃ x ∈ messages, ∃ y ∈ messages, x ≠ y ∧ Shake256.digest 32 x = Shake256.digest 32 y

theorem Collides.mono {messages more : List (List UInt8)} (h : Collides messages)
    (hsub : messages ⊆ more) : Collides more := by
  obtain ⟨x, hx, y, hy, hne, hdigest⟩ := h
  exact ⟨x, hsub hx, y, hsub hy, hne, hdigest⟩

/-- The messages that are hashed when a stream is forked for one label after the other. -/
def forkMessages (s : RandomStream) : List (List UInt8) → List (List UInt8)
  | [] => []
  | label :: labels => forkMessage s.state label :: (s.fork label).forkMessages labels

/-- The stream of a seed, forked for one label after the other. -/
def descend (seed : List UInt8) (labels : List (List UInt8)) : RandomStream :=
  labels.foldl fork (ofSeed seed)

/-- The messages that are hashed on the way to that stream. -/
def descentMessages (seed : List UInt8) (labels : List (List UInt8)) : List (List UInt8) :=
  seedMessage seed :: (ofSeed seed).forkMessages labels

theorem forkMessages_append (s : RandomStream) (labels : List (List UInt8)) (label : List UInt8) :
    s.forkMessages (labels ++ [label]) =
      s.forkMessages labels ++ [forkMessage (labels.foldl fork s).state label] := by
  induction labels generalizing s with
  | nil => rfl
  | cons first labels ih => exact congrArg _ (ih (s.fork first))

section Descent

variable (seed : List UInt8) (labels : List (List UInt8)) (label : List UInt8)

theorem descend_append :
    descend seed (labels ++ [label]) = (descend seed labels).fork label := by
  rw [descend, List.foldl_append]
  rfl

theorem descentMessages_append :
    descentMessages seed (labels ++ [label]) =
      descentMessages seed labels ++ [forkMessage (descend seed labels).state label] := by
  rw [descentMessages, forkMessages_append]
  rfl

theorem length_state_descend : (descend seed labels).state.length = 32 := by
  cases labels using List.reverseRecOn with
  | nil => exact Shake256.length_digest _ _
  | append_singleton labels label =>
    rw [descend_append]
    exact Shake256.length_digest _ _

end Descent

/-- Equal fork messages come from equal states and equal labels. -/
theorem forkMessage_inj {state state' label label' : List UInt8}
    (hlen : state.length = state'.length) (h : forkMessage state label = forkMessage state' label') :
    state = state' ∧ label = label' :=
  List.append_inj (List.append_cancel_right h) hlen

theorem seedMessage_ne_forkMessage (seed state label : List UInt8) :
    seedMessage seed ≠ forkMessage state label := by
  intro h
  have hlast := congrArg List.getLast? h
  simp [seedMessage, forkMessage, utf8, String.utf8EncodeChar] at hlast

/-- Descents for different labels end in different states, unless messages on the way collide. -/
theorem descend_ne_or_collides (seed : List UInt8) (labels labels' : List (List UInt8))
    (hne : labels ≠ labels') :
    (descend seed labels).state ≠ (descend seed labels').state ∨
      Collides (descentMessages seed labels ++ descentMessages seed labels') := by
  -- two last messages that differ either have different digests or collide
  have hlast : ∀ {ms ms' : List (List UInt8)} {x y : List UInt8}, x ∈ ms → y ∈ ms' → x ≠ y →
      Shake256.digest 32 x ≠ Shake256.digest 32 y ∨ Collides (ms ++ ms') := by
    intro ms ms' x y hx hy hxy
    by_cases hdigest : Shake256.digest 32 x = Shake256.digest 32 y
    · exact .inr ⟨x, List.mem_append_left _ hx, y, List.mem_append_right _ hy, hxy, hdigest⟩
    · exact .inl hdigest
  induction labels using List.reverseRecOn generalizing labels' with
  | nil =>
    cases labels' using List.reverseRecOn with
    | nil => exact absurd rfl hne
    | append_singleton labels' label' =>
      rw [descentMessages_append, descend_append]
      exact hlast (List.mem_cons_self ..) (List.mem_append_right _ (List.mem_singleton_self _))
        (seedMessage_ne_forkMessage _ _ _)
  | append_singleton labels label ih =>
    cases labels' using List.reverseRecOn with
    | nil =>
      rw [descentMessages_append, descend_append]
      exact hlast (List.mem_append_right _ (List.mem_singleton_self _)) (List.mem_cons_self ..)
        (seedMessage_ne_forkMessage _ _ _).symm
    | append_singleton labels' label' =>
      rw [descentMessages_append, descentMessages_append, descend_append, descend_append]
      by_cases hmessage : forkMessage (descend seed labels).state label =
          forkMessage (descend seed labels').state label'
      · -- the last messages agree, so the difference lies in the labels before
        have hlen := (length_state_descend seed labels).trans (length_state_descend seed labels').symm
        obtain ⟨hstate, rfl⟩ := forkMessage_inj hlen hmessage
        have hbefore : labels ≠ labels' := fun h => hne (congrArg (· ++ [label]) h)
        rcases ih labels' hbefore with hstates | hcollides
        · exact absurd hstate hstates
        · refine .inr (hcollides.mono fun x hx => ?_)
          rcases List.mem_append.mp hx with hx | hx
          · exact List.mem_append_left _ (List.mem_append_left _ hx)
          · exact List.mem_append_right _ (List.mem_append_left _ hx)
      · exact hlast (List.mem_append_right _ (List.mem_singleton_self _))
          (List.mem_append_right _ (List.mem_singleton_self _)) hmessage

end RandomStream

namespace MpsSampler

/-- A part of a sampler's work that has a stream of its own. -/
inductive Task where
  | call (n : Nat)
  | point (n : Nat)
  | trajectory (n : Nat)
deriving DecidableEq

namespace Task

/-- The label that a stream is forked with for the task. -/
def label : Task → List UInt8
  | call n => callLabel n
  | point n => pointLabel n
  | trajectory n => trajectoryLabel n

theorem label_injective : Function.Injective label := by
  have hnumber : ∀ {kind : String} {m n : Nat}, kind ++ toString m = kind ++ toString n → m = n := by
    intro kind m n h
    have hlist := congrArg String.toList h
    rw [String.toList_append, String.toList_append] at hlist
    exact toList_toString_inj (List.append_cancel_left hlist)
  intro a b h
  cases a <;> cases b
  case call.call => exact congrArg call (hnumber (utf8_injective h))
  case point.point => exact congrArg point (hnumber (utf8_injective h))
  case trajectory.trajectory => exact congrArg trajectory (hnumber (utf8_injective h))
  -- labels of different kinds differ in their first letter
  all_goals
    have hfirst := congrArg (fun s => s.toList.head?) (utf8_injective h)
    simp at hfirst

end Task

/-- Where a stream of a sampler belongs: to a call, to a point of a call, or to a trajectory of such a
point. -/
inductive StreamPath where
  | call (call : Nat)
  | point (call point : Nat)
  | trajectory (call point trajectory : Nat)
deriving DecidableEq

namespace StreamPath

def tasks : StreamPath → List Task
  | call c => [.call c]
  | point c i => [.call c, .point i]
  | trajectory c i t => [.call c, .point i, .trajectory t]

theorem tasks_injective : Function.Injective tasks := by
  intro p q h
  cases p <;> cases q <;> simp_all [tasks]

def labels (p : StreamPath) : List (List UInt8) := p.tasks.map Task.label

theorem labels_injective : Function.Injective labels :=
  (List.map_injective_iff.mpr Task.label_injective).comp tasks_injective

end StreamPath

variable {R : Type}

/-- The stream on which a part of the work runs. -/
def stream (m : MpsSampler R) : StreamPath → RandomStream
  | .call c => m.callStream c
  | .point c i => (m.callStream c).fork (pointLabel i)
  | .trajectory c i t => ((m.callStream c).fork (pointLabel i)).fork (trajectoryLabel t)

/-- The messages that are hashed on the way to a stream. -/
def hashed (m : MpsSampler R) (p : StreamPath) : List (List UInt8) :=
  RandomStream.descentMessages (utf8 m.seed) p.labels

theorem stream_eq_descend (m : MpsSampler R) (p : StreamPath) :
    m.stream p = RandomStream.descend (utf8 m.seed) p.labels := by
  cases p <;> rfl

end MpsSampler

/-- What a state is hashed for. -/
inductive StateUse where
  | fork (task : MpsSampler.Task)
  | advance (step : UInt64)
  | shot
  | kick
  | report

namespace StateUse

/-- What follows the state in the message. -/
def tail : StateUse → List UInt8
  | fork task => task.label ++ utf8 "OND_FORK"
  | advance step => bigEndian step ++ utf8 "QSIM"
  | shot => Mps.shotContext
  | kick => Mps.depolarizeContext
  | report => ReadoutError.context

/-- The message that is hashed from a state. -/
def message (state : List UInt8) : StateUse → List UInt8
  | fork task => RandomStream.forkMessage state task.label
  | advance step => RandomStream.advanceMessage state step
  | shot => RandomStream.drawMessage state Mps.shotContext
  | kick => RandomStream.drawMessage state Mps.depolarizeContext
  | report => RandomStream.drawMessage state ReadoutError.context

theorem message_eq (state : List UInt8) (use : StateUse) : use.message state = state ++ use.tail := by
  cases use with
  | fork _ | advance _ => exact List.append_assoc _ _ _
  | shot | kick | report => rfl

/-- The last letter of a message tells its use. -/
def lastByte : StateUse → UInt8
  | fork _ => 75
  | advance _ => 77
  | shot => 90
  | kick => 81
  | report => 84

theorem getLast?_tail (use : StateUse) : use.tail.getLast? = some use.lastByte := by
  cases use <;>
    simp [tail, lastByte, utf8, String.utf8EncodeChar, Mps.shotContext, Mps.depolarizeContext,
      ReadoutError.context]

theorem tail_injective : Function.Injective tail := by
  intro a b h
  have hlast : a.lastByte = b.lastByte := by
    rw [← Option.some_inj, ← getLast?_tail, ← getLast?_tail, h]
  cases a <;> cases b
  case fork.fork => exact congrArg fork (MpsSampler.Task.label_injective (List.append_cancel_right h))
  case advance.advance => exact congrArg advance (bigEndian_injective (List.append_cancel_right h))
  case shot.shot | kick.kick | report.report => rfl
  all_goals cases hlast

end StateUse

/-- The sampler runs every point of a call and every trajectory of a point on a stream of its own.
Streams of different paths have different states, unless two of the messages that were hashed to
derive them differ and have the same digest. From one state different messages are hashed for
different uses. -/
theorem streams_differ_or_hash_collides :
    (∀ (R : Type) [Scalar R] [ThinSvd R] (m : MpsSampler R) (call : Nat) (request : SweepRequest R),
      m.sweep? call request = request.sweep.points.zipIdx.mapM fun e =>
        m.point? request.program e.1 request.repetitions (m.stream (.point call e.2))) ∧
    (∀ (R : Type) [Scalar R] [ThinSvd R] (m : MpsSampler R) (resolved : Circuit R)
      (measured : List Qubit) (repetitions call point : Nat),
      m.noisyBits? resolved measured repetitions (m.stream (.point call point)) =
        (List.range (min m.trajectories repetitions)).foldlM (fun bits t => do
          let shots := MpsSampler.trajectoryShots repetitions m.trajectories t
          bits.append? (← m.trajectory? resolved measured shots
            (m.stream (.trajectory call point t)))) (BitMatrix.empty measured.length)) ∧
    (∀ (R : Type) (m : MpsSampler R) (p q : MpsSampler.StreamPath), p ≠ q →
      (m.stream p).state ≠ (m.stream q).state ∨
        RandomStream.Collides (m.hashed p ++ m.hashed q)) ∧
    ∀ state, Function.Injective (StateUse.message state) := by
  refine ⟨fun _ _ _ _ _ _ => rfl, fun _ _ _ _ _ _ _ _ _ => rfl, ?_, ?_⟩
  · intro R m p q hne
    rw [MpsSampler.stream_eq_descend, MpsSampler.stream_eq_descend]
    exact RandomStream.descend_ne_or_collides _ _ _
      (MpsSampler.StreamPath.labels_injective.ne hne)
  · intro state a b h
    rw [StateUse.message_eq, StateUse.message_eq] at h
    exact StateUse.tail_injective (List.append_cancel_left h)

/-- Two points whose labels read the same in a row of digits. -/
theorem streams_differ_or_hash_collides_digits :
    let m : MpsSampler Float := MpsSampler.ofSeed "seed"
    (.point 1 11 : MpsSampler.StreamPath) ≠ .point 11 1 ∧
      ((m.stream (.point 1 11)).state ≠ (m.stream (.point 11 1)).state ∨
        RandomStream.Collides (m.hashed (.point 1 11) ++ m.hashed (.point 11 1))) := by
  obtain ⟨_, _, hstreams, _⟩ := streams_differ_or_hash_collides
  intro m
  have hne : (.point 1 11 : MpsSampler.StreamPath) ≠ .point 11 1 := by decide
  exact ⟨hne, hstreams Float m _ _ hne⟩

end PauliEstimation
