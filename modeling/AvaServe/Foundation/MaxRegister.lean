import Mathlib

/-!
# Registers that follow a growing value

A sender owns a value that only grows and sends copies of it. A receiver keeps
the largest copy that reached it. Whatever the network does with the copies, the
receiver's value stays below the sender's.
-/

namespace AvaServe.Foundation

variable {Value : Type*} [LinearOrder Value]

/-- What a receiver keeps when a copy reaches it. -/
def follow (known copy : Value) : Value :=
  if known < copy then copy else known

/-- The register keeps the larger value. -/
theorem follow_eq_max (known copy : Value) : follow known copy = max known copy := by
  unfold follow
  split
  next below => exact (max_eq_right below.le).symm
  next below => exact (max_eq_left (not_lt.mp below)).symm

/-- Every copy sent so far and every value known by a receiver is at most the
sender's value. -/
structure Trails {Receiver : Type*} (sent : List (Receiver × Value))
    (known : Receiver → Value) (current : Value) : Prop where
  sent_le : ∀ message ∈ sent, message.2 ≤ current
  known_le : ∀ receiver, known receiver ≤ current

namespace Trails

variable {Receiver : Type*} {sent : List (Receiver × Value)} {known : Receiver → Value}
  {current : Value}

/-- The source may grow. -/
theorem grow {next : Value} (trails : Trails sent known current) (grows : current ≤ next) :
    Trails sent known next where
  sent_le := fun message member => (trails.sent_le message member).trans grows
  known_le := fun receiver => (trails.known_le receiver).trans grows

/-- Sending copies of the current value. -/
theorem send (trails : Trails sent known current) (receivers : List Receiver) :
    Trails (sent ++ receivers.map fun receiver => (receiver, current)) known current where
  sent_le message member := by
    obtain old | new := List.mem_append.mp member
    · exact trails.sent_le message old
    · obtain ⟨receiver, _, rfl⟩ := List.mem_map.mp new
      exact le_refl current
  known_le := trails.known_le

/-- A copy sent at any earlier time reaches its receiver. -/
theorem deliver [DecidableEq Receiver] {message : Receiver × Value}
    (trails : Trails sent known current) (member : message ∈ sent) : Trails sent
      (Function.update known message.1 (follow (known message.1) message.2)) current where
  sent_le := trails.sent_le
  known_le receiver := by
    by_cases same : receiver = message.1
    · subst same
      rw [Function.update_self, follow_eq_max]
      exact max_le (trails.known_le _) (trails.sent_le message member)
    · rw [Function.update_of_ne same]
      exact trails.known_le receiver

end Trails

end AvaServe.Foundation
