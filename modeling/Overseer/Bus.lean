import Overseer.Event

/-!
The event bus: a ring that holds the latest events, numbered from zero.  A receiver is the number of
the event that it reads next; one that fell behind the ring is told how many events it missed and
goes on with the oldest one held.  `unread_publish_sublist` bounds what a publication adds to what
a receiver has still to read.
-/

namespace Overseer

structure Bus where
  capacity : Nat
  sent : Nat
  held : List Event
  receivers : Nat
  deriving DecidableEq, Repr

/-- What a receiver reads. -/
inductive Received where
  | event (event : Event)
  | lagged (missed : Nat)
  deriving DecidableEq, Repr

namespace Bus

/-- The ring has at least the places asked for, rounded up to a power of two. -/
def new (places : Nat) : Bus := ⟨(max 1 places).nextPowerOfTwo, 0, [], 0⟩

/-- The number of the oldest event held. -/
def oldest (b : Bus) : Nat := b.sent - b.held.length

/-- An event that nobody listens for is not kept. -/
def publish (b : Bus) (e : Event) : Bus :=
  if b.receivers = 0 then b
  else { b with
    sent := b.sent + 1
    held := (b.held ++ [e]).drop (b.held.length + 1 - b.capacity) }

def publishAll (b : Bus) (es : List Event) : Bus := es.foldl publish b

/-- A new receiver reads from the next event on. -/
def subscribe (b : Bus) : Bus × Nat := ({ b with receivers := b.receivers + 1 }, b.sent)

def unsubscribe (b : Bus) : Bus := { b with receivers := b.receivers - 1 }

/-- The events that a receiver can still read. -/
def unread (b : Bus) (cursor : Nat) : List Event := b.held.drop (cursor - b.oldest)

/-- How many events a receiver has lost. -/
def missed (b : Bus) (cursor : Nat) : Nat := b.oldest - cursor

/-- The next thing a receiver reads, and where it stands afterwards. -/
def receive (b : Bus) (cursor : Nat) : Option (Received × Nat) :=
  if b.missed cursor ≠ 0 then some (.lagged (b.missed cursor), b.oldest)
  else match b.unread cursor with
    | [] => none
    | e :: _ => some (.event e, cursor + 1)

/-- Everything that a receiver can read now. -/
def readAll (b : Bus) (cursor : Nat) : List Received × Nat :=
  let lag := if b.missed cursor ≠ 0 then [.lagged (b.missed cursor)] else []
  (lag ++ (b.unread cursor).map .event, b.sent)

theorem receive_event {b : Bus} {cursor next : Nat} {e : Event}
    (h : b.receive cursor = some (.event e, next)) :
    next = cursor + 1 ∧ b.unread cursor = e :: b.unread next := by
  unfold receive at h
  split at h
  · simp at h
  rename_i hm
  split at h
  · simp at h
  rename_i f rest hu
  simp at h
  refine ⟨h.2.symm, ?_⟩
  have hle : b.oldest ≤ cursor := by unfold missed at hm; omega
  have htail : b.unread (cursor + 1) = (b.unread cursor).tail := by
    unfold unread
    rw [List.tail_drop]
    congr 1
    omega
  rw [← h.2, htail, hu, h.1]
  rfl

theorem receive_lagged {b : Bus} {cursor next n : Nat}
    (h : b.receive cursor = some (.lagged n, next)) :
    n = b.missed cursor ∧ n ≠ 0 ∧ b.missed next = 0 ∧ b.unread next = b.unread cursor := by
  unfold receive at h
  split at h
  · rename_i hm
    simp at h
    refine ⟨h.1.symm, h.1 ▸ hm, ?_, ?_⟩
    · simp [missed, ← h.2]
    · unfold missed at hm
      simp only [unread, ← h.2]
      congr 1
      omega
  · split at h <;> simp at h

/-- A publication adds at most the event itself to what a receiver can still read. -/
theorem unread_publish_sublist (b : Bus) (e : Event) (cursor : Nat) :
    ((b.publish e).unread cursor).Sublist (b.unread cursor ++ [e]) := by
  unfold publish
  split
  · exact List.sublist_append_left _ _
  · -- what is pushed out came first, so the receiver has at least as much behind it as before
    have hbehind : cursor - b.oldest ≤ b.held.length + 1 - b.capacity + (cursor - (b.sent + 1 -
        ((b.held ++ [e]).drop (b.held.length + 1 - b.capacity)).length)) := by
      rw [List.length_drop, List.length_append, List.length_singleton, oldest]
      omega
    have hsplit : ((b.held ++ [e]).drop (cursor - b.oldest)).Sublist (b.unread cursor ++ [e]) := by
      rw [List.drop_append, ← unread]
      exact (List.Sublist.refl _).append (List.drop_sublist _ _)
    simp only [unread, oldest, List.drop_drop]
    exact (List.drop_sublist_drop_left _ hbehind).trans hsplit

theorem unread_publishAll_sublist (b : Bus) (es : List Event) (cursor : Nat) :
    ((b.publishAll es).unread cursor).Sublist (b.unread cursor ++ es) := by
  induction es generalizing b with
  | nil => exact List.sublist_append_left _ _
  | cons e es ih =>
    have hrest := (b.unread_publish_sublist e cursor).append (List.Sublist.refl es)
    rw [List.append_assoc] at hrest
    exact (ih (b.publish e)).trans hrest

end Bus

end Overseer
