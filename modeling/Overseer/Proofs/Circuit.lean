import Mathlib.Data.List.DropRight
import Overseer.Proofs.Lane
import Overseer.Session

/-!
The circuit of events.  The loop takes them off the bus and offers them to the queues, the workers
take them off the queues, and what is refused or fails on the way is told of on the bus again.
`Circuit.Step` lists the moves of a circuit, each with the events that it publishes and the waiting
events that these push out of the ring (`waiting_publish`).
-/

namespace Overseer

/-! ## The ring -/

theorem rtake_append_rtake {α : Type} (n : Nat) (as bs : List α) :
    (as.rtake n ++ bs).rtake n = (as ++ bs).rtake n := by
  unfold List.rtake
  by_cases h : as.length ≤ n
  · rw [Nat.sub_eq_zero_of_le h, List.drop_zero]
  · have hlength : (as.drop (as.length - n)).length = n := by
      rw [List.length_drop]
      omega
    rw [← List.drop_append_of_le_length (Nat.sub_le _ _), List.drop_drop]
    congr 1
    rw [List.drop_append_of_le_length (Nat.sub_le _ _), List.length_append, List.length_append,
      hlength]
    omega

namespace Bus

/-- The ring holds no more than it has places and was sent, and a receiver is not ahead of it. -/
structure Sound (b : Bus) (cursor : Nat) : Prop where
  bounded : b.held.length ≤ b.capacity
  counted : b.held.length ≤ b.sent
  behind : cursor ≤ b.sent

/-- The events that a receiver has still to read and that a publication pushes out of the ring. -/
def displaced (b : Bus) (cursor : Nat) (es : List Event) : List Event :=
  (b.unread cursor).take ((b.unread cursor).length + es.length - b.capacity)

variable {b : Bus} {cursor next : Nat} {read : Received}

theorem frame_publish (b : Bus) (e : Event) :
    (b.publish e).capacity = b.capacity ∧ (b.publish e).receivers = b.receivers := by
  unfold publish
  split <;> exact ⟨rfl, rfl⟩

theorem frame_publishAll (b : Bus) (es : List Event) :
    (b.publishAll es).capacity = b.capacity ∧ (b.publishAll es).receivers = b.receivers := by
  induction es generalizing b with
  | nil => exact ⟨rfl, rfl⟩
  | cons e es ih =>
    obtain ⟨hcapacity, hreceivers⟩ := b.frame_publish e
    obtain ⟨hall, hallReceivers⟩ := ih (b.publish e)
    exact ⟨hall.trans hcapacity, hallReceivers.trans hreceivers⟩

theorem Sound.publish (h : b.Sound cursor) (e : Event) : (b.publish e).Sound cursor := by
  obtain ⟨hbounded, hcounted, hbehind⟩ := h
  unfold Bus.publish
  split
  · exact ⟨hbounded, hcounted, hbehind⟩
  · refine ⟨?_, ?_, Nat.le_succ_of_le hbehind⟩
    · simp only [List.length_drop, List.length_append, List.length_singleton]
      omega
    · simp only [List.length_drop, List.length_append, List.length_singleton]
      omega

theorem Sound.publishAll (h : b.Sound cursor) (es : List Event) :
    (b.publishAll es).Sound cursor := by
  induction es generalizing b with
  | nil => exact h
  | cons e es ih => exact ih (h.publish e)

/-- What can still be read after a publication are the latest of the events. -/
theorem Sound.unread_publish (h : b.Sound cursor) (hlistened : b.receivers ≠ 0) (e : Event) :
    (b.publish e).unread cursor = (b.unread cursor ++ [e]).rtake b.capacity := by
  obtain ⟨hbounded, hcounted, hbehind⟩ := h
  have hread : cursor - b.oldest ≤ b.held.length := by
    unfold oldest
    omega
  have hunread : b.unread cursor ++ [e] = (b.held ++ [e]).drop (cursor - b.oldest) :=
    (List.drop_append_of_le_length hread).symm
  rw [hunread, Bus.publish, if_neg hlistened, List.rtake, List.drop_drop]
  simp only [unread, oldest, List.drop_drop, List.length_drop, List.length_append,
    List.length_singleton]
  congr 1
  omega

theorem Sound.unread_publishAll (h : b.Sound cursor) (hlistened : b.receivers ≠ 0)
    (es : List Event) :
    (b.publishAll es).unread cursor = (b.unread cursor ++ es).rtake b.capacity := by
  induction es generalizing b with
  | nil =>
    have hfits : (b.unread cursor).length ≤ b.capacity := by
      have hbounded := h.bounded
      rw [unread, List.length_drop]
      omega
    rw [List.append_nil, List.rtake, Nat.sub_eq_zero_of_le hfits]
    rfl
  | cons e es ih =>
    obtain ⟨hcapacity, hreceivers⟩ := b.frame_publish e
    have hrest := ih (h.publish e) (hreceivers ▸ hlistened)
    rw [h.unread_publish hlistened, hcapacity, rtake_append_rtake, List.append_assoc] at hrest
    exact hrest

theorem Sound.receive (h : b.Sound cursor) (hread : b.receive cursor = some (read, next)) :
    b.Sound next := by
  refine ⟨h.bounded, h.counted, ?_⟩
  cases read with
  | lagged n =>
    unfold Bus.receive at hread
    split at hread
    · cases hread
      exact Nat.sub_le _ _
    · split at hread <;> cases hread
  | event e =>
    obtain ⟨rfl, hunread⟩ := receive_event hread
    have hlength := congrArg List.length hunread
    have hcounted := h.counted
    rw [unread, List.length_drop, List.length_cons, oldest] at hlength
    omega

end Bus

/-! ## Circuits -/

/-- The event tells what became of another event. -/
def Event.isNotice (e : Event) : Bool :=
  e.kind == .subscriberOverflow || e.kind == .subscriberPanicked

/-- The bus with the place where the loop stands in it, the queues, and the event that each worker
is busy with. -/
structure Circuit where
  bus : Bus
  cursor : Nat
  channels : List Channel
  busy : List (Option Event)

/-- What the monitor tells of by itself. -/
inductive Deed where
  | input (input : Input)
  | session (label : Label)
  | shutdown

/-- What moves the events on.  A forwarded event is offered to every queue. -/
inductive Cause where
  | deed (deed : Deed)
  | forwarded (e : Event) (answers : List (Option Refusal))
  | lagged (missed : Nat)
  | taken (worker : Nat) (e : Event)
  | finished (worker : Nat) (e : Event) (outcome : Except String (List LogLine))
  | none

/-- A move, with the events that it publishes and the waiting events that these push out of the
ring. -/
structure Move where
  cause : Cause
  published : List Event
  displaced : List Event

/-- A move that no event has a part in. -/
def Move.quiet : Move := ⟨.none, [], []⟩

/-- What the queues answer to an event. -/
def answers (e : Event) (cs : List Channel) : List (Option Refusal) := cs.map fun c => (c.offer e).2

/-- The events that tell of the answers. -/
def notices (e : Event) (cs : List Channel) : List Event :=
  (offerAll e cs).2.filterMap Effect.event?

/-- The event that a worker publishes when its subscriber is done. -/
def Channel.outcomeEvents (c : Channel) (outcome : Except String (List LogLine)) : List Event :=
  (c.outcomeEffects outcome).filterMap Effect.event?

namespace Circuit

/-- The events that the loop has still to forward. -/
def waiting (c : Circuit) : List Event := c.bus.unread c.cursor

def publish (c : Circuit) (es : List Event) : Circuit := { c with bus := c.bus.publishAll es }

/-- One move.  The subscribers may end in any way on any event. -/
inductive Step (c : Circuit) : Move → Circuit → Prop where
  | deed (deed : Deed) (es : List Event) (hlistened : c.bus.receivers ≠ 0) :
      Step c ⟨.deed deed, es, c.bus.displaced c.cursor es⟩ (c.publish es)
  | forwarded {e : Event} {cursor : Nat} (hlistened : c.bus.receivers ≠ 0)
      (hread : c.bus.receive c.cursor = some (.event e, cursor)) :
      Step c ⟨.forwarded e (answers e c.channels), notices e c.channels,
          c.bus.displaced cursor (notices e c.channels)⟩
        ({ c with cursor, channels := (offerAll e c.channels).1 }.publish (notices e c.channels))
  | lagged {missed cursor : Nat} (hread : c.bus.receive c.cursor = some (.lagged missed, cursor)) :
      Step c ⟨.lagged missed, [], []⟩ { c with cursor }
  | taken {i : Nat} {channel rest : Channel} {e : Event} (hchannel : c.channels[i]? = some channel)
      (hwork : channel.work = some (rest, e)) (hfree : c.busy[i]? = some none) :
      Step c ⟨.taken i e, [], []⟩
        { c with channels := c.channels.set i rest, busy := c.busy.set i (some e) }
  | finished {i : Nat} {channel : Channel} {e : Event} (hlistened : c.bus.receivers ≠ 0)
      (hchannel : c.channels[i]? = some channel) (hbusy : c.busy[i]? = some (some e))
      (outcome : Except String (List LogLine)) :
      Step c ⟨.finished i e outcome, channel.outcomeEvents outcome,
          c.bus.displaced c.cursor (channel.outcomeEvents outcome)⟩
        ({ c with busy := c.busy.set i none }.publish (channel.outcomeEvents outcome))
  | quiet (receivers : Nat) : Step c .quiet { c with bus := { c.bus with receivers } }

inductive Run : Circuit → List Move → Circuit → Prop where
  | nil (c : Circuit) : Run c [] c
  | cons {c d k : Circuit} {move : Move} {moves : List Move} (h : c.Step move d)
      (hrest : Run d moves k) : Run c (move :: moves) k

theorem Run.append {c d k : Circuit} {moves more : List Move} (h : c.Run moves d)
    (hmore : d.Run more k) : c.Run (moves ++ more) k := by
  induction h with
  | nil c => exact hmore
  | cons hstep _ ih => exact .cons hstep (ih hmore)

/-! ## Invariants -/

def Sound (c : Circuit) : Prop := c.bus.Sound c.cursor

variable {c d : Circuit} {move : Move} {moves : List Move}

theorem Step.sound (h : c.Step move d) (hc : c.Sound) : d.Sound := by
  cases h with
  | deed _ es _ => exact Bus.Sound.publishAll hc es
  | forwarded _ hread => exact (Bus.Sound.receive hc hread).publishAll _
  | lagged hread => exact Bus.Sound.receive hc hread
  | taken _ _ _ => exact hc
  | finished _ _ _ outcome => exact Bus.Sound.publishAll hc _
  | quiet receivers => exact ⟨hc.bounded, hc.counted, hc.behind⟩

theorem Step.capacity (h : c.Step move d) : d.bus.capacity = c.bus.capacity := by
  cases h with
  | deed _ es _ => exact (c.bus.frame_publishAll es).1
  | forwarded _ _ => exact (c.bus.frame_publishAll _).1
  | lagged _ => rfl
  | taken _ _ _ => rfl
  | finished _ _ _ _ => exact (c.bus.frame_publishAll _).1
  | quiet _ => rfl

theorem Step.length_channels (h : c.Step move d) : d.channels.length = c.channels.length := by
  cases h with
  | deed _ _ _ => rfl
  | forwarded _ _ => exact length_offerAll _ _
  | lagged _ => rfl
  | taken _ _ _ => exact List.length_set
  | finished _ _ _ _ => rfl
  | quiet _ => rfl

/-- What waits after a publication: of what waited before, all that is not pushed out, and the latest
of the new events. -/
theorem waiting_publish (hc : c.Sound) (hlistened : c.bus.receivers ≠ 0) (es : List Event) :
    c.bus.displaced c.cursor es ++ (c.publish es).waiting =
      c.waiting ++ es.rtake c.bus.capacity := by
  have hwaiting : (c.publish es).waiting = (c.waiting ++ es).rtake c.bus.capacity :=
    Bus.Sound.unread_publishAll hc hlistened es
  have hrest : c.waiting.length + es.length - c.bus.capacity - c.waiting.length =
      es.length - c.bus.capacity := by omega
  rw [hwaiting, List.rtake, List.length_append, List.drop_append, hrest, ← List.append_assoc]
  exact congrArg (· ++ _) (List.take_append_drop _ c.waiting)

end Circuit

end Overseer
