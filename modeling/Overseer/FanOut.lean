import Overseer.Bus
import Overseer.Effect

/-!
Fan-out of events to subscribers.  Every subscriber has a bounded queue and a worker that takes
events from it.  An event that finds a queue full is dropped for that subscriber alone, and the drop
is itself an event; so is a failure of a subscriber.  `emit_overflows` bounds the events that one
emission publishes.
-/

namespace Overseer

/-- A subscriber handles an event by logging some lines, or fails with an explanation. -/
structure Subscriber where
  name : String
  queueCapacity : Nat
  onEvent : Event → Except String (List LogLine)

/-- The subscriber that logs every event. -/
def logWriter : Subscriber := ⟨"log-writer", 1024, fun e => .ok [e.logLine]⟩

/-- The queue of a subscriber.  A queue whose worker is gone is closed. -/
structure Channel where
  subscriber : Subscriber
  queue : List Event
  isOpen : Bool

/-- Why a queue did not take an event. -/
inductive Refusal where
  | full
  | closed
  deriving DecidableEq, Repr

def Refusal.word : Refusal → String
  | .full => "full"
  | .closed => "closed"

namespace Channel

def new (s : Subscriber) : Channel := ⟨s, [], true⟩

/-- A queue has at least one place. -/
def places (c : Channel) : Nat := max 1 c.subscriber.queueCapacity

def offer (c : Channel) (e : Event) : Channel × Option Refusal :=
  if !c.isOpen then (c, some .closed)
  else if c.queue.length < c.places then ({ c with queue := c.queue ++ [e] }, none)
  else (c, some .full)

/-- What is logged and published of an event that a queue refused.  The loss of an overflow event
publishes nothing. -/
def refusalEffects (c : Channel) (e : Event) (r : Refusal) : List Effect :=
  let name := c.subscriber.name
  let word := r.word
  .warn s!"subscriber '{name}' dropped event: {word}" ::
    if e.kind = .subscriberOverflow then [] else [.publish (.overflow name word)]

/-- The worker is gone, and with it what it had not taken. -/
def kill (c : Channel) : Channel := { c with queue := [], isOpen := false }

end Channel

/-! ## Emission -/

/-- Offer an event to every queue in order. -/
def offerAll (e : Event) : List Channel → List Channel × List Effect
  | [] => ([], [])
  | c :: cs =>
    let (offered, refusal) := c.offer e
    let effects := match refusal with
      | none => []
      | some r => c.refusalEffects e r
    let (cs, rest) := offerAll e cs
    (offered :: cs, effects ++ rest)

theorem length_offerAll (e : Event) (cs : List Channel) :
    (offerAll e cs).1.length = cs.length := by
  induction cs with
  | nil => rfl
  | cons c cs ih => simp [offerAll, ih]

/-- The events that an emission publishes are overflow events, at most one for each queue, and none
for an overflow event. -/
theorem emit_overflows (e : Event) (cs : List Channel) :
    let events := (offerAll e cs).2.filterMap Effect.event?
    (∀ f ∈ events, f.kind = .subscriberOverflow) ∧
      events.length ≤ if e.kind = .subscriberOverflow then 0 else cs.length := by
  induction cs with
  | nil => simp [offerAll]
  | cons c cs ih =>
    obtain ⟨hkind, hlen⟩ := ih
    cases hr : (c.offer e).2 with
    | none =>
      simp only [offerAll, hr, List.nil_append, List.length_cons]
      refine ⟨hkind, Nat.le_trans hlen ?_⟩
      split <;> omega
    | some r =>
      by_cases ho : e.kind = .subscriberOverflow
      · simp only [ho, ↓reduceIte] at hlen ⊢
        simp only [offerAll, hr, Channel.refusalEffects, ho, ↓reduceIte, Effect.warn,
          List.cons_append, List.nil_append, List.filterMap_cons, Effect.event?]
        exact ⟨hkind, hlen⟩
      · simp only [ho, ↓reduceIte] at hlen ⊢
        simp only [offerAll, hr, Channel.refusalEffects, ho, ↓reduceIte, Effect.warn,
          List.cons_append, List.nil_append, List.filterMap_cons, Effect.event?,
          List.mem_cons, List.length_cons]
        refine ⟨?_, by omega⟩
        rintro f (rfl | hf)
        · rfl
        · exact hkind f hf

/-! ## Workers -/

/-- An event that a worker handed to its subscriber, and how that ended. -/
structure Handled where
  subscriber : Nat
  event : Event
  outcome : Except String (List LogLine)

/-- One step of a worker: take the next event of its queue. -/
def Channel.work (c : Channel) : Option (Channel × Event) :=
  match c.queue with
  | [] => none
  | e :: queue => some ({ c with queue }, e)

/-- What a worker publishes after an event. -/
def Channel.workEffects (c : Channel) (e : Event) : List Effect :=
  match c.subscriber.onEvent e with
  | .ok _ => []
  | .error info => [.publish (.panicked c.subscriber.name info)]

/-- Every worker empties its queue, one worker after the other. -/
def workAll : Nat → List Channel → List Channel × List Handled × List Effect
  | _, [] => ([], [], [])
  | i, c :: cs =>
    let handled := c.queue.map fun e => ⟨i, e, c.subscriber.onEvent e⟩
    let effects := c.queue.flatMap c.workEffects
    let (cs, handledRest, rest) := workAll (i + 1) cs
    ({ c with queue := [] } :: cs, handled ++ handledRest, effects ++ rest)

/-! ## The fan-out and its bus -/

/-- What can be seen of the supervision at work, apart from its reports and events. -/
inductive Output where
  | log (line : LogLine)
  | handled (handled : Handled)

structure FanOut where
  bus : Bus
  channels : List Channel

namespace FanOut

def new (bus : Bus) (subscribers : List Subscriber) : FanOut := ⟨bus, subscribers.map .new⟩

def publishAll (f : FanOut) (effects : List Effect) : FanOut :=
  { f with bus := f.bus.publishAll (effects.filterMap Effect.event?) }

def emit (f : FanOut) (e : Event) : FanOut × List Output :=
  let (channels, effects) := offerAll e f.channels
  ({ f with channels }.publishAll effects, (effects.filterMap Effect.line?).map .log)

/-- Let all workers run until their queues are empty. -/
def work (f : FanOut) : FanOut × List Output :=
  let (channels, handled, effects) := workAll 0 f.channels
  ({ f with channels }.publishAll effects, handled.map .handled)

/-- One step of the worker with number `i`. -/
def workerStep (f : FanOut) (i : Nat) : Option (FanOut × Output) := do
  let c ← f.channels[i]?
  let (c', e) ← c.work
  some ({ f with channels := f.channels.set i c' }.publishAll (c.workEffects e),
    .handled ⟨i, e, c.subscriber.onEvent e⟩)

def kill (f : FanOut) : FanOut := { f with channels := f.channels.map Channel.kill }

/-- No worker has anything to do. -/
def isIdle (f : FanOut) : Bool := f.channels.all (·.queue.isEmpty)

end FanOut

end Overseer
