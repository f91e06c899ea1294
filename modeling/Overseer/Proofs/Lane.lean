import Overseer.FanOut

/-!
One subscriber of a fan-out: its queue, and the worker that takes an event, runs the subscriber on it
and goes on with the next one, however that ended.  Whatever order the offers and the steps of the
worker come in, the queue neither loses nor repeats what it has accepted (`Run.delivers`), and what
it accepts is determined by that order alone (`Run.accepts`).
-/

namespace Overseer

theorem filterMap_cons_toList {α β : Type} (f : α → Option β) (a : α) (as : List α) :
    (a :: as).filterMap f = (f a).toList ++ as.filterMap f := by
  cases h : f a with
  | none => rw [List.filterMap_cons_none h, Option.toList_none, List.nil_append]
  | some b => rw [List.filterMap_cons_some h, Option.toList_some, List.singleton_append]

/-! ## Channels -/

/-- What a worker publishes when its subscriber is done with an event. -/
def Channel.outcomeEffects (c : Channel) : Except String (List LogLine) → List Effect
  | .ok _ => []
  | .error info => [.publish (.panicked c.subscriber.name info)]

theorem Channel.workEffects_eq (c : Channel) (e : Event) :
    c.workEffects e = c.outcomeEffects (c.subscriber.onEvent e) := by
  rw [workEffects]
  cases c.subscriber.onEvent e <;> rfl

theorem Channel.work_eq_some_iff {c d : Channel} {e : Event} :
    c.work = some (d, e) ↔ c.queue = e :: d.queue ∧ d = { c with queue := d.queue } := by
  unfold work
  cases hqueue : c.queue with
  | nil => simp
  | cons first queue =>
    simp only [Option.some.injEq, Prod.mk.injEq, List.cons.injEq]
    constructor
    · rintro ⟨rfl, rfl⟩
      exact ⟨⟨rfl, rfl⟩, rfl⟩
    · rintro ⟨⟨rfl, rfl⟩, hd⟩
      exact ⟨hd.symm, rfl⟩

/-- A subscriber at work: its channel, and the event that its worker is busy with. -/
structure Lane where
  channel : Channel
  busy : Option Event

namespace Lane

def new (s : Subscriber) : Lane := ⟨.new s, none⟩

/-! ## Steps -/

/-- What happens to a subscriber: an event is offered to its queue, the worker takes an event off it,
or it is done with the event. -/
inductive Act where
  | offer (e : Event) (refusal : Option Refusal)
  | take (e : Event)
  | finish (e : Event) (outcome : Except String (List LogLine))

def Act.effects (c : Channel) : Act → List Effect
  | .offer e (some r) => c.refusalEffects e r
  | .finish _ outcome => c.outcomeEffects outcome
  | _ => []

/-- One step.  The subscriber may end in any way on any event. -/
inductive Step (l : Lane) : Act → Lane → Prop where
  | offer (e : Event) :
      Step l (.offer e (l.channel.offer e).2) { l with channel := (l.channel.offer e).1 }
  | take {c : Channel} {e : Event} (hfree : l.busy = none) (hwork : l.channel.work = some (c, e)) :
      Step l (.take e) ⟨c, some e⟩
  | finish {e : Event} (hbusy : l.busy = some e) (outcome : Except String (List LogLine)) :
      Step l (.finish e outcome) { l with busy := none }

inductive Run : Lane → List Act → Lane → Prop where
  | nil (l : Lane) : Run l [] l
  | cons {l m n : Lane} {act : Act} {acts : List Act} (h : l.Step act m) (hrest : Run m acts n) :
      Run l (act :: acts) n

/-! ## Traces -/

def Act.offered? : Act → Option Event
  | .offer e _ => some e
  | _ => none

def Act.accepted? : Act → Option Event
  | .offer e none => some e
  | _ => none

def Act.taken? : Act → Option Event
  | .take e => some e
  | _ => none

def Act.finished? : Act → Option Event
  | .finish e _ => some e
  | _ => none

/-- All that decides what a queue accepts: what is offered to it, and when a place becomes free. -/
inductive Cue where
  | offer (e : Event)
  | take

def Act.cue? : Act → Option Cue
  | .offer e _ => some (.offer e)
  | .take _ => some .take
  | .finish _ _ => none

/-- What a queue accepts that has so many places and so many events in it. -/
def admitted (places : Nat) : Nat → List Cue → List Event
  | _, [] => []
  | held, .offer e :: cues =>
    if held < places then e :: admitted places (held + 1) cues else admitted places held cues
  | held, .take :: cues => admitted places (held - 1) cues

/-- What is published of it: the drop of an event that tells of no drop itself, and every failure. -/
def Act.notices (name : String) : Act → List Event
  | .offer e (some r) => if e.kind = .subscriberOverflow then [] else [.overflow name r.word]
  | .finish _ (.error info) => [.panicked name info]
  | _ => []

theorem Act.events_effects (c : Channel) (act : Act) :
    (act.effects c).filterMap Effect.event? = act.notices c.subscriber.name := by
  cases act with
  | take e => rfl
  | finish e outcome => cases outcome <;> rfl
  | offer e refusal =>
    cases refusal with
    | none => rfl
    | some r =>
      simp only [effects, Channel.refusalEffects, notices, Effect.warn, List.filterMap_cons,
        Effect.event?]
      split <;> rfl

/-! ## Invariants -/

/-- The queue takes events and holds no more than it has places for. -/
structure Sound (s : Subscriber) (l : Lane) : Prop where
  subscriber : l.channel.subscriber = s
  isOpen : l.channel.isOpen = true
  bounded : l.channel.queue.length ≤ l.channel.places

theorem sound_new (s : Subscriber) : (new s).Sound s := ⟨rfl, rfl, Nat.zero_le _⟩

variable {s : Subscriber} {l m : Lane} {act : Act} {acts : List Act}

theorem Sound.offer_eq (h : l.Sound s) (e : Event) : l.channel.offer e =
    if l.channel.queue.length < max 1 s.queueCapacity then
      ({ l.channel with queue := l.channel.queue ++ [e] }, none)
    else (l.channel, some .full) := by
  unfold Channel.offer Channel.places
  simp [h.isOpen, h.subscriber]

/-- What one step does to the queue and its worker. -/
theorem Sound.step (h : l.Sound s) (hstep : l.Step act m) :
    m.Sound s ∧ (∀ e r, act = .offer e (some r) → r = .full) ∧
    l.channel.queue ++ act.accepted?.toList = act.taken?.toList ++ m.channel.queue ∧
    l.busy.toList ++ act.taken?.toList = act.finished?.toList ++ m.busy.toList := by
  have hplaces : l.channel.places = max 1 s.queueCapacity := by
    rw [Channel.places, h.subscriber]
  cases hstep with
  | offer e =>
    rw [h.offer_eq]
    split
    · rename_i hroom
      refine ⟨⟨h.subscriber, h.isOpen, ?_⟩, by rintro _ _ ⟨⟩, rfl, List.append_nil _⟩
      show (l.channel.queue ++ [e]).length ≤ l.channel.places
      rw [hplaces, List.length_append]
      exact hroom
    · refine ⟨h, ?_, ?_, ?_⟩
      · rintro _ _ ⟨⟩
        rfl
      · exact List.append_nil _
      · exact List.append_nil _
  | @take c e hfree hwork =>
    obtain ⟨hqueue, hc⟩ := Channel.work_eq_some_iff.mp hwork
    refine ⟨⟨?_, ?_, ?_⟩, by rintro _ _ ⟨⟩, ?_, ?_⟩
    · rw [hc]
      exact h.subscriber
    · rw [hc]
      exact h.isOpen
    · have hbounded := h.bounded
      rw [hqueue, List.length_cons] at hbounded
      have hsame : c.places = l.channel.places := by
        rw [hc]
        rfl
      show c.queue.length ≤ c.places
      omega
    · rw [hqueue]
      exact List.append_nil _
    · rw [hfree]
      rfl
  | @finish e hbusy outcome =>
    refine ⟨⟨h.subscriber, h.isOpen, h.bounded⟩, by rintro _ _ ⟨⟩, ?_, ?_⟩
    · exact List.append_nil _
    · rw [hbusy]
      rfl

theorem Run.sound (hrun : Run l acts m) (h : l.Sound s) : m.Sound s := by
  induction hrun with
  | nil l => exact h
  | cons hstep _ ih => exact ih (h.step hstep).1

/-- A queue that takes events refuses one only if it is full. -/
theorem Run.refusals (hrun : Run l acts m) (h : l.Sound s) {e : Event} {r : Refusal}
    (hact : .offer e (some r) ∈ acts) : r = .full := by
  induction hrun with
  | nil l => cases hact
  | cons hstep _ ih =>
    obtain ⟨hsound, hfull, _⟩ := h.step hstep
    rcases List.mem_cons.mp hact with hfirst | hlater
    · exact hfull e r hfirst.symm
    · exact ih hsound hlater

/-- What was taken is what was in the queue and what it has accepted, up to what is still in it. -/
theorem Run.delivers (hrun : Run l acts m) (h : l.Sound s) :
    acts.filterMap Act.taken? ++ m.channel.queue =
      l.channel.queue ++ acts.filterMap Act.accepted? := by
  induction hrun with
  | nil l => exact (List.append_nil _).symm
  | @cons l m n act acts hstep _ ih =>
    obtain ⟨hsound, _, hqueue, _⟩ := h.step hstep
    rw [filterMap_cons_toList, filterMap_cons_toList, List.append_assoc, ih hsound,
      ← List.append_assoc, ← hqueue, List.append_assoc]

/-- The worker is done with what it has taken, up to what it is busy with. -/
theorem Run.finishes (hrun : Run l acts m) (h : l.Sound s) :
    acts.filterMap Act.finished? ++ m.busy.toList =
      l.busy.toList ++ acts.filterMap Act.taken? := by
  induction hrun with
  | nil l => exact (List.append_nil _).symm
  | @cons l m n act acts hstep _ ih =>
    obtain ⟨hsound, _, _, hbusy⟩ := h.step hstep
    rw [filterMap_cons_toList, filterMap_cons_toList, List.append_assoc, ih hsound,
      ← List.append_assoc, ← hbusy, List.append_assoc]

/-- What a queue accepts is determined by its size and by its cues. -/
theorem Run.accepts (hrun : Run l acts m) (h : l.Sound s) : acts.filterMap Act.accepted? =
    admitted (max 1 s.queueCapacity) l.channel.queue.length (acts.filterMap Act.cue?) := by
  induction hrun with
  | nil l => rfl
  | @cons l m n act acts hstep _ ih =>
    have hrest := ih (h.step hstep).1
    rw [filterMap_cons_toList, filterMap_cons_toList, hrest]
    cases hstep with
    | offer e =>
      rw [h.offer_eq]
      by_cases hroom : l.channel.queue.length < max 1 s.queueCapacity
      · simp [Act.accepted?, Act.cue?, admitted, hroom]
      · simp [Act.accepted?, Act.cue?, admitted, hroom]
    | take hfree hwork =>
      have hqueue := (Channel.work_eq_some_iff.mp hwork).1
      simp [Act.accepted?, Act.cue?, admitted, hqueue]
    | finish hbusy outcome => rfl

/-- Every event that is offered is accepted or refused. -/
theorem sublist_accepted (acts : List Act) :
    (acts.filterMap Act.accepted?).Sublist (acts.filterMap Act.offered?) := by
  induction acts with
  | nil => exact List.Sublist.slnil
  | cons act acts ih =>
    cases act with
    | offer e refusal =>
      cases refusal with
      | none => exact ih.cons_cons e
      | some r => exact ih.cons e
    | take e => exact ih
    | finish e outcome => exact ih

/-! ## Progress -/

/-- What the worker has still to do: two steps for each event in the queue, one for that at hand. -/
def load (l : Lane) : Nat := 2 * l.channel.queue.length + l.busy.toList.length

/-- A worker that has something to do can do it. -/
theorem exists_step (h : l.load ≠ 0) : ∃ act m, l.Step act m ∧ act.offered? = none := by
  cases hbusy : l.busy with
  | some e => exact ⟨_, _, .finish hbusy (.ok []), rfl⟩
  | none =>
    cases hqueue : l.channel.queue with
    | nil => simp [load, hbusy, hqueue] at h
    | cons e queue =>
      have hwork : l.channel.work = some ({ l.channel with queue }, e) := by
        rw [Channel.work, hqueue]
      exact ⟨_, _, .take hbusy hwork, rfl⟩

/-- Every step of a worker gets it on. -/
theorem Step.load_lt (h : l.Step act m) (hwork : act.offered? = none) : m.load + 1 = l.load := by
  cases h with
  | offer e => cases hwork
  | take hfree htake =>
    have hqueue := (Channel.work_eq_some_iff.mp htake).1
    simp [load, hfree, hqueue]
    omega
  | finish hbusy outcome => simp [load, hbusy]

end Lane

end Overseer
