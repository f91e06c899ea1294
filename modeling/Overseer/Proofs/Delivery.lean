import Overseer.Monitor
import Overseer.Proofs.Lane
import Overseer.Proofs.Sums

/-!
Delivery of events.  An emission offers its event to one queue after the other, and the workers take
their steps at any time, also in between.  Each subscriber runs on its own (`Run.lane`): it is offered
what is emitted, its worker is handed what its queue has accepted, and no other subscriber has a part
in it (`events_delivered`).  An emission that no worker interrupts is `FanOut.emit` (`run_emit`), and
the two steps of a worker on an event are `FanOut.workerStep` (`run_workerStep`).
-/

namespace Overseer

/-- A fan-out at work, with the next offer of the emission that is under way. -/
structure Delivery where
  lanes : List Lane
  emission : Option (Event × Nat)
  phase : Phase

namespace Delivery

def start (subscribers : List Subscriber) : Delivery := ⟨subscribers.map .new, none, .running⟩

/-! ## Steps -/

inductive Act where
  | emit (e : Event)
  | lane (i : Nat) (act : Lane.Act)
  | shutdown
  | leave

/-- The offer of an event to the queue with number `i`, if there is one. -/
def next (d : Delivery) (e : Event) (i : Nat) : Option (Event × Nat) :=
  if i < d.lanes.length then some (e, i) else none

/-- One step, with the events that it publishes.  A shutdown waits until every worker is done with
what its queue holds. -/
inductive Step (d : Delivery) : Act → List Event → Delivery → Prop where
  | emit (e : Event) (hrunning : d.phase = .running) (hready : d.emission = none) :
      Step d (.emit e) [] { d with emission := d.next e 0 }
  | offer {e : Event} {i : Nat} {l m : Lane} {refusal : Option Refusal}
      (hemission : d.emission = some (e, i)) (hlane : d.lanes[i]? = some l)
      (hstep : l.Step (.offer e refusal) m) :
      Step d (.lane i (.offer e refusal))
        ((Lane.Act.effects l.channel (.offer e refusal)).filterMap Effect.event?)
        { d with lanes := d.lanes.set i m, emission := d.next e (i + 1) }
  | work {i : Nat} {l m : Lane} {act : Lane.Act} (hlane : d.lanes[i]? = some l)
      (hstep : l.Step act m) (hwork : act.offered? = none) :
      Step d (.lane i act) ((act.effects l.channel).filterMap Effect.event?)
        { d with lanes := d.lanes.set i m }
  | shutdown (hrunning : d.phase = .running) (hready : d.emission = none) :
      Step d .shutdown [] { d with phase := .leaving }
  | leave (hleaving : d.phase = .leaving) (hidle : ∀ l ∈ d.lanes, l.load = 0) :
      Step d .leave [] { d with phase := .finished }

inductive Run : Delivery → List Act → List Event → Delivery → Prop where
  | nil (d : Delivery) : Run d [] [] d
  | cons {d t u : Delivery} {act : Act} {acts : List Act} {events more : List Event}
      (h : d.Step act events t) (hrest : Run t acts more u) :
      Run d (act :: acts) (events ++ more) u

/-! ## Traces -/

def Act.emitted? : Act → Option Event
  | .emit e => some e
  | _ => none

/-- What an act means to the subscriber with number `i`. -/
def Act.at? (i : Nat) : Act → Option Lane.Act
  | .lane j act => if j = i then some act else none
  | _ => none

/-- What has happened to one subscriber. -/
def own (i : Nat) (acts : List Act) : List Lane.Act := acts.filterMap (Act.at? i)

/-- What is published of an act. -/
def notices (subscribers : List Subscriber) : Act → List Event
  | .lane i act => (subscribers[i]?.map fun s => act.notices s.name).getD []
  | _ => []

/-- What is still to be offered to a subscriber. -/
def pending (d : Delivery) (i : Nat) : List Event :=
  match d.emission with
  | some (e, k) => if k ≤ i then [e] else []
  | none => []

theorem pending_next (d : Delivery) (e : Event) (k : Nat) {i : Nat} (hi : i < d.lanes.length) :
    ({ d with emission := d.next e k } : Delivery).pending i = if k ≤ i then [e] else [] := by
  by_cases hk : k < d.lanes.length
  · simp [pending, next, hk]
  · have hnot : ¬ k ≤ i := by omega
    simp [pending, next, hk, hnot]

variable {subscribers : List Subscriber} {d t u : Delivery} {act : Act} {acts : List Act}
  {events : List Event} {i : Nat} {l : Lane}

/-! ## Subscribers on their own -/

/-- A step is a step of one subscriber, or of none. -/
theorem Step.lane (h : d.Step act events t) (hlane : d.lanes[i]? = some l) :
    ∃ m, t.lanes[i]? = some m ∧
      match act.at? i with
      | some own => l.Step own m
      | none => m = l := by
  have hset {j : Nat} {k m : Lane} {own : Lane.Act} (hk : d.lanes[j]? = some k)
      (hstep : k.Step own m) : ∃ n, (d.lanes.set j m)[i]? = some n ∧
        match Act.at? i (.lane j own) with
        | some own => l.Step own n
        | none => n = l := by
    by_cases hj : j = i
    · subst hj
      cases hlane.symm.trans hk
      have hlt : j < d.lanes.length := (List.getElem?_eq_some_iff.mp hlane).1
      exact ⟨m, by simp [hlt], by simpa [Act.at?] using hstep⟩
    · exact ⟨l, by simp [hj, hlane], by simp [Act.at?, hj]⟩
  cases h with
  | emit e _ _ => exact ⟨l, hlane, rfl⟩
  | offer _ hk hstep => exact hset hk hstep
  | work hk hstep _ => exact hset hk hstep
  | shutdown _ _ => exact ⟨l, hlane, rfl⟩
  | leave _ _ => exact ⟨l, hlane, rfl⟩

/-- So in a run each subscriber makes a run of its own. -/
theorem Run.lane (h : d.Run acts events u) (hlane : d.lanes[i]? = some l) :
    ∃ m, u.lanes[i]? = some m ∧ l.Run (own i acts) m := by
  induction h generalizing l with
  | nil d => exact ⟨l, hlane, .nil l⟩
  | @cons d t u act acts events more hstep _ ih =>
    obtain ⟨m, hm, hown⟩ := hstep.lane hlane
    obtain ⟨n, hn, hrun⟩ := ih hm
    refine ⟨n, hn, ?_⟩
    cases hact : act.at? i with
    | some own' =>
      rw [hact] at hown
      rw [own, List.filterMap_cons_some hact]
      exact .cons hown hrun
    | none =>
      rw [hact] at hown
      rw [own, List.filterMap_cons_none hact, ← hown]
      exact hrun

/-- A subscriber is offered what is emitted, in that order. -/
theorem Step.offers (h : d.Step act events t) (hi : i < d.lanes.length) :
    ((act.at? i).bind Lane.Act.offered?).toList ++ t.pending i =
      d.pending i ++ act.emitted?.toList := by
  cases h with
  | emit e _ hready =>
    rw [pending_next d e 0 hi, pending, hready]
    rfl
  | @offer e k l m refusal hemission hlane hstep =>
    have hlater : ({ d with lanes := d.lanes.set k m, emission := d.next e (k + 1) } :
        Delivery).pending i = if k + 1 ≤ i then [e] else [] := pending_next d e (k + 1) hi
    rw [hlater, pending, hemission]
    rcases Nat.lt_trichotomy k i with hlt | heq | hgt
    · have hne : k ≠ i := Nat.ne_of_lt hlt
      have hle : k ≤ i := Nat.le_of_lt hlt
      simp [Act.at?, Act.emitted?, hne, hle, Nat.succ_le_of_lt hlt]
    · simp [Act.at?, Act.emitted?, Lane.Act.offered?, heq]
    · have hne : k ≠ i := Nat.ne_of_gt hgt
      have hnot : ¬ k ≤ i := Nat.not_le.mpr hgt
      have hnot' : ¬ k + 1 ≤ i := by omega
      simp [Act.at?, Act.emitted?, hne, hnot, hnot']
  | @work k l m act hlane hstep hwork =>
    have hnone : ((Act.lane k act).at? i).bind Lane.Act.offered? = none := by
      by_cases hk : k = i
      · simp [Act.at?, hk, hwork]
      · simp [Act.at?, hk]
    rw [hnone]
    exact (List.append_nil _).symm
  | shutdown _ _ => exact (List.append_nil _).symm
  | leave _ _ => exact (List.append_nil _).symm

theorem Step.length_lanes (h : d.Step act events t) : t.lanes.length = d.lanes.length := by
  cases h with
  | emit e _ _ => rfl
  | offer _ _ _ => exact List.length_set
  | work _ _ _ => exact List.length_set
  | shutdown _ _ => rfl
  | leave _ _ => rfl

theorem Run.offers (h : d.Run acts events u) (hi : i < d.lanes.length) :
    (own i acts).filterMap Lane.Act.offered? ++ u.pending i =
      d.pending i ++ acts.filterMap Act.emitted? := by
  induction h with
  | nil d => exact (List.append_nil _).symm
  | @cons d t u act acts events more hstep _ ih =>
    have hrest := ih (hstep.length_lanes ▸ hi)
    have hfirst := hstep.offers hi
    rw [own, List.filterMap_filterMap] at hrest ⊢
    rw [filterMap_cons_toList, filterMap_cons_toList, List.append_assoc, hrest,
      ← List.append_assoc, hfirst, List.append_assoc]

/-! ## Invariants -/

/-- Every subscriber has its lane, no emission outlasts a shutdown, and a shutdown that is over has
left nothing to do. -/
structure Staffed (subscribers : List Subscriber) (d : Delivery) : Prop where
  length : d.lanes.length = subscribers.length
  sound : ∀ (i : Nat) (l : Lane), d.lanes[i]? = some l →
    ∃ s, subscribers[i]? = some s ∧ l.Sound s
  settled : d.phase ≠ .running → d.emission = none
  idle : d.phase = .finished → ∀ l ∈ d.lanes, l.load = 0

theorem staffed_start (subscribers : List Subscriber) : (start subscribers).Staffed subscribers where
  length := List.length_map _
  sound := by
    intro i l hl
    rw [start, List.getElem?_map, Option.map_eq_some_iff] at hl
    obtain ⟨s, hs, rfl⟩ := hl
    exact ⟨s, hs, Lane.sound_new s⟩
  settled := fun _ => rfl
  idle := nofun

/-- A subscriber that can take a step is in no shutdown that is over. -/
theorem Staffed.unfinished (h : d.Staffed subscribers) (hlane : d.lanes[i]? = some l)
    {act : Lane.Act} {m : Lane} (hstep : l.Step act m) (hwork : act.offered? = none) :
    d.phase ≠ .finished := by
  intro hfinished
  have hload := h.idle hfinished l (List.mem_of_getElem? hlane)
  have hlt := hstep.load_lt hwork
  omega

/-- One step keeps the subscribers at their work, and publishes what is due. -/
theorem Staffed.step (h : d.Staffed subscribers) (hstep : d.Step act events t) :
    t.Staffed subscribers ∧ events = notices subscribers act := by
  have hsound : ∀ (i : Nat) (m : Lane), t.lanes[i]? = some m →
      ∃ s, subscribers[i]? = some s ∧ m.Sound s := by
    intro i m hm
    have hlt : i < d.lanes.length := by
      rw [← hstep.length_lanes]
      exact (List.getElem?_eq_some_iff.mp hm).1
    obtain ⟨n, hn, hown⟩ := hstep.lane (List.getElem?_eq_getElem hlt)
    obtain ⟨s, hs, hsound⟩ := h.sound i _ (List.getElem?_eq_getElem hlt)
    cases hm.symm.trans hn
    refine ⟨s, hs, ?_⟩
    split at hown
    · exact (hsound.step hown).1
    · rw [hown]
      exact hsound
  have hlength := hstep.length_lanes.trans h.length
  have htold {i : Nat} {l : Lane} {own : Lane.Act} (hlane : d.lanes[i]? = some l) :
      (own.effects l.channel).filterMap Effect.event? = notices subscribers (.lane i own) := by
    obtain ⟨s, hs, hl⟩ := h.sound i l hlane
    rw [Lane.Act.events_effects, hl.subscriber, notices, hs]
    rfl
  cases hstep with
  | emit e hrunning hready =>
    refine ⟨⟨hlength, hsound, fun hnot => absurd hrunning hnot, fun hfinished => ?_⟩, rfl⟩
    exact h.idle hfinished
  | offer hemission hlane hstep =>
    have hrunning : d.phase = .running := Decidable.byContradiction fun hnot => by
      cases hemission.symm.trans (h.settled hnot)
    refine ⟨⟨hlength, hsound, fun hnot => absurd hrunning hnot, fun hfinished => ?_⟩, htold hlane⟩
    exact absurd (hrunning.symm.trans hfinished) nofun
  | work hlane hstep hwork =>
    refine ⟨⟨hlength, hsound, h.settled, fun hfinished => ?_⟩, htold hlane⟩
    exact absurd hfinished (h.unfinished hlane hstep hwork)
  | shutdown hrunning hready =>
    exact ⟨⟨hlength, hsound, fun _ => hready, nofun⟩, rfl⟩
  | leave hleaving hidle =>
    refine ⟨⟨hlength, hsound, fun _ => h.settled (by simp [hleaving]), fun _ => hidle⟩, rfl⟩

theorem Staffed.run (h : d.Staffed subscribers) (hrun : d.Run acts events u) :
    u.Staffed subscribers ∧ events = acts.flatMap (notices subscribers) := by
  induction hrun with
  | nil d => exact ⟨h, rfl⟩
  | cons hstep _ ih =>
    obtain ⟨hstaffed, hevents⟩ := h.step hstep
    obtain ⟨hlast, hmore⟩ := ih hstaffed
    exact ⟨hlast, by rw [hevents, hmore, List.flatMap_cons]⟩

/-! ## Progress -/

/-- What all workers have still to do. -/
def load (d : Delivery) : Nat := (d.lanes.map Lane.load).sum

/-- What a shutdown has still to wait for. -/
def remaining (d : Delivery) : Nat := d.load + if d.phase = .leaving then 1 else 0

/-- Once a shutdown has begun, every step brings its end closer. -/
theorem Step.remaining_lt (h : d.Step act events t) (hd : d.Staffed subscribers)
    (hphase : d.phase ≠ .running) : t.phase ≠ .running ∧ t.remaining + 1 = d.remaining := by
  cases h with
  | emit e hrunning _ => exact absurd hrunning hphase
  | offer hemission _ _ => cases hemission.symm.trans (hd.settled hphase)
  | @work i l m act hlane hstep hwork =>
    have hlt := hstep.load_lt hwork
    have htotal := sum_map_set_add Lane.load hlane m
    refine ⟨hphase, ?_⟩
    simp only [remaining, load]
    omega
  | shutdown hrunning _ => exact absurd hrunning hphase
  | leave hleaving _ =>
    refine ⟨nofun, ?_⟩
    simp [remaining, load, hleaving]

theorem Run.length_le (hrun : d.Run acts events u) (hd : d.Staffed subscribers)
    (hphase : d.phase ≠ .running) : acts.length ≤ d.remaining := by
  induction hrun with
  | nil d => exact Nat.zero_le _
  | cons hstep _ ih =>
    obtain ⟨hlater, hlt⟩ := hstep.remaining_lt hd hphase
    have hle := ih (hd.step hstep).1 hlater
    rw [List.length_cons]
    omega

/-- A shutdown that is not over can go on. -/
theorem exists_step_leaving (hleaving : d.phase = .leaving) :
    ∃ act events t, d.Step act events t := by
  by_cases hidle : ∀ l ∈ d.lanes, l.load = 0
  · exact ⟨_, _, _, .leave hleaving hidle⟩
  · simp only [Classical.not_forall] at hidle
    obtain ⟨l, hl, hload⟩ := hidle
    obtain ⟨i, hlane⟩ := List.getElem?_of_mem hl
    obtain ⟨act, m, hstep, hwork⟩ := Lane.exists_step hload
    exact ⟨_, _, _, .work hlane hstep hwork⟩

/-! ## The account -/

/-- What a run comes to for one subscriber, of the events that were emitted, while some of them are
still to be offered to it. -/
structure Serviced (s : Subscriber) (emitted pending : List Event) (acts : List Lane.Act)
    (l : Lane) : Prop where
  delivers : acts.filterMap Lane.Act.taken? ++ l.channel.queue = acts.filterMap Lane.Act.accepted?
  finishes : acts.filterMap Lane.Act.finished? ++ l.busy.toList = acts.filterMap Lane.Act.taken?
  bounded : l.channel.queue.length ≤ max 1 s.queueCapacity
  offers : acts.filterMap Lane.Act.offered? ++ pending = emitted
  accepts : (acts.filterMap Lane.Act.accepted?).Sublist (acts.filterMap Lane.Act.offered?)
  refusals : ∀ e r, .offer e (some r) ∈ acts → r = .full
  determined : acts.filterMap Lane.Act.accepted? =
    Lane.admitted (max 1 s.queueCapacity) 0 (acts.filterMap Lane.Act.cue?)

theorem serviced (h : (start subscribers).Run acts events d) {s : Subscriber}
    (hs : subscribers[i]? = some s) : ∃ l, d.lanes[i]? = some l ∧
      Serviced s (acts.filterMap Act.emitted?) (d.pending i) (own i acts) l := by
  have hlane : (start subscribers).lanes[i]? = some (.new s) := by
    rw [start, List.getElem?_map, hs]
    rfl
  have hlt : i < (start subscribers).lanes.length := (List.getElem?_eq_some_iff.mp hlane).1
  obtain ⟨l, hl, hrun⟩ := h.lane hlane
  have hsound := Lane.sound_new s
  have hlast := hrun.sound hsound
  have hbounded := hlast.bounded
  rw [Channel.places, hlast.subscriber] at hbounded
  exact ⟨l, hl, hrun.delivers hsound, hrun.finishes hsound, hbounded, h.offers hlt,
    Lane.sublist_accepted _, fun e r => hrun.refusals hsound, hrun.accepts hsound⟩

/-- Whatever is emitted and in whatever order the workers take their steps, each subscriber is handed
exactly what its queue has accepted, in order, which are the events that found a place.  A worker can
always go on, a drop and a failure are told of in one event each, and a shutdown comes to its end,
with nothing left to hand over. -/
theorem events_delivered (subscribers : List Subscriber) (acts : List Act) (events : List Event)
    (d : Delivery) (h : (start subscribers).Run acts events d) :
    (∀ (i : Nat) (s : Subscriber), subscribers[i]? = some s → ∃ l, d.lanes[i]? = some l ∧
      Serviced s (acts.filterMap Act.emitted?) (d.pending i) (own i acts) l ∧
      (l.busy = none → l.channel.queue ≠ [] → ∃ e t, d.Step (.lane i (.take e)) [] t) ∧
      (∀ e, l.busy = some e → ∀ outcome, ∃ t, d.Step (.lane i (.finish e outcome))
        (Lane.Act.notices s.name (.finish e outcome)) t) ∧
      (d.phase = .finished →
        (own i acts).filterMap Lane.Act.offered? = acts.filterMap Act.emitted? ∧
        (own i acts).filterMap Lane.Act.finished? = (own i acts).filterMap Lane.Act.accepted?)) ∧
    events = acts.flatMap (notices subscribers) ∧
    (d.phase = .leaving → (∃ act more t, d.Step act more t) ∧
      ∀ later more u, d.Run later more u → later.length ≤ d.remaining) := by
  obtain ⟨hstaffed, hevents⟩ := (staffed_start subscribers).run h
  refine ⟨fun i s hs => ?_, hevents, fun hleaving => ?_⟩
  · obtain ⟨l, hl, hserviced⟩ := serviced h hs
    refine ⟨l, hl, hserviced, ?_, ?_, ?_⟩
    · intro hfree hqueue
      obtain ⟨e, queue, hcons⟩ := List.exists_cons_of_ne_nil hqueue
      have hwork : l.channel.work = some ({ l.channel with queue }, e) := by
        rw [Channel.work, hcons]
      exact ⟨e, _, .work hl (.take hfree hwork) rfl⟩
    · intro e hbusy outcome
      obtain ⟨s', hs', hsound⟩ := hstaffed.sound i l hl
      cases hs.symm.trans hs'
      rw [← hsound.subscriber, ← Lane.Act.events_effects]
      exact ⟨_, .work hl (.finish hbusy outcome) rfl⟩
    · intro hfinished
      have hload := hstaffed.idle hfinished l (List.mem_of_getElem? hl)
      have hpending : d.pending i = [] := by
        rw [pending, hstaffed.settled (by simp [hfinished])]
      have hoffered := hserviced.offers
      rw [hpending, List.append_nil] at hoffered
      simp only [Lane.load, Nat.add_eq_zero_iff, Nat.mul_eq_zero, List.length_eq_zero_iff,
        Option.toList_eq_nil_iff] at hload
      have htaken := hserviced.delivers
      have hdone := hserviced.finishes
      rw [hload.1.resolve_left (by decide), List.append_nil] at htaken
      rw [hload.2, Option.toList_none, List.append_nil] at hdone
      exact ⟨hoffered, hdone.trans htaken⟩
  · exact ⟨exists_step_leaving hleaving, fun later more u hrun =>
      hrun.length_le hstaffed (by simp [hleaving])⟩

/-- A subscriber with one place that fails on every event. -/
def panicker : Subscriber := ⟨"panicker", 0, fun _ => .error "boom"⟩

def panickerLane (queue : List Event) (busy : Option Event) : Lane := ⟨⟨panicker, queue, true⟩, busy⟩

/-- It is offered two events before its worker gets to run, and then the monitor shuts down. -/
def panickerActs (e e' : Event) : List Act :=
  [.emit e, .lane 0 (.offer e none), .emit e', .lane 0 (.offer e' (some .full)), .lane 0 (.take e),
    .lane 0 (.finish e (.error "boom")), .shutdown, .leave]

theorem run_panicker (e e' : Event) (he' : e'.kind ≠ .subscriberOverflow) :
    (start [panicker]).Run (panickerActs e e')
      [.overflow "panicker" "full", .panicked "panicker" "boom"]
      ⟨[panickerLane [] none], none, .finished⟩ := by
  have hemit : (start [panicker]).Step (.emit e) []
      ⟨[panickerLane [] none], some (e, 0), .running⟩ := .emit e rfl rfl
  have haccept : Step ⟨[panickerLane [] none], some (e, 0), .running⟩ (.lane 0 (.offer e none)) []
      ⟨[panickerLane [e] none], none, .running⟩ := .offer rfl rfl (.offer e)
  have hagain : Step ⟨[panickerLane [e] none], none, .running⟩ (.emit e') []
      ⟨[panickerLane [e] none], some (e', 0), .running⟩ := .emit e' rfl rfl
  have hrefuse : (panickerLane [e] none).Step (.offer e' (some .full)) (panickerLane [e] none) :=
    .offer e'
  have htold : (Lane.Act.effects (panickerLane [e] none).channel
      (.offer e' (some .full))).filterMap Effect.event? = [.overflow "panicker" "full"] := by
    rw [Lane.Act.events_effects, Lane.Act.notices, if_neg he']
    rfl
  have hdrop : Step ⟨[panickerLane [e] none], some (e', 0), .running⟩
      (.lane 0 (.offer e' (some .full))) [.overflow "panicker" "full"]
      ⟨[panickerLane [e] none], none, .running⟩ := by
    rw [← htold]
    exact Step.offer (l := panickerLane [e] none) rfl rfl hrefuse
  have htake : Step ⟨[panickerLane [e] none], none, .running⟩ (.lane 0 (.take e)) []
      ⟨[panickerLane [] (some e)], none, .running⟩ := .work rfl (.take rfl rfl) rfl
  have hfail : Step ⟨[panickerLane [] (some e)], none, .running⟩
      (.lane 0 (.finish e (.error "boom"))) [.panicked "panicker" "boom"]
      ⟨[panickerLane [] none], none, .running⟩ :=
    Step.work (l := panickerLane [] (some e)) rfl (.finish rfl (.error "boom")) rfl
  have hshutdown : Step ⟨[panickerLane [] none], none, .running⟩ .shutdown []
      ⟨[panickerLane [] none], none, .leaving⟩ := .shutdown rfl rfl
  have hidle : ∀ l ∈ [panickerLane [] none], l.load = 0 := by
    intro l hl
    rw [List.mem_singleton.mp hl]
    rfl
  have hleave : Step ⟨[panickerLane [] none], none, .leaving⟩ .leave []
      ⟨[panickerLane [] none], none, .finished⟩ := .leave rfl hidle
  exact .cons hemit <| .cons haccept <| .cons hagain <| .cons hdrop <| .cons htake <|
    .cons hfail <| .cons hshutdown <| .cons hleave <| .nil _

/-- It is handed the event that found the place, and the loss of the other and the failure are told
of. -/
theorem panicker_delivered :
    (own 0 (panickerActs { kind := .cpuFault } { kind := .pdFault })).filterMap
        Lane.Act.finished? = [{ kind := .cpuFault }] ∧
      [.overflow "panicker" "full", .panicked "panicker" "boom"] =
        (panickerActs { kind := .cpuFault } { kind := .pdFault }).flatMap (notices [panicker]) := by
  obtain ⟨hlanes, hevents, _⟩ := events_delivered [panicker] _ _ _
    (run_panicker { kind := .cpuFault } { kind := .pdFault } (by decide))
  obtain ⟨l, _, _, _, _, hover⟩ := hlanes 0 panicker rfl
  exact ⟨(hover rfl).2, hevents⟩

/-! ## The fan-out of a monitor -/

/-- The fan-out with the same channels on a bus. -/
def fanOut (d : Delivery) (bus : Bus) : FanOut := ⟨bus, d.lanes.map Lane.channel⟩

/-- Offers one after the other, to the lanes from some number on. -/
theorem run_offers (e : Event) (front rest : List Lane) (hlanes : d.lanes = front ++ rest)
    (hemission : d.emission = d.next e front.length) :
    ∃ acts u, d.Run acts ((offerAll e (rest.map Lane.channel)).2.filterMap Effect.event?) u ∧
      u.emission = none ∧ u.phase = d.phase ∧
      u.lanes.map Lane.channel =
        front.map Lane.channel ++ (offerAll e (rest.map Lane.channel)).1 := by
  induction rest generalizing d front with
  | nil =>
    refine ⟨[], d, .nil d, ?_, rfl, ?_⟩
    · rw [hemission, next, hlanes]
      simp
    · rw [hlanes]
      simp [offerAll]
  | cons l rest ih =>
    have hlane : d.lanes[front.length]? = some l := by simp [hlanes]
    have hnext : d.emission = some (e, front.length) := by
      rw [hemission, next, hlanes]
      simp
    let m : Lane := { l with channel := (l.channel.offer e).1 }
    let t : Delivery :=
      { d with lanes := d.lanes.set front.length m, emission := d.next e (front.length + 1) }
    have hset : t.lanes = (front ++ [m]) ++ rest := by simp [t, hlanes]
    have hlater : t.emission = t.next e (front ++ [m]).length := by
      simp [t, next]
    obtain ⟨acts, u, hrun, hdone, hphase, hchannels⟩ := ih (front ++ [m]) hset hlater
    have hstep := Step.offer hnext hlane (.offer e)
    refine ⟨.lane front.length (.offer e (l.channel.offer e).2) :: acts, u, ?_, hdone, hphase, ?_⟩
    · have hall := Run.cons hstep hrun
      rw [← List.filterMap_append] at hall
      have heffects : (offerAll e ((l :: rest).map Lane.channel)).2 =
          Lane.Act.effects l.channel (.offer e (l.channel.offer e).2) ++
            (offerAll e (rest.map Lane.channel)).2 := by
        rw [List.map_cons, offerAll]
        dsimp only
        cases (l.channel.offer e).2 <;> rfl
      rw [heffects]
      exact hall
    · rw [hchannels]
      simp [offerAll, m]

/-- An emission that no worker interrupts is an emission of the fan-out. -/
theorem run_emit (hrunning : d.phase = .running) (hready : d.emission = none) (e : Event)
    (bus : Bus) : ∃ acts events u, d.Run (.emit e :: acts) events u ∧ u.emission = none ∧
      u.phase = .running ∧ ((d.fanOut bus).emit e).1 = u.fanOut (bus.publishAll events) := by
  obtain ⟨acts, u, hrun, hdone, hphase, hchannels⟩ :=
    run_offers (d := { d with emission := d.next e 0 }) e [] d.lanes rfl rfl
  refine ⟨acts, _, u, .cons (.emit e hrunning hready) hrun, hdone, hphase.trans hrunning, ?_⟩
  simp only [FanOut.emit, FanOut.publishAll, fanOut, hchannels]
  rfl

/-- What a worker of the fan-out does in one step are the two steps of a worker that was free. -/
theorem run_workerStep {bus : Bus} {f : FanOut} {output : Output}
    (h : (d.fanOut bus).workerStep i = some (f, output)) (hlane : d.lanes[i]? = some l)
    (hfree : l.busy = none) : ∃ e outcome events u,
      d.Run [.lane i (.take e), .lane i (.finish e outcome)] events u ∧
      output = .handled ⟨i, e, outcome⟩ ∧ f = u.fanOut (bus.publishAll events) := by
  have hchannel : (d.fanOut bus).channels[i]? = some l.channel := by
    rw [fanOut, List.getElem?_map, hlane]
    rfl
  simp only [FanOut.workerStep, hchannel, Option.bind_eq_bind, Option.bind_some] at h
  cases hwork : l.channel.work with
  | none =>
    rw [hwork] at h
    cases h
  | some next =>
    obtain ⟨c, e⟩ := next
    rw [hwork] at h
    cases h
    let t : Delivery := { d with lanes := d.lanes.set i ⟨c, some e⟩ }
    have hlt : i < d.lanes.length := (List.getElem?_eq_some_iff.mp hlane).1
    have ht : t.lanes[i]? = some ⟨c, some e⟩ := by simp [t, hlt]
    have hsame : c.subscriber = l.channel.subscriber := by
      rw [(Channel.work_eq_some_iff.mp hwork).2]
    have htake := Step.work hlane (.take hfree hwork) rfl
    have hfinish := Step.work ht (.finish rfl (l.channel.subscriber.onEvent e)) rfl
    refine ⟨e, _, _, _, .cons htake (.cons hfinish (.nil _)), rfl, ?_⟩
    have heffects : c.outcomeEffects (l.channel.subscriber.onEvent e) = l.channel.workEffects e := by
      rw [Channel.workEffects_eq]
      cases l.channel.subscriber.onEvent e with
      | ok lines => rfl
      | error info => rw [Channel.outcomeEffects, Channel.outcomeEffects, hsame]
    simp [fanOut, FanOut.publishAll, heffects, t, List.map_set, Lane.Act.effects]

end Delivery

end Overseer
