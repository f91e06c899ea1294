import Overseer.Proofs.Handover

/-!
The way out of the loop.  Forwarding publishes notices onto the bus that it reads, but every step
lowers a measure of what is left (`Monitor.forwards_lt`), so no chain of steps goes on for ever
(`Monitor.Forwards.length_le`).  At its end nothing can be read, and every event that was still held
when it was reached has been offered to every subscriber (`Monitor.drain_ends`).
-/

namespace Overseer

/-! ## Notices -/

/-- What is told of the answers to an event: each refusal once, and no refusal of a notice. -/
def overflows (names : List String) (e : Event) (answers : List (Option Refusal)) : List Event :=
  if e.isOverflow then []
  else (names.zip answers).filterMap fun (name, answer) =>
    answer.map fun refusal => .overflow name refusal.word

theorem notices_eq_overflows (e : Event) (cs : List Channel) :
    notices e cs = overflows (cs.map fun c => c.subscriber.name) e (answers e cs) := by
  unfold overflows
  split
  · rename_i hoverflow
    exact (isOverflow_notices e cs).2 hoverflow
  · rename_i hoverflow
    induction cs with
    | nil => rfl
    | cons c cs ih =>
      have hkind : e.kind ≠ .subscriberOverflow := by
        simpa [Event.isOverflow] using hoverflow
      have hanswers : answers e (c :: cs) = (c.offer e).2 :: answers e cs := rfl
      rw [notices_cons, ih, hanswers, List.map_cons, List.zip_cons_cons, filterMap_cons_toList]
      congr 1
      cases (c.offer e).2 with
      | none => rfl
      | some refusal => exact if_neg hkind

theorem length_overflows_le (names : List String) (e : Event) (answers : List (Option Refusal)) :
    (overflows names e answers).length ≤ names.length := by
  unfold overflows
  split
  · exact Nat.zero_le _
  · calc
      _ ≤ (names.zip answers).length := List.length_filterMap_le _ _
      _ ≤ names.length := by
        rw [List.length_zip]
        exact Nat.min_le_left ..

theorem names_offerAll (e : Event) (cs : List Channel) :
    (offerAll e cs).1.map (fun c => c.subscriber.name) = cs.map fun c => c.subscriber.name := by
  induction cs with
  | nil => rfl
  | cons c cs ih =>
    have hname : (c.offer e).1.subscriber = c.subscriber := by
      unfold Channel.offer
      split
      · rfl
      · split <;> rfl
    simp only [offerAll, List.map_cons, hname, ih]

/-- A move that reads the bus.  An event is offered to every queue, and what these refuse is told
of. -/
inductive Move.Reads (names : List String) : Move → Prop where
  | lagged (missed : Nat) : Reads names ⟨.lagged missed, [], []⟩
  | forwarded (e : Event) (answers : List (Option Refusal)) (displaced : List Event)
      (hanswers : answers.length = names.length) :
      Reads names ⟨.forwarded e answers, overflows names e answers, displaced⟩

theorem Move.Reads.length_published_le {names : List String} {move : Move} (h : move.Reads names) :
    move.published.length ≤ names.length := by
  cases h with
  | lagged missed => exact Nat.zero_le _
  | forwarded e answers displaced hanswers => exact length_overflows_le names e answers

/-! ## Steps -/

namespace Monitor

variable {m n : Monitor} {output : List Output} {move : Move} {moves : List Move}

def names (m : Monitor) : List String := m.fanOut.channels.map fun c => c.subscriber.name

/-- Forwarding again and again, while nothing else goes on. -/
inductive Forwards : Monitor → List Move → Monitor → Prop where
  | nil (m : Monitor) : Forwards m [] m
  | cons {m n k : Monitor} {output : List Output} {move : Move} {moves : List Move}
      (h : m.forward = some (n, output)) (hmove : m.forwardMove? = some move)
      (hrest : Forwards n moves k) : Forwards m (move :: moves) k

/-- A bound for the steps that are left.  Each of the backlog may be preceded by the loss of some
events. -/
def forwards (m : Monitor) : Nat := 2 * m.backlog + min 1 m.missed

theorem missed_of_forward_lagged {missed cursor : Nat}
    (hread : m.fanOut.bus.receive m.cursor = some (.lagged missed, cursor)) :
    0 < m.missed ∧ ({ m with cursor } : Monitor).missed = 0 ∧
      ({ m with cursor } : Monitor).backlog = m.backlog := by
  obtain ⟨hmissed, hpos, hnext, hunread⟩ := Bus.receive_lagged hread
  refine ⟨?_, hnext, ?_⟩
  · rw [Monitor.missed]
    omega
  · simp only [backlog, hunread]

/-- Every step lowers the bound, although it may publish notices and lose events by that. -/
theorem forwards_lt (h : m.forward = some (n, output)) : n.forwards < m.forwards := by
  unfold forwards
  obtain ⟨e, cursor, hread, _⟩ | ⟨missed, cursor, hread, rfl⟩ := forward_cases h
  · -- an event that is read was not preceded by a loss
    have hmissed : m.missed = 0 := Bus.missed_of_event hread
    obtain ⟨_, _, hlt | ⟨_, hlt⟩⟩ := forward_lt h
    · omega
    · omega
  · obtain ⟨hpos, hnone, hsame⟩ := missed_of_forward_lagged hread
    rw [hnone, hsame]
    omega

theorem Forwards.length_le (h : m.Forwards moves n) : moves.length + n.forwards ≤ m.forwards := by
  induction h with
  | nil m => exact Nat.le_of_eq (Nat.zero_add _)
  | cons hforward _ _ ih =>
    have hlt := forwards_lt hforward
    rw [List.length_cons]
    omega

theorem backlog_le (m : Monitor) :
    m.backlog ≤ (m.names.length + 1) * (m.fanOut.bus.unread m.cursor).length := by
  have hcausing := Nat.mul_le_mul_left m.fanOut.channels.length
    ((m.fanOut.bus.unread m.cursor).countP_le_length (p := (·.kind != .subscriberOverflow)))
  rw [backlog, effort, names, List.length_map, Nat.succ_mul]
  omega

/-- A step reads the bus. -/
theorem reads_of_forward (h : m.forward = some (n, output)) :
    ∃ move, m.forwardMove? = some move ∧ move.Reads m.names ∧ n.names = m.names := by
  obtain ⟨e, cursor, hread, rfl⟩ | ⟨missed, cursor, hread, rfl⟩ := forward_cases h
  · refine ⟨_, forwardMove?_of_event hread, ?_, names_offerAll e m.fanOut.channels⟩
    rw [notices_eq_overflows]
    exact .forwarded e _ _ (by rw [answers, names, List.length_map, List.length_map])
  · exact ⟨_, by rw [forwardMove?, hread], .lagged missed, rfl⟩

theorem Forwards.reads (h : m.Forwards moves n) : ∀ move ∈ moves, move.Reads m.names := by
  induction h with
  | nil m => exact List.forall_mem_nil _
  | cons hforward hmove _ ih =>
    obtain ⟨_, hread, hreads, hnames⟩ := reads_of_forward hforward
    obtain rfl := Option.some.inj (hread.symm.trans hmove)
    exact List.forall_mem_cons.mpr ⟨hreads, hnames ▸ ih⟩

/-! ## Draining -/

theorem receive_drain (m : Monitor) :
    m.drain.1.fanOut.bus.receive m.drain.1.cursor = none :=
  receive_of_forward_none m.forward_drain

theorem forwards_drain (m : Monitor) : m.Forwards m.drainMoves m.drain.1 := by
  fun_induction drainMoves m with
  | case1 m hforward =>
    rw [drain_eq_self hforward]
    exact .nil m
  | case2 m n output hforward ih =>
    obtain ⟨move, hmove, _⟩ := reads_of_forward hforward
    rw [drain_of_forward hforward, hmove]
    exact .cons hforward hmove ih

/-- A monitor that leaves its loop has nothing left to read. -/
theorem Turns.receive_of_left {exit : Exit} (h : m.Turns (.left exit) n) :
    n.fanOut.bus.receive n.cursor = none := by
  cases h with
  | cancelled _ _ => exact m.receive_drain
  | signalled _ _ _ => exact (m.announce { kind := .shutdownRequested }).receive_drain
  | disconnected _ _ _ _ => exact m.receive_drain

/-- Whatever the bus and the queues hold, and however far the monitor is behind: forwarding ends
after so many steps, and then nothing can be read.  Every event that the ring held at first or was
given meanwhile has left it in order, either offered to every subscriber or pushed out before it was
reached.  An event that is forwarded has at most one refusal told of for each subscriber, and none
if it tells of a refusal itself. -/
theorem drain_ends (hsound : m.fanOut.bus.Sound m.cursor) (hlistened : m.fanOut.bus.receivers ≠ 0) :
    let unread := m.fanOut.bus.unread m.cursor
    let left := departures m.drainMoves
    (∀ moves n, m.Forwards moves n →
      moves.length ≤ 2 * ((m.names.length + 1) * unread.length) + 1) ∧
    m.Forwards m.drainMoves m.drain.1 ∧
    m.drain.1.fanOut.bus.receive m.drain.1.cursor = none ∧
    left.map Prod.fst = unread ++
      m.drainMoves.flatMap (fun move => move.published.rtake m.fanOut.bus.capacity) ∧
    (∀ i < m.names.length, (acts i m.drainMoves).filterMap Lane.Act.offered? =
      (left.filter Prod.snd).map Prod.fst) ∧
    (∀ move ∈ m.drainMoves, move.Reads m.names ∧ move.published.length ≤ m.names.length) ∧
    ∀ exit n, m.Turns (.left exit) n → n.fanOut.bus.receive n.cursor = none := by
  intro unread left
  have hcircuit := (drain_circuit hlistened []).1
  have hwaiting : (m.drain.1.circuit []).waiting = [] := (Bus.receive_eq_none m.receive_drain).2
  have hleft := hcircuit.departures hsound
  rw [hwaiting, List.append_nil] at hleft
  refine ⟨fun moves n h => ?_, m.forwards_drain, m.receive_drain, hleft, fun i hi => ?_,
    fun move hmove => ?_, fun _ _ => Turns.receive_of_left⟩
  · have hlength := h.length_le
    have hbacklog := m.backlog_le
    have hloss := Nat.min_le_left 1 m.missed
    unfold forwards at hlength
    show moves.length ≤ 2 * ((m.names.length + 1) * (m.fanOut.bus.unread m.cursor).length) + 1
    omega
  · rw [names, List.length_map] at hi
    rw [hcircuit.offers hi, forwarded_departures]
  · have hreads := m.forwards_drain.reads move hmove
    exact ⟨hreads, hreads.length_published_le⟩

/-- Too many events for the ring and for two of the queues. -/
def flooded : Monitor :=
  let m := Site.bare 2 [Site.recorder, Site.tight "D1", Site.tight "D2"]
  ((m.process Site.heartbeats).1.process Site.heartbeats).1

theorem flooded_drain_ends :
    flooded.missed = 2 ∧ (flooded.fanOut.bus.unread flooded.cursor).length = 2 ∧
    (∀ moves n, flooded.Forwards moves n → moves.length ≤ 17) ∧
    flooded.drain.1.fanOut.bus.receive flooded.drain.1.cursor = none := by
  have hbus : flooded.fanOut.bus.held.length ≤ flooded.fanOut.bus.capacity ∧
      flooded.fanOut.bus.held.length ≤ flooded.fanOut.bus.sent ∧
      flooded.cursor ≤ flooded.fanOut.bus.sent ∧ flooded.fanOut.bus.receivers ≠ 0 ∧
      flooded.missed = 2 ∧ (flooded.fanOut.bus.unread flooded.cursor).length = 2 ∧
      flooded.names.length = 3 := by decide +kernel
  obtain ⟨hbounded, hcounted, hbehind, hlistened, hmissed, hunread, hnames⟩ := hbus
  obtain ⟨hbound, _, hnone, _⟩ := drain_ends ⟨hbounded, hcounted, hbehind⟩ hlistened
  refine ⟨hmissed, hunread, fun moves n h => ?_, hnone⟩
  have hmoves := hbound moves n h
  rwa [hunread, hnames] at hmoves

end Monitor

end Overseer
