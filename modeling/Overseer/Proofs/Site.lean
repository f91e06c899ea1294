import Overseer.Proofs.Circuit
import Overseer.Proofs.Traffic

/-!
A monitor at work on a single thread.  An order says who goes on: a client, the loop or a worker;
`Site.run?` carries out a list of orders, in any interleaving.  Its moves are those of a circuit of
events, and what the monitor tells of by itself depends only on what it was built from and what it
was asked to do (`Site.run?_moved`, `Site.build_same`).
-/

namespace Overseer

/-! ## Moves of a monitor -/

namespace Monitor

/-- The events that a monitor publishes by itself. -/
def tells (m : Monitor) : Deed → List Event
  | .input input => (m.handle input).2.filterMap Effect.event?
  | .session label =>
    [{ kind := .sessionOpened, component := some label.render, count := some m.sessionBufferSize }]
  | .shutdown => [{ kind := .shutdownRequested }]

def deedMove (m : Monitor) (deed : Deed) : Move :=
  ⟨.deed deed, m.tells deed, m.fanOut.bus.displaced m.cursor (m.tells deed)⟩

def forwardMove? (m : Monitor) : Option Move :=
  match m.fanOut.bus.receive m.cursor with
  | none => none
  | some (.lagged missed, _) => some ⟨.lagged missed, [], []⟩
  | some (.event e, cursor) =>
    let told := notices e m.fanOut.channels
    some ⟨.forwarded e (answers e m.fanOut.channels), told, m.fanOut.bus.displaced cursor told⟩

def drainMoves (m : Monitor) : List Move :=
  match _h : m.forward with
  | none => []
  | some (n, _) => m.forwardMove?.toList ++ n.drainMoves
termination_by (m.backlog, m.missed)
decreasing_by
  obtain ⟨_, _, hlt | ⟨heq, hlt⟩⟩ := forward_lt _h
  · exact Prod.Lex.left _ _ hlt
  · rw [← heq]
    exact Prod.Lex.right _ hlt

/-- The moves of one round of the loop. -/
def turnMoves (m : Monitor) : List Move :=
  match m.phase with
  | .running =>
    if m.cancelled then m.drainMoves
    else if m.signalled then
      m.deedMove .shutdown :: (m.announce { kind := .shutdownRequested }).drainMoves
    else match m.forwardMove? with
      | some move => [move]
      | none =>
        match m.inputs with
        | input :: _ => [m.deedMove (.input input)]
        | [] => []
  | .leaving => [.quiet]
  | .finished => []

def circuit (m : Monitor) (busy : List (Option Event)) : Circuit :=
  ⟨m.fanOut.bus, m.cursor, m.fanOut.channels, busy⟩

end Monitor

/-! ## Orders -/

/-- A monitor with the events that its workers are busy with. -/
structure Site where
  monitor : Monitor
  busy : List (Option Event)

/-- Who goes on next. -/
inductive Order where
  | submit (input : Input)
  | openSession (label : Label)
  | clone
  | close
  | cancel
  | signal
  | listen
  | unlisten
  | turn
  | take (worker : Nat)
  | finish (worker : Nat) (outcome : Except String (List LogLine))

namespace Site

def start (m : Monitor) : Site := ⟨m, m.fanOut.channels.map fun _ => none⟩

def circuit (s : Site) : Circuit := s.monitor.circuit s.busy

/-- A worker takes the next event off its queue. -/
def take? (s : Site) (i : Nat) : Option (List Move × Site) :=
  match s.monitor.fanOut.channels[i]?, s.busy[i]? with
  | some channel, some none =>
    match channel.work with
    | some (rest, e) =>
      let channels := s.monitor.fanOut.channels.set i rest
      some ([⟨.taken i e, [], []⟩],
        { monitor := { s.monitor with fanOut := { s.monitor.fanOut with channels } }
          busy := s.busy.set i (some e) })
    | none => none
  | _, _ => none

/-- A subscriber is done with an event. -/
def finish? (s : Site) (i : Nat) (outcome : Except String (List LogLine)) :
    Option (List Move × Site) :=
  match s.monitor.fanOut.channels[i]?, s.busy[i]? with
  | some channel, some (some e) =>
    let told := channel.outcomeEvents outcome
    let bus := s.monitor.fanOut.bus
    some ([⟨.finished i e outcome, told, bus.displaced s.monitor.cursor told⟩],
      { monitor := { s.monitor with fanOut := { s.monitor.fanOut with bus := bus.publishAll told } }
        busy := s.busy.set i none })
  | _, _ => none

/-- The loop goes on.  It ends once all workers are done. -/
def turn? (s : Site) : Option (List Move × Site) :=
  match s.monitor.turn with
  | some (m, _) =>
    if m.phase = .finished ∧ s.busy.any Option.isSome then none
    else some (s.monitor.turnMoves, { s with monitor := m })
  | none => none

/-- Others listen on the bus; the monitor does so until it has finished. -/
def withListeners (s : Site) (receivers : Nat) : Site :=
  let bus := { s.monitor.fanOut.bus with receivers }
  { s with monitor := { s.monitor with fanOut := { s.monitor.fanOut with bus } } }

/-- Carry out an order, if that is possible.  After a monitor has finished nothing goes on. -/
def follow? (s : Site) (order : Order) : Option (List Move × Site) :=
  if s.monitor.phase = .finished then none
  else match order with
    | .submit input =>
      match s.monitor.submit input with
      | .ok m => some ([], { s with monitor := m })
      | .error _ => none
    | .openSession label =>
      some ([s.monitor.deedMove (.session label)],
        { s with monitor := (s.monitor.openSession label).2 })
    | .clone => some ([], { s with monitor := { s.monitor with clients := s.monitor.clients + 1 } })
    | .close => some ([], { s with monitor := s.monitor.closeSession })
    | .cancel => some ([], { s with monitor := s.monitor.cancel })
    | .signal => some ([], { s with monitor := s.monitor.signal })
    | .listen => some ([.quiet], s.withListeners (s.monitor.fanOut.bus.receivers + 1))
    | .unlisten =>
      if 1 < s.monitor.fanOut.bus.receivers then
        some ([.quiet], s.withListeners (s.monitor.fanOut.bus.receivers - 1))
      else none
    | .turn => s.turn?
    | .take i => s.take? i
    | .finish i outcome => s.finish? i outcome

/-- Carry out one order after the other. -/
def run? : Site → List Order → Option (List Move × Site)
  | s, [] => some ([], s)
  | s, order :: orders =>
    match s.follow? order with
    | none => none
    | some (moves, t) => (t.run? orders).map fun (more, u) => (moves ++ more, u)

end Site

/-! ## Rounds -/

namespace Monitor

variable {m n : Monitor} {output : List Output}

theorem forward_of_event {e : Event} {cursor : Nat}
    (hread : m.fanOut.bus.receive m.cursor = some (.event e, cursor)) :
    ∃ output, m.forward = some ({ m with cursor, fanOut := (m.fanOut.emit e).1 }, output) :=
  ⟨_, by rw [forward, hread]⟩

theorem forwardMove?_of_event {e : Event} {cursor : Nat}
    (hread : m.fanOut.bus.receive m.cursor = some (.event e, cursor)) : m.forwardMove? =
      some ⟨.forwarded e (answers e m.fanOut.channels), notices e m.fanOut.channels,
        m.fanOut.bus.displaced cursor (notices e m.fanOut.channels)⟩ := by
  rw [forwardMove?, hread]

theorem forward_of_none (hread : m.fanOut.bus.receive m.cursor = none) : m.forward = none := by
  rw [forward, hread]

theorem forward_of_lagged {missed cursor : Nat}
    (hread : m.fanOut.bus.receive m.cursor = some (.lagged missed, cursor)) :
    ∃ output, m.forward = some ({ m with cursor }, output) :=
  ⟨_, by rw [forward, hread]⟩

/-- Forwarding is a move of the circuit, and no deed. -/
theorem forward_circuit (h : m.forward = some (n, output))
    (hlistened : m.fanOut.bus.receivers ≠ 0) (busy : List (Option Event)) :
    ∃ move, m.forwardMove? = some move ∧ (∀ deed, move.cause ≠ .deed deed) ∧
      (m.circuit busy).Step move (n.circuit busy) ∧ n.fanOut.bus.receivers ≠ 0 := by
  unfold forwardMove?
  obtain ⟨e, cursor, hread, rfl⟩ | ⟨missed, cursor, hread, rfl⟩ := forward_cases h
  · rw [hread]
    refine ⟨_, rfl, nofun, .forwarded hlistened hread, ?_⟩
    exact (m.fanOut.bus.frame_publishAll _).2 ▸ hlistened
  · rw [hread]
    exact ⟨_, rfl, nofun, .lagged hread, hlistened⟩

theorem receive_of_forward_none (h : m.forward = none) :
    m.fanOut.bus.receive m.cursor = none := by
  cases hread : m.fanOut.bus.receive m.cursor with
  | none => rfl
  | some read =>
    obtain ⟨e | missed, cursor⟩ := read
    · obtain ⟨_, hforward⟩ := forward_of_event hread
      cases h.symm.trans hforward
    · obtain ⟨_, hforward⟩ := forward_of_lagged hread
      cases h.symm.trans hforward

theorem forwardMove?_none (h : m.forward = none) : m.forwardMove? = none := by
  rw [forwardMove?, receive_of_forward_none h]

theorem drain_circuit (hlistened : m.fanOut.bus.receivers ≠ 0) (busy : List (Option Event)) :
    (m.circuit busy).Run m.drainMoves (m.drain.1.circuit busy) ∧
      (∀ move ∈ m.drainMoves, ∀ deed, move.cause ≠ .deed deed) ∧
      m.drain.1.fanOut.bus.receivers ≠ 0 := by
  fun_induction drainMoves m with
  | case1 m hforward =>
    rw [drain_eq_self hforward]
    refine ⟨.nil _, ?_, hlistened⟩
    exact fun move hmove => absurd hmove List.not_mem_nil
  | case2 m n output hforward ih =>
    obtain ⟨move, hmove, hdeed, hstep, hlistened⟩ := forward_circuit hforward hlistened busy
    obtain ⟨hrun, hdeeds, hlast⟩ := ih hlistened
    rw [hmove, drain_of_forward hforward]
    refine ⟨.cons hstep hrun, ?_, hlast⟩
    intro move' hmem
    rcases List.mem_cons.mp hmem with rfl | hmem
    · exact hdeed
    · exact hdeeds move' hmem

theorem drainMoves_of_none (h : m.forward = none) : m.drainMoves = [] := by
  rw [drainMoves]
  split
  · rfl
  · rename_i hsome
    cases h.symm.trans hsome

theorem turnMoves_of_unstopped (h : m.Unstopped) : m.turnMoves =
    match m.forwardMove? with
    | some move => [move]
    | none =>
      match m.inputs with
      | input :: _ => [m.deedMove (.input input)]
      | [] => [] := by
  simp only [turnMoves, h.running, h.uncancelled, h.unsignalled, Bool.false_eq_true, if_false]

end Monitor

/-! ## Deeds -/

def Move.deed? (move : Move) : Option Deed :=
  match move.cause with
  | .deed deed => some deed
  | _ => none

/-- The deeds among some moves. -/
def deeds (moves : List Move) : List Deed := moves.filterMap Move.deed?

/-- What was published of them, deed by deed. -/
def told (moves : List Move) : List (List Event) :=
  moves.filterMap fun move => move.deed?.map fun _ => move.published

theorem deeds_append (moves more : List Move) : deeds (moves ++ more) = deeds moves ++ deeds more :=
  List.filterMap_append

theorem told_append (moves more : List Move) : told (moves ++ more) = told moves ++ told more :=
  List.filterMap_append

/-- Moves without deeds tell of none. -/
theorem deeds_eq_nil {moves : List Move} (h : ∀ move ∈ moves, ∀ deed, move.cause ≠ .deed deed) :
    deeds moves = [] ∧ told moves = [] := by
  have hnone : ∀ move ∈ moves, move.deed? = none := by
    intro move hmem
    unfold Move.deed?
    split
    · rename_i deed hdeed
      exact absurd hdeed (h move hmem deed)
    · rfl
  refine ⟨List.filterMap_eq_nil_iff.mpr hnone, List.filterMap_eq_nil_iff.mpr fun move hmem => ?_⟩
  rw [hnone move hmem]
  rfl

namespace Monitor

/-- The same books, and sessions of the same size. -/
structure Tallies (m n : Monitor) : Prop where
  core : m.core = n.core
  size : m.sessionBufferSize = n.sessionBufferSize

variable {m n : Monitor}

def fulfil (m : Monitor) : Deed → Monitor
  | .input input => (m.process input).1
  | _ => m

def fulfilAll (m : Monitor) (deeds : List Deed) : Monitor := deeds.foldl fulfil m

/-- What a monitor tells of deeds, one after the other. -/
def tellsAll (m : Monitor) : List Deed → List (List Event)
  | [] => []
  | deed :: deeds => m.tells deed :: (m.fulfil deed).tellsAll deeds

theorem Tallies.tells (h : m.Tallies n) (deed : Deed) : m.tells deed = n.tells deed := by
  cases deed with
  | input input =>
    obtain ⟨_, _, effects, hm, hn⟩ := handle_same h.core input
    rw [Monitor.tells, Monitor.tells, hm, hn]
  | session label =>
    rw [Monitor.tells, Monitor.tells, h.size]
  | shutdown => rfl

theorem Tallies.fulfil (h : m.Tallies n) (deed : Deed) : (m.fulfil deed).Tallies (n.fulfil deed) := by
  cases deed with
  | input input =>
    obtain ⟨_, _, _, _, hm⟩ := process_frame m input
    obtain ⟨_, _, _, _, hn⟩ := process_frame n input
    refine ⟨core_process h.core input, ?_⟩
    show (m.process input).1.sessionBufferSize = (n.process input).1.sessionBufferSize
    rw [hm, hn]
    exact h.size
  | session label => exact h
  | shutdown => exact h

theorem Tallies.fulfilAll (h : m.Tallies n) (deeds : List Deed) :
    (m.fulfilAll deeds).Tallies (n.fulfilAll deeds) := by
  induction deeds generalizing m n with
  | nil => exact h
  | cons deed deeds ih => exact ih (h.fulfil deed)

theorem Tallies.tellsAll (h : m.Tallies n) (deeds : List Deed) :
    m.tellsAll deeds = n.tellsAll deeds := by
  induction deeds generalizing m n with
  | nil => rfl
  | cons deed deeds ih =>
    rw [Monitor.tellsAll, Monitor.tellsAll, h.tells, ih (h.fulfil deed)]

theorem tellsAll_append (m : Monitor) (deeds more : List Deed) :
    m.tellsAll (deeds ++ more) = m.tellsAll deeds ++ (m.fulfilAll deeds).tellsAll more := by
  induction deeds generalizing m with
  | nil => rfl
  | cons deed deeds ih => exact congrArg (m.tells deed :: ·) (ih (m.fulfil deed))

theorem fulfilAll_append (m : Monitor) (deeds more : List Deed) :
    m.fulfilAll (deeds ++ more) = (m.fulfilAll deeds).fulfilAll more :=
  List.foldl_append

end Monitor

/-! ## Runs -/

namespace Site

open Monitor

variable {s t u : Site} {order : Order} {orders : List Order} {moves more : List Move}

/-- Somebody listens on the bus until the monitor has finished. -/
def Listened (s : Site) : Prop :=
  s.monitor.phase ≠ .finished → s.monitor.fanOut.bus.receivers ≠ 0

/-- What orders come to: moves of the circuit, with the deeds that a monitor with these books tells
of. -/
structure Moved (s : Site) (moves : List Move) (t : Site) : Prop where
  circuit : s.circuit.Run moves t.circuit
  listened : t.Listened
  told : told moves = s.monitor.tellsAll (deeds moves)
  tallies : t.monitor.Tallies (s.monitor.fulfilAll (deeds moves))

theorem Moved.trans (h : s.Moved moves t) (hmore : t.Moved more u) : s.Moved (moves ++ more) u where
  circuit := h.circuit.append hmore.circuit
  listened := hmore.listened
  told := by
    rw [told_append, deeds_append, tellsAll_append, h.told, hmore.told, h.tallies.tellsAll]
  tallies := by
    have hafter := h.tallies.fulfilAll (deeds more)
    rw [deeds_append, fulfilAll_append]
    exact ⟨hmore.tallies.core.trans hafter.core, hmore.tallies.size.trans hafter.size⟩

/-- Moves without deeds leave the books as they are. -/
theorem moved_of_quiet (hrun : s.circuit.Run moves t.circuit) (hlistened : t.Listened)
    (hdeeds : ∀ move ∈ moves, ∀ deed, move.cause ≠ .deed deed)
    (htallies : t.monitor.Tallies s.monitor) : s.Moved moves t := by
  obtain ⟨hnone, htold⟩ := deeds_eq_nil hdeeds
  refine ⟨hrun, hlistened, ?_, ?_⟩
  · rw [htold, hnone]
    rfl
  · rw [hnone]
    exact htallies

/-- A deed is told of and leaves its trace in the books. -/
theorem moved_of_deed {deed : Deed}
    (hstep : s.circuit.Step (s.monitor.deedMove deed) t.circuit) (hlistened : t.Listened)
    (htallies : t.monitor.Tallies (s.monitor.fulfil deed)) :
    s.Moved [s.monitor.deedMove deed] t :=
  ⟨.cons hstep (.nil _), hlistened, rfl, htallies⟩

/-- Leaving the loop forwards what is pending. -/
theorem leave_moved {m : Monitor} (hlistened : m.fanOut.bus.receivers ≠ 0)
    (busy : List (Option Event)) : Moved ⟨m, busy⟩ m.drainMoves ⟨m.leave.1, busy⟩ := by
  obtain ⟨hrun, hdeeds, hlast⟩ := drain_circuit hlistened busy
  exact moved_of_quiet hrun (fun _ => hlast) hdeeds ⟨core_leave m, (sameFrame_leave m).size⟩

/-- An input is told of when it is processed. -/
theorem moved_of_processed (hlistened : s.monitor.fanOut.bus.receivers ≠ 0) (input : Input)
    (inputs : List Input) : s.Moved [s.monitor.deedMove (.input input)]
      ⟨({ s.monitor with inputs }.process input).1, s.busy⟩ := by
  obtain ⟨supervisor, freeResources, effects, hm, hn⟩ :=
    handle_same (m := { s.monitor with inputs }) (n := s.monitor) rfl input
  have htold : s.monitor.tells (.input input) = effects.filterMap Effect.event? := by
    rw [tells, hn]
  have hcircuit : ({ s.monitor with inputs }.process input).1.circuit s.busy =
      s.circuit.publish (s.monitor.tells (.input input)) := by
    rw [process, hm, htold]
    rfl
  have htallies : ({ s.monitor with inputs } : Monitor).Tallies s.monitor := ⟨rfl, rfl⟩
  have hstep : s.circuit.Step (s.monitor.deedMove (.input input))
      (({ s.monitor with inputs }.process input).1.circuit s.busy) := by
    rw [hcircuit]
    exact .deed _ _ hlistened
  refine moved_of_deed hstep (fun _ => ?_) (htallies.fulfil (.input input))
  have hreceivers := congrArg (·.bus.receivers) hcircuit
  exact hreceivers.trans (s.monitor.fanOut.bus.frame_publishAll _).2 ▸ hlistened

theorem turn?_of_turns {round : Round} {m : Monitor} (h : s.monitor.Turns round m)
    (hrunning : m.phase = .running) :
    s.turn? = some (s.monitor.turnMoves, { s with monitor := m }) := by
  obtain ⟨output, hturn⟩ := turn_iff_turns.mpr ⟨round, h⟩
  rw [turn?, hturn]
  refine if_neg fun hfinished => ?_
  cases hrunning.symm.trans hfinished.1

theorem turn?_moved (hphase : s.monitor.phase ≠ .finished) (hs : s.Listened)
    (h : s.turn? = some (moves, t)) : s.Moved moves t := by
  unfold turn? at h
  cases hturn : s.monitor.turn with
  | none =>
    rw [hturn] at h
    cases h
  | some next =>
    obtain ⟨m, output⟩ := next
    rw [hturn] at h
    dsimp only at h
    split at h
    · cases h
    cases h
    obtain ⟨round, hturns⟩ := turn_iff_turns.mp ⟨output, hturn⟩
    cases hturns with
    | cancelled hrunning hcancelled =>
      have hmoves : s.monitor.turnMoves = s.monitor.drainMoves := by
        simp only [turnMoves, hrunning, hcancelled, if_true]
      rw [hmoves]
      exact leave_moved (hs hphase) s.busy
    | signalled hrunning huncancelled hsignalled =>
      let announced : Site := ⟨s.monitor.announce { kind := .shutdownRequested }, s.busy⟩
      have hmoves : s.monitor.turnMoves =
          [s.monitor.deedMove .shutdown] ++ announced.monitor.drainMoves := by
        simp only [turnMoves, hrunning, huncancelled, hsignalled, Bool.false_eq_true, if_false,
          if_true, List.singleton_append, announced]
      have hlistened : announced.monitor.fanOut.bus.receivers ≠ 0 :=
        (s.monitor.fanOut.bus.frame_publish _).2 ▸ hs hphase
      have htold : s.Moved [s.monitor.deedMove .shutdown] announced :=
        moved_of_deed (.deed .shutdown _ (hs hphase)) (fun _ => hlistened) ⟨rfl, rfl⟩
      rw [hmoves]
      exact htold.trans (leave_moved hlistened s.busy)
    | forwarded hgoes hforward =>
      obtain ⟨move, hmove, hdeed, hstep, hlistened⟩ :=
        forward_circuit hforward (hs hphase) s.busy
      have hmoves : s.monitor.turnMoves = [move] := by
        rw [turnMoves_of_unstopped hgoes, hmove]
      rw [hmoves]
      refine moved_of_quiet (.cons hstep (.nil _)) (fun _ => hlistened) (by simpa using hdeed) ?_
      exact ⟨(rewired_forward hforward).core, (rewired_forward hforward).sameFrame.size⟩
    | @processed input inputs hgoes hforward hinputs =>
      have hmoves : s.monitor.turnMoves = [s.monitor.deedMove (.input input)] := by
        rw [turnMoves_of_unstopped hgoes, forwardMove?_none hforward, hinputs]
      rw [hmoves]
      exact moved_of_processed (hs hphase) input inputs
    | disconnected hgoes hforward hinputs hclients =>
      have hmoves : s.monitor.turnMoves = s.monitor.drainMoves := by
        rw [turnMoves_of_unstopped hgoes, forwardMove?_none hforward, hinputs,
          drainMoves_of_none hforward]
      rw [hmoves]
      exact leave_moved (hs hphase) s.busy
    | finished hleaving hidle =>
      have hmoves : s.monitor.turnMoves = [.quiet] := by
        simp only [turnMoves, hleaving]
      rw [hmoves]
      refine moved_of_quiet (.cons (.quiet _) (.nil _)) (fun hgoes => absurd rfl hgoes) ?_ ⟨rfl, rfl⟩
      exact List.forall_mem_singleton.mpr nofun

theorem take?_moved {i : Nat} (hs : s.Listened) (h : s.take? i = some (moves, t)) :
    s.Moved moves t := by
  unfold take? at h
  split at h
  · rename_i channel hchannel hfree
    split at h
    · rename_i rest e hwork
      cases h
      exact moved_of_quiet (.cons (.taken hchannel hwork hfree) (.nil _)) hs (by simp) ⟨rfl, rfl⟩
    · cases h
  · cases h

theorem finish?_moved {i : Nat} {outcome : Except String (List LogLine)}
    (hphase : s.monitor.phase ≠ .finished) (hs : s.Listened)
    (h : s.finish? i outcome = some (moves, t)) : s.Moved moves t := by
  unfold finish? at h
  split at h
  · rename_i channel e hchannel hbusy
    cases h
    refine moved_of_quiet (.cons (.finished (hs hphase) hchannel hbusy outcome) (.nil _)) ?_
      (by simp) ⟨rfl, rfl⟩
    exact fun _ => (s.monitor.fanOut.bus.frame_publishAll _).2 ▸ hs hphase
  · cases h

theorem follow?_moved (hs : s.Listened) (h : s.follow? order = some (moves, t)) :
    s.Moved moves t := by
  unfold follow? at h
  split at h
  · cases h
  rename_i hphase
  have hstill {m : Monitor} (hcircuit : m.circuit s.busy = s.circuit) (hm : m.Tallies s.monitor) :
      s.Moved [] ⟨m, s.busy⟩ := by
    have hrun : s.circuit.Run [] (m.circuit s.busy) := by
      rw [hcircuit]
      exact .nil _
    refine moved_of_quiet hrun (fun _ => ?_) (List.forall_mem_nil _) hm
    have hreceivers := congrArg (·.bus.receivers) hcircuit
    exact hreceivers ▸ hs hphase
  have hlisteners {receivers : Nat} (hlistened : receivers ≠ 0) :
      s.Moved [.quiet] (s.withListeners receivers) := by
    refine moved_of_quiet (.cons (.quiet receivers) (.nil _)) (fun _ => hlistened) ?_ ⟨rfl, rfl⟩
    exact List.forall_mem_singleton.mpr nofun
  cases order with
  | submit input =>
    dsimp only at h
    split at h
    · rename_i m hsubmit
      obtain ⟨_, _, hm⟩ := submit_eq_ok hsubmit
      cases h
      rw [hm]
      exact hstill rfl ⟨rfl, rfl⟩
    · cases h
  | openSession label =>
    cases h
    refine moved_of_deed (.deed _ _ (hs hphase)) (fun _ => ?_) ⟨rfl, rfl⟩
    exact (s.monitor.fanOut.bus.frame_publish _).2 ▸ hs hphase
  | clone =>
    cases h
    exact hstill rfl ⟨rfl, rfl⟩
  | close =>
    cases h
    exact hstill rfl ⟨rfl, rfl⟩
  | cancel =>
    cases h
    exact hstill rfl ⟨rfl, rfl⟩
  | signal =>
    cases h
    exact hstill rfl ⟨rfl, rfl⟩
  | listen =>
    cases h
    exact hlisteners (Nat.succ_ne_zero _)
  | unlisten =>
    dsimp only at h
    split at h
    · rename_i hmore
      cases h
      exact hlisteners (Nat.sub_ne_zero_of_lt hmore)
    · cases h
  | turn => exact turn?_moved hphase hs h
  | take i => exact take?_moved hs h
  | finish i outcome => exact finish?_moved hphase hs h

/-- Orders move the events through the circuit. -/
theorem run?_moved (hs : s.Listened) (h : s.run? orders = some (moves, t)) : s.Moved moves t := by
  induction orders generalizing s moves with
  | nil =>
    cases h
    exact moved_of_quiet (.nil _) hs (List.forall_mem_nil _) ⟨rfl, rfl⟩
  | cons order orders ih =>
    rw [run?] at h
    cases hfirst : s.follow? order with
    | none =>
      rw [hfirst] at h
      cases h
    | some next =>
      obtain ⟨first, v⟩ := next
      rw [hfirst] at h
      obtain ⟨⟨rest, w⟩, hrest, heq⟩ := Option.map_eq_some_iff.mp h
      cases heq
      have hmoved := follow?_moved hs hfirst
      exact hmoved.trans (ih hmoved.listened hrest)

theorem run?_append {others : List Order} (h : s.run? orders = some (moves, t))
    (hmore : t.run? others = some (more, u)) :
    s.run? (orders ++ others) = some (moves ++ more, u) := by
  induction orders generalizing s moves with
  | nil =>
    cases h
    exact hmore
  | cons order orders ih =>
    rw [run?] at h
    cases hfirst : s.follow? order with
    | none =>
      rw [hfirst] at h
      cases h
    | some next =>
      obtain ⟨first, v⟩ := next
      rw [hfirst] at h
      obtain ⟨⟨rest, w⟩, hrest, heq⟩ := Option.map_eq_some_iff.mp h
      cases heq
      rw [List.cons_append, run?, hfirst, List.append_assoc]
      exact Option.map_eq_some_iff.mpr ⟨_, ih hrest, rfl⟩

/-- Orders that can be carried out and come to what is expected. -/
theorem exists_run (s : Site) (orders : List Order) (p : List Move × Site → Prop)
    [DecidablePred p] (h : (s.run? orders).any (fun r => decide (p r)) = true) :
    ∃ moves t, s.run? orders = some (moves, t) ∧ p (moves, t) := by
  cases hrun : s.run? orders with
  | none =>
    rw [hrun] at h
    cases h
  | some r =>
    rw [hrun] at h
    exact ⟨r.1, r.2, rfl, of_decide_eq_true h⟩

/-! ## Starts -/

variable {settings : Settings} {subscribers others : List Subscriber} {config : Option String}
  {m n : Monitor}

/-- The subscribers have no part in what a monitor is built from. -/
theorem build_same (hm : (Monitor.build settings subscribers config).1 = .ok m)
    (hn : (Monitor.build settings others config).1 = .ok n) :
    m.fanOut.channels = subscribers.map .new ∧
      n = { m with fanOut := ⟨m.fanOut.bus, others.map .new⟩ } := by
  cases config with
  | none =>
    cases hm
    cases hn
    exact ⟨rfl, rfl⟩
  | some text =>
    unfold Monitor.build at hm hn
    dsimp only at hm hn
    cases hresult : ((Supervisor.new settings).updateConfig text).1 with
    | error p =>
      rw [hresult] at hm
      cases hm
    | ok _ =>
      rw [hresult] at hm hn
      cases hm
      cases hn
      exact ⟨rfl, rfl⟩

/-- The events that are published while a monitor is built. -/
def buildEvents (settings : Settings) : Option String → List Event
  | none => []
  | some text => ((Supervisor.new settings).updateConfig text).2.2.filterMap Effect.event?

theorem build_bus (hm : (Monitor.build settings subscribers config).1 = .ok m) :
    m.fanOut.bus = (Bus.new settings.busPlaces).subscribe.1.publishAll (buildEvents settings config) ∧
      m.cursor = 0 := by
  cases config with
  | none =>
    cases hm
    exact ⟨rfl, rfl⟩
  | some text =>
    unfold Monitor.build at hm
    dsimp only at hm
    cases hresult : ((Supervisor.new settings).updateConfig text).1 with
    | error p =>
      rw [hresult] at hm
      cases hm
    | ok _ =>
      rw [hresult] at hm
      cases hm
      exact ⟨rfl, rfl⟩

/-- A monitor listens to its bus from the beginning, and has still to forward what the bus holds. -/
theorem start_circuit (hm : (Monitor.build settings subscribers config).1 = .ok m) :
    (start m).circuit.Sound ∧ (start m).Listened ∧ (start m).circuit.waiting = m.fanOut.bus.held ∧
      m.fanOut.bus.held = (buildEvents settings config).rtake m.fanOut.bus.capacity := by
  obtain ⟨hbus, hcursor⟩ := build_bus hm
  have hnew : (Bus.new settings.busPlaces).subscribe.1.Sound 0 :=
    ⟨Nat.zero_le _, Nat.zero_le _, Nat.zero_le _⟩
  have hsound : (start m).circuit.Sound := by
    show m.fanOut.bus.Sound m.cursor
    rw [hbus, hcursor]
    exact hnew.publishAll _
  have hwaiting : (start m).circuit.waiting = m.fanOut.bus.held := by
    show m.fanOut.bus.unread m.cursor = _
    rw [hcursor, Bus.unread, Nat.zero_sub, List.drop_zero]
  have hheld : (start m).circuit.waiting =
      (buildEvents settings config).rtake m.fanOut.bus.capacity := by
    show m.fanOut.bus.unread m.cursor = _
    rw [hbus, hcursor, hnew.unread_publishAll (Nat.succ_ne_zero 0), (Bus.frame_publishAll _ _).1]
    rfl
  refine ⟨hsound, fun _ => ?_, hwaiting, hwaiting.symm.trans hheld⟩
  show m.fanOut.bus.receivers ≠ 0
  rw [hbus, (Bus.frame_publishAll _ _).2]
  exact Nat.succ_ne_zero 0

end Site

end Overseer
