import Overseer.FanOut
import Overseer.SideReport
import Overseer.Supervisor

/-!
The monitor: a supervisor with a bounded queue of inputs, its reports, and the event bus that it
forwards to its subscribers.  `turn` is one round of its loop, which looks for a cancellation, a
signal, an event and an input, in this order.  `forward_lt`: forwarding lowers what is left to
forward, so that `drain`, the way out of the loop, ends.
-/

namespace Overseer

inductive Input where
  | report (label : Label) (bytes : ByteArray)
  | config (text : String)

/-- A monitor on its way out waits for its workers. -/
inductive Phase where
  | running
  | leaving
  | finished
  deriving DecidableEq, Repr

/-- `cursor` is the monitor's own receiver; `clients` counts the handles and sessions that can still
submit inputs. -/
structure Monitor where
  supervisor : Supervisor
  freeResources : Reporter
  store : ReportStore
  fanOut : FanOut
  cursor : Nat
  inputs : List Input
  inputPlaces : Nat
  sessionBufferSize : Nat
  clients : Nat
  cancelled : Bool
  signalled : Bool
  phase : Phase

namespace Monitor

/-- Write the reports and publish the events among some effects; the log lines are output. -/
def perform (m : Monitor) (effects : List Effect) : Monitor × List Output :=
  ({ m with
      store := effects.foldl ReportStore.apply m.store
      fanOut := m.fanOut.publishAll effects },
   (effects.filterMap Effect.line?).map .log)

/-- A monitor with one handle, not yet running.  A malformed configuration prevents it. -/
def build (settings : Settings) (subscribers : List Subscriber) (config : Option String) :
    Except Problem Monitor × List Output :=
  let (bus, cursor) := (Bus.new settings.busPlaces).subscribe
  let monitor (supervisor : Supervisor) : Monitor :=
    { supervisor
      freeResources := FreeResources.reporter settings.reportBufferSize
      store := []
      fanOut := .new bus subscribers
      cursor
      inputs := []
      inputPlaces := settings.inputPlaces
      sessionBufferSize := settings.sessionBufferSize
      clients := 1
      cancelled := false
      signalled := false
      phase := .running }
  match config with
  | none => (.ok (monitor (.new settings)), [])
  | some text =>
    let (result, supervisor, effects) := (Supervisor.new settings).updateConfig text
    let (m, output) := (monitor supervisor).perform effects
    (result.map fun _ => m, output)

/-! ## Inputs -/

def reject (p : Problem) : List Effect := [.warn (p.message ++ ", report ignored"), .publish p.event]

/-- Reports come in buffers padded with NUL. -/
def dropPadding (text : String) : String :=
  .ofList (Text.dropEndWhile (· == '\x00') text.toList)

/-- What a report that can be read does. -/
def handleState (m : Monitor) (label : Label) (text : String) (state : Markup.Element) :
    Monitor × List Effect :=
  let (supervisor, handled) := m.supervisor.handleReport state label
  let (written, freeResources, free) := FreeResources.report m.freeResources state label
  let failed := match written with
    | .ok _ => []
    | .error e => [.error ("unable to write free resources: " ++ e.message)]
  ({ m with supervisor, freeResources },
   handled ++ free ++ failed ++ StateCopy.effects text label)

def handleReport (m : Monitor) (label : Label) (bytes : ByteArray) : Monitor × List Effect :=
  match String.fromUTF8? bytes with
  | none => (m, reject (.invalidUtf8 label.render))
  | some padded =>
    let text := dropPadding padded
    match Markup.Element.parse text with
    | .error e => (m, reject (.malformedReport label.render e))
    | .ok state => m.handleState label text state

def handleConfig (m : Monitor) (text : String) : Monitor × List Effect :=
  let (result, supervisor, effects) := m.supervisor.updateConfig text
  let rejected := match result with
    | .ok _ => []
    | .error p => [.debug ("init configuration update rejected: " ++ p.word)]
  ({ m with supervisor }, effects ++ rejected)

def handle (m : Monitor) : Input → Monitor × List Effect
  | .report label bytes => m.handleReport label bytes
  | .config text => m.handleConfig text

def process (m : Monitor) (input : Input) : Monitor × List Output :=
  let (m, effects) := m.handle input
  m.perform effects

/-! ## Forwarding -/

/-- Hand the next event on the bus to the subscribers, if there is one. -/
def forward (m : Monitor) : Option (Monitor × List Output) :=
  match m.fanOut.bus.receive m.cursor with
  | none => none
  | some (.lagged n, cursor) =>
    some ({ m with cursor }, [.log ⟨.warn, s!"event loop lagged behind the bus, {n} events lost"⟩])
  | some (.event e, cursor) =>
    let (fanOut, output) := m.fanOut.emit e
    some ({ m with cursor, fanOut }, output)

/-- What forwarding some events can take in all: one step for each, and one more for every overflow
that it may cause. -/
def effort (channels : Nat) (es : List Event) : Nat :=
  es.length + channels * es.countP (·.kind != .subscriberOverflow)

theorem effort_append (channels : Nat) (es fs : List Event) :
    effort channels (es ++ fs) = effort channels es + effort channels fs := by
  simp only [effort, List.length_append, List.countP_append, Nat.mul_add]
  omega

theorem effort_le_of_sublist (channels : Nat) {es fs : List Event} (h : es.Sublist fs) :
    effort channels es ≤ effort channels fs :=
  Nat.add_le_add h.length_le (Nat.mul_le_mul_left channels h.countP_le)

/-- Overflow events cause no others. -/
theorem effort_overflows (channels : Nat) {es : List Event}
    (h : ∀ e ∈ es, e.kind = .subscriberOverflow) : effort channels es = es.length := by
  have hnone : es.countP (·.kind != .subscriberOverflow) = 0 :=
    List.countP_eq_zero.mpr fun e he => by simp [h e he]
  rw [effort, hnone, Nat.mul_zero, Nat.add_zero]

/-- What is left to forward. -/
def backlog (m : Monitor) : Nat :=
  effort m.fanOut.channels.length (m.fanOut.bus.unread m.cursor)

def missed (m : Monitor) : Nat := m.fanOut.bus.missed m.cursor

/-- Forwarding an event lowers the backlog although it may publish overflow events; being told of
lost events leaves the backlog and ends the loss. -/
theorem forward_lt {m n : Monitor} {output : List Output} (h : m.forward = some (n, output)) :
    n.inputs = m.inputs ∧ n.phase = m.phase ∧
      (n.backlog < m.backlog ∨ n.backlog = m.backlog ∧ n.missed < m.missed) := by
  unfold forward at h
  split at h
  · simp at h
  · rename_i k cursor hr
    obtain ⟨hk, hpos, hmissed, hunread⟩ := Bus.receive_lagged hr
    simp at h
    obtain ⟨rfl, _⟩ := h
    refine ⟨rfl, rfl, .inr ⟨?_, ?_⟩⟩
    · simp only [backlog, hunread]
    · simp only [missed, hmissed]
      omega
  · rename_i e cursor hr
    obtain ⟨_, hunread⟩ := Bus.receive_event hr
    simp at h
    obtain ⟨rfl, _⟩ := h
    refine ⟨rfl, rfl, .inl ?_⟩
    obtain ⟨hkind, hlen⟩ := emit_overflows e m.fanOut.channels
    have hle := effort_le_of_sublist m.fanOut.channels.length
      (m.fanOut.bus.unread_publishAll_sublist
        ((offerAll e m.fanOut.channels).2.filterMap Effect.event?) cursor)
    rw [effort_append, effort_overflows _ hkind] at hle
    have hone : ((offerAll e m.fanOut.channels).2.filterMap Effect.event?).length <
        effort m.fanOut.channels.length [e] := by
      refine Nat.lt_of_le_of_lt hlen ?_
      by_cases ho : e.kind = .subscriberOverflow <;> simp [effort, ho]
    simp only [backlog, FanOut.emit, FanOut.publishAll, length_offerAll, hunread]
    rw [← List.singleton_append, effort_append]
    omega

/-- Forward until nothing is left. -/
def drain (m : Monitor) : Monitor × List Output :=
  match _h : m.forward with
  | none => (m, [])
  | some (n, output) =>
    let (n, rest) := n.drain
    (n, output ++ rest)
termination_by (m.backlog, m.missed)
decreasing_by
  obtain ⟨_, _, hlt | ⟨heq, hlt⟩⟩ := forward_lt _h
  · exact Prod.Lex.left _ _ hlt
  · rw [← heq]
    exact Prod.Lex.right _ hlt

/-! ## The loop -/

/-- Leave the loop: forward what is pending, then wait for the workers. -/
def leave (m : Monitor) : Monitor × List Output :=
  let (m, output) := m.drain
  ({ m with phase := .leaving }, output)

/-- Inputs that are still queued are lost. -/
def finish (m : Monitor) : Monitor :=
  { m with
    phase := .finished
    inputs := []
    fanOut := { m.fanOut with bus := m.fanOut.bus.unsubscribe } }

/-- One round of the loop, unless the monitor has to wait. -/
def turn (m : Monitor) : Option (Monitor × List Output) :=
  match m.phase with
  | .running =>
    if m.cancelled then some m.leave
    else if m.signalled then
      let (m, shutdown) := m.perform [.publish { kind := .shutdownRequested }]
      let (m, output) := m.leave
      some (m, shutdown ++ output)
    else match m.forward with
      | some next => some next
      | none =>
        match m.inputs with
        | input :: inputs => some ({ m with inputs }.process input)
        | [] => if m.clients = 0 then some m.leave else none
  | .leaving => if m.fanOut.isIdle then some (m.finish, []) else none
  | .finished => none

end Monitor

end Overseer
