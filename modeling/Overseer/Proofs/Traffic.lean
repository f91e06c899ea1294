import Overseer.Proofs.Turns

/-!
A monitor among its clients.  `World.Step` interleaves the calls of any handles and sessions with
the turns of the loop and the steps of the workers; a call may wait for a place in the queue.  What
was processed and what is still queued are the inputs that the queue accepted, in their order
(`Orderly.queued`), and a loop that ends because all clients are gone has processed them all
(`inputs_processed_in_order`).
-/

namespace Overseer

/-! ## Requests -/

/-- Who can submit inputs. -/
inductive Client where
  | handle
  | session (session : Session)
  deriving DecidableEq, Repr

/-- A call that submits an input: a configuration through a handle, a report through its session. -/
inductive Request where
  | update (text : String)
  | report (session : Session) (bytes : ByteArray)

def firstBytes (n : Nat) (bytes : ByteArray) : ByteArray := ⟨(bytes.data.toList.take n).toArray⟩

namespace Request

def client : Request → Client
  | .update _ => .handle
  | .report session _ => .session session

/-- The input that the call submits. -/
def input : Request → Input
  | .update text => .config text
  | .report session bytes => session.input bytes

/-- The input with a report of at most so many bytes. -/
def cut (n : Nat) : Request → Input
  | .update text => .config text
  | .report session bytes => .report session.label (firstBytes n bytes)

end Request

theorem input_eq_firstBytes (session : Session) (bytes : ByteArray) :
    session.input bytes = .report session.label (firstBytes session.bufferSize bytes) := by
  have htake (l : List UInt8) (n : Nat) : l.take (min l.length n) = l.take n := by
    rw [List.take_eq_take_iff]
    omega
  have hdata : bytes.extract 0 (min bytes.size session.bufferSize) =
      firstBytes session.bufferSize bytes := by
    rw [firstBytes, ByteArray.ext_iff, ByteArray.data_extract, ← Array.toList_inj,
      Array.toList_extract, List.extract_eq_take_drop, List.drop_zero, Nat.sub_zero,
      ← ByteArray.size_data, ← Array.length_toList, htake]
  rw [Session.input, hdata]

/-! ## Worlds -/

/-- A monitor with its clients and the calls that wait for a place in its queue. -/
structure World where
  monitor : Monitor
  clients : List Client
  waiting : List Request

/-- What can be seen of a step. -/
inductive Happening where
  | accepted (request : Request)
  | refused (request : Request) (error : SubmitError)
  | round (round : Round)
  | quiet

namespace Monitor

/-- What happens to a monitor besides its turns and its clients: the token is cancelled, the process
is signalled, others listen on the bus or stop, a worker takes an event. -/
inductive Stirs (m : Monitor) : Monitor → Prop where
  | cancel : Stirs m m.cancel
  | signal : Stirs m m.signal
  | listen : Stirs m { m with fanOut := { m.fanOut with bus := m.fanOut.bus.subscribe.1 } }
  | unlisten : Stirs m { m with fanOut := { m.fanOut with bus := m.fanOut.bus.unsubscribe } }
  | work {i : Nat} {fanOut : FanOut} {output : Output}
      (h : m.fanOut.workerStep i = some (fanOut, output)) : Stirs m { m with fanOut }

end Monitor

namespace World

/-- A call is answered by an error: by the queue, or because others are waiting for a place. -/
inductive Refuses (w : World) (input : Input) : SubmitError → Prop where
  | queue {e : SubmitError} (h : w.monitor.submit input = .error e) : Refuses w input e
  | waiting (hopen : w.monitor.phase ≠ .finished) (h : w.waiting ≠ []) : Refuses w input .full

/-- One step of a client, the loop or a worker.  A call that waits keeps its client; the places that
become free are taken by waiting calls in any order. -/
inductive Step (w : World) : Happening → World → Prop where
  | accept {r : Request} {m : Monitor} (hclient : r.client ∈ w.clients)
      (h : w.monitor.submit r.input = .ok m) : Step w (.accepted r) { w with monitor := m }
  | refuse {r : Request} {e : SubmitError} (hclient : r.client ∈ w.clients)
      (h : w.Refuses r.input e) : Step w (.refused r e) w
  | wait {r : Request} (hclient : r.client ∈ w.clients) (h : w.Refuses r.input .full) :
      Step w .quiet { w with waiting := w.waiting ++ [r] }
  | enter {before after : List Request} {r : Request} {m : Monitor}
      (hwaiting : w.waiting = before ++ r :: after) (h : w.monitor.submit r.input = .ok m) :
      Step w (.accepted r) { w with monitor := m, waiting := before ++ after }
  | dismiss {before after : List Request} {r : Request}
      (hwaiting : w.waiting = before ++ r :: after) (h : w.monitor.phase = .finished) :
      Step w (.refused r .closed) { w with waiting := before ++ after }
  | giveUp {before after : List Request} {r : Request}
      (hwaiting : w.waiting = before ++ r :: after) :
      Step w .quiet { w with waiting := before ++ after }
  | openSession (label : Label) (hhandle : .handle ∈ w.clients) :
      Step w .quiet { w with
        monitor := (w.monitor.openSession label).2
        clients := .session (w.monitor.openSession label).1 :: w.clients }
  | clone (hhandle : .handle ∈ w.clients) :
      Step w .quiet { w with
        monitor := { w.monitor with clients := w.monitor.clients + 1 }
        clients := .handle :: w.clients }
  | drop {before after : List Client} {client : Client}
      (hclients : w.clients = before ++ client :: after)
      (hfree : ∀ r ∈ w.waiting, r.client ∈ before ++ after) :
      Step w .quiet { w with monitor := w.monitor.closeSession, clients := before ++ after }
  | stir {m : Monitor} (h : w.monitor.Stirs m) : Step w .quiet { w with monitor := m }
  | turn {round : Round} {m : Monitor} {output : List Output}
      (hturn : w.monitor.turn = some (m, output)) (h : w.monitor.Turns round m) :
      Step w (.round round) { w with monitor := m }

/-- A run with what can be seen of it. -/
inductive Run (w : World) : List Happening → World → Prop where
  | start : Run w [] w
  | step {trace : List Happening} {before after : World} {happening : Happening}
      (h : Run w trace before) (hstep : before.Step happening after) :
      Run w (trace ++ [happening]) after

/-- A monitor as it is built, with one handle. -/
def start (m : Monitor) : World := ⟨m, [.handle], []⟩

end World

/-! ## Traces -/

def Happening.accepted? : Happening → Option Request
  | .accepted request => some request
  | _ => none

def Happening.processed? : Happening → Option Input
  | .round (.processed input) => some input
  | _ => none

/-- The inputs that the queue accepted, in order, with reports of at most `n` bytes. -/
def acceptedInputs (n : Nat) (trace : List Happening) : List Input :=
  (trace.filterMap Happening.accepted?).map (Request.cut n)

/-- The inputs that were processed, in order. -/
def processedInputs (trace : List Happening) : List Input := trace.filterMap Happening.processed?

theorem acceptedInputs_append (n : Nat) (trace more : List Happening) :
    acceptedInputs n (trace ++ more) = acceptedInputs n trace ++ acceptedInputs n more := by
  rw [acceptedInputs, List.filterMap_append, List.map_append]
  rfl

theorem processedInputs_append (trace more : List Happening) :
    processedInputs (trace ++ more) = processedInputs trace ++ processedInputs more :=
  List.filterMap_append

/-- The queue and the loop have no part in it. -/
inductive Happening.Aside : Happening → Prop where
  | quiet : Aside .quiet
  | refused {request : Request} {error : SubmitError} : Aside (.refused request error)

theorem Happening.Aside.acceptedInputs {happening : Happening} (h : happening.Aside) (n : Nat) :
    Overseer.acceptedInputs n [happening] = [] := by
  cases h <;> rfl

theorem Happening.Aside.processedInputs {happening : Happening} (h : happening.Aside) :
    Overseer.processedInputs [happening] = [] := by
  cases h <;> rfl

/-! ## Steps of a monitor -/

namespace Monitor

variable {m n : Monitor}

/-- Nothing changes in the queue, the phase and the books. -/
structure Idles (m n : Monitor) : Prop where
  inputs : n.inputs = m.inputs
  phase : n.phase = m.phase
  places : n.inputPlaces = m.inputPlaces
  core : n.core = m.core
  cancelled : m.cancelled = true → n.cancelled = true

theorem idles_refl (m : Monitor) : m.Idles m := ⟨rfl, rfl, rfl, rfl, id⟩

theorem Stirs.idles (h : m.Stirs n) : m.Idles n := by
  cases h with
  | cancel => exact ⟨rfl, rfl, rfl, rfl, fun _ => rfl⟩
  | signal => exact ⟨rfl, rfl, rfl, rfl, id⟩
  | listen => exact ⟨rfl, rfl, rfl, rfl, id⟩
  | unlisten => exact ⟨rfl, rfl, rfl, rfl, id⟩
  | work _ => exact ⟨rfl, rfl, rfl, rfl, id⟩

/-- What no turn changes. -/
structure SameFrame (m n : Monitor) : Prop where
  places : n.inputPlaces = m.inputPlaces
  size : n.sessionBufferSize = m.sessionBufferSize
  clients : n.clients = m.clients
  cancelled : n.cancelled = m.cancelled

theorem Rewired.sameFrame (h : m.Rewired n) : m.SameFrame n := by
  obtain ⟨_, _, rfl⟩ := h
  exact ⟨rfl, rfl, rfl, rfl⟩

theorem Rewired.unstopped (h : m.Rewired n) (hm : m.Unstopped) : n.Unstopped := by
  obtain ⟨_, _, rfl⟩ := h
  exact ⟨hm.running, hm.uncancelled, hm.unsignalled⟩

theorem Stirs.clients (h : m.Stirs n) :
    n.clients = m.clients ∧ n.sessionBufferSize = m.sessionBufferSize := by
  cases h <;> exact ⟨rfl, rfl⟩

theorem sameFrame_leave (m : Monitor) : m.SameFrame m.leave.1 := by
  obtain ⟨_, _, hleave⟩ := rewired_leave m
  rw [hleave]
  exact ⟨rfl, rfl, rfl, rfl⟩

theorem Turns.sameFrame {round : Round} (h : m.Turns round n) : m.SameFrame n := by
  cases h with
  | cancelled _ _ => exact sameFrame_leave m
  | signalled _ _ _ =>
    obtain ⟨hplaces, hsize, hclients, hcancelled⟩ :=
      sameFrame_leave (m.announce { kind := .shutdownRequested })
    exact ⟨hplaces, hsize, hclients, hcancelled⟩
  | forwarded _ hforward => exact (rewired_forward hforward).sameFrame
  | @processed input inputs _ _ _ =>
    obtain ⟨_, _, _, _, hprocess⟩ := process_frame { m with inputs } input
    rw [hprocess]
    exact ⟨rfl, rfl, rfl, rfl⟩
  | disconnected _ _ _ _ => exact sameFrame_leave m
  | finished _ _ => exact ⟨rfl, rfl, rfl, rfl⟩

theorem submit_eq_ok {input : Input} (h : m.submit input = .ok n) :
    m.phase ≠ .finished ∧ m.inputs.length < m.inputPlaces ∧
      n = { m with inputs := m.inputs ++ [input] } := by
  unfold submit at h
  split at h
  · cases h
  rename_i hphase
  split at h
  · cases h
  rename_i hfull
  cases h
  refine ⟨hphase, ?_, rfl⟩
  simpa [isFull] using hfull

theorem Unstopped.submit_of_room {input : Input} (hgoes : m.Unstopped)
    (hroom : m.inputs.length < m.inputPlaces) :
    m.submit input = .ok { m with inputs := m.inputs ++ [input] } := by
  have hfull : m.isFull = false := by simpa [isFull] using hroom
  rw [submit, if_neg (by simp [hgoes.running]), if_neg (by simp [hfull])]

/-- A turn takes the first input off the queue and processes it, or it takes none, unless it is the
last: that one loses what is queued. -/
theorem Turns.inputs {round : Round} (h : m.Turns round n) :
    (n.phase ≠ .finished ∧ m.inputs = processedInputs [.round round] ++ n.inputs) ∨
      (round = .finished ∧ n = m.finish) := by
  have hleave (k : Monitor) : k.leave.1.phase ≠ .finished ∧ k.inputs = k.leave.1.inputs := by
    rw [phase_leave, inputs_leave]
    exact ⟨nofun, rfl⟩
  cases h with
  | cancelled _ _ => exact .inl (hleave m)
  | signalled _ _ _ => exact .inl (hleave (m.announce { kind := .shutdownRequested }))
  | forwarded h hforward =>
    obtain ⟨hinputs, hphase, _⟩ := forward_lt hforward
    exact .inl ⟨by simp [hphase, h.running], hinputs.symm⟩
  | @processed input inputs h _ hinputs =>
    obtain ⟨hrest, hphase⟩ := process_inputs { m with inputs } input
    refine .inl ⟨?_, ?_⟩
    · rw [hphase, h.running]
      exact nofun
    · rw [hinputs, hrest]
      rfl
  | disconnected _ _ _ _ => exact .inl (hleave m)
  | finished _ _ => exact .inr ⟨rfl, rfl⟩

/-- Only what is processed in a turn changes the books. -/
theorem Turns.core {round : Round} (h : m.Turns round n) :
    n.core = (m.handleAll (processedInputs [.round round])).1.core := by
  cases h with
  | cancelled _ _ => exact core_leave m
  | signalled _ _ _ => exact core_leave (m.announce { kind := .shutdownRequested })
  | forwarded _ hforward => exact (rewired_forward hforward).core
  | @processed input inputs _ _ _ => exact core_process (m := { m with inputs }) (n := m) rfl input
  | disconnected _ _ _ _ => exact core_leave m
  | finished _ _ => rfl

/-- A monitor that is leaving goes on leaving, and processes nothing. -/
theorem Turns.leaves {round : Round} (h : m.Turns round n) (hm : m.phase ≠ .running) :
    n.phase ≠ .running ∧ processedInputs [.round round] = [] := by
  cases h with
  | cancelled hrunning _ => exact absurd hrunning hm
  | signalled hrunning _ _ => exact absurd hrunning hm
  | forwarded h _ => exact absurd h.running hm
  | processed h _ _ => exact absurd h.running hm
  | disconnected h _ _ _ => exact absurd h.running hm
  | finished _ _ => exact ⟨nofun, rfl⟩

/-- A monitor that was cancelled processes nothing more. -/
theorem Turns.of_cancelled {round : Round} (h : m.Turns round n) (hm : m.cancelled = true) :
    processedInputs [.round round] = [] := by
  cases h with
  | cancelled _ _ => rfl
  | signalled _ _ _ => rfl
  | forwarded _ _ => rfl
  | processed h _ _ => exact absurd (hm.symm.trans h.uncancelled) nofun
  | disconnected _ _ _ _ => rfl
  | finished _ _ => rfl

theorem Turns.unfinished {round : Round} (h : m.Turns round n) : m.phase ≠ .finished := by
  cases h with
  | cancelled hrunning _ => simp [hrunning]
  | signalled hrunning _ _ => simp [hrunning]
  | forwarded h _ => simp [h.running]
  | processed h _ _ => simp [h.running]
  | disconnected h _ _ _ => simp [h.running]
  | finished hleaving _ => simp [hleaving]

end Monitor

/-! ## Steps of a world -/

namespace World

variable {size : Nat} {w v : World} {happening : Happening}

/-- The clients are those that the monitor counts, every waiting call has its client, and all
sessions have buffers of one size. -/
structure Attended (size : Nat) (w : World) : Prop where
  counted : w.monitor.clients = w.clients.length
  held : ∀ r ∈ w.waiting, r.client ∈ w.clients
  buffers : w.monitor.sessionBufferSize = size
  sized : ∀ s, .session s ∈ w.clients → s.bufferSize = size

/-- What a step is for the monitor: nothing to its queue and its books, an accepted input or a
turn. -/
theorem Step.monitor (h : w.Step happening v) (hw : w.Attended size) :
    (happening.Aside ∧ w.monitor.Idles v.monitor) ∨
    (∃ r, happening = .accepted r ∧ r.client ∈ w.clients ∧
      w.monitor.submit r.input = .ok v.monitor) ∨
    ∃ round, happening = .round round ∧ w.monitor.Turns round v.monitor := by
  cases h with
  | accept hclient h => exact .inr (.inl ⟨_, rfl, hclient, h⟩)
  | refuse _ _ => exact .inl ⟨.refused, w.monitor.idles_refl⟩
  | wait _ _ => exact .inl ⟨.quiet, w.monitor.idles_refl⟩
  | enter hwaiting h => exact .inr (.inl ⟨_, rfl, hw.held _ (by simp [hwaiting]), h⟩)
  | dismiss _ _ => exact .inl ⟨.refused, w.monitor.idles_refl⟩
  | giveUp _ => exact .inl ⟨.quiet, w.monitor.idles_refl⟩
  | openSession _ _ => exact .inl ⟨.quiet, rfl, rfl, rfl, rfl, id⟩
  | clone _ => exact .inl ⟨.quiet, rfl, rfl, rfl, rfl, id⟩
  | drop _ _ => exact .inl ⟨.quiet, rfl, rfl, rfl, rfl, id⟩
  | stir h => exact .inl ⟨.quiet, h.idles⟩
  | turn _ h => exact .inr (.inr ⟨_, rfl, h⟩)

theorem Attended.held_of_waiting (hw : w.Attended size) {before after : List Request} {r : Request}
    (hwaiting : w.waiting = before ++ r :: after) : ∀ q ∈ before ++ after, q.client ∈ w.clients := by
  intro q hq
  refine hw.held q ?_
  rw [hwaiting, List.mem_append, List.mem_cons]
  rcases List.mem_append.mp hq with hq | hq
  · exact .inl hq
  · exact .inr (.inr hq)

/-- A monitor that counts one more client has one more. -/
theorem Attended.cons (hw : w.Attended size) {client : Client} {m : Monitor}
    (hcounted : m.clients = w.monitor.clients + 1)
    (hbuffers : m.sessionBufferSize = w.monitor.sessionBufferSize)
    (hsized : ∀ s, client = .session s → s.bufferSize = size) :
    Attended size { w with monitor := m, clients := client :: w.clients } := by
  refine ⟨?_, fun r hr => List.mem_cons_of_mem _ (hw.held r hr), hbuffers.trans hw.buffers, ?_⟩
  · rw [hcounted, hw.counted]
    rfl
  · intro s hs
    rcases List.mem_cons.mp hs with hs | hs
    · exact hsized s hs.symm
    · exact hw.sized s hs

theorem Attended.step (hw : w.Attended size) (h : w.Step happening v) : v.Attended size := by
  cases h with
  | accept _ h =>
    obtain ⟨_, _, rfl⟩ := Monitor.submit_eq_ok h
    exact ⟨hw.counted, hw.held, hw.buffers, hw.sized⟩
  | refuse _ _ => exact hw
  | wait hclient _ =>
    refine ⟨hw.counted, fun r hr => ?_, hw.buffers, hw.sized⟩
    rcases List.mem_append.mp hr with hr | hr
    · exact hw.held r hr
    · rw [List.mem_singleton.mp hr]
      exact hclient
  | enter hwaiting h =>
    obtain ⟨_, _, rfl⟩ := Monitor.submit_eq_ok h
    exact ⟨hw.counted, hw.held_of_waiting hwaiting, hw.buffers, hw.sized⟩
  | dismiss hwaiting _ =>
    exact ⟨hw.counted, hw.held_of_waiting hwaiting, hw.buffers, hw.sized⟩
  | giveUp hwaiting => exact ⟨hw.counted, hw.held_of_waiting hwaiting, hw.buffers, hw.sized⟩
  | openSession label _ =>
    refine hw.cons rfl rfl fun s hs => ?_
    cases hs
    exact hw.buffers
  | clone _ => exact hw.cons rfl rfl nofun
  | @drop before after client hclients hfree =>
    refine ⟨?_, hfree, hw.buffers, fun s hs => hw.sized s ?_⟩
    · show w.monitor.clients - 1 = _
      rw [hw.counted, hclients]
      simp
    · rw [hclients]
      rcases List.mem_append.mp hs with hs | hs
      · exact List.mem_append_left _ hs
      · exact List.mem_append_right _ (List.mem_cons_of_mem _ hs)
  | stir h =>
    obtain ⟨hclients, hsize⟩ := h.clients
    exact ⟨hclients.trans hw.counted, hw.held, hsize.trans hw.buffers, hw.sized⟩
  | turn _ h =>
    have hframe := h.sameFrame
    exact ⟨hframe.clients.trans hw.counted, hw.held, hframe.size.trans hw.buffers, hw.sized⟩

/-- What a call submits is its input cut to the size of the buffers. -/
theorem Attended.input_eq_cut (hw : w.Attended size) {r : Request} (hclient : r.client ∈ w.clients) :
    r.input = r.cut size := by
  cases r with
  | update text => rfl
  | report s bytes =>
    rw [Request.input, Request.cut, input_eq_firstBytes, hw.sized s hclient]

/-- Without clients there will be none. -/
theorem Step.clients_nil (h : w.Step happening v) (hw : w.clients = []) : v.clients = [] := by
  cases h with
  | openSession _ hhandle => simp [hw] at hhandle
  | clone hhandle => simp [hw] at hhandle
  | drop hclients _ => simp [hw] at hclients
  | _ => exact hw

/-- The queue balances: what was there and what comes in is what is processed and what is there
afterwards. -/
theorem Step.balance (h : w.Step happening v) (hw : w.Attended size)
    (hv : v.monitor.phase ≠ .finished) : w.monitor.phase ≠ .finished ∧
      w.monitor.inputs ++ acceptedInputs size [happening] =
        processedInputs [happening] ++ v.monitor.inputs := by
  rcases h.monitor hw with ⟨haside, hidles⟩ | ⟨r, rfl, hclient, hsubmit⟩ | ⟨round, rfl, hturn⟩
  · rw [haside.acceptedInputs, haside.processedInputs, hidles.inputs, ← hidles.phase]
    exact ⟨hv, List.append_nil _⟩
  · obtain ⟨hphase, _, hm⟩ := Monitor.submit_eq_ok hsubmit
    rw [hm, hw.input_eq_cut hclient]
    exact ⟨hphase, rfl⟩
  · refine ⟨hturn.unfinished, ?_⟩
    rcases hturn.inputs with ⟨_, hinputs⟩ | ⟨_, hm⟩
    · rw [hinputs]
      exact List.append_nil _
    · rw [hm] at hv
      exact absurd rfl hv

/-- Nothing comes in or is processed in the step that finishes, or after it. -/
theorem Step.finished (h : w.Step happening v) (hw : w.Attended size)
    (hv : v.monitor.phase = .finished) :
    acceptedInputs size [happening] = [] ∧ processedInputs [happening] = [] := by
  rcases h.monitor hw with ⟨haside, _⟩ | ⟨r, rfl, _, hsubmit⟩ | ⟨round, rfl, hturn⟩
  · exact ⟨haside.acceptedInputs size, haside.processedInputs⟩
  · obtain ⟨hphase, _, hm⟩ := Monitor.submit_eq_ok hsubmit
    rw [hm] at hv
    exact absurd hv hphase
  · rcases hturn.inputs with ⟨hphase, _⟩ | ⟨rfl, _⟩
    · exact absurd hv hphase
    · exact ⟨rfl, rfl⟩

theorem Step.core (h : w.Step happening v) (hw : w.Attended size) :
    v.monitor.core = (w.monitor.handleAll (processedInputs [happening])).1.core := by
  rcases h.monitor hw with ⟨haside, hidles⟩ | ⟨r, rfl, _, hsubmit⟩ | ⟨round, rfl, hturn⟩
  · rw [haside.processedInputs]
    exact hidles.core
  · obtain ⟨_, _, hm⟩ := Monitor.submit_eq_ok hsubmit
    rw [hm]
    rfl
  · exact hturn.core

/-- The queue never holds more than it has places. -/
theorem Step.room (h : w.Step happening v) (hw : w.Attended size)
    (hroom : w.monitor.inputs.length ≤ w.monitor.inputPlaces) :
    v.monitor.inputPlaces = w.monitor.inputPlaces ∧
      v.monitor.inputs.length ≤ w.monitor.inputPlaces := by
  rcases h.monitor hw with ⟨_, hidles⟩ | ⟨r, rfl, _, hsubmit⟩ | ⟨round, rfl, hturn⟩
  · rw [hidles.inputs]
    exact ⟨hidles.places, hroom⟩
  · obtain ⟨_, hplace, hm⟩ := Monitor.submit_eq_ok hsubmit
    rw [hm]
    refine ⟨rfl, ?_⟩
    rw [List.length_append]
    exact hplace
  · refine ⟨hturn.sameFrame.places, ?_⟩
    rcases hturn.inputs with ⟨_, hinputs⟩ | ⟨_, hm⟩
    · rw [hinputs, List.length_append] at hroom
      omega
    · rw [hm]
      exact Nat.zero_le _

/-- Without clients nothing comes in, and a monitor on its way out processes nothing. -/
theorem Step.deserted (h : w.Step happening v) (hw : w.Attended size) (hclients : w.clients = [])
    (hphase : w.monitor.phase ≠ .running) : v.monitor.phase ≠ .running ∧
      acceptedInputs size [happening] = [] ∧ processedInputs [happening] = [] := by
  rcases h.monitor hw with ⟨haside, hidles⟩ | ⟨r, rfl, hclient, _⟩ | ⟨round, rfl, hturn⟩
  · rw [hidles.phase]
    exact ⟨hphase, haside.acceptedInputs size, haside.processedInputs⟩
  · simp [hclients] at hclient
  · exact ⟨(hturn.leaves hphase).1, rfl, (hturn.leaves hphase).2⟩

/-- A monitor leaves for want of clients with an empty queue. -/
theorem Step.disconnected (h : w.Step (.round (.left .disconnected)) v) (hw : w.Attended size) :
    w.clients = [] ∧ w.monitor.phase = .running ∧ w.monitor.inputs = [] ∧
      v.monitor.phase ≠ .running := by
  cases h with
  | turn _ h =>
    cases h with
    | disconnected h _ hinputs hclients =>
      refine ⟨List.length_eq_zero_iff.mp (hw.counted.symm.trans hclients), h.running, hinputs, ?_⟩
      rw [Monitor.phase_leave]
      exact nofun

/-- A cancelled monitor stays cancelled and processes nothing. -/
theorem Step.cancelled (h : w.Step happening v) (hw : w.Attended size)
    (hcancelled : w.monitor.cancelled = true) :
    v.monitor.cancelled = true ∧ processedInputs [happening] = [] := by
  rcases h.monitor hw with ⟨haside, hidles⟩ | ⟨r, rfl, _, hsubmit⟩ | ⟨round, rfl, hturn⟩
  · exact ⟨hidles.cancelled hcancelled, haside.processedInputs⟩
  · obtain ⟨_, _, hm⟩ := Monitor.submit_eq_ok hsubmit
    rw [hm]
    exact ⟨hcancelled, rfl⟩
  · exact ⟨hturn.sameFrame.cancelled.trans hcancelled, hturn.of_cancelled hcancelled⟩

/-! ## Runs -/

/-- What holds of a world after a run that started with the monitor `m`. -/
structure Orderly (m : Monitor) (size : Nat) (trace : List Happening) (w : World) : Prop where
  attended : w.Attended size
  queued : w.monitor.phase ≠ .finished →
    processedInputs trace ++ w.monitor.inputs = acceptedInputs size trace
  before : processedInputs trace <+: acceptedInputs size trace
  core : w.monitor.core = (m.handleAll (processedInputs trace)).1.core
  places : w.monitor.inputPlaces = m.inputPlaces
  room : w.monitor.inputs.length ≤ w.monitor.inputPlaces
  deserted : .round (.left .disconnected) ∈ trace → w.clients = [] ∧
    w.monitor.phase ≠ .running ∧ processedInputs trace = acceptedInputs size trace

variable {m : Monitor} {trace : List Happening}

theorem Orderly.step (hw : w.Orderly m size trace) (h : w.Step happening v) :
    v.Orderly m size (trace ++ [happening]) := by
  have hattended := hw.attended
  obtain ⟨hplaces, hroom⟩ := h.room hattended hw.room
  have hqueued (hv : v.monitor.phase ≠ .finished) :
      processedInputs (trace ++ [happening]) ++ v.monitor.inputs =
        acceptedInputs size (trace ++ [happening]) := by
    obtain ⟨hphase, hbalance⟩ := h.balance hattended hv
    rw [processedInputs_append, acceptedInputs_append, List.append_assoc, ← hbalance,
      ← List.append_assoc, hw.queued hphase]
  refine ⟨hattended.step h, hqueued, ?_, ?_, hplaces.trans hw.places, hplaces ▸ hroom, ?_⟩
  · -- a monitor that has finished lost its queue, but it takes and processes nothing more
    by_cases hv : v.monitor.phase = .finished
    · obtain ⟨haccepted, hprocessed⟩ := h.finished hattended hv
      rw [processedInputs_append, acceptedInputs_append, haccepted, hprocessed, List.append_nil,
        List.append_nil]
      exact hw.before
    · rw [← hqueued hv]
      exact List.prefix_append _ _
  · rw [h.core hattended, processedInputs_append, Monitor.handleAll_append]
    exact Monitor.core_handleAll hw.core _
  · intro hleft
    rcases List.mem_append.mp hleft with hleft | hleft
    · obtain ⟨hclients, hphase, hall⟩ := hw.deserted hleft
      obtain ⟨hv, haccepted, hprocessed⟩ := h.deserted hattended hclients hphase
      refine ⟨h.clients_nil hclients, hv, ?_⟩
      rw [processedInputs_append, acceptedInputs_append, haccepted, hprocessed, hall]
    · -- the last client is gone and the queue is empty, so all that came in was processed
      obtain rfl := List.mem_singleton.mp hleft
      obtain ⟨hclients, hphase, hinputs, hv⟩ := h.disconnected hattended
      have hall := hw.queued (hphase ▸ nofun)
      rw [hinputs, List.append_nil] at hall
      refine ⟨h.clients_nil hclients, hv, ?_⟩
      rw [processedInputs_append, acceptedInputs_append, hall]
      rfl

/-- A monitor as it is built has an empty queue and one handle. -/
theorem build_eq_ok {settings : Settings} {subscribers : List Subscriber} {config : Option String}
    (h : (Monitor.build settings subscribers config).1 = .ok m) :
    m.inputs = [] ∧ m.inputPlaces = settings.inputPlaces ∧ m.clients = 1 ∧
      m.sessionBufferSize = settings.sessionBufferSize := by
  cases config with
  | none =>
    cases h
    exact ⟨rfl, rfl, rfl, rfl⟩
  | some text =>
    unfold Monitor.build at h
    dsimp only at h
    cases hresult : ((Supervisor.new settings).updateConfig text).1 with
    | error p =>
      rw [hresult] at h
      cases h
    | ok _ =>
      rw [hresult] at h
      cases h
      exact ⟨rfl, rfl, rfl, rfl⟩

theorem orderly_start {settings : Settings} {subscribers : List Subscriber} {config : Option String}
    (h : (Monitor.build settings subscribers config).1 = .ok m) :
    (start m).Orderly m settings.sessionBufferSize [] := by
  obtain ⟨hinputs, _, hclients, hsize⟩ := build_eq_ok h
  have hattended : (start m).Attended settings.sessionBufferSize := by
    refine ⟨hclients, nofun, hsize, fun s hs => ?_⟩
    cases List.mem_singleton.mp hs
  refine ⟨hattended, fun _ => hinputs, List.nil_prefix, rfl, rfl, ?_, nofun⟩
  show m.inputs.length ≤ m.inputPlaces
  rw [hinputs]
  exact Nat.zero_le _

theorem Run.orderly (h : w.Run trace v) {before : List Happening} (hw : w.Orderly m size before) :
    v.Orderly m size (before ++ trace) := by
  induction h with
  | start =>
    rw [List.append_nil]
    exact hw
  | step _ hstep ih =>
    rw [← List.append_assoc]
    exact ih.step hstep

theorem Run.cancelled (h : w.Run trace v) (hw : w.Attended size)
    (hcancelled : w.monitor.cancelled = true) :
    v.Attended size ∧ v.monitor.cancelled = true ∧ processedInputs trace = [] := by
  induction h with
  | start => exact ⟨hw, hcancelled, rfl⟩
  | step _ hstep ih =>
    obtain ⟨hattended, hbefore, hnone⟩ := ih
    obtain ⟨hafter, hprocessed⟩ := hstep.cancelled hattended hbefore
    refine ⟨hattended.step hstep, hafter, ?_⟩
    rw [processedInputs_append, hnone, hprocessed]
    rfl

theorem Step.refused {r : Request} {e : SubmitError} (h : w.Step (.refused r e) v) :
    v.monitor = w.monitor := by
  cases h <;> rfl

/-- Whatever clients, loop and workers do in turn, the inputs that are processed are the first of
those that the queue accepted, in the same order, and what remains of them is queued.  When the loop
ends for want of clients, all were processed; the books are those that processing them one after the
other makes.  A call that is refused changes nothing, the queue never holds more than its places,
and after a cancellation nothing more is processed. -/
theorem inputs_processed_in_order {settings : Settings} {subscribers : List Subscriber}
    {config : Option String} (hbuild : (Monitor.build settings subscribers config).1 = .ok m)
    (hrun : (start m).Run trace w) :
    processedInputs trace <+: acceptedInputs settings.sessionBufferSize trace ∧
    (w.monitor.phase ≠ .finished → processedInputs trace ++ w.monitor.inputs =
      acceptedInputs settings.sessionBufferSize trace) ∧
    w.monitor.inputs.length ≤ max 1 settings.inputCapacity ∧
    w.monitor.core = (m.handleAll (processedInputs trace)).1.core ∧
    (.round (.left .disconnected) ∈ trace →
      processedInputs trace = acceptedInputs settings.sessionBufferSize trace) ∧
    (∀ r e v, w.Step (.refused r e) v → v.monitor = w.monitor) ∧
    (w.monitor.cancelled = true → ∀ more v, w.Run more v → processedInputs more = []) := by
  have hw := hrun.orderly (orderly_start hbuild)
  have hroom := hw.room
  rw [hw.places, (build_eq_ok hbuild).2.1] at hroom
  exact ⟨hw.before, hw.queued, hroom, hw.core, fun hleft => (hw.deserted hleft).2.2,
    fun r e v h => h.refused, fun hcancelled more v h => (h.cancelled hw.attended hcancelled).2.2⟩

theorem Run.turn (h : w.Run trace v) {round : Round} {n : Monitor}
    (hturns : v.monitor.Turns round n) :
    w.Run (trace ++ [.round round]) { v with monitor := n } := by
  obtain ⟨_, hturn⟩ := Monitor.turn_iff_turns.mpr ⟨round, hturns⟩
  exact h.step (.turn hturn hturns)

/-! ## The way to the next input -/

/-- What the loop keeps while it goes on. -/
structure Continues (m n : Monitor) : Prop where
  unstopped : n.Unstopped
  frame : m.SameFrame n
  channels : n.fanOut.channels.length = m.fanOut.channels.length

variable {clients : List Client} {waiting : List Request}

/-- The loop forwards what is left on the bus. -/
theorem Run.drained (h : w.Run trace ⟨m, clients, waiting⟩) (hgoes : m.Unstopped) :
    ∃ more, processedInputs more = [] ∧
      w.Run (trace ++ more) ⟨m.drain.1, clients, waiting⟩ := by
  fun_induction Monitor.drain m generalizing trace with
  | case1 m _ => exact ⟨[], rfl, by rwa [List.append_nil]⟩
  | case2 m n output hforward k rest hrest ih =>
    have hnext := (Monitor.rewired_forward hforward).unstopped hgoes
    obtain ⟨more, hprocessed, hrun⟩ := ih (h.turn (.forwarded hgoes hforward)) hnext
    rw [hrest, List.append_assoc] at hrun
    exact ⟨.round .forwarded :: more, hprocessed, hrun⟩

/-- The loop comes to the next input in its queue, and goes on. -/
theorem Run.next {input : Input} {inputs : List Input} (h : w.Run trace ⟨m, clients, waiting⟩)
    (hgoes : m.Unstopped) (hinputs : m.inputs = input :: inputs) :
    ∃ more n, processedInputs more = [input] ∧
      w.Run (trace ++ more) ⟨n, clients, waiting⟩ ∧ Continues m n ∧ n.inputs = inputs := by
  obtain ⟨more, hprocessed, hrun⟩ := h.drained hgoes
  obtain ⟨_, _, hdrain⟩ := m.rewired_drain
  have hdrained := m.rewired_drain.unstopped hgoes
  have hqueue : m.drain.1.inputs = input :: inputs := by
    rw [hdrain]
    exact hinputs
  have hnext := hrun.turn (.processed hdrained m.forward_drain hqueue)
  rw [List.append_assoc] at hnext
  refine ⟨_, _, ?_, hnext, ?_, ?_⟩
  · rw [processedInputs_append, hprocessed]
    rfl
  · obtain ⟨_, _, _, _, hprocess⟩ := ({ m.drain.1 with inputs } : Monitor).process_frame input
    refine ⟨?_, ?_, ?_⟩
    · rw [hprocess]
      exact ⟨hdrained.running, hdrained.uncancelled, hdrained.unsignalled⟩
    · rw [hprocess, hdrain]
      exact ⟨rfl, rfl, rfl, rfl⟩
    · rw [Monitor.channels_process]
      exact m.length_channels_drain
  · exact (Monitor.process_inputs _ _).1

/-- An input that comes into an empty queue is the next one. -/
theorem Run.takes {r : Request} {rest : List Request} (h : w.Run trace ⟨m, clients, waiting⟩)
    (hgoes : m.Unstopped) (hempty : m.inputs = []) (hplaces : 0 < m.inputPlaces)
    (hstep : ∀ n, m.submit r.input = .ok n →
      Step ⟨m, clients, waiting⟩ (.accepted r) ⟨n, clients, rest⟩) :
    ∃ more n, processedInputs more = [r.input] ∧ w.Run (trace ++ more) ⟨n, clients, rest⟩ ∧
      Continues m n ∧ n.inputs = [] := by
  have hroom : m.inputs.length < m.inputPlaces := by
    rw [hempty]
    exact hplaces
  have hqueue : m.inputs ++ [r.input] = [r.input] := by rw [hempty, List.nil_append]
  have haccepted := h.step (hstep _ (hgoes.submit_of_room hroom))
  obtain ⟨more, n, hprocessed, hrun, ⟨hnext, hframe, hchannels⟩, hinputs⟩ :=
    haccepted.next ⟨hgoes.running, hgoes.uncancelled, hgoes.unsignalled⟩ hqueue
  rw [List.append_assoc] at hrun
  exact ⟨.accepted r :: more, n, hprocessed, hrun,
    ⟨hnext, ⟨hframe.places, hframe.size, hframe.clients, hframe.cancelled⟩, hchannels⟩, hinputs⟩

/-- Without clients, inputs and workers the loop comes to its end. -/
theorem Run.ends (h : w.Run trace ⟨m, clients, waiting⟩) (hgoes : m.Unstopped)
    (hinputs : m.inputs = []) (hclients : m.clients = 0) (hchannels : m.fanOut.channels = []) :
    ∃ more n, processedInputs more = [] ∧ .round (.left .disconnected) ∈ more ∧
      w.Run (trace ++ more) ⟨n, clients, waiting⟩ ∧ n.phase = .finished := by
  obtain ⟨more, hprocessed, hrun⟩ := h.drained hgoes
  obtain ⟨_, _, hdrain⟩ := m.rewired_drain
  have hleave : m.drain.1.Turns (.left .disconnected) m.drain.1.leave.1 := by
    refine .disconnected (m.rewired_drain.unstopped hgoes) m.forward_drain ?_ ?_
    · rw [hdrain]
      exact hinputs
    · rw [hdrain]
      exact hclients
  have hidle : m.drain.1.leave.1.fanOut.isIdle = true := by
    have hnone : m.drain.1.drain.1.fanOut.channels = [] := by
      rw [← List.length_eq_zero_iff, Monitor.length_channels_drain, Monitor.length_channels_drain,
        hchannels]
      rfl
    rw [FanOut.isIdle, Monitor.leave]
    simp only [hnone, List.all_nil]
  have hend := (hrun.turn hleave).turn (.finished m.drain.1.phase_leave hidle)
  simp only [List.append_assoc] at hend
  refine ⟨_, _, ?_, by simp, hend, rfl⟩
  rw [processedInputs_append, hprocessed]
  rfl

/-! Two sessions and the handle share a queue with one place.  The first report is longer than the
buffers; the second finds the queue full, is refused, and waits until the first was processed. -/

def narrowSettings : Settings := { sessionBufferSize := 8, inputCapacity := 1 }

def narrowMonitor : Monitor := (Monitor.build narrowSettings [] none).1.toOption.get rfl

def firstSession : Session := ⟨⟨["init", "first"]⟩, 8⟩

def secondSession : Session := ⟨⟨["init", "second"]⟩, 8⟩

def longReport : Request := .report firstSession "<state/> and more".toUTF8

def shortReport : Request := .report secondSession "<state>".toUTF8

def malformedUpdate : Request := .update "<"

/-- The inputs as they are processed. -/
def narrowInputs : List Input :=
  [.report ⟨["init", "first"]⟩ "<state/>".toUTF8, .report ⟨["init", "second"]⟩ "<state>".toUTF8,
    .config "<"]

def narrowClients : List Client := [.session secondSession, .session firstSession, .handle]

/-- The monitor with both sessions open and the first report in its queue. -/
def fullMonitor : Monitor :=
  { ((narrowMonitor.openSession firstSession.label).2.openSession secondSession.label).2 with
    inputs := [longReport.input] }

def arrivals : List Happening :=
  [.quiet, .quiet, .accepted longReport, .refused shortReport .full, .quiet]

theorem run_arrivals :
    (start narrowMonitor).Run arrivals ⟨fullMonitor, narrowClients, [shortReport]⟩ := by
  have hfirst :=
    Run.start.step (.openSession firstSession.label (w := start narrowMonitor) (by decide))
  have hsecond := hfirst.step (.openSession secondSession.label (by decide))
  have haccepted := hsecond.step (.accept (r := longReport) (by decide) rfl)
  have hrefused := haccepted.step (.refuse (r := shortReport) (by decide) (.queue rfl))
  exact hrefused.step (.wait (by decide) (.queue rfl))

theorem narrowMonitor_processes_in_order : ∃ trace w,
    (Monitor.build narrowSettings [] none).1 = .ok narrowMonitor ∧
    (start narrowMonitor).Run trace w ∧ w.monitor.phase = .finished ∧
    .refused shortReport .full ∈ trace ∧ processedInputs trace = narrowInputs ∧
    processedInputs trace = acceptedInputs 8 trace ∧
    w.monitor.core = (narrowMonitor.handleAll narrowInputs).1.core := by
  have hbuild : (Monitor.build narrowSettings [] none).1 = .ok narrowMonitor := rfl
  -- each input makes room for the next one
  obtain ⟨more₁, m₁, hfirst, hrun₁, hm₁, hempty₁⟩ := run_arrivals.next ⟨rfl, rfl, rfl⟩ rfl
  have hplaces₁ : 0 < m₁.inputPlaces := by
    rw [hm₁.frame.places]
    decide
  obtain ⟨more₂, m₂, hsecond, hrun₂, hm₂, hempty₂⟩ :=
    hrun₁.takes hm₁.unstopped hempty₁ hplaces₁ fun _ h =>
      .enter (List.nil_append [shortReport]).symm h
  have hplaces₂ : 0 < m₂.inputPlaces := by
    rw [hm₂.frame.places]
    exact hplaces₁
  have hhandle : malformedUpdate.client ∈ narrowClients := by decide
  obtain ⟨more₃, m₃, hthird, hrun₃, hm₃, hempty₃⟩ :=
    hrun₂.takes hm₂.unstopped hempty₂ hplaces₂ fun _ h =>
      .accept (r := malformedUpdate) hhandle h
  -- all clients leave, and so does the loop
  have hclosed := ((hrun₃.step (.drop (List.nil_append narrowClients).symm nofun)).step
      (.drop (List.nil_append narrowClients.tail).symm nofun)).step
        (.drop (List.nil_append [Client.handle]).symm nofun)
  have hclients : m₃.clients = 3 :=
    hm₃.frame.clients.trans (hm₂.frame.clients.trans hm₁.frame.clients)
  have hchannels : m₃.fanOut.channels.length = 0 :=
    hm₃.channels.trans (hm₂.channels.trans hm₁.channels)
  obtain ⟨more₄, m₄, hlast, hleft, hrun₄, hfinished⟩ :=
    hclosed.ends ⟨hm₃.unstopped.running, hm₃.unstopped.uncancelled, hm₃.unstopped.unsignalled⟩
      hempty₃ (congrArg (· - 1 - 1 - 1) hclients) (List.length_eq_zero_iff.mp hchannels)
  obtain ⟨-, -, -, hcore, hall, -, -⟩ := inputs_processed_in_order hbuild hrun₄
  have hprocessed : processedInputs (arrivals ++ more₁ ++ more₂ ++ more₃ ++ [.quiet] ++ [.quiet] ++
      [.quiet] ++ more₄) = narrowInputs := by
    simp only [processedInputs_append, hfirst, hsecond, hthird, hlast]
    rfl
  rw [hprocessed] at hcore
  exact ⟨_, _, hbuild, hrun₄, hfinished, by simp [arrivals], hprocessed,
    hall (by simp [hleft]), hcore⟩

end World

end Overseer
