import Overseer.Proofs.BufferSizes
import Overseer.Proofs.Rejection
import Overseer.Schedule

/-!
The loop of a monitor, turn by turn.  `turn_iff_turns` lists what a turn can be and when.  Only
an input changes the books (`Monitor.Core`), and what it makes of them does not depend on the bus or
the subscribers (`core_process`).
-/

namespace Overseer

/-- Why a monitor left its loop. -/
inductive Exit where
  | cancelled
  | signalled
  | disconnected
  deriving DecidableEq, Repr

/-- What a monitor does in one turn. -/
inductive Round where
  | forwarded
  | processed (input : Input)
  | left (exit : Exit)
  | finished

namespace Monitor

variable {m n : Monitor} {output : List Output}

/-! ## Turns -/

/-- The monitor goes on with its loop: nobody has asked it to stop. -/
structure Unstopped (m : Monitor) : Prop where
  running : m.phase = .running
  uncancelled : m.cancelled = false
  unsignalled : m.signalled = false

/-- The turns of a monitor: when each can happen, and what it leaves. -/
inductive Turns (m : Monitor) : Round → Monitor → Prop where
  | cancelled (hrunning : m.phase = .running) (hcancelled : m.cancelled = true) :
      Turns m (.left .cancelled) m.leave.1
  | signalled (hrunning : m.phase = .running) (huncancelled : m.cancelled = false)
      (hsignalled : m.signalled = true) :
      Turns m (.left .signalled) (m.announce { kind := .shutdownRequested }).leave.1
  | forwarded {n : Monitor} {output : List Output} (h : m.Unstopped)
      (hforward : m.forward = some (n, output)) : Turns m .forwarded n
  | processed {input : Input} {inputs : List Input} (h : m.Unstopped) (hforward : m.forward = none)
      (hinputs : m.inputs = input :: inputs) :
      Turns m (.processed input) ({ m with inputs }.process input).1
  | disconnected (h : m.Unstopped) (hforward : m.forward = none) (hinputs : m.inputs = [])
      (hclients : m.clients = 0) : Turns m (.left .disconnected) m.leave.1
  | finished (hleaving : m.phase = .leaving) (hidle : m.fanOut.isIdle = true) :
      Turns m .finished m.finish

theorem Unstopped.turn_eq (h : m.Unstopped) : m.turn =
    match m.forward with
    | some next => some next
    | none =>
      match m.inputs with
      | input :: inputs => some ({ m with inputs }.process input)
      | [] => if m.clients = 0 then some m.leave else none := by
  unfold turn
  split
  · exact (if_neg (by simp [h.uncancelled])).trans (if_neg (by simp [h.unsignalled]))
  · rename_i hphase
    cases h.running.symm.trans hphase
  · rename_i hphase
    cases h.running.symm.trans hphase

theorem turn_leaving (h : m.phase = .leaving) :
    m.turn = if m.fanOut.isIdle then some (m.finish, []) else none := by
  unfold turn
  split <;> rename_i hphase <;> cases h.symm.trans hphase
  rfl

theorem turn_finished (h : m.phase = .finished) : m.turn = none := by
  unfold turn
  split <;> rename_i hphase <;> cases h.symm.trans hphase
  rfl

theorem turn_cancelled (h : m.phase = .running) (hcancelled : m.cancelled = true) :
    m.turn = some m.leave := by
  unfold turn
  split <;> rename_i hphase <;> cases h.symm.trans hphase
  rw [if_pos hcancelled]

theorem turn_signalled (h : m.phase = .running) (huncancelled : m.cancelled = false)
    (hsignalled : m.signalled = true) :
    ∃ output, m.turn = some ((m.announce { kind := .shutdownRequested }).leave.1, output) := by
  unfold turn
  split <;> rename_i hphase <;> cases h.symm.trans hphase
  rw [if_neg (by simp [huncancelled]), if_pos hsignalled]
  exact ⟨_, rfl⟩

theorem eq_of_some {o : Monitor × List Output} (h : some o = some (n, output)) : o.1 = n :=
  congrArg Prod.fst (Option.some.inj h)

theorem Unstopped.turns (hgoes : m.Unstopped) (h : m.turn = some (n, output)) :
    ∃ round, m.Turns round n := by
  rw [hgoes.turn_eq] at h
  cases hforward : m.forward with
  | some next =>
    rw [hforward] at h
    cases h
    exact ⟨_, .forwarded hgoes hforward⟩
  | none =>
    cases hinputs : m.inputs with
    | cons input inputs =>
      simp only [hforward, hinputs] at h
      obtain rfl := eq_of_some h
      exact ⟨_, .processed hgoes hforward hinputs⟩
    | nil =>
      by_cases hclients : m.clients = 0
      · simp only [hforward, hinputs, if_pos hclients] at h
        obtain rfl := eq_of_some h
        exact ⟨_, .disconnected hgoes hforward hinputs hclients⟩
      · simp only [hforward, hinputs, if_neg hclients] at h
        cases h

/-- The turns of a monitor are these. -/
theorem turn_iff_turns : (∃ output, m.turn = some (n, output)) ↔ ∃ round, m.Turns round n := by
  constructor
  · rintro ⟨output, h⟩
    cases hphase : m.phase with
    | running =>
      cases hcancelled : m.cancelled with
      | true =>
        rw [turn_cancelled hphase hcancelled] at h
        obtain rfl := eq_of_some h
        exact ⟨_, .cancelled hphase hcancelled⟩
      | false =>
        cases hsignalled : m.signalled with
        | true =>
          obtain ⟨_, hturn⟩ := turn_signalled hphase hcancelled hsignalled
          rw [hturn] at h
          obtain rfl := eq_of_some h
          exact ⟨_, .signalled hphase hcancelled hsignalled⟩
        | false => exact Unstopped.turns ⟨hphase, hcancelled, hsignalled⟩ h
    | leaving =>
      rw [turn_leaving hphase] at h
      by_cases hidle : m.fanOut.isIdle = true
      · rw [if_pos hidle] at h
        obtain rfl := eq_of_some h
        exact ⟨_, .finished hphase hidle⟩
      · rw [if_neg hidle] at h
        cases h
    | finished =>
      rw [turn_finished hphase] at h
      cases h
  · rintro ⟨round, h⟩
    cases h with
    | cancelled hrunning hcancelled => exact ⟨_, turn_cancelled hrunning hcancelled⟩
    | signalled hrunning huncancelled hsignalled =>
      exact turn_signalled hrunning huncancelled hsignalled
    | forwarded h hforward => exact ⟨_, by rw [h.turn_eq, hforward]⟩
    | @processed input inputs h hforward hinputs =>
      refine ⟨({ m with inputs }.process input).2, ?_⟩
      simp only [h.turn_eq, hforward, hinputs]
    | disconnected h hforward hinputs hclients =>
      refine ⟨m.leave.2, ?_⟩
      simp only [h.turn_eq, hforward, hinputs, if_pos hclients]
    | finished hleaving hidle => exact ⟨[], by rw [turn_leaving hleaving, if_pos hidle]⟩

/-! ## Forwarding -/

/-- Only what has to do with events changes. -/
def Rewired (m n : Monitor) : Prop := ∃ fanOut cursor, n = { m with fanOut, cursor }

theorem rewired_refl (m : Monitor) : m.Rewired m := ⟨m.fanOut, m.cursor, rfl⟩

theorem Rewired.trans {k : Monitor} (h : m.Rewired n) (hn : n.Rewired k) : m.Rewired k := by
  obtain ⟨_, _, rfl⟩ := h
  obtain ⟨_, _, rfl⟩ := hn
  exact ⟨_, _, rfl⟩

/-- What forwarding reads, and what it makes of the monitor. -/
theorem forward_cases (h : m.forward = some (n, output)) :
    (∃ e cursor, m.fanOut.bus.receive m.cursor = some (.event e, cursor) ∧
      n = { m with cursor, fanOut := (m.fanOut.emit e).1 }) ∨
    ∃ missed cursor, m.fanOut.bus.receive m.cursor = some (.lagged missed, cursor) ∧
      n = { m with cursor } := by
  unfold forward at h
  split at h
  · cases h
  · rename_i missed cursor hread
    cases h
    exact .inr ⟨missed, cursor, hread, rfl⟩
  · rename_i e cursor hread
    cases h
    exact .inl ⟨e, cursor, hread, rfl⟩

theorem rewired_forward (h : m.forward = some (n, output)) : m.Rewired n := by
  obtain ⟨e, cursor, _, rfl⟩ | ⟨missed, cursor, _, rfl⟩ := forward_cases h
  · exact ⟨_, _, rfl⟩
  · exact ⟨_, _, rfl⟩

theorem rewired_drain (m : Monitor) : m.Rewired m.drain.1 := by
  fun_induction drain m with
  | case1 m _ => exact rewired_refl m
  | case2 m n output hforward k rest hrest ih =>
    rw [hrest] at ih
    exact (rewired_forward hforward).trans ih

theorem drain_eq_self (h : m.forward = none) : m.drain = (m, []) := by
  rw [drain]
  split
  · rfl
  · rename_i heq
    cases h.symm.trans heq

theorem drain_of_forward {n : Monitor} {output : List Output} (h : m.forward = some (n, output)) :
    m.drain.1 = n.drain.1 := by
  rw [drain]
  split
  · rename_i hnone
    cases h.symm.trans hnone
  · rename_i hsome
    cases h.symm.trans hsome
    rfl

/-- Draining ends when nothing is left to forward. -/
theorem forward_drain (m : Monitor) : m.drain.1.forward = none := by
  fun_induction drain m with
  | case1 m hforward => exact hforward
  | case2 m n output hforward k rest hrest ih => rwa [hrest] at ih

theorem length_channels_drain (m : Monitor) :
    m.drain.1.fanOut.channels.length = m.fanOut.channels.length := by
  fun_induction drain m with
  | case1 m _ => rfl
  | case2 m n output hforward k rest hrest ih =>
    rw [hrest] at ih
    refine ih.trans ?_
    obtain ⟨e, cursor, _, rfl⟩ | ⟨missed, cursor, _, rfl⟩ := forward_cases hforward
    · exact length_offerAll e m.fanOut.channels
    · rfl

/-- Leaving the loop changes the phase and what has to do with events. -/
theorem rewired_leave (m : Monitor) : ({ m with phase := .leaving } : Monitor).Rewired m.leave.1 := by
  obtain ⟨fanOut, cursor, hdrain⟩ := rewired_drain m
  refine ⟨fanOut, cursor, ?_⟩
  rw [leave]
  simp only [hdrain]

theorem inputs_leave (m : Monitor) : m.leave.1.inputs = m.inputs := by
  obtain ⟨_, _, hleave⟩ := rewired_leave m
  rw [hleave]

theorem phase_leave (m : Monitor) : m.leave.1.phase = .leaving := by
  obtain ⟨_, _, hleave⟩ := rewired_leave m
  rw [hleave]

/-! ## Books -/

/-- What inputs act on. -/
structure Core where
  supervisor : Supervisor
  freeResources : Reporter
  store : ReportStore

def core (m : Monitor) : Core := ⟨m.supervisor, m.freeResources, m.store⟩

theorem Rewired.core (h : m.Rewired n) : n.core = m.core := by
  obtain ⟨_, _, rfl⟩ := h
  rfl

theorem core_leave (m : Monitor) : m.leave.1.core = m.core :=
  (rewired_leave m).core

/-- Handling an input changes the books, and monitors with the same books alike. -/
theorem handle_same (h : m.core = n.core) (input : Input) : ∃ supervisor freeResources effects,
    m.handle input = ({ m with supervisor, freeResources }, effects) ∧
      n.handle input = ({ n with supervisor, freeResources }, effects) := by
  obtain ⟨hsupervisor, hfree, _⟩ := Core.mk.inj h
  cases input with
  | config text =>
    have heffects : (m.handleConfig text).2 = (n.handleConfig text).2 := by
      simp only [handleConfig, hsupervisor]
    refine ⟨(m.supervisor.updateConfig text).2.1, m.freeResources, (m.handleConfig text).2, rfl, ?_⟩
    rw [heffects, hsupervisor, hfree]
    rfl
  | report label bytes =>
    have hhandle (k : Monitor) : k.handle (.report label bytes) = k.handleReport label bytes := rfl
    simp only [hhandle, handleReport]
    cases String.fromUTF8? bytes with
    | none =>
      refine ⟨m.supervisor, m.freeResources, _, rfl, ?_⟩
      rw [hsupervisor, hfree]
    | some padded =>
      dsimp only
      cases Markup.Element.parse (dropPadding padded) with
      | error e =>
        refine ⟨m.supervisor, m.freeResources, _, rfl, ?_⟩
        rw [hsupervisor, hfree]
      | ok state =>
        let text := dropPadding padded
        have heffects : (m.handleState label text state).2 = (n.handleState label text state).2 := by
          simp only [handleState, hsupervisor, hfree]
        refine ⟨(m.supervisor.handleReport state label).1,
          (FreeResources.report m.freeResources state label).2.1,
          (m.handleState label text state).2, rfl, ?_⟩
        rw [heffects, hsupervisor, hfree]
        rfl

/-- An input does the same to the books of monitors that differ elsewhere. -/
theorem core_process (h : m.core = n.core) (input : Input) :
    (m.process input).1.core = (n.process input).1.core := by
  obtain ⟨supervisor, freeResources, effects, hm, hn⟩ := handle_same h input
  obtain ⟨_, _, hstore⟩ := Core.mk.inj h
  simp only [process, hm, hn, perform, core, hstore]

/-- What an input leaves alone. -/
theorem process_frame (m : Monitor) (input : Input) : ∃ supervisor freeResources store fanOut,
    (m.process input).1 = { m with supervisor, freeResources, store, fanOut } := by
  obtain ⟨supervisor, freeResources, effects, hm, _⟩ := handle_same (Eq.refl m.core) input
  refine ⟨supervisor, freeResources, effects.foldl ReportStore.apply m.store,
    m.fanOut.publishAll effects, ?_⟩
  rw [process, hm]
  rfl

/-- An input only publishes; no queue is touched. -/
theorem channels_process (m : Monitor) (input : Input) :
    (m.process input).1.fanOut.channels = m.fanOut.channels := by
  obtain ⟨_, _, _, hm, _⟩ := handle_same (Eq.refl m.core) input
  rw [process, hm]
  rfl

theorem handleAll_append (m : Monitor) (inputs more : List Input) :
    (m.handleAll (inputs ++ more)).1 = ((m.handleAll inputs).1.handleAll more).1 := by
  induction inputs generalizing m with
  | nil => rfl
  | cons input inputs ih => exact ih (m.process input).1

theorem core_handleAll (h : m.core = n.core) (inputs : List Input) :
    (m.handleAll inputs).1.core = (n.handleAll inputs).1.core := by
  induction inputs generalizing m n with
  | nil => exact h
  | cons input inputs ih => exact ih (core_process h input)

end Monitor

end Overseer
