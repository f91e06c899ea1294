import Overseer.Proofs.Transcript

/-!
Inputs one after another.  The loop hands an input over only in a turn of its own, in which it has
found nothing on the bus (`follow?_input`, `exists_handover`).  So the events of one input have all
been read before the next one is looked at, whatever clients and workers do in between
(`inputs_observed_in_turn`).
-/

namespace Overseer

/-! ## Turns -/

namespace Monitor

variable {m : Monitor}

theorem Turns.receive_eq_none {n : Monitor} {input : Input} (h : m.Turns (.processed input) n) :
    m.fanOut.bus.receive m.cursor = none := by
  cases h with
  | processed _ hforward _ => exact receive_of_forward_none hforward

end Monitor

namespace Site

open Monitor

variable {s t u v : Site} {order : Order} {orders : List Order} {move : Move}
  {moves before after : List Move} {input : Input} {pend : List Event}

theorem deed?_ne_of_mem (h : ∀ move ∈ moves, ∀ deed, move.cause ≠ .deed deed) (hmove : move ∈ moves)
    (deed : Deed) : move.deed? ≠ some deed := by
  unfold Move.deed?
  split
  · rename_i own hown
    exact absurd hown (h move hmove own)
  · exact nofun

/-- The loop hands an input over in a turn of its own, in which it has found nothing on the bus. -/
theorem turn?_input (hphase : s.monitor.phase ≠ .finished) (hs : s.Listened)
    (h : s.turn? = some (moves, t)) (hmove : move ∈ moves)
    (hinput : move.deed? = some (.input input)) :
    moves = [move] ∧ s.monitor.Turns (.processed input) t.monitor := by
  unfold turn? at h
  cases hturn : s.monitor.turn with
  | none =>
    rw [hturn] at h
    cases h
  | some next =>
    obtain ⟨m, output⟩ := next
    rw [hturn] at h
    dsimp only at h
    split at h
    · cases h
    cases h
    have hdrained (n : Monitor) (hn : n.fanOut.bus.receivers ≠ 0) (hmem : move ∈ n.drainMoves) :
        False :=
      deed?_ne_of_mem (drain_circuit hn s.busy).2.1 hmem _ hinput
    obtain ⟨round, hturns⟩ := turn_iff_turns.mp ⟨output, hturn⟩
    cases hturns with
    | cancelled hrunning hcancelled =>
      simp only [turnMoves, hrunning, hcancelled, if_true] at hmove
      exact (hdrained _ (hs hphase) hmove).elim
    | signalled hrunning huncancelled hsignalled =>
      simp only [turnMoves, hrunning, huncancelled, hsignalled, Bool.false_eq_true, if_false,
        if_true] at hmove
      rcases List.mem_cons.mp hmove with rfl | hmove
      · cases hinput
      · exact (hdrained _ ((s.monitor.fanOut.bus.frame_publish _).2 ▸ hs hphase) hmove).elim
    | forwarded hgoes hforward =>
      obtain ⟨own, hown, hdeed, _⟩ := forward_circuit hforward (hs hphase) s.busy
      rw [turnMoves_of_unstopped hgoes, hown] at hmove
      have hdeeds : ∀ move ∈ [own], ∀ deed, move.cause ≠ .deed deed :=
        List.forall_mem_singleton.mpr hdeed
      exact (deed?_ne_of_mem hdeeds hmove _ hinput).elim
    | @processed own inputs hgoes hforward hinputs =>
      have hmoves : s.monitor.turnMoves = [s.monitor.deedMove (.input own)] := by
        rw [turnMoves_of_unstopped hgoes, forwardMove?_none hforward, hinputs]
      rw [hmoves] at hmove
      obtain rfl := List.mem_singleton.mp hmove
      cases hinput
      exact ⟨hmoves, .processed hgoes hforward hinputs⟩
    | disconnected hgoes hforward hinputs hclients =>
      rw [turnMoves_of_unstopped hgoes, forwardMove?_none hforward, hinputs] at hmove
      cases hmove
    | finished hleaving hidle =>
      simp only [turnMoves, hleaving] at hmove
      obtain rfl := List.mem_singleton.mp hmove
      cases hinput

/-- No other order hands an input over. -/
theorem follow?_input (hs : s.Listened) (h : s.follow? order = some (moves, t))
    (hmove : move ∈ moves) (hinput : move.deed? = some (.input input)) :
    order = .turn ∧ moves = [move] ∧ s.monitor.Turns (.processed input) t.monitor := by
  unfold follow? at h
  split at h
  · cases h
  rename_i hphase
  have hother {own : Move} (hmoves : moves = [own]) (hown : own.deed? ≠ some (.input input)) :
      False := by
    rw [hmoves] at hmove
    obtain rfl := List.mem_singleton.mp hmove
    exact hown hinput
  cases order with
  | turn => exact ⟨rfl, turn?_input hphase hs h hmove hinput⟩
  | submit =>
    dsimp only at h
    split at h <;> cases h
    cases hmove
  | openSession label =>
    cases h
    exact (hother rfl nofun).elim
  | clone | close | cancel | signal =>
    cases h
    cases hmove
  | listen =>
    cases h
    exact (hother rfl nofun).elim
  | unlisten =>
    dsimp only at h
    split at h <;> cases h
    exact (hother rfl nofun).elim
  | take i =>
    dsimp only [take?] at h
    split at h
    · split at h <;> cases h
      exact (hother rfl nofun).elim
    · cases h
  | finish i outcome =>
    dsimp only [finish?] at h
    split at h <;> cases h
    exact (hother rfl nofun).elim

/-- A run up to the turn that hands an input over, and from there on. -/
structure Handover (s : Site) (orders : List Order) (before : List Move) (move : Move)
    (input : Input) (after : List Move) (u t v : Site) : Prop where
  run : ∃ earlier later, orders = earlier ++ .turn :: later ∧ s.run? earlier = some (before, t) ∧
    t.follow? .turn = some ([move], v) ∧ v.run? later = some (after, u)
  turns : t.monitor.Turns (.processed input) v.monitor
  deed : move.deed? = some (.input input)

theorem exists_handover (hs : s.Listened) (h : s.run? orders = some (before ++ move :: after, u))
    (hinput : move.deed? = some (.input input)) :
    ∃ t v, s.Handover orders before move input after u t v := by
  induction orders generalizing s before with
  | nil =>
    have hnil := congrArg Prod.fst (Option.some.inj h)
    exact absurd hnil.symm (List.append_ne_nil_of_right_ne_nil _ (List.cons_ne_nil _ _))
  | cons order orders ih =>
    rw [run?] at h
    cases hfirst : s.follow? order with
    | none =>
      rw [hfirst] at h
      cases h
    | some next =>
      obtain ⟨first, w⟩ := next
      rw [hfirst] at h
      obtain ⟨⟨rest, x⟩, hrest, heq⟩ := Option.map_eq_some_iff.mp h
      obtain ⟨hmoves, rfl⟩ := Prod.mk.inj heq
      have hlater {later : List Move} (hbefore : before = first ++ later)
          (hrest : w.run? orders = some (later ++ move :: after, x)) :
          ∃ t v, s.Handover (order :: orders) before move input after x t v := by
        obtain ⟨t, v, ⟨early, late, rfl, hearly, hturn, hlate⟩, hturns, _⟩ :=
          ih (follow?_moved hs hfirst).listened hrest
        refine ⟨t, v, ⟨order :: early, late, rfl, ?_, hturn, hlate⟩, hturns, hinput⟩
        rw [run?, hfirst, hbefore]
        exact Option.map_eq_some_iff.mpr ⟨_, hearly, rfl⟩
      -- the input is handed over by this order, or later
      rcases List.append_eq_append_iff.mp hmoves with ⟨later, hbefore, rfl⟩ | ⟨own, hown, hmore⟩
      · exact hlater hbefore hrest
      · cases own with
        | nil =>
          obtain rfl := hmore
          have hbefore : before = first ++ [] := by rw [hown, List.append_nil, List.append_nil]
          exact hlater hbefore hrest
        | cons move' own =>
          obtain ⟨rfl, rfl⟩ := List.cons.inj hmore
          have hmem : move ∈ first := hown ▸ List.mem_append_right _ (List.mem_cons_self ..)
          obtain ⟨rfl, rfl, hturns⟩ := follow?_input hs hfirst hmem hinput
          obtain ⟨rfl, hsame⟩ : before = [] ∧ own = [] := by
            have hlength := congrArg List.length hown
            simp only [List.length_append, List.length_cons, List.length_nil] at hlength
            exact ⟨List.length_eq_zero_iff.mp (by omega), List.length_eq_zero_iff.mp (by omega)⟩
          subst hsame
          exact ⟨s, w, ⟨[], orders, rfl, rfl, hfirst, hrest⟩, hturns, hinput⟩

/-! ## Observers -/

/-- Some moves read all that is logged up to the rest, and offer every subscriber just the events
that they read. -/
structure Observed (subscribers : Nat) (moves : List Move) (log rest : List Event) : Prop where
  accounted : Transcript (readings moves) log rest
  offered : ∀ i < subscribers, (acts i moves).filterMap Lane.Act.offered? =
    (readings moves).filterMap Received.event?

theorem observed_of_run (hs : s.Listened) (hsound : s.circuit.Sound)
    (hpend : s.circuit.Pending pend) (h : s.run? orders = some (moves, t)) :
    ∃ rest, t.circuit.Pending rest ∧
      Observed s.circuit.channels.length moves (pend ++ published moves) rest := by
  have hcircuit := (run?_moved hs h).circuit
  obtain ⟨rest, hrest, htranscript⟩ := hcircuit.transcript hsound hpend
  refine ⟨rest, hrest, htranscript, fun i hi => ?_⟩
  rw [event?_readings]
  exact hcircuit.offers hi

/-- Up to the turn that hands over an input, all that was published is read, and then what is
published with the input is all that is pending. -/
theorem Handover.observed (h : s.Handover orders before move input after u t v) (hs : s.Listened)
    (hsound : s.circuit.Sound) (hpend : s.circuit.Pending pend) :
    Observed s.circuit.channels.length before (pend ++ published before) [] ∧
      v.Listened ∧ v.circuit.Sound ∧ v.circuit.Pending move.published ∧
      v.circuit.channels.length = s.circuit.channels.length := by
  obtain ⟨⟨earlier, later, _, hbefore, hturn, _⟩, hturns, hdeed⟩ := h
  have hmoved := run?_moved hs hbefore
  have htsound := hmoved.circuit.sound hsound
  obtain ⟨hmissed, hunread⟩ := Bus.receive_eq_none hturns.receive_eq_none
  obtain ⟨rest, hrest, hobserved⟩ := observed_of_run hs hsound hpend hbefore
  obtain rfl : rest = [] := (Bus.Pending.eq_unread hrest htsound hmissed).trans hunread
  have hturned := follow?_moved hmoved.listened hturn
  obtain ⟨told, htold, hreads⟩ := hturned.circuit.transcript htsound hrest
  rw [readings_of_deed hdeed] at hreads
  obtain rfl := hreads.eq_of_nil
  have hpublished : [] ++ published [move] = move.published := List.append_nil _
  rw [hpublished] at htold
  exact ⟨hobserved, hturned.listened, hturned.circuit.sound htsound, htold,
    hturned.circuit.length_channels.trans hmoved.circuit.length_channels⟩

variable {settings : Settings} {subscribers : List Subscriber} {config : Option String}
  {m : Monitor}

/-- What is pending at the start is what was published while the monitor was built. -/
theorem pending_start (hbuild : (Monitor.build settings subscribers config).1 = .ok m) :
    (start m).circuit.Pending (buildEvents settings config) := by
  obtain ⟨hbus, hcursor⟩ := build_bus hbuild
  have hnew : (Bus.new settings.busPlaces).subscribe.1.Sound 0 :=
    ⟨Nat.zero_le _, Nat.zero_le _, Nat.zero_le _⟩
  have hempty : (Bus.new settings.busPlaces).subscribe.1.Pending 0 [] :=
    ⟨rfl, List.nil_suffix⟩
  show m.fanOut.bus.Pending m.cursor _
  rw [hbus, hcursor]
  exact hempty.publishAll hnew (Nat.succ_ne_zero 0) _

/-- In any run, whenever the loop hands over an input, it has nothing left to read: all that was
published before, by inputs, sessions, queues or workers, has been offered to every subscriber or
counted as lost, in the order of publication.  Of what is published from then on, all has been
observed again when a later input is handed over, beginning with the events of the input. -/
theorem inputs_observed_in_turn
    (hbuild : (Monitor.build settings subscribers config).1 = .ok m)
    (hrun : (start m).run? orders = some (before ++ move :: after, s))
    (hinput : move.deed? = some (.input input)) :
    let n := subscribers.length
    (∃ t v, (start m).Handover orders before move input after s t v ∧
      t.monitor.fanOut.bus.receive t.monitor.cursor = none) ∧
    Observed n before (buildEvents settings config ++ published before) [] ∧
    (∃ rest, Observed n after (move.published ++ published after) rest) ∧
    ∀ between move' later input', after = between ++ move' :: later →
      move'.deed? = some (.input input') →
        Observed n between (move.published ++ published between) [] := by
  intro n
  obtain ⟨hsound, hlistened, _, _⟩ := start_circuit hbuild
  have hchannels : (start m).circuit.channels.length = n := by
    show m.fanOut.channels.length = n
    rw [(build_same hbuild hbuild).1, List.length_map]
  obtain ⟨t, v, hhandover⟩ := exists_handover hlistened hrun hinput
  obtain ⟨hobserved, hvlistened, hvsound, hvpending, hvchannels⟩ :=
    hhandover.observed hlistened hsound (pending_start hbuild)
  rw [hchannels] at hobserved hvchannels
  have hlater := hhandover.run
  obtain ⟨_, _, _, _, _, hafter⟩ := hlater
  refine ⟨⟨t, v, hhandover, hhandover.turns.receive_eq_none⟩, hobserved, ?_, ?_⟩
  · obtain ⟨rest, _, hrest⟩ := observed_of_run hvlistened hvsound hvpending hafter
    exact ⟨rest, hvchannels ▸ hrest⟩
  · rintro between move' later input' rfl hinput'
    obtain ⟨_, _, hnext⟩ := exists_handover hvlistened hafter hinput'
    exact hvchannels ▸ (hnext.observed hvlistened hvsound hvpending).1

/-- A session and two reports.  The queue of `tight` is full from the first event on. -/
def reportedTwice : List Order :=
  [.openSession client, .submit heartbeats, .submit heartbeats, .turn, .turn, .turn, .turn, .turn,
    .turn, .turn]

/-- The notices of the full queue are read, too, before the second report is handed over. -/
theorem heartbeats_observed_in_turn : ∃ before move between move' s,
    (start (bare 16 [recorder, tight "tight"])).run? reportedTwice =
        some (before ++ move :: (between ++ [move']), s) ∧
      move.deed? = some (.input heartbeats) ∧ move'.deed? = some (.input heartbeats) ∧
      (published (before ++ move :: (between ++ [move']))).map Event.componentName =
        ["init -> a", "a", "b", "tight", "tight", "a", "b"] ∧
      Observed 2 before (published before) [] ∧
      Observed 2 between (move.published ++ published between) [] := by
  obtain ⟨moves, s, hrun, hdeeds, hpublished⟩ :=
    exists_run (start (bare 16 [recorder, tight "tight"])) reportedTwice
      (fun r => r.1.map Move.deed? = [some (.session client), none] ++
          some (.input heartbeats) :: ([none, none, none, none] ++ [some (.input heartbeats)]) ∧
        (published r.1).map Event.componentName =
          ["init -> a", "a", "b", "tight", "tight", "a", "b"]) (by decide +kernel)
  obtain ⟨before, rest, rfl, _, hrest⟩ := List.map_eq_append_iff.mp hdeeds
  obtain ⟨move, after, rfl, hmove, hafter⟩ := List.map_eq_cons_iff.mp hrest
  obtain ⟨between, last, rfl, _, hlast⟩ := List.map_eq_append_iff.mp hafter
  obtain ⟨move', rfl, hmove'⟩ := List.map_eq_singleton_iff.mp hlast
  have hbuild : (Monitor.build { busCapacity := 16 } [recorder, tight "tight"] none).1 =
      .ok (bare 16 [recorder, tight "tight"]) := rfl
  obtain ⟨_, hbefore, _, hbetween⟩ := inputs_observed_in_turn hbuild hrun hmove
  exact ⟨before, move, between, move', s, hrun, hmove, hmove', hpublished, hbefore,
    hbetween between move' [] heartbeats rfl hmove'⟩

end Site

end Overseer
