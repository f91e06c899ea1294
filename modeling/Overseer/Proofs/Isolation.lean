import Overseer.Proofs.Storms

/-!
Subscribers side by side.  Seen from one of them, a run of a circuit is a run of its lane, which is
offered what the loop forwards (`Circuit.Run.lane`, `Circuit.Run.offers`).  Events leave the ring in
the order in which they came, for the subscribers or because they are pushed out
(`Circuit.Run.departures`).  So the company of a subscriber whose queue always has room has a say in
what it hears of the monitor only through the events that are pushed out of the ring (`isolated`).
There it has one: what is told of others takes places in the ring (`company_pushes_out`).
-/

namespace Overseer

/-- The events that do not tell what became of others. -/
def firsthand (es : List Event) : List Event := es.filter (!·.isNotice)

namespace Move

/-- What a move means to the subscriber with number `i`. -/
def act? (i : Nat) (move : Move) : Option Lane.Act :=
  match move.cause with
  | .forwarded e answers => answers[i]?.map (.offer e)
  | .taken j e => if j = i then some (.take e) else none
  | .finished j e outcome => if j = i then some (.finish e outcome) else none
  | _ => none

/-- The event that the loop offers to the subscribers. -/
def forwarded? (move : Move) : Option Event :=
  match move.cause with
  | .forwarded e _ => some e
  | _ => none

/-- The events that leave the ring, and whether the loop forwards them. -/
def departures (move : Move) : List (Event × Bool) :=
  move.forwarded?.toList.map (·, true) ++ move.displaced.map (·, false)

end Move

/-- What some moves mean to the subscriber with number `i`. -/
def acts (i : Nat) (moves : List Move) : List Lane.Act := moves.filterMap (Move.act? i)

/-- The events that the subscriber with number `i` gets. -/
def received (i : Nat) (moves : List Move) : List Event := (acts i moves).filterMap Lane.Act.taken?

def departures (moves : List Move) : List (Event × Bool) := moves.flatMap Move.departures

/-- The firsthand events that leave the ring, and whether the loop forwards them. -/
def passage (moves : List Move) : List (Event × Bool) := (departures moves).filter (!·.1.isNotice)

theorem forwarded_departures (moves : List Move) :
    ((departures moves).filter Prod.snd).map Prod.fst = moves.filterMap Move.forwarded? := by
  induction moves with
  | nil => rfl
  | cons move moves ih =>
    have hforwarded : (move.departures.filter Prod.snd).map Prod.fst = move.forwarded?.toList := by
      cases hmove : move.forwarded? <;> simp [Move.departures, hmove, List.filter_map]
    rw [departures, List.flatMap_cons, List.filter_append, List.map_append, hforwarded,
      filterMap_cons_toList, ← ih]
    rfl

/-- If nothing is refused, all that is offered is accepted. -/
theorem Lane.accepted_of_unrefused {acts : List Lane.Act}
    (h : ∀ e r, Lane.Act.offer e (some r) ∉ acts) :
    acts.filterMap Lane.Act.accepted? = acts.filterMap Lane.Act.offered? := by
  refine List.filterMap_congr fun act hact => ?_
  match act with
  | .offer e none => rfl
  | .offer e (some r) => exact absurd hact (h e r)
  | .take e => rfl
  | .finish e outcome => rfl

/-! ## Circuits -/

theorem Bus.displaced_eq_nil {b : Bus} {cursor : Nat} {es : List Event}
    (hroom : (b.unread cursor).length + es.length ≤ b.capacity) : b.displaced cursor es = [] := by
  rw [displaced, Nat.sub_eq_zero_of_le hroom, List.take_zero]

theorem getElem?_offerAll (e : Event) (cs : List Channel) (i : Nat) :
    (offerAll e cs).1[i]? = cs[i]?.map fun c => (c.offer e).1 := by
  induction cs generalizing i with
  | nil => rfl
  | cons c cs ih =>
    cases i with
    | zero => rfl
    | succ i => exact ih i

namespace Circuit

variable {c d : Circuit} {move : Move} {moves : List Move} {i : Nat} {l : Lane}

/-- A queue with its worker. -/
structure Seats (c : Circuit) (i : Nat) (l : Lane) : Prop where
  channel : c.channels[i]? = some l.channel
  busy : c.busy[i]? = some l.busy

/-- A move is a step of a lane, or leaves it as it is. -/
theorem Step.lane (h : c.Step move d) (hl : c.Seats i l) :
    ∃ m, d.Seats i m ∧
      match move.act? i with
      | some act => l.Step act m
      | none => m = l := by
  cases h with
  | deed deed es hlistened => exact ⟨l, ⟨hl.channel, hl.busy⟩, rfl⟩
  | @forwarded e cursor hlistened hread =>
    have hanswer : (answers e c.channels)[i]? = some (l.channel.offer e).2 := by
      rw [answers, List.getElem?_map, hl.channel]
      rfl
    refine ⟨{ l with channel := (l.channel.offer e).1 }, ⟨?_, hl.busy⟩, ?_⟩
    · show (offerAll e c.channels).1[i]? = _
      rw [getElem?_offerAll, hl.channel]
      rfl
    · have hact : (answers e c.channels)[i]?.map (.offer e) =
          some (Lane.Act.offer e (l.channel.offer e).2) := congrArg (Option.map _) hanswer
      simp only [Move.act?, hact]
      exact .offer e
  | lagged hread => exact ⟨l, ⟨hl.channel, hl.busy⟩, rfl⟩
  | @taken j channel rest e hchannel hwork hfree =>
    by_cases hj : j = i
    · subst hj
      cases hl.channel.symm.trans hchannel
      have hidle : l.busy = none := Option.some.inj (hl.busy.symm.trans hfree)
      have hchannels := (List.getElem?_eq_some_iff.mp hl.channel).1
      have hworkers := (List.getElem?_eq_some_iff.mp hl.busy).1
      refine ⟨⟨rest, some e⟩, ⟨by simp [hchannels], by simp [hworkers]⟩, ?_⟩
      simp only [Move.act?, if_true]
      exact .take hidle hwork
    · refine ⟨l, ⟨?_, ?_⟩, ?_⟩
      · exact (List.getElem?_set_ne hj).trans hl.channel
      · exact (List.getElem?_set_ne hj).trans hl.busy
      · simp only [Move.act?, if_neg hj]
  | @finished j channel e hlistened hchannel hbusy outcome =>
    by_cases hj : j = i
    · subst hj
      have hworking : l.busy = some e := Option.some.inj (hl.busy.symm.trans hbusy)
      have hworkers := (List.getElem?_eq_some_iff.mp hl.busy).1
      refine ⟨{ l with busy := none }, ⟨hl.channel, ?_⟩, ?_⟩
      · show (c.busy.set j none)[j]? = _
        simp [hworkers]
      · simp only [Move.act?, if_true]
        exact .finish hworking outcome
    · refine ⟨l, ⟨hl.channel, (List.getElem?_set_ne hj).trans hl.busy⟩, ?_⟩
      simp only [Move.act?, if_neg hj]
  | quiet receivers => exact ⟨l, ⟨hl.channel, hl.busy⟩, rfl⟩

theorem Run.lane (h : c.Run moves d) (hl : c.Seats i l) :
    ∃ m, d.Seats i m ∧ l.Run (acts i moves) m := by
  induction h generalizing l with
  | nil c => exact ⟨l, hl, .nil l⟩
  | @cons c d k move moves hstep _ ih =>
    obtain ⟨m, hm, hact⟩ := hstep.lane hl
    obtain ⟨n, hn, hrun⟩ := ih hm
    refine ⟨n, hn, ?_⟩
    cases hmove : move.act? i with
    | some act =>
      rw [hmove] at hact
      rw [acts, List.filterMap_cons_some hmove]
      exact .cons hact hrun
    | none =>
      rw [hmove] at hact
      rw [acts, List.filterMap_cons_none hmove, ← hact]
      exact hrun

theorem Step.offers (h : c.Step move d) (hi : i < c.channels.length) :
    (move.act? i).bind Lane.Act.offered? = move.forwarded? := by
  cases h with
  | deed deed es hlistened => rfl
  | @forwarded e cursor hlistened hread =>
    have hanswer : (answers e c.channels)[i]? = some (c.channels[i].offer e).2 := by
      rw [answers, List.getElem?_map, List.getElem?_eq_getElem hi]
      rfl
    simp only [Move.act?, hanswer]
    rfl
  | lagged hread => rfl
  | @taken j channel rest e hchannel hwork hfree =>
    by_cases hj : j = i <;> simp [Move.act?, Move.forwarded?, hj, Lane.Act.offered?]
  | @finished j channel e hlistened hchannel hbusy outcome =>
    by_cases hj : j = i <;> simp [Move.act?, Move.forwarded?, hj, Lane.Act.offered?]
  | quiet receivers => rfl

/-- A lane is offered what the loop forwards. -/
theorem Run.offers (h : c.Run moves d) (hi : i < c.channels.length) :
    (acts i moves).filterMap Lane.Act.offered? = moves.filterMap Move.forwarded? := by
  induction h with
  | nil c => rfl
  | cons hstep _ ih =>
    have hrest := ih (hstep.length_channels.symm ▸ hi)
    rw [acts, List.filterMap_filterMap] at hrest ⊢
    rw [filterMap_cons_toList, filterMap_cons_toList, hrest, hstep.offers hi]

/-- The ring loses no event unseen, and keeps the order. -/
theorem Step.departures (h : c.Step move d) (hc : c.Sound) :
    move.departures.map Prod.fst ++ d.waiting =
      c.waiting ++ move.published.rtake c.bus.capacity := by
  have hpushed (es : List Event) : (es.map (·, false)).map Prod.fst = es := by
    rw [List.map_map]
    exact List.map_id es
  have hnothing {es : List Event} : es = es ++ [].rtake c.bus.capacity := by
    rw [List.rtake_nil, List.append_nil]
  cases h with
  | deed deed es hlistened =>
    show ((c.bus.displaced c.cursor es).map (·, false)).map Prod.fst ++ _ = _
    rw [hpushed]
    exact waiting_publish hc hlistened es
  | @forwarded e cursor hlistened hread =>
    let read : Circuit := { c with cursor, channels := (offerAll e c.channels).1 }
    have hread' : c.waiting = e :: read.waiting := (Bus.receive_event hread).2
    have hsound : read.Sound := Bus.Sound.receive hc hread
    have hrest := waiting_publish hsound hlistened (notices e c.channels)
    show e :: ((c.bus.displaced cursor (notices e c.channels)).map (·, false)).map Prod.fst ++ _ = _
    rw [hpushed, hread']
    exact congrArg (e :: ·) hrest
  | @lagged missed cursor hread =>
    have hsame : ({ c with cursor } : Circuit).waiting = c.waiting :=
      (Bus.receive_lagged hread).2.2.2
    exact hsame.trans hnothing
  | taken hchannel hwork hfree => exact hnothing
  | @finished j channel e hlistened hchannel hbusy outcome =>
    let told := channel.outcomeEvents outcome
    show ((c.bus.displaced c.cursor told).map (·, false)).map Prod.fst ++ _ = _
    rw [hpushed]
    exact waiting_publish hc hlistened told
  | quiet receivers => exact hnothing

theorem Step.displaced_eq_nil (h : c.Step move d)
    (hroom : c.waiting.length + move.published.length ≤ c.bus.capacity) : move.displaced = [] := by
  cases h with
  | deed deed es hlistened => exact Bus.displaced_eq_nil hroom
  | @forwarded e cursor hlistened hread =>
    have hlength : c.waiting.length = (c.bus.unread cursor).length + 1 :=
      congrArg List.length (Bus.receive_event hread).2
    have hnotices : c.waiting.length + (notices e c.channels).length ≤ c.bus.capacity := hroom
    exact Bus.displaced_eq_nil (by omega)
  | lagged hread => rfl
  | taken hchannel hwork hfree => rfl
  | finished hlistened hchannel hbusy outcome => exact Bus.displaced_eq_nil hroom
  | quiet receivers => rfl

/-- What has left the ring or waits in it is what has come into it, in that order. -/
theorem Run.departures (h : c.Run moves d) (hc : c.Sound) :
    (Overseer.departures moves).map Prod.fst ++ d.waiting =
      c.waiting ++ moves.flatMap fun move => move.published.rtake c.bus.capacity := by
  induction h with
  | nil c => exact (List.append_nil _).symm
  | @cons c d k move moves hstep _ ih =>
    have hrest := ih (hstep.sound hc)
    rw [hstep.capacity] at hrest
    rw [Overseer.departures, List.flatMap_cons, List.map_append, List.append_assoc]
    show move.departures.map Prod.fst ++ ((Overseer.departures moves).map Prod.fst ++ k.waiting) = _
    rw [hrest, ← List.append_assoc, hstep.departures hc, List.append_assoc]
    rfl

/-- Only deeds tell of firsthand events. -/
theorem Step.firsthand (h : c.Step move d) (htold : ∀ e ∈ (told [move]).flatten, e.isNotice = false)
    (n : Nat) : firsthand (move.published.rtake n) = (told [move]).flatMap (·.rtake n) := by
  have hnotices {es : List Event} (hes : ∀ e ∈ es, e.isNotice = true) :
      Overseer.firsthand (es.rtake n) = [] := by
    refine List.filter_eq_nil_iff.mpr fun e he => ?_
    rw [hes e (List.mem_of_mem_drop he)]
    exact nofun
  cases h with
  | deed deed es hlistened =>
    have hown : Overseer.firsthand (es.rtake n) = es.rtake n := by
      refine List.filter_eq_self.mpr fun e he => ?_
      rw [htold e (List.mem_append_left _ (List.mem_of_mem_drop he))]
      rfl
    exact hown.trans (List.append_nil _).symm
  | @forwarded e cursor hlistened hread =>
    refine hnotices fun told htold => ?_
    rw [Event.isNotice_eq, (isOverflow_notices e c.channels).1 told htold]
    rfl
  | lagged hread => exact hnotices (List.forall_mem_nil _)
  | taken hchannel hwork hfree => exact hnotices (List.forall_mem_nil _)
  | @finished j channel e hlistened hchannel hbusy outcome =>
    refine hnotices ?_
    cases outcome with
    | ok lines => exact List.forall_mem_nil _
    | error info => exact List.forall_mem_singleton.mpr rfl
  | quiet receivers => exact hnotices (List.forall_mem_nil _)

theorem Run.firsthand (h : c.Run moves d) (htold : ∀ e ∈ (told moves).flatten, e.isNotice = false)
    (n : Nat) : firsthand (moves.flatMap fun move => move.published.rtake n) =
      (told moves).flatMap (·.rtake n) := by
  induction h with
  | nil c => rfl
  | @cons c d k move moves hstep _ ih =>
    have hsplit : told (move :: moves) = told [move] ++ told moves := told_append [move] moves
    rw [hsplit, List.flatten_append, List.forall_mem_append] at htold
    rw [hsplit, List.flatMap_cons, Overseer.firsthand, List.filter_append, List.flatMap_append,
      ← hstep.firsthand htold.1, ← ih htold.2]
    rfl

/-- A ring with room for all loses nothing. -/
theorem Run.displaced_eq_nil (h : c.Run moves d) (hc : c.Sound)
    (hroom : c.waiting.length + (published moves).length ≤ c.bus.capacity) :
    ∀ move ∈ moves, move.displaced = [] := by
  induction h with
  | nil c => exact List.forall_mem_nil _
  | @cons c d k move moves hstep _ ih =>
    have hpublished : (published (move :: moves)).length =
        move.published.length + (published moves).length := List.length_append
    have hwaiting := congrArg List.length (hstep.departures hc)
    rw [List.length_append, List.length_append, List.length_map] at hwaiting
    have hlatest : (move.published.rtake c.bus.capacity).length ≤ move.published.length :=
      (List.drop_sublist _ _).length_le
    have hfirst : move.displaced = [] := hstep.displaced_eq_nil (by omega)
    have hrest := ih (hstep.sound hc) (by rw [hstep.capacity]; omega)
    exact List.forall_mem_cons.mpr ⟨hfirst, hrest⟩

end Circuit

/-! ## Monitors -/

def Lane.Act.isFull : Lane.Act → Bool
  | .offer _ (some .full) => true
  | _ => false

namespace Site

variable {settings : Settings} {subscribers others : List Subscriber} {config : Option String}
  {m m' : Monitor} {i j : Nat} {orders orders' : List Order} {moves moves' : List Move}
  {s s' : Site}

/-- What waits in the queue of the subscriber with number `i`. -/
def queued (s : Site) (i : Nat) : List Event :=
  (s.monitor.fanOut.channels[i]?.map Channel.queue).getD []

/-- A run from the start in which the queue of the subscriber with number `i` is never full when an
event is offered to it. -/
structure Roomy (settings : Settings) (subscribers : List Subscriber) (config : Option String)
    (i : Nat) (m : Monitor) (orders : List Order) (moves : List Move) (s : Site) : Prop where
  built : (Monitor.build settings subscribers config).1 = .ok m
  run : (start m).run? orders = some (moves, s)
  seated : i < subscribers.length
  roomy : ∀ act ∈ acts i moves, act.isFull = false

/-- At the start every subscriber has an empty queue and nothing at hand. -/
theorem seats_start (hbuild : (Monitor.build settings subscribers config).1 = .ok m)
    (hi : i < subscribers.length) : (start m).circuit.Seats i (.new subscribers[i]) := by
  have hchannel : m.fanOut.channels[i]? = some (.new subscribers[i]) := by
    rw [(build_same hbuild hbuild).1, List.getElem?_map, List.getElem?_eq_getElem hi]
    rfl
  refine ⟨hchannel, ?_⟩
  show (m.fanOut.channels.map fun _ => none)[i]? = _
  rw [List.getElem?_map, hchannel]
  rfl

/-- Such a subscriber gets what the loop forwards. -/
theorem Roomy.received_eq (h : Roomy settings subscribers config i m orders moves s) :
    received i moves ++ s.queued i = ((departures moves).filter Prod.snd).map Prod.fst := by
  obtain ⟨hbuilt, hrun, hseated, hroomy⟩ := h
  obtain ⟨_, hlistened, _, _⟩ := start_circuit hbuilt
  have hcircuit := (run?_moved hlistened hrun).circuit
  have hseats := seats_start hbuilt hseated
  obtain ⟨l, hl, hlane⟩ := hcircuit.lane hseats
  have hsound := Lane.sound_new subscribers[i]
  have hunrefused : ∀ e r, Lane.Act.offer e (some r) ∉ acts i moves := by
    intro e r hact
    cases hlane.refusals hsound hact
    cases hroomy _ hact
  have hqueued : s.queued i = l.channel.queue := by
    have hchannel : s.monitor.fanOut.channels[i]? = some l.channel := hl.channel
    rw [queued, hchannel]
    rfl
  rw [received, hqueued, hlane.delivers hsound, Lane.accepted_of_unrefused hunrefused,
    hcircuit.offers (List.getElem?_eq_some_iff.mp hseats.channel).1, forwarded_departures]
  rfl

theorem Roomy.firsthand_received (h : Roomy settings subscribers config i m orders moves s) :
    firsthand (received i moves ++ s.queued i) =
      ((passage moves).filter Prod.snd).map Prod.fst := by
  rw [h.received_eq, firsthand, passage, List.filter_map, List.filter_filter, List.filter_filter]
  congr 2
  funext p
  exact Bool.and_comm _ _

/-- The firsthand events pass the ring in the order in which they were told. -/
theorem Roomy.passage_eq (h : Roomy settings subscribers config i m orders moves s) :
    (passage moves).map Prod.fst ++ firsthand s.circuit.waiting =
      m.fanOut.bus.held ++
        (m.tellsAll (deeds moves)).flatMap (·.rtake m.fanOut.bus.capacity) := by
  obtain ⟨hbuilt, hrun, _, _⟩ := h
  obtain ⟨hsound, hlistened, hwaiting, _⟩ := start_circuit hbuilt
  have hmoved := run?_moved hlistened hrun
  have htold : told moves = m.tellsAll (deeds moves) := hmoved.told
  have hheld : firsthand m.fanOut.bus.held = m.fanOut.bus.held := by
    refine List.filter_eq_self.mpr fun e he => ?_
    rw [isNotice_held hbuilt e he]
    rfl
  have hpassage : (passage moves).map Prod.fst = firsthand ((departures moves).map Prod.fst) := by
    rw [firsthand, List.filter_map]
    rfl
  have hdepartures := congrArg firsthand (hmoved.circuit.departures hsound)
  rw [firsthand, firsthand, List.filter_append, List.filter_append, ← firsthand, ← firsthand,
    ← firsthand, ← firsthand, hwaiting, hheld,
    hmoved.circuit.firsthand (htold ▸ m.isNotice_tellsAll (deeds moves)), htold] at hdepartures
  rw [hpassage]
  exact hdepartures

/-- In a ring with room for all that can be published, no event is pushed out. -/
theorem Roomy.passage_of_spacious (h : Roomy settings subscribers config i m orders moves s)
    (hunfailed : ∀ e ∈ failed moves, e.isNotice = false) {n : Nat} (hn : subscribers.length ≤ n)
    (hspacious : (n * n + n + 1) *
      (m.fanOut.bus.held ++ (m.tellsAll (deeds moves)).flatten).length ≤ m.fanOut.bus.capacity) :
    ∀ p ∈ passage moves, p.2 = true := by
  obtain ⟨hbuilt, hrun, _, _⟩ := h
  obtain ⟨hsound, hlistened, hwaiting, _⟩ := start_circuit hbuilt
  have hcircuit := (run?_moved hlistened hrun).circuit
  have hfactor : subscribers.length * subscribers.length + subscribers.length + 1 ≤ n * n + n + 1 :=
    Nat.succ_le_succ (Nat.add_le_add (Nat.mul_le_mul hn hn) hn)
  have hbounded := Nat.le_trans (events_bounded hbuilt hrun hunfailed)
    (Nat.le_trans (Nat.mul_le_mul_right _ hfactor) hspacious)
  rw [List.length_append, ← hwaiting] at hbounded
  have hkept := hcircuit.displaced_eq_nil hsound hbounded
  intro p hp
  obtain ⟨move, hmove, hp⟩ := List.mem_flatMap.mp (List.mem_filter.mp hp).1
  rw [Move.departures, hkept move hmove, List.map_nil, List.append_nil] at hp
  obtain ⟨e, _, rfl⟩ := List.mem_map.mp hp
  rfl

/-- The company of a subscriber takes no part in what comes into the ring. -/
theorem Roomy.told_same (h : Roomy settings subscribers config i m orders moves s)
    (h' : Roomy settings others config j m' orders' moves' s')
    (hdeeds : deeds moves = deeds moves') :
    m'.fanOut.bus = m.fanOut.bus ∧ m'.tellsAll (deeds moves') = m.tellsAll (deeds moves) := by
  obtain ⟨_, rfl⟩ := build_same h.built h'.built
  have htallies : m.Tallies { m with fanOut := ⟨m.fanOut.bus, others.map .new⟩ } := ⟨rfl, rfl⟩
  exact ⟨rfl, by rw [htallies.tellsAll, hdeeds]⟩

/-- Two runs of monitors that differ in their subscribers, with the same deeds, and in each a
subscriber whose queue always has room, in particular the same subscriber in different company.  If
the same firsthand events are pushed out of the ring, both get the same of the others.  If none is,
as in a ring with enough room, what they get and what still waits for them is the same. -/
theorem isolated (h : Roomy settings subscribers config i m orders moves s)
    (h' : Roomy settings others config j m' orders' moves' s')
    (hdeeds : deeds moves = deeds moves') :
    let heard := firsthand (received i moves ++ s.queued i)
    let heard' := firsthand (received j moves' ++ s'.queued j)
    let all := heard ++ firsthand s.circuit.waiting
    let all' := heard' ++ firsthand s'.circuit.waiting
    let n := max subscribers.length others.length
    ((passage moves).map Prod.snd = (passage moves').map Prod.snd → heard = heard') ∧
    ((∀ p ∈ passage moves ++ passage moves', p.2 = true) → all = all') ∧
    ((∀ e ∈ failed moves ++ failed moves', e.isNotice = false) → (n * n + n + 1) *
      (m.fanOut.bus.held ++ (m.tellsAll (deeds moves)).flatten).length ≤ m.fanOut.bus.capacity →
      all = all') := by
  intro heard heard' all all' n
  obtain ⟨hbus, htold⟩ := h.told_same h' hdeeds
  have hsame : (passage moves).map Prod.fst ++ firsthand s.circuit.waiting =
      (passage moves').map Prod.fst ++ firsthand s'.circuit.waiting := by
    rw [h.passage_eq, h'.passage_eq, hbus, htold]
  have hheard : heard = ((passage moves).filter Prod.snd).map Prod.fst := h.firsthand_received
  have hheard' : heard' = ((passage moves').filter Prod.snd).map Prod.fst := h'.firsthand_received
  have hkept (hall : ∀ p ∈ passage moves ++ passage moves', p.2 = true) : all = all' := by
    obtain ⟨hkept, hkept'⟩ := List.forall_mem_append.mp hall
    rw [List.filter_eq_self.mpr hkept] at hheard
    rw [List.filter_eq_self.mpr hkept'] at hheard'
    show heard ++ _ = heard' ++ _
    rw [hheard, hheard', hsame]
  refine ⟨fun hlost => ?_, hkept, fun hunfailed hspacious => hkept ?_⟩
  · have hlength := congrArg List.length hlost
    rw [List.length_map, List.length_map] at hlength
    have hpassed := List.append_inj_left hsame (by rw [List.length_map, List.length_map, hlength])
    rw [hheard, hheard', List.zip_of_prod hpassed hlost, ← List.zip_of_prod rfl rfl]
  · obtain ⟨hown, hother⟩ := List.forall_mem_append.mp hunfailed
    refine List.forall_mem_append.mpr ⟨?_, ?_⟩
    · exact h.passage_of_spacious hown (Nat.le_max_left ..) hspacious
    · refine h'.passage_of_spacious hother (Nat.le_max_right subscribers.length _) ?_
      rw [hbus, htold]
      exact hspacious

/-- A subscriber that does nothing, with a queue that takes a lot. -/
def recorder : Subscriber := ⟨"recorder", 1024, fun _ => .ok []⟩

def tight (name : String) : Subscriber := ⟨name, 1, fun _ => .ok []⟩

/-- A monitor without a configuration. -/
def bare (busCapacity : Nat) (subscribers : List Subscriber) : Monitor :=
  (Monitor.build { busCapacity } subscribers none).1.toOption.get rfl

def serve (i : Nat) : List Order := [.take i, .finish i (.ok [])]

def client : Label := ⟨["init", "a"]⟩

instance : DecidableEq Input
  | .report label bytes, .report label' bytes' =>
    decidable_of_iff (label = label' ∧ bytes.data = bytes'.data) (by simp [ByteArray.ext_iff])
  | .config text, .config text' => decidable_of_iff (text = text') (by simp)
  | .report _ _, .config _ => isFalse (by simp)
  | .config _, .report _ _ => isFalse (by simp)

deriving instance DecidableEq for Deed

/-- The recorder is the first subscriber, had room for every event, and has got all that is to come
of these deeds. -/
def Recorded (deeds : List Deed) (r : List Move × Site) : Prop :=
  Overseer.deeds r.1 = deeds ∧ (∀ act ∈ acts 0 r.1, act.isFull = false) ∧ r.2.queued 0 = [] ∧
    r.2.circuit.waiting = []

instance (deeds : List Deed) : DecidablePred (Recorded deeds) := fun _ =>
  inferInstanceAs (Decidable (_ ∧ _ ∧ _ ∧ _))

/-- Two sessions.  The second finds a queue full, and a subscriber fails on the first. -/
def troubled : List Order :=
  [.openSession client, .openSession client, .turn, .turn, .turn, .take 1,
    .finish 1 (.error "boom"), .turn] ++ serve 0 ++ serve 0 ++ serve 0 ++ serve 0

def untroubled : List Order :=
  [.openSession client, .openSession client, .turn, .turn] ++ serve 0 ++ serve 0

/-- A full queue and a failure in the company of the recorder, in a ring with room for both. -/
theorem isolated_recorder : ∃ moves moves' s s',
    (start (bare 16 [recorder, tight "tight"])).run? troubled = some (moves, s) ∧
    (start (bare 16 [recorder])).run? untroubled = some (moves', s') ∧
    (published moves).length = 4 ∧ (published moves').length = 2 ∧
    firsthand (received 0 moves) = firsthand (received 0 moves') := by
  obtain ⟨moves, s, hrun, ⟨hdeeds, hroomy, hqueued, hwaiting⟩, hlength, hfailed⟩ :=
    exists_run (start (bare 16 [recorder, tight "tight"])) troubled
      (fun r => Recorded [.session client, .session client] r ∧ (published r.1).length = 4 ∧
        ∀ e ∈ failed r.1, e.isNotice = false) (by decide +kernel)
  obtain ⟨moves', s', hrun', ⟨hdeeds', hroomy', hqueued', hwaiting'⟩, hlength', hfailed'⟩ :=
    exists_run (start (bare 16 [recorder])) untroubled
      (fun r => Recorded [.session client, .session client] r ∧ (published r.1).length = 2 ∧
        ∀ e ∈ failed r.1, e.isNotice = false) (by decide +kernel)
  have h : Roomy { busCapacity := 16 } [recorder, tight "tight"] none 0
      (bare 16 [recorder, tight "tight"]) troubled moves s := ⟨rfl, hrun, Nat.two_pos, hroomy⟩
  have h' : Roomy { busCapacity := 16 } [recorder] none 0 (bare 16 [recorder]) untroubled moves' s' :=
    ⟨rfl, hrun', Nat.one_pos, hroomy'⟩
  have hspacious : (2 * 2 + 2 + 1) * ((bare 16 [recorder, tight "tight"]).fanOut.bus.held ++
      ((bare 16 [recorder, tight "tight"]).tellsAll (deeds moves)).flatten).length ≤
      (bare 16 [recorder, tight "tight"]).fanOut.bus.capacity := by
    rw [show deeds moves = [.session client, .session client] from hdeeds]
    decide +kernel
  have hall := (isolated h h' (hdeeds.trans hdeeds'.symm)).2.2
    (List.forall_mem_append.mpr ⟨hfailed, hfailed'⟩) hspacious
  refine ⟨moves, moves', s, s', hrun, hrun', hlength, hlength', ?_⟩
  dsimp only at hqueued hwaiting hqueued' hwaiting'
  rw [hqueued, hwaiting, hqueued', hwaiting'] at hall
  simpa using hall

def heartbeats : Input := .report client
  ("<state><child name=\"a\" skipped_heartbeats=\"1\"/>" ++
    "<child name=\"b\" skipped_heartbeats=\"1\"/></state>").toUTF8

def crowded : List Order :=
  [.openSession client, .submit heartbeats, .turn, .turn, .turn, .turn, .turn, .turn] ++
    serve 0 ++ serve 0 ++ serve 0 ++ serve 0 ++ serve 1 ++ serve 2

def uncrowded : List Order :=
  [.openSession client, .submit heartbeats, .turn, .turn, .turn, .turn] ++ serve 0 ++ serve 0 ++
    serve 0

/-- Two subscribers with full queues.  What is told of them pushes an event out of the ring before
the recorder has got it. -/
theorem company_pushes_out : ∃ moves moves' s s',
    Roomy { busCapacity := 2 } [recorder, tight "D1", tight "D2"] none 0
      (bare 2 [recorder, tight "D1", tight "D2"]) crowded moves s ∧
    Roomy { busCapacity := 2 } [recorder] none 0 (bare 2 [recorder]) uncrowded moves' s' ∧
    Recorded [.session client, .input heartbeats] (moves, s) ∧
    Recorded [.session client, .input heartbeats] (moves', s') ∧
    (firsthand (received 0 moves)).map Event.componentName = ["init -> a", "a"] ∧
    (firsthand (received 0 moves')).map Event.componentName = ["init -> a", "a", "b"] := by
  obtain ⟨moves, s, hrun, hrecorded, hreceived⟩ :=
    exists_run (start (bare 2 [recorder, tight "D1", tight "D2"])) crowded
      (fun r => Recorded [.session client, .input heartbeats] r ∧
        (firsthand (received 0 r.1)).map Event.componentName = ["init -> a", "a"])
      (by decide +kernel)
  obtain ⟨moves', s', hrun', hrecorded', hreceived'⟩ :=
    exists_run (start (bare 2 [recorder])) uncrowded
      (fun r => Recorded [.session client, .input heartbeats] r ∧
        (firsthand (received 0 r.1)).map Event.componentName = ["init -> a", "a", "b"])
      (by decide +kernel)
  exact ⟨moves, moves', s, s', ⟨rfl, hrun, Nat.succ_pos 2, hrecorded.2.1⟩,
    ⟨rfl, hrun', Nat.one_pos, hrecorded'.2.1⟩, hrecorded, hrecorded', hreceived, hreceived'⟩

end Site

end Overseer
