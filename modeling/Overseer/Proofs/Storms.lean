import Overseer.Proofs.Site
import Overseer.Proofs.Steps
import Overseer.Proofs.Sums

/-!
Events that other events cause.  A queue refuses an event at most once and a subscriber fails on it at
most once, so that the notices of the events of any class are at most as many as these events times
the subscribers (`Circuit.Run.caused_le`).  Subscribers that do not fail on notices therefore answer
finitely many events with finitely many (`panics_accounted`).  One that fails on its own failures
never comes to an end (`failures_feed_on_themselves`).
-/

namespace Overseer

/-! ## Accounts -/

def Event.isPanic (e : Event) : Bool := e.kind == .subscriberPanicked

def Event.isOverflow (e : Event) : Bool := e.kind == .subscriberOverflow

namespace Move

/-- The event whose refusals or failure a move tells of. -/
def source? (move : Move) : Option Event :=
  match move.cause with
  | .forwarded e _ => some e
  | .finished _ e _ => some e
  | _ => none

/-- The event on which a subscriber failed. -/
def failed? (move : Move) : Option Event :=
  match move.cause with
  | .finished _ e (.error _) => some e
  | _ => none

/-- How many events a move publishes of an event of this class. -/
def caused (q : Event → Bool) (move : Move) : Nat :=
  move.source?.toList.countP q * move.published.length

end Move

/-- The events that some moves publish. -/
def published (moves : List Move) : List Event := moves.flatMap Move.published

/-- The events on which subscribers failed. -/
def failed (moves : List Move) : List Event := moves.filterMap Move.failed?

/-- How many events are published of events of this class. -/
def caused (q : Event → Bool) (moves : List Move) : Nat :=
  (moves.map (Move.caused q)).sum

namespace Event

theorem isNotice_eq (e : Event) : e.isNotice = (e.isOverflow || e.isPanic) := rfl

theorem isOverflow_of_isPanic {e : Event} (h : e.isPanic = true) : e.isOverflow = false := by
  rw [isPanic, beq_iff_eq] at h
  rw [isOverflow, h]
  rfl

theorem isPanic_of_isOverflow {e : Event} (h : e.isOverflow = true) : e.isPanic = false := by
  by_contra hpanic
  rw [Bool.not_eq_false] at hpanic
  exact absurd (h.symm.trans (isOverflow_of_isPanic hpanic)) nofun

end Event

/-- An event is no notice, or tells of a failure or of an overflow. -/
theorem countP_notices (es : List Event) :
    es.countP (!·.isNotice) + es.countP Event.isPanic + es.countP Event.isOverflow = es.length := by
  induction es with
  | nil => rfl
  | cons e es ih =>
    have hone : (if (!e.isNotice) = true then 1 else 0) + (if e.isPanic = true then 1 else 0) +
        (if e.isOverflow = true then 1 else 0) = 1 := by
      rw [Event.isNotice_eq]
      cases hpanic : e.isPanic with
      | true =>
        rw [Event.isOverflow_of_isPanic hpanic]
        rfl
      | false => cases e.isOverflow <;> rfl
    rw [List.countP_cons, List.countP_cons, List.countP_cons, List.length_cons]
    omega

/-! ## Offers -/

theorem notices_cons (e : Event) (c : Channel) (cs : List Channel) : notices e (c :: cs) =
    (Lane.Act.offer e (c.offer e).2).notices c.subscriber.name ++ notices e cs := by
  have heffects : (offerAll e (c :: cs)).2 =
      (Lane.Act.offer e (c.offer e).2).effects c ++ (offerAll e cs).2 := by
    simp only [offerAll]
    cases (c.offer e).2 <;> rfl
  rw [notices, heffects, List.filterMap_append, Lane.Act.events_effects]
  rfl

/-- An event is queued or told of, not both. -/
theorem Channel.offer_le (c : Channel) (e : Event) (q : Event → Bool) :
    (c.offer e).1.queue.countP q +
        [e].countP q * ((Lane.Act.offer e (c.offer e).2).notices c.subscriber.name).length ≤
      c.queue.countP q + [e].countP q := by
  have htold (r : Refusal) : [e].countP q *
      ((Lane.Act.offer e (some r)).notices c.subscriber.name).length ≤ [e].countP q := by
    rw [Lane.Act.notices]
    split
    · exact Nat.zero_le _
    · exact Nat.le_of_eq (Nat.mul_one _)
  unfold offer
  split
  · exact Nat.add_le_add_left (htold .closed) _
  · split
    · exact Nat.le_of_eq List.countP_append
    · exact Nat.add_le_add_left (htold .full) _

theorem offerAll_le (e : Event) (q : Event → Bool) (cs : List Channel) :
    ((offerAll e cs).1.map (·.queue.countP q)).sum +
        [e].countP q * (notices e cs).length ≤
      (cs.map (·.queue.countP q)).sum + cs.length * [e].countP q := by
  induction cs with
  | nil => simp [offerAll, notices]
  | cons c cs ih =>
    have hfirst := c.offer_le e q
    rw [notices_cons, List.length_append, Nat.mul_add, List.length_cons, Nat.add_mul, Nat.one_mul]
    simp only [offerAll, List.map_cons, List.sum_cons]
    omega

/-- Emissions tell of overflows, and never of those of an overflow. -/
theorem isOverflow_notices (e : Event) (cs : List Channel) :
    (∀ told ∈ notices e cs, told.isOverflow = true) ∧
      (e.isOverflow = true → notices e cs = []) := by
  have hemit := emit_overflows e cs
  refine ⟨fun told htold => ?_, fun he => ?_⟩
  · rw [Event.isOverflow, beq_iff_eq]
    exact hemit.1 told htold
  · rw [Event.isOverflow, beq_iff_eq] at he
    have hlength := hemit.2
    rw [if_pos he] at hlength
    exact List.length_eq_zero_iff.mp (Nat.le_zero.mp hlength)

/-! ## Circuits -/

namespace Circuit

variable {c d : Circuit} {move : Move} {moves : List Move}

/-- What the events of a class that are on their way can still cause. -/
def load (q : Event → Bool) (c : Circuit) : Nat :=
  c.channels.length * c.waiting.countP q +
    (c.channels.map (·.queue.countP q)).sum +
    (c.busy.map (·.toList.countP q)).sum

theorem load_publish_le (hc : c.Sound) (hlistened : c.bus.receivers ≠ 0) (es : List Event)
    (q : Event → Bool) :
    (c.publish es).load q ≤ c.load q + c.channels.length * es.countP q := by
  have hwaiting := congrArg (List.countP q) (waiting_publish hc hlistened es)
  rw [List.countP_append, List.countP_append] at hwaiting
  have hlatest : (es.rtake c.bus.capacity).countP q ≤ es.countP q :=
    (List.drop_sublist _ es).countP_le
  have hle : (c.publish es).waiting.countP q ≤ c.waiting.countP q + es.countP q := by omega
  have hmul := Nat.mul_le_mul_left c.channels.length hle
  rw [Nat.mul_add] at hmul
  show c.channels.length * (c.publish es).waiting.countP q +
      (c.channels.map (·.queue.countP q)).sum +
      (c.busy.map (·.toList.countP q)).sum ≤ _
  rw [load]
  omega

theorem load_offered {e : Event} {cursor : Nat}
    (hread : c.bus.receive c.cursor = some (.event e, cursor)) (q : Event → Bool) :
    [e].countP q * (notices e c.channels).length +
        ({ c with cursor, channels := (offerAll e c.channels).1 } : Circuit).load q ≤ c.load q := by
  have hoffers := offerAll_le e q c.channels
  have hunread : c.waiting = [e] ++ c.bus.unread cursor := (Bus.receive_event hread).2
  have hwaiting : c.waiting.countP q = [e].countP q + (c.bus.unread cursor).countP q := by
    rw [hunread, List.countP_append]
  show _ + ((offerAll e c.channels).1.length * (c.bus.unread cursor).countP q +
    ((offerAll e c.channels).1.map (·.queue.countP q)).sum +
    (c.busy.map (·.toList.countP q)).sum) ≤ _
  rw [length_offerAll, load, hwaiting, Nat.mul_add]
  omega

theorem load_taken {i : Nat} {channel rest : Channel} {e : Event}
    (hchannel : c.channels[i]? = some channel) (hwork : channel.work = some (rest, e))
    (hfree : c.busy[i]? = some none) (q : Event → Bool) :
    ({ c with channels := c.channels.set i rest, busy := c.busy.set i (some e) } : Circuit).load q =
      c.load q := by
  have hqueue := congrArg (List.countP q) (Channel.work_eq_some_iff.mp hwork).1
  have hchannels := sum_map_set_add (·.queue.countP q) hchannel rest
  have hbusy := sum_map_set_add (·.toList.countP q) hfree (some e)
  rw [← List.singleton_append, List.countP_append] at hqueue
  simp only [Option.toList_none, Option.toList_some, List.countP_nil] at hbusy
  show (c.channels.set i rest).length * c.waiting.countP q +
    ((c.channels.set i rest).map (·.queue.countP q)).sum +
    ((c.busy.set i (some e)).map (·.toList.countP q)).sum = _
  rw [List.length_set, load]
  omega

theorem load_freed {i : Nat} {e : Event} (hbusy : c.busy[i]? = some (some e)) (q : Event → Bool) :
    ({ c with busy := c.busy.set i none } : Circuit).load q + [e].countP q = c.load q := by
  have htotal := sum_map_set_add (·.toList.countP q) hbusy none
  simp only [Option.toList_none, Option.toList_some, List.countP_nil] at htotal
  show c.channels.length * c.waiting.countP q +
    (c.channels.map (·.queue.countP q)).sum +
    ((c.busy.set i none).map (·.toList.countP q)).sum + _ = _
  rw [load]
  omega

/-- What a move causes, its event no longer can. -/
theorem Step.load_le (h : c.Step move d) (hc : c.Sound) (q : Event → Bool) :
    move.caused q + d.load q ≤ c.load q + c.channels.length * move.published.countP q := by
  cases h with
  | deed deed es hlistened =>
    have hpublish := load_publish_le hc hlistened es q
    show [].countP q * es.length + _ ≤ _
    rw [List.countP_nil, Nat.zero_mul, Nat.zero_add]
    exact hpublish
  | @forwarded e cursor hlistened hread =>
    let offered : Circuit := { c with cursor, channels := (offerAll e c.channels).1 }
    have hsound : offered.Sound := Bus.Sound.receive hc hread
    have hpublish := load_publish_le hsound hlistened (notices e c.channels) q
    have hlength : offered.channels.length = c.channels.length := length_offerAll _ _
    have hload : [e].countP q * (notices e c.channels).length + offered.load q ≤ c.load q :=
      load_offered hread q
    rw [hlength] at hpublish
    show [e].countP q * (notices e c.channels).length + (offered.publish _).load q ≤
      c.load q + c.channels.length * (notices e c.channels).countP q
    omega
  | @lagged missed cursor hread =>
    have hunread : ({ c with cursor } : Circuit).waiting = c.waiting :=
      (Bus.receive_lagged hread).2.2.2
    have hload : ({ c with cursor } : Circuit).load q = c.load q := by
      rw [load, hunread]
      rfl
    exact Nat.le_of_eq ((Nat.zero_add _).trans hload)
  | taken hchannel hwork hfree =>
    exact Nat.le_of_eq ((Nat.zero_add _).trans (load_taken hchannel hwork hfree q))
  | @finished i channel e hlistened hchannel hbusy outcome =>
    let freed : Circuit := { c with busy := c.busy.set i none }
    have hpublish : (freed.publish (channel.outcomeEvents outcome)).load q ≤
        freed.load q + c.channels.length * (channel.outcomeEvents outcome).countP q :=
      load_publish_le (c := freed) hc hlistened _ q
    have hload : freed.load q + [e].countP q = c.load q := load_freed hbusy q
    have htold : [e].countP q * (channel.outcomeEvents outcome).length ≤ [e].countP q := by
      cases outcome with
      | ok lines => exact Nat.zero_le _
      | error info => exact Nat.le_of_eq (Nat.mul_one _)
    show [e].countP q * (channel.outcomeEvents outcome).length + (freed.publish _).load q ≤
      c.load q + c.channels.length * (channel.outcomeEvents outcome).countP q
    omega
  | quiet receivers => exact Nat.le_of_eq (Nat.zero_add _)

/-- The notices of the events of a class are at most as many as these events times the
subscribers. -/
theorem Run.caused_le {c d : Circuit} {moves : List Move} (h : c.Run moves d) (hc : c.Sound)
    (q : Event → Bool) : Overseer.caused q moves + d.load q ≤
      c.load q + c.channels.length * (Overseer.published moves).countP q := by
  induction h with
  | nil c =>
    show 0 + _ ≤ _
    omega
  | @cons c d k move moves hstep _ ih =>
    have hfirst := hstep.load_le hc q
    have hrest := ih (hstep.sound hc)
    rw [hstep.length_channels] at hrest
    rw [published, List.flatMap_cons, List.countP_append, Nat.mul_add]
    show move.caused q + Overseer.caused q moves + _ ≤ _ + (_ + c.channels.length *
      (Overseer.published moves).countP q)
    omega

/-! ## Failures -/

/-- Where the deeds tell of no notices, the failures are told of one by one, and all else that is
told tells of an overflow. -/
structure Accounts (moves : List Move) : Prop where
  own : (Overseer.published moves).countP (!·.isNotice) = (told moves).flatten.length
  panics : (Overseer.published moves).countP Event.isPanic = (failed moves).length
  failures : ∀ q, (failed moves).countP q ≤ Overseer.caused q moves
  overflows : Overseer.caused Event.isOverflow moves = (failed moves).countP Event.isOverflow
  total : (Overseer.published moves).length =
    (told moves).flatten.length + Overseer.caused (fun _ => true) moves

theorem Accounts.append {moves more : List Move} (h : Accounts moves) (hmore : Accounts more) :
    Accounts (moves ++ more) := by
  have hpublished : Overseer.published (moves ++ more) =
      Overseer.published moves ++ Overseer.published more := List.flatMap_append
  have hfailed : failed (moves ++ more) = failed moves ++ failed more := List.filterMap_append
  have hcaused (q : Event → Bool) : Overseer.caused q (moves ++ more) =
      Overseer.caused q moves + Overseer.caused q more := by
    rw [Overseer.caused, List.map_append, List.sum_append]
    rfl
  refine ⟨?_, ?_, fun q => ?_, ?_, ?_⟩
  · rw [hpublished, told_append, List.countP_append, List.flatten_append, List.length_append, h.own,
      hmore.own]
  · rw [hpublished, hfailed, List.countP_append, List.length_append, h.panics, hmore.panics]
  · rw [hfailed, hcaused, List.countP_append]
    exact Nat.add_le_add (h.failures q) (hmore.failures q)
  · rw [hfailed, hcaused, List.countP_append, h.overflows, hmore.overflows]
  · rw [hpublished, hcaused, told_append, List.flatten_append, List.length_append,
      List.length_append, h.total, hmore.total]
    omega

theorem Step.accounts (h : c.Step move d) (htold : ∀ e ∈ (told [move]).flatten, e.isNotice = false) :
    Accounts [move] := by
  cases h with
  | deed deed es hlistened =>
    let move : Move := ⟨.deed deed, es, c.bus.displaced c.cursor es⟩
    have hcaused (q : Event → Bool) : Overseer.caused q [move] = 0 := by
      show [].countP q * es.length + 0 = 0
      rw [List.countP_nil, Nat.zero_mul]
    refine ⟨?_, ?_, fun q => Nat.zero_le _, hcaused _, (congrArg (_ + ·) (hcaused _)).symm⟩
    · refine List.countP_eq_length.mpr fun e he => ?_
      rw [htold e he]
      rfl
    · refine List.countP_eq_zero.mpr fun e he hpanic => ?_
      have hnotice := htold e he
      rw [Event.isNotice_eq, hpanic, Bool.or_true] at hnotice
      cases hnotice
  | @forwarded e cursor hlistened hread =>
    obtain ⟨hkind, hnone⟩ := isOverflow_notices e c.channels
    have hpublished (es : List Event) : Overseer.published [⟨.forwarded e (answers e c.channels),
        notices e c.channels, es⟩] = notices e c.channels := List.append_nil _
    refine ⟨?_, ?_, fun q => Nat.zero_le _, ?_, ?_⟩
    · rw [hpublished]
      refine List.countP_eq_zero.mpr fun told htold hown => ?_
      rw [Event.isNotice_eq, hkind told htold] at hown
      cases hown
    · rw [hpublished]
      refine List.countP_eq_zero.mpr fun told htold hpanic => ?_
      exact absurd (hpanic.symm.trans (Event.isPanic_of_isOverflow (hkind told htold))) nofun
    · show [e].countP Event.isOverflow * (notices e c.channels).length + 0 = 0
      by_cases he : e.isOverflow = true
      · rw [hnone he]
        rfl
      · rw [List.countP_eq_zero.mpr (List.forall_mem_singleton.mpr he), Nat.zero_mul]
    · rw [hpublished]
      show (notices e c.channels).length = 0 + (1 * (notices e c.channels).length + 0)
      omega
  | lagged hread => exact ⟨rfl, rfl, fun q => Nat.zero_le _, rfl, rfl⟩
  | taken hchannel hwork hfree => exact ⟨rfl, rfl, fun q => Nat.zero_le _, rfl, rfl⟩
  | @finished i channel e hlistened hchannel hbusy outcome =>
    cases outcome with
    | ok lines => exact ⟨rfl, rfl, fun q => Nat.zero_le _, rfl, rfl⟩
    | error info =>
      have hcaused (q : Event → Bool) : Overseer.caused q [⟨.finished i e (.error info),
          channel.outcomeEvents (.error info),
          c.bus.displaced c.cursor (channel.outcomeEvents (.error info))⟩] = [e].countP q := by
        show [e].countP q * 1 + 0 = _
        rw [Nat.mul_one, Nat.add_zero]
      exact ⟨rfl, rfl, fun q => Nat.le_of_eq (hcaused q).symm, hcaused _, rfl⟩
  | quiet receivers => exact ⟨rfl, rfl, fun q => Nat.zero_le _, rfl, rfl⟩

theorem Run.accounts (h : c.Run moves d) (htold : ∀ e ∈ (told moves).flatten, e.isNotice = false) :
    Accounts moves := by
  induction h with
  | nil c => exact ⟨rfl, rfl, fun q => Nat.zero_le _, rfl, rfl⟩
  | @cons c d k move moves hstep _ ih =>
    have hsplit : told (move :: moves) = told [move] ++ told moves := told_append [move] moves
    rw [hsplit, List.flatten_append, List.forall_mem_append] at htold
    exact (hstep.accounts htold.1).append (ih htold.2)

end Circuit

/-- What is told of events tells of a failure, of an overflow, or of neither. -/
theorem caused_split (moves : List Move) : caused (fun _ => true) moves =
    caused (!·.isNotice) moves + caused Event.isPanic moves + caused Event.isOverflow moves := by
  induction moves with
  | nil => rfl
  | cons move moves ih =>
    have hsource := countP_notices move.source?.toList
    have hmove : move.caused (fun _ => true) =
        move.caused (!·.isNotice) + move.caused Event.isPanic + move.caused Event.isOverflow := by
      rw [Move.caused, Move.caused, Move.caused, Move.caused, ← Nat.add_mul, ← Nat.add_mul,
        hsource, List.countP_true]
    show move.caused _ + caused _ moves = (move.caused _ + caused _ moves) +
      (move.caused _ + caused _ moves) + (move.caused _ + caused _ moves)
    omega

/-! ## What a monitor tells of -/

theorem Supervisor.announces_updateConfig (s : Supervisor) (text : String) :
    Announces [.configRegenerated, .configRejected] (s.updateConfig text).2.2 := by
  unfold updateConfig
  cases InitConfig.parse text with
  | error e => exact (announces_publish (by simp [Problem.event])).log _
  | ok c => exact (announces_regenerate _).mono (by simp)

theorem Supervisor.announces_handleReport (s : Supervisor) (state : Markup.Element) (label : Label) :
    Announces (chargeKinds ++ reactionKinds) (s.handleReport state label).2 := by
  by_cases hfew : state.children.length ≤ 1
  · rw [handleReport, if_pos hfew]
    exact announces_nil
  · have hcharges := announces_chargeAll (kind_findingsOf state s.threshold label.scope) s.registry
    obtain ⟨_, _, _, _, _, hreaction⟩ := (s.charged state label).react_steps state label
    have hreported := announces_reportRestarts ((s.charged state label).react state label).1
    rw [handleReport_eq hfew]
    exact ((hcharges.mono (List.subset_append_left _ _)).append
      (hreaction.mono (List.subset_append_right _ _))).append (hreported.mono (List.nil_subset _))

namespace Monitor

/-- The kinds of the events that inputs publish. -/
def inputKinds : List EventKind :=
  Supervisor.chargeKinds ++ Supervisor.reactionKinds ++ [.configRejected, .reportRejected]

theorem announces_free (r : Reporter) (state : Markup.Element) (label : Label) :
    Announces [] (FreeResources.report r state label).2.2 := by
  unfold FreeResources.report
  split
  · exact announces_nil
  · exact announces_generate r _

theorem announces_handleState (m : Monitor) (label : Label) (text : String)
    (state : Markup.Element) : Announces inputKinds (m.handleState label text state).2 := by
  have hhandled := (m.supervisor.announces_handleReport state label).mono
    (List.subset_append_left _ [.configRejected, .reportRejected])
  have hfree := (announces_free m.freeResources state label).mono (List.nil_subset inputKinds)
  refine Announces.append (Announces.append (hhandled.append hfree) ?_) ?_
  · split
    · exact announces_nil
    · exact announces_nil.log _
  · unfold StateCopy.effects
    split
    · intro event he
      cases List.mem_singleton.mp he
    · exact announces_nil

theorem announces_handle (m : Monitor) (input : Input) : Announces inputKinds (m.handle input).2 := by
  cases input with
  | config text =>
    have hupdate := m.supervisor.announces_updateConfig text
    refine Announces.append (hupdate.mono (by decide)) ?_
    dsimp only
    split
    · exact announces_nil
    · exact announces_nil.log _
  | report label bytes =>
    have hrejected : EventKind.reportRejected ∈ inputKinds := by decide
    show Announces inputKinds (m.handleReport label bytes).2
    unfold handleReport
    split
    · exact (announces_publish hrejected).log _
    · dsimp only
      split
      · exact (announces_publish hrejected).log _
      · exact announces_handleState m label _ _

theorem isNotice_of_announces {es : List Effect} (h : Announces inputKinds es) :
    ∀ e ∈ es.filterMap Effect.event?, e.isNotice = false := by
  have hkinds : ∀ k ∈ inputKinds,
      (k == .subscriberOverflow || k == .subscriberPanicked) = false := by decide
  intro e he
  obtain ⟨effect, heffect, hsome⟩ := List.mem_filterMap.mp he
  cases effect with
  | log line => cases hsome
  | write report content => cases hsome
  | publish event =>
    cases hsome
    exact hkinds _ (h _ heffect)

/-- What a monitor tells of by itself are no notices. -/
theorem isNotice_tells (m : Monitor) (deed : Deed) : ∀ e ∈ m.tells deed, e.isNotice = false := by
  cases deed with
  | input input => exact isNotice_of_announces (m.announces_handle input)
  | session label => exact List.forall_mem_singleton.mpr rfl
  | shutdown => exact List.forall_mem_singleton.mpr rfl

theorem isNotice_tellsAll (m : Monitor) (deeds : List Deed) :
    ∀ e ∈ (m.tellsAll deeds).flatten, e.isNotice = false := by
  induction deeds generalizing m with
  | nil => exact List.forall_mem_nil _
  | cons deed deeds ih => exact List.forall_mem_append.mpr ⟨m.isNotice_tells deed, ih _⟩

end Monitor

namespace Site

variable {settings : Settings} {subscribers : List Subscriber} {config : Option String} {m : Monitor}

theorem isNotice_held (hbuild : (Monitor.build settings subscribers config).1 = .ok m) :
    ∀ e ∈ m.fanOut.bus.held, e.isNotice = false := by
  have hbuilt : ∀ e ∈ buildEvents settings config, e.isNotice = false := by
    cases config with
    | none => exact List.forall_mem_nil _
    | some text =>
      have hupdate := (Supervisor.new settings).announces_updateConfig text
      exact Monitor.isNotice_of_announces (hupdate.mono (by decide))
  obtain ⟨_, _, _, hheld⟩ := start_circuit hbuild
  rw [hheld]
  exact fun e he => hbuilt e (List.mem_of_mem_drop he)

/-- Before a monitor runs, all that is on its way waits on the bus. -/
theorem load_start (hbuild : (Monitor.build settings subscribers config).1 = .ok m)
    (q : Event → Bool) :
    (start m).circuit.load q = subscribers.length * m.fanOut.bus.held.countP q := by
  obtain ⟨_, _, hwaiting, _⟩ := start_circuit hbuild
  have hchannels := (build_same hbuild hbuild).1
  have hempty : ((start m).circuit.channels.map (·.queue.countP q)).sum = 0 := by
    show (m.fanOut.channels.map (·.queue.countP q)).sum = 0
    rw [hchannels, List.map_map]
    exact List.sum_map_zero
  have hfree : ((start m).circuit.busy.map (·.toList.countP q)).sum = 0 := by
    show ((m.fanOut.channels.map fun _ => none).map _).sum = 0
    rw [List.map_map]
    exact List.sum_map_zero
  have hlength : (start m).circuit.channels.length = subscribers.length := by
    show m.fanOut.channels.length = _
    rw [hchannels, List.length_map]
  rw [Circuit.load, hempty, hfree, hlength, hwaiting]
  rfl

/-- The accounts of a run from the start.  Nothing that a monitor publishes by itself tells of a
failure. -/
theorem accounts_run (hbuild : (Monitor.build settings subscribers config).1 = .ok m)
    {orders : List Order} {moves : List Move} {s : Site}
    (hrun : (start m).run? orders = some (moves, s)) :
    let events := m.fanOut.bus.held ++ published moves
    Circuit.Accounts moves ∧
    (∀ q, caused q moves ≤ subscribers.length * events.countP q) ∧
    events.countP Event.isPanic = (failed moves).length ∧
    events.countP (!·.isNotice) =
      (m.fanOut.bus.held ++ (m.tellsAll (deeds moves)).flatten).length := by
  intro events
  obtain ⟨hsound, hlistened, _, _⟩ := start_circuit hbuild
  have hmoved := run?_moved hlistened hrun
  have htold : told moves = m.tellsAll (deeds moves) := hmoved.told
  have hheld := isNotice_held hbuild
  have haccounts := hmoved.circuit.accounts (htold ▸ m.isNotice_tellsAll (deeds moves))
  refine ⟨haccounts, fun q => ?_, ?_, ?_⟩
  · have hle := hmoved.circuit.caused_le hsound q
    have hlength : (start m).circuit.channels.length = subscribers.length := by
      show m.fanOut.channels.length = _
      rw [(build_same hbuild hbuild).1, List.length_map]
    rw [load_start hbuild, hlength] at hle
    rw [List.countP_append, Nat.mul_add]
    omega
  · have hnone : m.fanOut.bus.held.countP Event.isPanic = 0 := by
      refine List.countP_eq_zero.mpr fun e he hpanic => ?_
      have hnotice := hheld e he
      rw [Event.isNotice_eq, hpanic, Bool.or_true] at hnotice
      cases hnotice
    rw [List.countP_append, haccounts.panics, hnone, Nat.zero_add]
  · rw [List.countP_append, haccounts.own, htold, List.length_append,
      List.countP_eq_length.mpr fun e he => by rw [hheld e he]; rfl]

/-- If no subscriber fails on a notice, what a monitor was built from and what it was asked to do
bound the events of all kinds. -/
theorem events_bounded (hbuild : (Monitor.build settings subscribers config).1 = .ok m)
    {orders : List Order} {moves : List Move} {s : Site}
    (hrun : (start m).run? orders = some (moves, s))
    (hunfailed : ∀ e ∈ failed moves, e.isNotice = false) :
    let n := subscribers.length
    (m.fanOut.bus.held ++ published moves).length ≤
      (n * n + n + 1) * (m.fanOut.bus.held ++ (m.tellsAll (deeds moves)).flatten).length := by
  intro n
  obtain ⟨haccounts, hcaused, hpanics, hown⟩ := accounts_run hbuild hrun
  let events := m.fanOut.bus.held ++ published moves
  let own := m.fanOut.bus.held ++ (m.tellsAll (deeds moves)).flatten
  -- the events of the monitor itself cause failures and overflows, the failures overflows
  have hfirst : caused (!·.isNotice) moves ≤ n * own.length := hown ▸ hcaused _
  have hfailed : (failed moves).length ≤ caused (!·.isNotice) moves := by
    have hfailures := haccounts.failures (!·.isNotice)
    rwa [List.countP_eq_length.mpr fun e he => by rw [hunfailed e he]; rfl] at hfailures
  have hsecond : caused Event.isPanic moves ≤ n * (n * own.length) := by
    refine Nat.le_trans (hcaused Event.isPanic) (Nat.mul_le_mul_left n ?_)
    rw [hpanics]
    exact Nat.le_trans hfailed hfirst
  have hthird : caused Event.isOverflow moves = 0 := by
    rw [haccounts.overflows]
    refine List.countP_eq_zero.mpr fun e he hoverflow => ?_
    have hnotice := hunfailed e he
    rw [Event.isNotice_eq, hoverflow, Bool.true_or] at hnotice
    cases hnotice
  have htold : told moves = m.tellsAll (deeds moves) := by
    obtain ⟨_, hlistened, _, _⟩ := start_circuit hbuild
    exact (run?_moved hlistened hrun).told
  have htotal : events.length = own.length + caused (fun _ => true) moves := by
    rw [List.length_append, List.length_append, haccounts.total, htold, Nat.add_assoc]
  rw [caused_split, hthird] at htotal
  rw [Nat.add_mul, Nat.add_mul, Nat.one_mul, Nat.mul_assoc]
  show events.length ≤ n * (n * own.length) + n * own.length + own.length
  omega

/-- Every failure of a subscriber is told of in one event.  Those that are no failures on such events
are at most as many as the other events times the subscribers, and if no subscriber fails on a
notice, there are finitely many events in all. -/
theorem panics_accounted (hbuild : (Monitor.build settings subscribers config).1 = .ok m)
    {orders : List Order} {moves : List Move} {s : Site}
    (hrun : (start m).run? orders = some (moves, s)) :
    let events := m.fanOut.bus.held ++ published moves
    let n := subscribers.length
    events.countP Event.isPanic = (failed moves).length ∧
    events.countP Event.isPanic ≤
      n * events.countP (!·.isPanic) + (failed moves).countP Event.isPanic ∧
    ((∀ e ∈ failed moves, e.isNotice = false) → events.length ≤
      (n * n + n + 1) * (m.fanOut.bus.held ++ (m.tellsAll (deeds moves)).flatten).length) := by
  intro events n
  obtain ⟨haccounts, hcaused, hpanics, _⟩ := accounts_run hbuild hrun
  refine ⟨hpanics, ?_, events_bounded hbuild hrun⟩
  have hsplit : (failed moves).length =
      (failed moves).countP (!·.isPanic) + (failed moves).countP Event.isPanic := by
    rw [List.length_eq_countP_add_countP Event.isPanic, Nat.add_comm]
    simp
  have hothers := haccounts.failures (!·.isPanic)
  have hbound : caused (!·.isPanic) moves ≤ n * events.countP (!·.isPanic) := hcaused _
  have htotal : events.countP Event.isPanic = (failed moves).length := hpanics
  omega

/-- A subscriber that fails on all events. -/
def stormer : Subscriber := ⟨"stormer", 1, fun _ => .error "boom"⟩

/-- A monitor with no other subscriber and a single place in the ring. -/
def stormed : Monitor := (Monitor.build { busCapacity := 1 } [stormer] none).1.toOption.get rfl

def malformed : Input := .config "<"

/-- An event waits that the subscriber will fail on. -/
def storm (e : Event) (k : Nat) : Site :=
  ⟨{ stormed with fanOut := ⟨⟨1, k + 1, [e], 1⟩, [.new stormer]⟩, cursor := k }, [none]⟩

def failure : List Order := [.turn, .take 0, .finish 0 (.error "boom")]

/-- The subscriber fails on the event that an input causes. -/
theorem panics_accounted_stormed : ∃ moves s,
    (start stormed).run? ([.submit malformed, .turn] ++ failure) = some (moves, s) ∧
      (published moves).countP Event.isPanic = 1 ∧ (failed moves).length = 1 ∧
      (stormed.fanOut.bus.held ++ published moves).length ≤
        3 * (stormed.fanOut.bus.held ++ (stormed.tellsAll (deeds moves)).flatten).length := by
  obtain ⟨moves, s, hrun, hpanics, hunfailed⟩ :=
    exists_run (start stormed) ([.submit malformed, .turn] ++ failure)
      (fun r => (published r.1).countP Event.isPanic = 1 ∧ ∀ e ∈ failed r.1, e.isNotice = false)
      (by decide +kernel)
  have hheld : stormed.fanOut.bus.held = [] := by decide +kernel
  have hbuild : (Monitor.build { busCapacity := 1 } [stormer] none).1 = .ok stormed := rfl
  obtain ⟨htotal, _, hbound⟩ := panics_accounted hbuild hrun
  rw [hheld, List.nil_append] at htotal
  exact ⟨moves, s, hrun, hpanics, htotal.symm.trans hpanics, hbound hunfailed⟩

/-- A failure on the event leaves the event that tells of it. -/
theorem storm_goes_on (e : Event) (k : Nat) : ∃ moves,
    (storm e k).run? failure = some (moves, storm (.panicked "stormer" "boom") (k + 1)) ∧
      published moves = [.panicked "stormer" "boom"] ∧ deeds moves = [] := by
  have hread : (storm e k).monitor.fanOut.bus.receive k = some (.event e, k + 1) := by
    simp [storm, Bus.receive, Bus.missed, Bus.unread, Bus.oldest]
  have hgoes : (storm e k).monitor.Unstopped := ⟨rfl, rfl, rfl⟩
  obtain ⟨output, hforward⟩ := Monitor.forward_of_event hread
  let told : Move :=
    ⟨.forwarded e [none], [], (storm e k).monitor.fanOut.bus.displaced (k + 1) []⟩
  have hmove : (storm e k).monitor.forwardMove? = some told := by
    rw [Monitor.forwardMove?_of_event hread]
    rfl
  let offered : Site := ⟨{ stormed with
    fanOut := ⟨⟨1, k + 1, [e], 1⟩, [⟨stormer, [e], true⟩]⟩, cursor := k + 1 }, [none]⟩
  have hfirst : (storm e k).follow? .turn = some ([told], offered) := by
    show (storm e k).turn? = _
    rw [turn?_of_turns (.forwarded hgoes hforward) rfl, Monitor.turnMoves_of_unstopped hgoes, hmove]
    rfl
  have hrest : ∃ moves, offered.run? [.take 0, .finish 0 (.error "boom")] =
      some (moves, storm (.panicked "stormer" "boom") (k + 1)) ∧
      published moves = [.panicked "stormer" "boom"] ∧ deeds moves = [] := ⟨_, rfl, rfl, rfl⟩
  obtain ⟨moves, hrun, hpublished, hdeeds⟩ := hrest
  refine ⟨told :: moves, ?_, hpublished, hdeeds⟩
  rw [failure, run?, hfirst]
  exact Option.map_eq_some_iff.mpr ⟨_, hrun, rfl⟩

theorem malformed_refused : ∃ err, malformed.RefusedFor (.malformedConfig err) := by
  have hnone : (Markup.Element.parse "<").toOption.isNone = true := by decide +kernel
  cases hparse : Markup.Element.parse "<" with
  | ok root =>
    rw [hparse] at hnone
    cases hnone
  | error err => exact ⟨err, .malformedConfig hparse⟩

/-- A malformed configuration causes one event. -/
theorem storm_breaks_out : ∃ e moves,
    (start stormed).run? [.submit malformed, .turn] = some (moves, storm e 0) ∧
      deeds moves = [.input malformed] ∧ published moves = [e] ∧ e.isPanic = false := by
  obtain ⟨err, hrefused⟩ := malformed_refused
  let e : Event := (Problem.malformedConfig err).event
  let asked : Site := ⟨{ stormed with inputs := [malformed] }, [none]⟩
  have hbus : stormed.fanOut.bus = ⟨1, 0, [], 1⟩ := by decide +kernel
  have hgoes : asked.monitor.Unstopped := ⟨rfl, rfl, rfl⟩
  have hforward : asked.monitor.forward = none := by
    refine Monitor.forward_of_none ?_
    show stormed.fanOut.bus.receive 0 = none
    rw [hbus]
    rfl
  have hprocess : (stormed.process malformed).1 = (storm e 0).monitor := by
    rw [Monitor.process_refused hrefused, Monitor.announce, hbus]
    rfl
  have htells : asked.monitor.tells (.input malformed) = [e] := by
    obtain ⟨before, after, hhandle, _⟩ := Monitor.handle_refused hrefused asked.monitor
    rw [Monitor.tells, hhandle, Monitor.filterMap_event?_lines]
  have hmoves : asked.monitor.turnMoves = [asked.monitor.deedMove (.input malformed)] := by
    rw [Monitor.turnMoves_of_unstopped hgoes, Monitor.forwardMove?_none hforward]
  have hturns : asked.monitor.Turns (.processed malformed) (storm e 0).monitor :=
    hprocess ▸ .processed hgoes hforward rfl
  have hturn : asked.follow? .turn =
      some ([asked.monitor.deedMove (.input malformed)], storm e 0) := by
    show asked.turn? = _
    rw [turn?_of_turns hturns rfl, hmoves]
    rfl
  have hsubmit : (start stormed).follow? (.submit malformed) = some ([], asked) := rfl
  refine ⟨e, [asked.monitor.deedMove (.input malformed)], ?_, rfl, ?_, rfl⟩
  · rw [run?, hsubmit]
    dsimp only
    rw [run?, hturn]
    rfl
  · exact (List.append_nil _).trans htells

theorem storms (k : Nat) : ∃ orders moves e, (start stormed).run? orders = some (moves, storm e k) ∧
    deeds moves = [.input malformed] ∧
    (published moves).countP Event.isPanic = k ∧ (published moves).countP (!·.isPanic) = 1 := by
  induction k with
  | zero =>
    obtain ⟨e, moves, hrun, hdeeds, hpublished, hpanic⟩ := storm_breaks_out
    refine ⟨_, moves, e, hrun, hdeeds, ?_, ?_⟩
    · rw [hpublished, List.countP_singleton, hpanic]
      rfl
    · rw [hpublished, List.countP_singleton, hpanic]
      rfl
  | succ k ih =>
    obtain ⟨orders, moves, e, hrun, hdeeds, hpanics, hothers⟩ := ih
    obtain ⟨more, hmore, hpublished, hnone⟩ := storm_goes_on e k
    have hall : published (moves ++ more) = published moves ++ [.panicked "stormer" "boom"] := by
      rw [published, List.flatMap_append, ← published, ← published, hpublished]
    refine ⟨_, _, _, run?_append hrun hmore, ?_, ?_, ?_⟩
    · rw [deeds_append, hdeeds, hnone]
      rfl
    · rw [hall, List.countP_append, hpanics]
      rfl
    · rw [hall, List.countP_append, hothers]
      rfl

/-- Nothing bounds the failures that one input causes by the other events. -/
theorem failures_feed_on_themselves :
    ∃ m, (Monitor.build { busCapacity := 1 } [stormer] none).1 = .ok m ∧
      ∀ k, ∃ orders moves s, (start m).run? orders = some (moves, s) ∧
        deeds moves = [.input malformed] ∧ (published moves).countP Event.isPanic = k ∧
        (published moves).countP (!·.isPanic) = 1 := by
  refine ⟨stormed, rfl, fun k => ?_⟩
  obtain ⟨orders, moves, e, hrun, hstorm⟩ := storms k
  exact ⟨orders, moves, storm e k, hrun, hstorm⟩

end Site

end Overseer
