import Overseer.Proofs.Isolation

/-!
What the loop reads off the bus.  A `Transcript` accounts for all that was published, event by event
and with a count for every loss.  Every run of a circuit leaves one, up to what is still pending at
its end (`Circuit.Run.transcript`).
-/

namespace Overseer

/-! ## Transcripts -/

/-- Readings account for published events: each is read, or counted among those that were missed, in
the order of publication.  What is not accounted for is the rest. -/
inductive Transcript : List Received → List Event → List Event → Prop where
  | nil (log : List Event) : Transcript [] log log
  | event (e : Event) {rs : List Received} {log rest : List Event} (h : Transcript rs log rest) :
      Transcript (.event e :: rs) (e :: log) rest
  | lagged (skipped : List Event) {rs : List Received} {log rest : List Event}
      (h : Transcript rs log rest) :
      Transcript (.lagged skipped.length :: rs) (skipped ++ log) rest

variable {rs more : List Received} {log rest last : List Event}

theorem Transcript.append_log (h : Transcript rs log rest) (es : List Event) :
    Transcript rs (log ++ es) (rest ++ es) := by
  induction h with
  | nil log => exact .nil _
  | event e _ ih => exact .event e ih
  | lagged skipped _ ih =>
    rw [List.append_assoc]
    exact .lagged skipped ih

theorem Transcript.eq_of_nil (h : Transcript [] log rest) : rest = log := by
  cases h
  rfl

theorem Transcript.trans (h : Transcript rs log rest) (hmore : Transcript more rest last) :
    Transcript (rs ++ more) log last := by
  induction h with
  | nil log => exact hmore
  | event e _ ih => exact .event e (ih hmore)
  | lagged skipped _ ih => exact .lagged skipped (ih hmore)

/-! ## The ring -/

namespace Bus

/-- What was sent and a receiver has not come to yet.  The ring still holds the latest of it. -/
structure Pending (b : Bus) (cursor : Nat) (pend : List Event) : Prop where
  counted : pend.length = b.sent - cursor
  held : b.unread cursor <:+ pend

variable {b : Bus} {cursor next n : Nat} {pend es : List Event} {e : Event}

theorem Sound.length_unread (h : b.Sound cursor) :
    (b.unread cursor).length + b.missed cursor = b.sent - cursor := by
  obtain ⟨_, hcounted, hbehind⟩ := h
  rw [unread, List.length_drop, missed, oldest]
  omega

theorem sent_publishAll (hlistened : b.receivers ≠ 0) (es : List Event) :
    (b.publishAll es).sent = b.sent + es.length := by
  induction es generalizing b with
  | nil => rfl
  | cons e es ih =>
    have hreceivers := (b.frame_publish e).2
    have hsent : (b.publish e).sent = b.sent + 1 := by rw [publish, if_neg hlistened]
    rw [publishAll, List.foldl_cons, ← publishAll, ih (hreceivers ▸ hlistened), hsent,
      List.length_cons]
    omega

theorem Pending.publishAll (h : b.Pending cursor pend) (hb : b.Sound cursor)
    (hlistened : b.receivers ≠ 0) (es : List Event) :
    (b.publishAll es).Pending cursor (pend ++ es) where
  counted := by
    have hbehind := hb.behind
    rw [List.length_append, h.counted, sent_publishAll hlistened]
    omega
  held := by
    obtain ⟨skipped, rfl⟩ := h.held
    rw [hb.unread_publishAll hlistened, List.append_assoc]
    exact (List.drop_suffix _ _).trans (List.suffix_append _ _)

/-- If nothing was missed, all that is pending can be read. -/
theorem Pending.eq_unread (h : b.Pending cursor pend) (hb : b.Sound cursor)
    (hmissed : b.missed cursor = 0) : pend = b.unread cursor := by
  have hlength := hb.length_unread
  exact (h.held.eq_of_length (by rw [h.counted]; omega)).symm

theorem missed_of_event (h : b.receive cursor = some (.event e, next)) : b.missed cursor = 0 := by
  by_contra hmissed
  rw [receive, if_pos hmissed] at h
  cases h

theorem receive_eq_none (h : b.receive cursor = none) :
    b.missed cursor = 0 ∧ b.unread cursor = [] := by
  unfold receive at h
  split at h
  · cases h
  · rename_i hmissed
    split at h
    · rename_i hunread
      exact ⟨not_not.mp hmissed, hunread⟩
    · cases h

/-- The next event that is pending is read. -/
theorem Pending.read_event (h : b.Pending cursor pend) (hb : b.Sound cursor)
    (hread : b.receive cursor = some (.event e, next)) :
    pend = e :: b.unread next ∧ b.Pending next (b.unread next) := by
  obtain ⟨rfl, hunread⟩ := receive_event hread
  have hmissed := missed_of_event hread
  have hlength := hb.length_unread
  rw [hunread, List.length_cons] at hlength
  refine ⟨(h.eq_unread hb hmissed).trans hunread, ?_, List.suffix_refl _⟩
  omega

/-- A receiver that fell behind is told how much of it is no longer held. -/
theorem Pending.read_lagged (h : b.Pending cursor pend) (hb : b.Sound cursor)
    (hread : b.receive cursor = some (.lagged n, next)) :
    ∃ skipped, skipped.length = n ∧ pend = skipped ++ b.unread next ∧
      b.Pending next (b.unread next) := by
  obtain ⟨skipped, hpend⟩ := h.held
  obtain ⟨hn, _, hmissed, hunread⟩ := receive_lagged hread
  have hlength := hb.length_unread
  have hnext := (hb.receive hread).length_unread
  have hcounted := congrArg List.length hpend
  rw [List.length_append, h.counted] at hcounted
  refine ⟨skipped, by omega, by rw [hunread, hpend], by omega, List.suffix_refl _⟩

end Bus

/-! ## Circuits -/

/-- What the loop reads off the bus in a move. -/
def Move.reading? (move : Move) : Option Received :=
  match move.cause with
  | .forwarded e _ => some (.event e)
  | .lagged missed => some (.lagged missed)
  | _ => none

def readings (moves : List Move) : List Received := moves.filterMap Move.reading?

theorem readings_of_deed {move : Move} {deed : Deed} (h : move.deed? = some deed) :
    readings [move] = [] := by
  unfold Move.deed? at h
  split at h
  · rename_i own hown
    simp [readings, Move.reading?, hown]
  · cases h

def Received.event? : Received → Option Event
  | .event e => some e
  | .lagged _ => none

theorem event?_readings (moves : List Move) :
    (readings moves).filterMap Received.event? = moves.filterMap Move.forwarded? := by
  rw [readings, List.filterMap_filterMap]
  refine List.filterMap_congr fun move _ => ?_
  unfold Move.reading? Move.forwarded?
  cases move.cause <;> rfl

namespace Circuit

variable {c d : Circuit} {move : Move} {moves : List Move} {pend : List Event}

def Pending (c : Circuit) (pend : List Event) : Prop := c.bus.Pending c.cursor pend

/-- A move reads what comes next of all that is pending, and what it publishes comes last. -/
theorem Step.transcript (h : c.Step move d) (hc : c.Sound) (hpend : c.Pending pend) :
    ∃ rest, d.Pending rest ∧ Transcript (readings [move]) (pend ++ move.published) rest := by
  cases h with
  | deed deed es hlistened => exact ⟨_, hpend.publishAll hc hlistened es, .nil _⟩
  | @forwarded e cursor hlistened hread =>
    obtain ⟨rfl, hrest⟩ := hpend.read_event hc hread
    have hsound : c.bus.Sound cursor := hc.receive hread
    exact ⟨_, hrest.publishAll hsound hlistened (notices e c.channels), .event e (.nil _)⟩
  | lagged hread =>
    obtain ⟨skipped, rfl, rfl, hrest⟩ := hpend.read_lagged hc hread
    refine ⟨_, hrest, ?_⟩
    rw [List.append_nil]
    exact .lagged skipped (.nil _)
  | taken _ _ _ =>
    refine ⟨pend, hpend, ?_⟩
    rw [List.append_nil]
    exact .nil pend
  | finished hlistened _ _ outcome => exact ⟨_, hpend.publishAll hc hlistened _, .nil _⟩
  | quiet receivers =>
    refine ⟨pend, ⟨hpend.counted, hpend.held⟩, ?_⟩
    rw [show Move.quiet.published = [] from rfl, List.append_nil]
    exact .nil pend

/-- What a run reads accounts for all that was pending or published in it, up to what is pending at
the end. -/
theorem Run.transcript (h : c.Run moves d) (hc : c.Sound) (hpend : c.Pending pend) :
    ∃ rest, d.Pending rest ∧ Transcript (readings moves) (pend ++ published moves) rest := by
  induction h generalizing pend with
  | nil c =>
    refine ⟨pend, hpend, ?_⟩
    rw [show published [] = [] from rfl, List.append_nil]
    exact .nil pend
  | @cons c d k move moves hstep _ ih =>
    obtain ⟨mid, hmid, hfirst⟩ := hstep.transcript hc hpend
    obtain ⟨rest, hrest, hlater⟩ := ih (hstep.sound hc) hmid
    refine ⟨rest, hrest, ?_⟩
    have hreadings : readings (move :: moves) = readings [move] ++ readings moves :=
      List.filterMap_append (l := [move])
    have hpublished : published (move :: moves) = move.published ++ published moves := rfl
    rw [hreadings, hpublished, ← List.append_assoc]
    exact (hfirst.append_log (published moves)).trans hlater

theorem Run.sound (h : c.Run moves d) (hc : c.Sound) : d.Sound := by
  induction h with
  | nil c => exact hc
  | cons hstep _ ih => exact ih (hstep.sound hc)

theorem Run.length_channels (h : c.Run moves d) : d.channels.length = c.channels.length := by
  induction h with
  | nil c => rfl
  | cons hstep _ ih => exact ih.trans hstep.length_channels

end Circuit

end Overseer
