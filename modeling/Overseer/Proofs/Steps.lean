import Overseer.Proofs.Announcements
import Overseer.Proofs.Runs

/-!
Calls, step by step: a report is charged, may have something assigned and may then have the
configuration published anew (`answer_steps`).  An invariant of a run is one that the steps keep.
-/

namespace Overseer

open Markup

namespace Supervisor

/-! ## Reactions -/

/-- What a report has assigned before anything is published, with the events that tell so: nothing,
or something to the elastic slice. -/
inductive Assigns (s : Supervisor) (state : Element) : Supervisor → List Event → Prop where
  | nothing : Assigns s state s []
  | elastic {elastic : Elastic} {slice : Slice} {c : InitConfig}
      (helastic : s.elastic = some elastic)
      (hslice : s.registry.find? elastic.slice = some slice) (hc : s.config = some c) :
      Assigns s state (s.reassigned elastic (s.reallocator.assign state c.root slice))
        (eventsOf .dynamicResourcesAssigned
          (reallocationEffects elastic (s.reallocator.assign state c.root slice)))

/-- A reaction assigns, and then it may regenerate the configuration. -/
theorem react_steps (s : Supervisor) (state : Element) (label : Label) :
    ∃ t events, Assigns s state t events ∧
      ((s.react state label).1 = t ∨ (s.react state label).1 = t.regenerate.1) ∧
      eventsOf .dynamicResourcesAssigned (s.react state label).2 = events ∧
      Announces reactionKinds (s.react state label).2 := by
  have hregenerated (t : Supervisor) : Announces reactionKinds t.regenerate.2 ∧
      eventsOf .dynamicResourcesAssigned t.regenerate.2 = [] :=
    ⟨(announces_regenerate t).mono (by simp [reactionKinds]),
      eventsOf_eq_nil (announces_regenerate t) (by decide)⟩
  rcases s.react_eq state label with
    ⟨_, hreact⟩ | ⟨_, hreact | ⟨elastic, helastic, _, _, hreact⟩⟩
  · rw [hreact]
    exact ⟨s, [], .nothing, .inr rfl, (hregenerated s).2, (hregenerated s).1⟩
  · rw [hreact]
    exact ⟨s, [], .nothing, .inl rfl, rfl, announces_nil⟩
  rw [hreact]
  cases hslice : s.registry.find? elastic.slice with
  | none =>
    have hmissing := announces_missing elastic.slice
    rw [reallocate_missing hslice]
    refine ⟨s, [], .nothing, .inr rfl, ?_, ?_⟩
    · rw [eventsOf_append, eventsOf_eq_nil hmissing (by decide), (hregenerated s).2]
      rfl
    · exact (hmissing.mono (by simp [reactionKinds])).append (hregenerated s).1
  | some slice =>
    cases hc : s.config with
    | none =>
      rw [reallocate_unconfigured hc hslice]
      exact ⟨s, [], .nothing, .inl rfl, rfl, announces_nil⟩
    | some c =>
      let a := s.reallocator.assign state c.root slice
      have hassigned : Announces reactionKinds (reallocationEffects elastic a) :=
        (announces_reallocationEffects (concerns_assign s.reallocator state c.root slice)
          elastic).mono (by simp [reactionKinds])
      refine ⟨_, _, .elastic helastic hslice hc, ?_⟩
      rw [reallocate_eq hc hslice]
      split
      · rw [eventsOf_append, (hregenerated _).2, List.append_nil]
        exact ⟨.inr rfl, rfl, hassigned.append (hregenerated _).1⟩
      · exact ⟨.inl rfl, rfl, hassigned⟩

theorem Assigns.equipped {s t : Supervisor} {state : Element} {events : List Event}
    (h : Assigns s state t events) (hs : s.Equipped) : t.Equipped := by
  cases h with
  | nothing => exact hs
  | elastic helastic hslice hc => exact ⟨hs.name, hs.root, hs.restart⟩

/-- The events of a report are those of the charges and those of the reaction. -/
theorem eventsOf_handleReport {s : Supervisor} {state : Element} (h : ¬ state.children.length ≤ 1)
    (label : Label) (k : EventKind) :
    eventsOf k (s.handleReport state label).2 =
      eventsOf k (s.registry.chargeAll (findingsOf state s.threshold label.scope)).2 ++
        eventsOf k ((s.charged state label).react state label).2 := by
  have hreported := announces_reportRestarts ((s.charged state label).react state label).1
  rw [handleReport_eq h label]
  simp only [eventsOf_append, eventsOf_eq_nil hreported (List.not_mem_nil), List.append_nil]

/-! ## Calls -/

/-- What a call makes of the supervisor. -/
inductive Steps (s : Supervisor) : Call → Supervisor → Prop where
  | refused {text : String} {e : Markup.Error} (h : InitConfig.parse text = .error e) :
      Steps s (.updateConfig text) s
  | accepted {text : String} {c : InitConfig} (h : InitConfig.parse text = .ok c) :
      Steps s (.updateConfig text) ({ s with config := some c } : Supervisor).regenerate.1
  | ignored {state : Element} {label : Label} (h : state.children.length ≤ 1) :
      Steps s (.handleReport state label) s
  | assigned {state : Element} {label : Label} {t : Supervisor} {events : List Event}
      {restartReporter : Reporter} (h : ¬ state.children.length ≤ 1)
      (hassigns : Assigns (s.charged state label) state t events)
      (hevents : eventsOf .dynamicResourcesAssigned (s.handleReport state label).2 = events) :
      Steps s (.handleReport state label) { t with restartReporter }
  | regenerated {state : Element} {label : Label} {t : Supervisor} {events : List Event}
      {restartReporter : Reporter} (h : ¬ state.children.length ≤ 1)
      (hassigns : Assigns (s.charged state label) state t events)
      (hevents : eventsOf .dynamicResourcesAssigned (s.handleReport state label).2 = events) :
      Steps s (.handleReport state label) { t.regenerate.1 with restartReporter }

theorem answer_steps (s : Supervisor) (call : Call) : Steps s call (s.answer call).1 := by
  cases call with
  | updateConfig text =>
    cases hparse : InitConfig.parse text with
    | error e =>
      simp only [answer, updateConfig, hparse]
      exact .refused hparse
    | ok c =>
      simp only [answer, updateConfig, hparse]
      exact .accepted hparse
  | handleReport state label =>
    by_cases hfew : state.children.length ≤ 1
    · simp only [answer, handleReport, if_pos hfew]
      exact .ignored hfew
    obtain ⟨t, events, hassigns, hreact, hevents, _⟩ :=
      (s.charged state label).react_steps state label
    have hcharges := announces_chargeAll (kind_findingsOf state s.threshold label.scope) s.registry
    have hall : eventsOf .dynamicResourcesAssigned (s.handleReport state label).2 = events := by
      rw [eventsOf_handleReport hfew, eventsOf_eq_nil hcharges (by decide), hevents]
      rfl
    simp only [answer, handleReport_eq hfew, reportRestarts]
    rcases hreact with hreact | hreact
    · rw [hreact]
      exact .assigned hfew hassigns hall
    · rw [hreact]
      exact .regenerated hfew hassigns hall

/-! ## Runs -/

/-- What every call keeps holds after any calls. -/
theorem run_invariant {P : Supervisor → Prop}
    (hanswer : ∀ {s texts}, s.Standing texts → P s → ∀ call, P (s.answer call).1)
    {s : Supervisor} {texts : List String} (h : s.Standing texts) (hs : P s) (calls : List Call) :
    P (s.run calls).1 := by
  induction calls generalizing s texts with
  | nil => exact hs
  | cons call calls ih =>
    obtain ⟨more, _, hafter, _⟩ := answer_standing h call
    exact ih hafter (hanswer h hs call)

end Supervisor

end Overseer
