import Overseer.Proofs.Calls

/-!
Which kinds of events each step publishes.  `Announces ks es` bounds the kinds, so that the events
of any other kind are those of the step that may publish it.
-/

namespace Overseer

open Markup

/-- The events of a kind among some effects, in order. -/
def eventsOf (k : EventKind) (es : List Effect) : List Event :=
  (es.filterMap Effect.event?).filter (·.kind == k)

@[simp] theorem eventsOf_append (k : EventKind) (es fs : List Effect) :
    eventsOf k (es ++ fs) = eventsOf k es ++ eventsOf k fs := by
  rw [eventsOf, List.filterMap_append, List.filter_append]
  rfl

/-- Every event among the effects is of one of these kinds. -/
def Announces (ks : List EventKind) (es : List Effect) : Prop :=
  ∀ e, .publish e ∈ es → e.kind ∈ ks

variable {ks ls : List EventKind} {es fs : List Effect}

theorem Announces.mono (h : Announces ks es) (hsub : ks ⊆ ls) : Announces ls es :=
  fun e he => hsub (h e he)

theorem Announces.append (h : Announces ks es) (hmore : Announces ks fs) :
    Announces ks (es ++ fs) := by
  intro e he
  rcases List.mem_append.mp he with he | he
  · exact h e he
  · exact hmore e he

theorem eventsOf_eq_nil {k : EventKind} (h : Announces ks es) (hk : k ∉ ks) :
    eventsOf k es = [] := by
  rw [eventsOf, List.filter_eq_nil_iff]
  intro event hevent
  obtain ⟨e, he, hsome⟩ := List.mem_filterMap.mp hevent
  cases e with
  | log line => cases hsome
  | write report content => cases hsome
  | publish f =>
    cases hsome
    rw [beq_iff_eq]
    intro hkind
    exact hk (hkind ▸ h _ he)

theorem filterMap_event?_eq_nil (h : Announces [] es) : es.filterMap Effect.event? = [] := by
  rw [List.filterMap_eq_nil_iff]
  intro e he
  cases e with
  | log line | write report content => rfl
  | publish event => cases h event he

theorem announces_of_isDebug (h : ∀ e ∈ es, e.IsDebug) : Announces [] es := by
  intro event he
  obtain ⟨text, htext⟩ := h _ he
  cases htext

/-- A line of the log is no event. -/
theorem Announces.log (h : Announces ks es) (line : LogLine) : Announces ks (.log line :: es) := by
  intro event he
  rcases List.mem_cons.mp he with he | he
  · cases he
  · exact h event he

theorem announces_nil : Announces ks [] := fun _ he => absurd he List.not_mem_nil

theorem announces_publish {event : Event} (h : event.kind ∈ ks) :
    Announces ks [.publish event] := by
  intro e he
  cases List.mem_singleton.mp he
  exact h

theorem announces_generate (r : Reporter) (draft : Draft) :
    Announces [] (r.generate draft).effects := by
  intro event he
  rcases r.effects_generate draft _ he with ⟨text, htext⟩ | ⟨text, htext⟩
  · cases htext
  · cases htext

namespace Supervisor

/-! ## Reports that are written -/

theorem announces_publish_root (s : Supervisor) (root : Element) :
    Announces [.configRegenerated] (s.publish root).2 := by
  have hgenerated := (announces_generate s.configReporter
    (InitConfig.draft root s.registry)).mono (List.nil_subset [.configRegenerated])
  unfold publish
  dsimp only
  split
  · exact hgenerated.append (announces_nil.log _)
  · exact hgenerated.append ((announces_publish (List.mem_singleton_self _)).log _)

theorem announces_regenerate (s : Supervisor) :
    Announces [.configRegenerated] s.regenerate.2 := by
  cases hc : s.config with
  | none =>
    rw [regenerate_unconfigured hc]
    exact announces_nil.log _
  | some c =>
    rw [regenerate_of_config hc]
    have hbooked := announces_of_isDebug (isDebug_update ⟨s.registry, s.reallocator⟩ c.root)
    exact (hbooked.mono (List.nil_subset _)).append (announces_publish_root _ _)

theorem announces_reportRestarts (s : Supervisor) : Announces [] s.reportRestarts.2 := by
  refine (announces_generate s.restartReporter _).append ?_
  split
  · exact announces_nil
  · exact announces_nil.log _

/-! ## Charges -/

/-- The kinds of the events that charging findings publishes. -/
def chargeKinds : List EventKind := findingKinds ++ [.restartScheduled, .unknownComponent]

theorem announces_schedule (reg : Registry) (slice label : String) (failure : Failure) :
    Announces [.restartScheduled, .unknownComponent] (reg.schedule slice label failure).2 := by
  unfold Registry.schedule
  split
  · exact (announces_publish (List.mem_cons_self ..)).log _
  · rename_i p hp
    have hkind : p.event.kind = .unknownComponent := by
      unfold Registry.markRestart at hp
      split at hp
      · cases hp
      · cases hp
        rfl
    refine (announces_publish ?_).log _
    rw [hkind]
    decide

theorem announces_finding {f : Finding} (hf : f.event.kind ∈ findingKinds) :
    Announces findingKinds [.warn f.warning, .publish f.event] :=
  (announces_publish hf).log _

theorem announces_charge {f : Finding} (hf : f.event.kind ∈ findingKinds) (reg : Registry) :
    Announces chargeKinds (reg.charge f).2 := by
  have hfinding : Announces chargeKinds [.warn f.warning, .publish f.event] :=
    (announces_finding hf).mono (List.subset_append_left _ _)
  unfold Registry.charge
  split
  · exact hfinding
  · exact hfinding.append ((announces_schedule reg _ _ _).mono (List.subset_append_right _ _))

theorem announces_chargeAll {fs : List Finding} (hfs : ∀ f ∈ fs, f.event.kind ∈ findingKinds)
    (reg : Registry) : Announces chargeKinds (reg.chargeAll fs).2 := by
  induction fs generalizing reg with
  | nil => exact announces_nil
  | cons f fs ih =>
    obtain ⟨hf, hfs⟩ := List.forall_mem_cons.mp hfs
    exact (announces_charge hf reg).append (ih hfs _)

/-! ## Reallocations -/

/-- The event of an assignment. -/
def assignmentEvent (elastic : Elastic) (a : Reallocation) : Event :=
  { kind := .dynamicResourcesAssigned, slice := some elastic.slice, caps := a.assigned.caps,
    ram := a.assigned.ram }

theorem announces_problems {a : Reallocation} {s : Slice} (ha : a.Concerns s) :
    Announces [.reallocationInfeasible]
      (a.problems.flatMap fun p => [.error p.message, .publish p.event]) := by
  intro event he
  obtain ⟨p, hp, he⟩ := List.mem_flatMap.mp he
  obtain ⟨resource, slice, total, configured, rfl⟩ := ha.problems p hp
  rcases List.mem_cons.mp he with he | he
  · cases he
  · cases List.mem_singleton.mp he
    exact List.mem_singleton_self _

theorem announces_totals (availability : Option Availability) (elastic : Elastic) :
    Announces [] (availability.toList.map fun availability =>
      let init := elastic.sibling.parent.render
      let text := availability.render
      .info s!"total resources of '{init}': {text}") := by
  intro event he
  obtain ⟨availability, _, he⟩ := List.mem_map.mp he
  cases he

theorem announces_reallocationEffects {a : Reallocation} {s : Slice} (ha : a.Concerns s)
    (elastic : Elastic) : Announces [.reallocationInfeasible, .dynamicResourcesAssigned]
      (reallocationEffects elastic a) := by
  refine Announces.append (Announces.append ?_ ((announces_problems ha).mono (by simp))) ?_
  · exact (announces_totals a.availability elastic).mono (List.nil_subset _)
  · split
    · exact announces_publish (by simp)
    · exact announces_nil

/-- What was assigned is told in one event, and if nothing was there is none. -/
theorem assignments_reallocationEffects {a : Reallocation} {s : Slice} (ha : a.Concerns s)
    (elastic : Elastic) : eventsOf .dynamicResourcesAssigned (reallocationEffects elastic a) =
      if a.updated then [assignmentEvent elastic a] else [] := by
  have hlogged := announces_totals a.availability elastic
  rw [reallocationEffects, eventsOf_append, eventsOf_append, eventsOf_eq_nil hlogged (by simp),
    eventsOf_eq_nil (announces_problems ha) (by decide)]
  split <;> rfl

theorem eventsOf_problems {ps : List Problem}
    (h : ∀ p ∈ ps, ∃ resource slice total configured,
      p = .resourcesInfeasible resource slice total configured) :
    eventsOf .reallocationInfeasible (ps.flatMap fun p => [.error p.message, .publish p.event]) =
      ps.map Problem.event := by
  induction ps with
  | nil => rfl
  | cons p ps ih =>
    obtain ⟨⟨resource, slice, total, configured, rfl⟩, hrest⟩ := List.forall_mem_cons.mp h
    rw [List.flatMap_cons, eventsOf_append, ih hrest]
    rfl

/-- The problems of an assignment are told one by one. -/
theorem problems_reallocationEffects {a : Reallocation} {s : Slice} (ha : a.Concerns s)
    (elastic : Elastic) : eventsOf .reallocationInfeasible (reallocationEffects elastic a) =
      a.problems.map Problem.event := by
  have htold : Announces [.dynamicResourcesAssigned]
      (if a.updated then [.publish (assignmentEvent elastic a)] else []) := by
    split
    · exact announces_publish (List.mem_singleton_self _)
    · exact announces_nil
  rw [reallocationEffects, eventsOf_append, eventsOf_append,
    eventsOf_eq_nil (announces_totals a.availability elastic) List.not_mem_nil,
    eventsOf_problems ha.problems, List.nil_append]
  exact (congrArg _ (eventsOf_eq_nil htold (by decide))).trans (List.append_nil _)

/-- The kinds of the events that a reaction to a report publishes. -/
def reactionKinds : List EventKind :=
  [.configRegenerated, .elasticSliceMissing, .reallocationInfeasible, .dynamicResourcesAssigned]

theorem announces_missing (name : String) :
    let p := Problem.elasticSliceMissing name
    Announces [.elasticSliceMissing] [.warn p.message, .publish p.event] :=
  (announces_publish (List.mem_singleton_self _)).log _

end Supervisor

end Overseer
