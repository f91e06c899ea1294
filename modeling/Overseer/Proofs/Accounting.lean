import Overseer.Proofs.Failures
import Overseer.Proofs.Restarts
import Overseer.Proofs.Steps

/-!
Failures are accounted for exactly: a report raises the counters of a slice by the failures that are
charged to it, and tells of each failure in one event.  No other step touches a counter of a slice
that stays (`KeepsFailures`).
-/

namespace Overseer

open Markup

/-! ## Events -/

/-- The event of a restart that a failure calls for. -/
def Detection.scheduled (d : Detection) : Event :=
  { kind := .restartScheduled, slice := some d.slice, component := some d.label,
    reason := some d.failure.word }

/-- The event of a failure that no slice can be charged with. -/
def Detection.unknown (d : Detection) : Event := (Problem.unknownComponent d.label).event

/-- What is logged and published of a failure, and it depends on whether some slice is charged with
it. -/
def Detection.told (d : Detection) (charged : Bool) : List Effect :=
  if charged then
    let slice := d.slice
    let label := d.label
    let kind := d.failure.word
    [.info s!"restart of '{slice}' scheduled, '{label}': {kind}", .publish d.scheduled]
  else
    [.warn ((Problem.unknownComponent d.label).message ++ ", restart request dropped"),
      .publish d.unknown]

namespace Registry

/-- The failures that some slice is charged with. -/
def attributed (reg : Registry) (ds : List Detection) : List Detection :=
  ds.filter fun d => (reg.attributed? d).isSome

/-- The failures that no slice is charged with. -/
def unattributed (reg : Registry) (ds : List Detection) : List Detection :=
  ds.filter fun d => (reg.attributed? d).isNone

theorem effects_schedule (reg : Registry) (d : Detection) :
    (reg.schedule d.slice d.label d.failure).2 = d.told (reg.attributed? d).isSome := by
  rw [← find?_isCharged, Option.isSome_map]
  simp only [schedule, markRestart]
  cases hmodify : modifyFirst (reg.isCharged d.slice d.label)
      (fun s => s.markRestart d.label d.failure) reg with
  | none =>
    rw [modifyFirst_eq_none_iff_find?.mp hmodify]
    rfl
  | some changed =>
    cases hfind : List.find? (reg.isCharged d.slice d.label) reg with
    | some s => rfl
    | none =>
      rw [modifyFirst_eq_none_iff_find?.mpr hfind] at hmodify
      cases hmodify

theorem effects_charge (reg : Registry) (f : Finding) :
    (reg.charge f).2 = [.warn f.warning, .publish f.event] ++
      f.detection?.toList.flatMap fun d => d.told (reg.attributed? d).isSome := by
  unfold charge Finding.detection?
  cases f.failure with
  | none => rfl
  | some failure =>
    rw [Option.map_some, Option.toList_some, List.flatMap_singleton, ← effects_schedule]

/-- Charging changes no names, so it tells of each finding what charging that alone would tell. -/
theorem effects_chargeAll (reg : Registry) (fs : List Finding) :
    (reg.chargeAll fs).2 = fs.flatMap fun f => (reg.charge f).2 := by
  induction fs generalizing reg with
  | nil => rfl
  | cons f fs ih =>
    have hcons : (reg.chargeAll (f :: fs)).2 =
        (reg.charge f).2 ++ ((reg.charge f).1.chargeAll fs).2 := rfl
    rw [hcons, ih, List.flatMap_cons]
    simp only [effects_charge, attributed?_congr (names_charge reg f)]

theorem eventsOf_schedule (reg : Registry) (d : Detection) (k : EventKind) :
    eventsOf k (reg.schedule d.slice d.label d.failure).2 =
      if (reg.attributed? d).isSome then eventsOf k [.publish d.scheduled]
      else eventsOf k [.publish d.unknown] := by
  rw [effects_schedule, Detection.told]
  split <;> rfl

theorem eventsOf_charge {f : Finding} (hf : f.event.kind ∈ Supervisor.findingKinds)
    (reg : Registry) :
    eventsOf .restartScheduled (reg.charge f).2 =
        (reg.attributed f.detection?.toList).map Detection.scheduled ∧
      eventsOf .unknownComponent (reg.charge f).2 =
        (reg.unattributed f.detection?.toList).map Detection.unknown := by
  have hfinding (k : EventKind) (hk : k ∉ Supervisor.findingKinds) :
      eventsOf k [.warn f.warning, .publish f.event] = [] :=
    eventsOf_eq_nil (Supervisor.announces_finding hf) hk
  unfold charge Finding.detection?
  cases f.failure with
  | none => exact ⟨hfinding _ (by decide), hfinding _ (by decide)⟩
  | some failure =>
    let d : Detection := { slice := f.slice, label := f.label, failure }
    have hschedule (k : EventKind) (hk : k ∉ Supervisor.findingKinds) :
        eventsOf k ([.warn f.warning, .publish f.event] ++
          (reg.schedule f.slice f.label failure).2) =
          if (reg.attributed? d).isSome then eventsOf k [.publish d.scheduled]
          else eventsOf k [.publish d.unknown] := by
      rw [eventsOf_append, hfinding k hk, List.nil_append]
      exact eventsOf_schedule reg d k
    refine ⟨(hschedule _ (by decide)).trans ?_, (hschedule _ (by decide)).trans ?_⟩
    · cases h : reg.attributed? d with
      | some name => simp [attributed, d, h, eventsOf, Effect.event?, Detection.scheduled]
      | none =>
        simp [attributed, d, h, eventsOf, Effect.event?, Detection.unknown, Problem.event]
    · cases h : reg.attributed? d with
      | some name => simp [unattributed, d, h, eventsOf, Effect.event?, Detection.scheduled]
      | none =>
        simp [unattributed, d, h, eventsOf, Effect.event?, Detection.unknown, Problem.event]

/-- Charging tells of every failure in one event, in order. -/
theorem eventsOf_chargeAll {fs : List Finding}
    (hfs : ∀ f ∈ fs, f.event.kind ∈ Supervisor.findingKinds) (reg : Registry) :
    let ds := fs.filterMap Finding.detection?
    eventsOf .restartScheduled (reg.chargeAll fs).2 =
        (reg.attributed ds).map Detection.scheduled ∧
      eventsOf .unknownComponent (reg.chargeAll fs).2 =
        (reg.unattributed ds).map Detection.unknown := by
  induction fs generalizing reg with
  | nil => exact ⟨rfl, rfl⟩
  | cons f fs ih =>
    obtain ⟨hf, hfs⟩ := List.forall_mem_cons.mp hfs
    obtain ⟨hscheduled, hunknown⟩ := eventsOf_charge hf reg
    obtain ⟨hmore, hothers⟩ := ih hfs (reg.charge f).1
    have hcons : (reg.chargeAll (f :: fs)).2 =
        (reg.charge f).2 ++ ((reg.charge f).1.chargeAll fs).2 := rfl
    have hnames := attributed?_congr (names_charge reg f)
    rw [attributed, hnames] at hmore
    rw [unattributed, hnames] at hothers
    rw [hcons, eventsOf_append, eventsOf_append, hscheduled, hunknown, hmore, hothers]
    simp only [detections_cons, attributed, unattributed, List.filter_append, List.map_append,
      and_self]

end Registry

namespace Supervisor

/-! ## Steps that count nothing -/

/-- The failures of every slice stay as they are, and no slice comes or goes. -/
def KeepsFailures (s t : Supervisor) : Prop :=
  ∀ name, (t.registry.find? name).map Slice.failures = (s.registry.find? name).map Slice.failures

theorem keepsFailures_refl (s : Supervisor) : s.KeepsFailures s := fun _ => rfl

theorem KeepsFailures.trans {s t u : Supervisor} (h : s.KeepsFailures t) (hu : t.KeepsFailures u) :
    s.KeepsFailures u := fun name => (hu name).trans (h name)

theorem keepsFailures_reassigned {s : Supervisor} {elastic : Elastic} {slice : Slice}
    {a : Reallocation} (hslice : s.registry.find? elastic.slice = some slice)
    (ha : a.Concerns slice) : s.KeepsFailures (s.reassigned elastic a) := by
  intro name
  obtain ⟨dynamic, hdynamic⟩ := ha.slice
  rw [find?_reassigned hslice ha]
  by_cases h : elastic.slice = name
  · rw [if_pos h, ← h, hslice, hdynamic]
    rfl
  · rw [if_neg h]

theorem Assigns.keepsFailures {s t : Supervisor} {state : Element} {events : List Event}
    (h : Assigns s state t events) : s.KeepsFailures t := by
  cases h with
  | nothing => exact keepsFailures_refl s
  | elastic helastic hslice hc =>
    exact keepsFailures_reassigned hslice (concerns_assign _ _ _ _)

theorem Assigns.config {s t : Supervisor} {state : Element} {events : List Event}
    (h : Assigns s state t events) : t.config = s.config := by
  cases h <;> rfl

theorem registry_regenerate {s : Supervisor} {c : InitConfig} (hc : s.config = some c)
    (hs : s.Equipped) : s.regenerate.1.registry =
      (InitConfig.Books.update ⟨s.registry, s.reallocator⟩ c.root).1.registry := by
  obtain ⟨reporter, _, _, hstate, _⟩ := regenerate_eq hc hs
  rw [hstate]
  rfl

/-- A slice that stays started keeps its failures when a configuration with names is published. -/
theorem failures_regenerate {s : Supervisor} {c : InitConfig} (hc : s.config = some c)
    (hs : s.Equipped) (hnamed : InitConfig.Named c.root) {name : String} {old : Slice}
    (hold : s.registry.find? name = some old)
    (hstart : name ∈ c.root.starts.map Element.startName) :
    (s.regenerate.1.registry.find? name).map Slice.failures = some old.failures := by
  obtain ⟨start, _, hfind⟩ := InitConfig.find?_update_of_named
    (b := ⟨s.registry, s.reallocator⟩) hnamed hold hstart
  rw [registry_regenerate hc hs, hfind]
  rfl

/-- So all failures stay when the same slices are started. -/
theorem keepsFailures_regenerate {s : Supervisor} {c : InitConfig} (hc : s.config = some c)
    (hs : s.Equipped) (hnamed : InitConfig.Named c.root)
    (hstarted : ∀ name, name ∈ s.registry.names ↔ name ∈ c.root.starts.map Element.startName) :
    s.KeepsFailures s.regenerate.1 := by
  intro name
  cases hfind : s.registry.find? name with
  | some old =>
    have hstart := (hstarted name).mp (Registry.mem_names_of_find? hfind)
    exact failures_regenerate hc hs hnamed hfind hstart
  | none =>
    have hstart := mt (hstarted name).mpr (Registry.find?_eq_none_iff.mp hfind)
    rw [registry_regenerate hc hs, InitConfig.Books.find?_update,
      InitConfig.lastStart?_eq_none_iff.mpr hstart]
    rfl

theorem KeepsFailures.names {s t : Supervisor} (h : s.KeepsFailures t) (name : String) :
    name ∈ t.registry.names ↔ name ∈ s.registry.names := by
  have hfind := congrArg Option.isNone (h name)
  rw [Option.isNone_map, Option.isNone_map] at hfind
  rw [← not_iff_not, ← Registry.find?_eq_none_iff, ← Registry.find?_eq_none_iff,
    ← Option.isNone_iff_eq_none, ← Option.isNone_iff_eq_none, hfind]

/-! ## Reports -/

/-- What a report makes of the failures of a slice. -/
theorem failures_handleReport {s : Supervisor} {texts : List String} (h : s.Standing texts)
    {c : InitConfig} (hc : s.config = some c) (hnamed : InitConfig.Named c.root) {state : Element}
    (hlong : ¬ state.children.length ≤ 1) (label : Label) (name : String) :
    ((s.handleReport state label).1.registry.find? name).map Slice.failures =
      ((s.registry.find? name).map Slice.failures).map
        (tallyAll (s.registry.attributedTo name (detections state s.threshold label.scope))) := by
  let charged := s.charged state label
  have hcharged : (charged.registry.find? name).map Slice.failures =
      ((s.registry.find? name).map Slice.failures).map
        (tallyAll (s.registry.attributedTo name (detections state s.threshold label.scope))) := by
    rw [← detections_findingsOf]
    exact Registry.failures_chargeAll _ _ name
  have hstarted : ∀ n, n ∈ charged.registry.names ↔ n ∈ c.root.starts.map Element.startName := by
    intro n
    rw [← (h.keeps c hc).started n]
    exact Iff.of_eq (congrArg (n ∈ ·) (Registry.names_chargeAll _ _))
  obtain ⟨t, events, hassigns, hreact, _⟩ := charged.react_steps state label
  have hkeeps : charged.KeepsFailures (charged.react state label).1 := by
    rcases hreact with hreact | hreact
    · rw [hreact]
      exact hassigns.keepsFailures
    · rw [hreact]
      refine hassigns.keepsFailures.trans (keepsFailures_regenerate (hassigns.config.trans hc)
        (hassigns.equipped (h.equipped.charged state label)) hnamed fun n => ?_)
      exact (hassigns.keepsFailures.names n).trans (hstarted n)
  rw [handleReport_eq hlong, ← hcharged]
  exact hkeeps name

/-! ## Labels -/

/-- Every slice has one record for a label. -/
def LabelsUnique (s : Supervisor) : Prop :=
  ∀ name rs, (s.registry.find? name).map Slice.failures = some rs → (labelsOf rs).Nodup

theorem LabelsUnique.of_keeps {s t : Supervisor} (h : s.LabelsUnique) (hkeeps : s.KeepsFailures t) :
    t.LabelsUnique := fun name rs hrs => h name rs ((hkeeps name).symm.trans hrs)

theorem LabelsUnique.charged {s : Supervisor} (h : s.LabelsUnique) (state : Element)
    (label : Label) : (s.charged state label).LabelsUnique := by
  intro name rs hrs
  rw [Supervisor.charged, Registry.failures_chargeAll, Option.map_eq_some_iff] at hrs
  obtain ⟨old, hold, rfl⟩ := hrs
  exact nodup_tallyAll _ (h name old hold)

/-- An update keeps the records of a slice or drops them with the slice. -/
theorem LabelsUnique.regenerate {s : Supervisor} (h : s.LabelsUnique) (hs : s.Equipped) :
    s.regenerate.1.LabelsUnique := by
  cases hc : s.config with
  | none =>
    rw [regenerate_unconfigured hc]
    exact h
  | some c =>
    intro name rs hrs
    rw [registry_regenerate hc hs, InitConfig.Books.find?_update, Option.map_map,
      Option.map_eq_some_iff] at hrs
    obtain ⟨start, _, rfl⟩ := hrs
    cases hold : (s.registry.find? name).filter (Registry.isStarted c.root) with
    | none => exact List.nodup_nil
    | some old =>
      exact h name old.failures (congrArg _ (Option.filter_eq_some_iff.mp hold).1)

theorem LabelsUnique.answer {s : Supervisor} {texts : List String} (hstanding : s.Standing texts)
    (h : s.LabelsUnique) (call : Call) : (s.answer call).1.LabelsUnique := by
  have hequipped := hstanding.equipped
  have hsteps := s.answer_steps call
  generalize (s.answer call).1 = after at hsteps ⊢
  cases hsteps with
  | refused => exact h
  | accepted =>
    exact LabelsUnique.regenerate h ⟨hequipped.name, hequipped.root, hequipped.restart⟩
  | ignored => exact h
  | assigned _ hassigns => exact (h.charged _ _).of_keeps hassigns.keepsFailures
  | regenerated _ hassigns =>
    exact ((h.charged _ _).of_keeps hassigns.keepsFailures).regenerate
      (hassigns.equipped (hequipped.charged _ _))

theorem answer_threshold {s : Supervisor} {texts : List String} (h : s.Standing texts)
    (call : Call) : (s.answer call).1.threshold = s.threshold := by
  rcases answer_cases h.equipped h.sound call with hrests | ⟨c, books, hrenews⟩
  · obtain ⟨_, _, _, hstate⟩ := hrests.state
    rw [hstate]
  · obtain ⟨_, _, _, _, _, hstate⟩ := hrenews.state
    rw [hstate]
    rfl

theorem threshold_after (settings : Settings) (calls : List Call) :
    (after settings calls).threshold = settings.heartbeatThreshold :=
  run_invariant (P := fun s => s.threshold = settings.heartbeatThreshold)
    (fun h hs call => (answer_threshold h call).trans hs) (standing_new settings) rfl calls

/-! ## The account -/

/-- What a report leaves.  The counters of every slice are raised by the failures that are charged
to it, its records keep their order, with one record for a label; and each failure is told of in
one event, in order. -/
structure Accounts (s : Supervisor) (threshold : Nat) (state : Element) (label : Label) :
    Prop where
  names : ∀ name, name ∈ (s.handleReport state label).1.registry.names ↔ name ∈ s.registry.names
  counted : ∀ name old new, s.registry.find? name = some old →
    (s.handleReport state label).1.registry.find? name = some new → ∀ l f,
      countOf new.failures l f = countOf old.failures l f +
        (detections state threshold label.scope).countP fun d =>
          s.registry.attributed? d = some name ∧ d.label = l ∧ d.failure = f
  ordered : ∀ name old new, s.registry.find? name = some old →
    (s.handleReport state label).1.registry.find? name = some new →
      labelsOf old.failures <+: labelsOf new.failures ∧ (labelsOf new.failures).Nodup
  scheduled : eventsOf .restartScheduled (s.handleReport state label).2 =
    (s.registry.attributed (detections state threshold label.scope)).map Detection.scheduled
  unknown : eventsOf .unknownComponent (s.handleReport state label).2 =
    (s.registry.unattributed (detections state threshold label.scope)).map Detection.unknown

/-- A report tells of every failure in one event, in order. -/
theorem eventsOf_failures {s : Supervisor} {state : Element} (hlong : ¬ state.children.length ≤ 1)
    (label : Label) :
    let ds := detections state s.threshold label.scope
    eventsOf .restartScheduled (s.handleReport state label).2 =
        (s.registry.attributed ds).map Detection.scheduled ∧
      eventsOf .unknownComponent (s.handleReport state label).2 =
        (s.registry.unattributed ds).map Detection.unknown := by
  have hcharges := Registry.eventsOf_chargeAll (kind_findingsOf state s.threshold label.scope)
    s.registry
  rw [detections_findingsOf] at hcharges
  have hevents (k : EventKind) (hk : k ∉ reactionKinds) :
      eventsOf k (s.handleReport state label).2 =
        eventsOf k (s.registry.chargeAll (findingsOf state s.threshold label.scope)).2 := by
    obtain ⟨_, _, _, _, _, hreacted⟩ := (s.charged state label).react_steps state label
    rw [eventsOf_handleReport hlong, eventsOf_eq_nil hreacted hk, List.append_nil]
  exact ⟨(hevents _ (by decide)).trans hcharges.1, (hevents _ (by decide)).trans hcharges.2⟩

theorem accounts {s : Supervisor} {texts : List String} (h : s.Standing texts)
    (hunique : s.LabelsUnique) {c : InitConfig} (hc : s.config = some c)
    (hnamed : InitConfig.Named c.root) {state : Element} (hlong : ¬ state.children.length ≤ 1)
    (label : Label) : s.Accounts s.threshold state label := by
  let ds := detections state s.threshold label.scope
  have hfailures : ∀ name old new, s.registry.find? name = some old →
      (s.handleReport state label).1.registry.find? name = some new →
      new.failures = tallyAll (s.registry.attributedTo name ds) old.failures := by
    intro name old new hold hnew
    have hmap := failures_handleReport h hc hnamed hlong label name
    rw [hold, hnew] at hmap
    exact Option.some.inj hmap
  obtain ⟨hscheduled, hunknown⟩ := eventsOf_failures (s := s) hlong label
  refine ⟨?_, ?_, ?_, hscheduled, hunknown⟩
  · have hreport : Call.accepted? (.handleReport state label) = none := rfl
    exact answer_names h hreport
  · intro name old new hold hnew l f
    rw [hfailures name old new hold hnew, countOf_tallyAll, Registry.attributedTo,
      List.countP_filter]
    congr 2
    funext d
    rw [Bool.and_comm, ← Bool.decide_and]
  · intro name old new hold hnew
    rw [hfailures name old new hold hnew]
    exact ⟨prefix_tallyAll _ _, nodup_tallyAll _ (hunique name _ (congrArg _ hold))⟩

/-- No counter of a slice that stays is touched. -/
def LeavesCounters (s t : Supervisor) : Prop :=
  ∀ name old new, s.registry.find? name = some old → t.registry.find? name = some new →
    new.failures = old.failures

theorem KeepsFailures.leavesCounters {s t : Supervisor} (h : s.KeepsFailures t) :
    s.LeavesCounters t := by
  intro name old new hold hnew
  have hmap := h name
  rw [hold, hnew] at hmap
  exact Option.some.inj hmap

theorem keepsFailures_reallocate {s : Supervisor} {texts : List String} (h : s.Standing texts)
    {c : InitConfig} (hc : s.config = some c) (hnamed : InitConfig.Named c.root) (state : Element)
    (elastic : Elastic) : s.KeepsFailures (s.reallocate state elastic).1 := by
  have hstarted := (h.keeps c hc).started
  cases hslice : s.registry.find? elastic.slice with
  | none =>
    rw [reallocate_missing hslice]
    exact keepsFailures_regenerate hc h.equipped hnamed hstarted
  | some slice =>
    have hassigned := keepsFailures_reassigned hslice
      (concerns_assign s.reallocator state c.root slice)
    rw [reallocate_eq hc hslice]
    split
    · refine hassigned.trans (keepsFailures_regenerate hc
        ⟨h.equipped.name, h.equipped.root, h.equipped.restart⟩ hnamed fun name => ?_)
      exact (hassigned.names name).trans (hstarted name)
    · exact hassigned

theorem leavesCounters_updateConfig {s : Supervisor} {texts : List String} (h : s.Standing texts)
    {text : String} {d : InitConfig}
    (hd : (s.answer (.updateConfig text)).1.config = some d) (hnamed : InitConfig.Named d.root) :
    s.LeavesCounters (s.answer (.updateConfig text)).1 := by
  obtain ⟨more, _, hafter, _⟩ := answer_standing h (.updateConfig text)
  have hstarted := (hafter.keeps d hd).started
  have hsteps := s.answer_steps (.updateConfig text)
  generalize (s.answer (.updateConfig text)).1 = after at hsteps hd hstarted ⊢
  cases hsteps with
  | refused => exact (keepsFailures_refl s).leavesCounters
  | @accepted _ c =>
    let t : Supervisor := { s with config := some c }
    have ht : t.Equipped := ⟨h.equipped.name, h.equipped.root, h.equipped.restart⟩
    have hsame : c = d := by
      obtain ⟨_, _, _, hstate, _⟩ := regenerate_eq (s := t) rfl ht
      have hconfig := congrArg Supervisor.config hstate
      exact Option.some.inj (hconfig.symm.trans hd)
    subst hsame
    intro name old new hold hnew
    have hstart := (hstarted name).mp (Registry.mem_names_of_find? hnew)
    have hfailures := failures_regenerate (s := t) rfl ht hnamed hold hstart
    rw [hnew] at hfailures
    exact Option.some.inj hfailures

/-- Failures are accounted for exactly in whatever state calls lead to, as long as the start entries
have names: by every report that says something, while nothing else touches a counter. -/
theorem failures_accounted (settings : Settings) (calls : List Call) (c : InitConfig)
    (hc : (after settings calls).config = some c) (hnamed : InitConfig.Named c.root) :
    let s := after settings calls
    (∀ state label, 1 < state.children.length →
      s.Accounts settings.heartbeatThreshold state label) ∧
    (∀ state label, state.children.length ≤ 1 → s.handleReport state label = (s, [])) ∧
    (∀ text d, (s.answer (.updateConfig text)).1.config = some d → InitConfig.Named d.root →
      s.LeavesCounters (s.answer (.updateConfig text)).1) ∧
    s.KeepsFailures s.regenerate.1 ∧
    ∀ state elastic, s.KeepsFailures (s.reallocate state elastic).1 := by
  intro s
  obtain ⟨_, _, hstanding, _⟩ := run_new settings calls
  have hstart := standing_new settings
  have hthreshold : s.threshold = settings.heartbeatThreshold := threshold_after settings calls
  have hunique : s.LabelsUnique := run_invariant LabelsUnique.answer hstart nofun calls
  refine ⟨?_, ?_, ?_, ?_, ?_⟩
  · intro state label hlong
    rw [← hthreshold]
    exact accounts hstanding hunique hc hnamed (Nat.not_le.mpr hlong) label
  · intro state label hfew
    rw [handleReport, if_pos hfew]
  · exact fun text d => leavesCounters_updateConfig hstanding
  · exact keepsFailures_regenerate hc hstanding.equipped hnamed (hstanding.keeps c hc).started
  · exact keepsFailures_reallocate hstanding hc hnamed

/-- One child has three failures; the other belongs to no slice. -/
def troubledState : Element :=
  writtenElement "state".toList []
    [.child (writtenElement "child".toList
      ([("name", "web"), ("skipped_heartbeats", "4"), ("cpu_fault", "yes")].map InitConfig.written)
      [.child (writtenElement "ram".toList ([("requested", "1")].map InitConfig.written) [])]),
     .child (writtenElement "child".toList
      ([("name", "ghost"), ("pd_fault", "yes")].map InitConfig.written) [])]

theorem web_failures_accounted :
    let s := after {} webStarted
    s.config = some (InitConfig.webConfig 1) ∧
      s.Accounts 3 troubledState ⟨["init", "state"]⟩ ∧
      s.registry.attributed (detections troubledState 3 (.runtime "init")) =
        [⟨"web", "web", .heartbeat⟩, ⟨"web", "web", .ramRequest⟩, ⟨"web", "web", .cpuFault⟩] ∧
      s.registry.unattributed (detections troubledState 3 (.runtime "init")) =
        [⟨"ghost", "ghost", .segFault⟩] ∧
      s.handleReport (writtenElement "state".toList [] []) ⟨["init", "state"]⟩ = (s, []) ∧
      s.LeavesCounters (s.answer (.updateConfig (InitConfig.webConfig 2).text)).1 := by
  intro s
  have hc : s.config = some (InitConfig.webConfig 1) := by
    show (after {} webStarted).config = _
    rw [config_after, webStarted, List.filterMap_cons_some (accepted?_own_text _)]
    rfl
  have hd : (s.answer (.updateConfig (InitConfig.webConfig 2).text)).1.config =
      some (InitConfig.webConfig 2) := by
    show ((after {} webStarted).answer _).1.config = _
    rw [← after_snoc, config_after, webStarted, List.singleton_append,
      List.filterMap_cons_some (accepted?_own_text _),
      List.filterMap_cons_some (accepted?_own_text _)]
    rfl
  have hnamed := web_staysStarted.named
  have hslices : s.registry.names = ["web"] := by
    show ((new {}).answer (.updateConfig (InitConfig.webConfig 1).text)).1.registry.names = _
    rw [answer_updateConfig]
    decide +kernel
  have hattributed : s.registry.attributed? = Registry.attributed? [{ name := "web" }] :=
    Registry.attributed?_congr hslices
  obtain ⟨haccounts, hignored, hupdates, _⟩ :=
    failures_accounted {} webStarted (InitConfig.webConfig 1) hc (hnamed _ (by simp))
  refine ⟨hc, haccounts troubledState _ (by decide +kernel), ?_, ?_,
    hignored _ _ (by decide +kernel), hupdates _ _ hd (hnamed _ (by simp))⟩
  · rw [Registry.attributed, hattributed]
    decide +kernel
  · rw [Registry.unattributed, hattributed]
    decide +kernel

end Supervisor

end Overseer
