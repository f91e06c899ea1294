import Overseer.Proofs.Commuting

/-!
What a report makes of each slice: the failures that are charged to it are counted and restart it,
and only the report of the sibling has something assigned (`find?_handleReport`).  A report from
inside a slice charges that slice with every failure, whatever the names of its children, so it is
confined to that slice.
-/

namespace Overseer

open Markup

namespace Supervisor

variable {s : Supervisor} {texts : List String} {c : InitConfig} {name : String} {old : Slice}

/-! ## One slice -/

/-- A regeneration under the configuration that a registry was made for carries out restarts and
does nothing else to a slice. -/
theorem find?_regenerate {reg : Registry} (hkeeps : InitConfig.Keeps c.root reg)
    (hnamed : InitConfig.Named c.root) {t : Supervisor} (hc : t.config = some c) (ht : t.Equipped)
    {marks : List String} (hprepared : Registry.Prepared marks reg t.registry) (name : String) :
    t.regenerate.1.registry.find? name =
      (t.registry.find? name).map Slice.updateInternalVersion := by
  rw [registry_regenerate hc ht]
  cases hfind : reg.find? name with
  | none =>
    have hout : name ∉ reg.names := Registry.find?_eq_none_iff.mp hfind
    have hnone : t.registry.find? name = none := by
      rw [Registry.find?_eq_none_iff, hprepared.names]
      exact hout
    have hlast := InitConfig.lastStart?_eq_none_iff.mpr (mt (hkeeps.started name).mpr hout)
    rw [InitConfig.Books.find?_update, hlast, hnone]
    rfl
  | some old =>
    obtain ⟨failures, dynamic, hready, _⟩ := hprepared.slices hfind
    have hstart := (hkeeps.started name).mp (Registry.mem_names_of_find? hfind)
    obtain ⟨start, hlast, hupdated⟩ := InitConfig.find?_update_of_named
      (b := ⟨t.registry, t.reallocator⟩) hnamed hready hstart
    obtain ⟨last, hentered, hquotas, hversion⟩ :=
      hkeeps.entered old (Registry.mem_of_find? hfind)
    rw [Registry.name_of_find? hfind, hlast] at hentered
    cases hentered
    rw [hupdated, hready]
    exact congrArg some (Slice.enter_of_mirrored hquotas hversion)

theorem find?_charged (hnodup : s.registry.names.Nodup) (state : Element) (label : Label)
    (hold : s.registry.find? name = some old) :
    (s.charged state label).registry.find? name = some (old.charge (s.faults state label name)) := by
  let charge (slice : Slice) := slice.charge (s.faults state label slice.name)
  have hcharge : ∀ slice, (charge slice).name = slice.name := fun _ => rfl
  have hmap : (s.charged state label).registry = s.registry.map charge := by
    rw [charged, Registry.chargeAll_eq_map hnodup, detections_findingsOf]
    rfl
  rw [hmap, Registry.find?_map hcharge, hold, Option.map_some]
  simp only [charge, Registry.name_of_find? hold]

/-- An assignment changes nothing of a slice but its dynamic quota. -/
theorem find?_reallocate (h : s.Standing texts) (hc : s.config = some c)
    (hnamed : InitConfig.Named c.root) (state : Element) (elastic : Elastic)
    (hold : s.registry.find? name = some old) :
    ∃ dynamic, (s.reallocate state elastic).1.registry.find? name = some { old with dynamic } := by
  have hkeeps := h.keeps c hc
  have hidle := hkeeps.idle old (Registry.mem_of_find? hold)
  cases hslice : s.registry.find? elastic.slice with
  | none =>
    rw [reallocate_missing hslice,
      find?_regenerate hkeeps hnamed hc h.equipped (Registry.prepared_refl _), hold,
      Option.map_some, Slice.updateInternalVersion_of_idle hidle]
    exact ⟨old.dynamic, rfl⟩
  | some slice =>
    let a := s.reallocator.assign state c.root slice
    have hconcerns : a.Concerns slice := concerns_assign ..
    have hassigned : ∃ dynamic, (s.reassigned elastic a).registry.find? name =
        some { old with dynamic } := by
      rw [find?_reassigned hslice hconcerns]
      by_cases hname : elastic.slice = name
      · obtain ⟨dynamic, hdynamic⟩ := hconcerns.slice
        rw [hname, hold] at hslice
        cases hslice
        exact ⟨dynamic, by rw [if_pos hname, hdynamic]⟩
      · exact ⟨old.dynamic, by rw [if_neg hname, hold]⟩
    obtain ⟨dynamic, hdynamic⟩ := hassigned
    refine ⟨dynamic, ?_⟩
    rw [reallocate_eq hc hslice]
    split
    · rw [find?_regenerate hkeeps hnamed (t := s.reassigned elastic a) hc
        (h.equipped.reassigned elastic a) (Registry.prepared_replace hslice hconcerns), hdynamic]
      exact congrArg some (Slice.updateInternalVersion_of_idle hidle)
    · exact hdynamic

/-! ## One report -/

/-- The failures that a report shows; with at most one element it says nothing yet. -/
def reported (s : Supervisor) (state : Element) (label : Label) : List Detection :=
  if state.children.length ≤ 1 then [] else detections state s.threshold label.scope

/-- What a report makes of a slice.  The failures that are charged to it are counted and restart it;
only the report of the sibling may change its dynamic quota. -/
theorem find?_handleReport (h : s.Standing texts)
    (hnamed : ∀ c, s.config = some c → InitConfig.Named c.root) (state : Element) (label : Label)
    (hold : s.registry.find? name = some old) :
    ∃ dynamic, (s.handleReport state label).1.registry.find? name =
        some { old.absorb (s.registry.attributedTo name (s.reported state label)) with dynamic } ∧
      ((∀ elastic, s.elastic = some elastic → label ≠ elastic.sibling) →
        dynamic = old.dynamic) := by
  have hne : s.registry ≠ [] := List.ne_nil_of_mem (Registry.mem_of_find? hold)
  obtain ⟨c, hc⟩ := h.sound.exists_config hne
  have hkeeps := h.keeps c hc
  have hidle := hkeeps.idle old (Registry.mem_of_find? hold)
  have hunchanged : old.absorb [] = old := rfl
  by_cases hfew : state.children.length ≤ 1
  · rw [handleReport, if_pos hfew, reported, if_pos hfew]
    exact ⟨old.dynamic, hold, fun _ => rfl⟩
  let fs := findingsOf state s.threshold label.scope
  have hfaults : s.registry.attributedTo name (s.reported state label) =
      s.faults state label name := by
    rw [reported, if_neg hfew, faults]
  have hreport : (s.handleReport state label).1.registry =
      ((s.charged state label).react state label).1.registry := by
    rw [handleReport_eq hfew]
    rfl
  rw [hreport, hfaults]
  rcases (s.charged state label).react_eq state label with
    ⟨_, hreact⟩ | ⟨hrequired, hreact⟩
  · have hprepared : Registry.Prepared (s.registry.marks fs) s.registry
        (s.charged state label).registry := Registry.prepared_chargeAll s.registry fs
    rw [hreact, find?_regenerate hkeeps (hnamed c hc) (t := s.charged state label) hc
      (h.equipped.charged state label) hprepared, find?_charged h.nodup state label hold,
      Option.map_some, Slice.updateInternalVersion_charge hidle]
    exact ⟨old.dynamic, rfl, fun _ => rfl⟩
  · -- no slice is to restart, so nothing was charged
    have hmarks : s.registry.marks fs = [] := Registry.marks_of_not_restartRequired hrequired
    have hnothing : s.faults state label name = [] := by
      have hcontains := s.registry.contains_marks fs name
      rw [hmarks, detections_findingsOf, List.contains_nil] at hcontains
      exact List.isEmpty_iff.mp (by simpa [faults] using hcontains.symm)
    rw [charged_of_marks_nil hmarks] at hreact ⊢
    rw [hnothing, hunchanged]
    rcases hreact with hreact | ⟨elastic, helastic, hlabel, _, hreact⟩
    · rw [hreact]
      exact ⟨old.dynamic, hold, fun _ => rfl⟩
    · obtain ⟨dynamic, hdynamic⟩ := find?_reallocate h hc (hnamed c hc) state elastic hold
      rw [hreact]
      exact ⟨dynamic, hdynamic, fun hother => absurd hlabel (hother elastic helastic)⟩

/-- A report tells of every failure in one event, in order. -/
theorem eventsOf_reported (s : Supervisor) (state : Element) (label : Label) :
    eventsOf .restartScheduled (s.handleReport state label).2 =
        (s.registry.attributed (s.reported state label)).map Detection.scheduled ∧
      eventsOf .unknownComponent (s.handleReport state label).2 =
        (s.registry.unattributed (s.reported state label)).map Detection.unknown := by
  by_cases hfew : state.children.length ≤ 1
  · rw [handleReport, if_pos hfew, reported, if_pos hfew]
    exact ⟨rfl, rfl⟩
  · rw [reported, if_neg hfew]
    exact eventsOf_failures hfew label

/-! ## Reports from inside a slice -/

/-- All failures that an init inside a slice reports are charged to that slice. -/
theorem attributed?_of_nested {label : Label} {runtime inside next : String} {rest : List String}
    (hlabel : label.segments = runtime :: inside :: next :: rest)
    (hinside : inside ∈ s.registry.names) {state : Element} {d : Detection}
    (hd : d ∈ s.reported state label) : s.registry.attributed? d = some inside := by
  have hscope : label.scope = .slice runtime inside := by
    rw [Label.scope, hlabel]
    rfl
  have hslice : d.slice = inside := by
    rw [reported, hscope] at hd
    split at hd
    · cases hd
    · obtain ⟨child, _, hchild⟩ := List.mem_flatMap.mp hd
      obtain ⟨failure, _, rfl⟩ := List.mem_map.mp hchild
      rfl
  rw [Registry.attributed?, hslice, if_pos hinside]

/-- Nothing but dynamic quotas differs outside one slice. -/
structure Confined (inside : String) (s t : Supervisor) : Prop where
  names : ∀ name, name ∈ t.registry.names ↔ name ∈ s.registry.names
  others : ∀ name old, name ≠ inside → s.registry.find? name = some old →
    ∃ dynamic, t.registry.find? name = some { old with dynamic }

/-- No slice that stays has another dynamic quota. -/
def KeepsQuotas (s t : Supervisor) : Prop :=
  ∀ name old new, s.registry.find? name = some old → t.registry.find? name = some new →
    new.dynamic = old.dynamic

/-- A report from inside a slice that there is changes no other one, whatever it says, but the quota
that it may have assigned as the report of the sibling; and it is of components that are known. -/
theorem nested_report_confined (settings : Settings) (calls : List Call)
    (hnamed : ∀ c, (after settings calls).config = some c → InitConfig.Named c.root)
    (label : Label) (runtime inside next : String) (rest : List String)
    (hlabel : label.segments = runtime :: inside :: next :: rest)
    (hinside : inside ∈ (after settings calls).registry.names) (state : Element) :
    let s := after settings calls
    let report := s.handleReport state label
    Confined inside s report.1 ∧
      (settings.siblingLabel ≠ some label → KeepsQuotas s report.1) ∧
      eventsOf .unknownComponent report.2 = [] := by
  intro s report
  obtain ⟨_, _, hstanding, _⟩ := run_new settings calls
  have hattributed {d : Detection} (hd : d ∈ s.reported state label) :
      s.registry.attributed? d = some inside := attributed?_of_nested hlabel hinside hd
  refine ⟨⟨?_, ?_⟩, ?_, ?_⟩
  · have hreport : Call.accepted? (.handleReport state label) = none := rfl
    exact answer_names hstanding hreport
  · intro name old hother hold
    have hnothing : s.registry.attributedTo name (s.reported state label) = [] := by
      rw [Registry.attributedTo, List.filter_eq_nil_iff]
      intro d hd
      simpa [hattributed hd] using hother.symm
    obtain ⟨dynamic, hfind, _⟩ := find?_handleReport hstanding hnamed state label hold
    rw [hnothing] at hfind
    exact ⟨dynamic, hfind⟩
  · intro hsibling name old new hold hnew
    obtain ⟨dynamic, hfind, hkept⟩ := find?_handleReport hstanding hnamed state label hold
    rw [hnew] at hfind
    cases hfind
    refine hkept fun elastic helastic hlabel => hsibling ?_
    rw [elastic_after, new, Option.map_eq_some_iff] at helastic
    obtain ⟨l, hl, rfl⟩ := helastic
    rw [Settings.siblingLabel, hl, hlabel]
    rfl
  · rw [(s.eventsOf_reported state label).2, List.map_eq_nil_iff, Registry.unattributed,
      List.filter_eq_nil_iff]
    intro d hd
    simp [hattributed hd]

/-- A report of one failing component; it also has a child that does not fail. -/
def faultReport (name fault : String) : Element :=
  writtenElement "state".toList []
    [.child (writtenElement "child".toList
      ([("name", escape name), (fault, "yes")].map InitConfig.written) []),
     .child (writtenElement "child".toList [] [])]

/-- A component inside `web` has a name like a component of `batch`. -/
theorem imitation_confined :
    let s := after batchSettings batchStarted
    let state := faultReport "batch -> disk" "cpu_fault"
    let report := s.handleReport state ⟨["init", "web", "state"]⟩
    s.config = some batchConfig ∧ InitConfig.Named batchConfig.root ∧
      s.registry.names = ["batch", "web"] ∧
      s.reported state ⟨["init", "web", "state"]⟩ =
        [⟨"web", "web -> batch -> disk", .cpuFault⟩] ∧
      Confined "web" s report.1 ∧ KeepsQuotas s report.1 ∧
      eventsOf .unknownComponent report.2 = [] := by
  have hstarted : (after batchSettings batchStarted).registry.names = ["batch", "web"] := by
    simp only [batchStarted, after_started]
    decide +kernel
  have hreported : (after batchSettings batchStarted).reported
      (faultReport "batch -> disk" "cpu_fault") ⟨["init", "web", "state"]⟩ =
        [⟨"web", "web -> batch -> disk", .cpuFault⟩] := by
    rw [reported, threshold_after]
    decide +kernel
  have hnamed : ∀ c, (after batchSettings batchStarted).config = some c →
      InitConfig.Named c.root := by
    intro c hc
    rw [Option.some.inj (hc.symm.trans config_batchStarted)]
    exact named_batch
  obtain ⟨hconfined, hquotas, hknown⟩ := nested_report_confined batchSettings batchStarted hnamed
    ⟨["init", "web", "state"]⟩ "init" "web" "state" [] rfl (by rw [hstarted]; decide)
    (faultReport "batch -> disk" "cpu_fault")
  exact ⟨config_batchStarted, named_batch, hstarted, hreported, hconfined, hquotas (by decide),
    hknown⟩

end Supervisor

end Overseer
