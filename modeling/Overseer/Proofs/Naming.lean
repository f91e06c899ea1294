import Mathlib.Data.List.Count
import Overseer.Proofs.Confinement

/-!
Which slice the event of a restart names.  It names the one that the failure is reported for, while
the one that is charged and restarted may be another, found by the label of the component.  Events
that name the latter agree with what a report does (`namesRestarts_charges`); the events that are
told agree with it just if every failure is reported for a slice that there is.
-/

namespace Overseer

open Markup

theorem Failure.word_inj {f g : Failure} (h : f.word = g.word) : f = g := by
  cases f <;> cases g <;> simp_all [word]

theorem Detection.scheduled_inj {d e : Detection} (h : d.scheduled = e.scheduled) : d = e := by
  obtain ⟨slice, label, failure⟩ := d
  obtain ⟨slice', label', failure'⟩ := e
  simp only [scheduled, Event.mk.injEq, Option.some.injEq] at h
  obtain ⟨-, hslice, hlabel, hword, -⟩ := h
  rw [hslice, hlabel, Failure.word_inj hword]

namespace Registry

variable {reg : Registry} {ds : List Detection} {name : String}

theorem mem_names_of_attributed? {d : Detection} (h : reg.attributed? d = some name) :
    name ∈ reg.names := by
  unfold attributed? at h
  split at h
  · rename_i hslice
    cases h
    exact hslice
  · exact List.mem_of_find?_eq_some h

/-- The failures that some slice is charged with, each for the slice that is. -/
def charges (reg : Registry) (ds : List Detection) : List Detection :=
  ds.filterMap fun d => (reg.attributed? d).map fun name => { d with slice := name }

theorem mem_charges {d : Detection} :
    d ∈ reg.charges ds ↔ ∃ e ∈ ds, reg.attributed? e = some d.slice ∧
      e.label = d.label ∧ e.failure = d.failure := by
  simp only [charges, List.mem_filterMap, Option.map_eq_some_iff]
  constructor
  · rintro ⟨e, he, name, hname, rfl⟩
    exact ⟨e, he, hname, rfl, rfl⟩
  · rintro ⟨e, he, hname, hlabel, hfailure⟩
    refine ⟨e, he, d.slice, hname, ?_⟩
    rw [hlabel, hfailure]

theorem count_charges (d : Detection) : (reg.charges ds).count d =
    (reg.attributedTo d.slice ds).countP fun e => e.label = d.label ∧ e.failure = d.failure := by
  rw [charges, List.count, List.countP_filterMap, attributedTo, List.countP_filter]
  congr 1
  funext e
  obtain ⟨slice, label, failure⟩ := d
  cases reg.attributed? e with
  | none => simp
  | some name =>
    simp [Bool.beq_eq_decide_eq, Bool.and_comm (decide (name = slice))]

theorem exists_charge_iff :
    (∃ d ∈ reg.charges ds, d.slice = name) ↔ reg.attributedTo name ds ≠ [] := by
  constructor
  · rintro ⟨d, hd, rfl⟩
    obtain ⟨e, he, hcharged, _⟩ := mem_charges.mp hd
    exact List.ne_nil_of_mem (List.mem_filter.mpr ⟨he, decide_eq_true hcharged⟩)
  · intro hne
    obtain ⟨e, he⟩ := List.exists_mem_of_ne_nil _ hne
    obtain ⟨hmem, hcharged⟩ := List.mem_filter.mp he
    exact ⟨{ e with slice := name },
      mem_charges.mpr ⟨e, hmem, of_decide_eq_true hcharged, rfl, rfl⟩, rfl⟩

/-- Failures that are reported for slices that there are are charged to these. -/
theorem charges_eq_attributed (h : ∀ d ∈ reg.attributed ds, d.slice ∈ reg.names) :
    reg.charges ds = reg.attributed ds := by
  rw [charges, attributed, ← List.filterMap_eq_filter]
  refine List.filterMap_congr fun d hd => ?_
  cases hcharged : reg.attributed? d with
  | none => simp [Option.guard, hcharged]
  | some name =>
    have hslice := h d (List.mem_filter.mpr ⟨hd, by rw [hcharged]; rfl⟩)
    rw [attributed?, if_pos hslice] at hcharged
    cases hcharged
    simp [Option.guard, attributed?, hslice]

end Registry

namespace Supervisor

/-- The events name the slices that a report restarts, and for each failure that it counts the one
whose record counts it. -/
structure NamesRestarts (s : Supervisor) (state : Element) (label : Label) (events : List Event) :
    Prop where
  named : ∀ e ∈ events, ∃ d : Detection, e = d.scheduled ∧ d.slice ∈ s.registry.names
  counted : ∀ name old new, s.registry.find? name = some old →
    (s.handleReport state label).1.registry.find? name = some new → ∀ l f,
      countOf new.failures l f = countOf old.failures l f +
        events.count (Detection.scheduled ⟨name, l, f⟩)
  restarted : ∀ name old new, s.registry.find? name = some old →
    (s.handleReport state label).1.registry.find? name = some new →
      new.internalVersion = old.internalVersion +
        if some name ∈ events.map Event.slice then 1 else 0

theorem namesRestarts_charges {s : Supervisor} {texts : List String} (h : s.Standing texts)
    (hnamed : ∀ c, s.config = some c → InitConfig.Named c.root) (state : Element) (label : Label) :
    s.NamesRestarts state label
      ((s.registry.charges (s.reported state label)).map Detection.scheduled) := by
  let ds := s.reported state label
  have hnew : ∀ name old new, s.registry.find? name = some old →
      (s.handleReport state label).1.registry.find? name = some new →
        ∃ dynamic, new = { old.absorb (s.registry.attributedTo name ds) with dynamic } := by
    intro name old new hold hnew
    obtain ⟨dynamic, hfind, _⟩ := find?_handleReport h hnamed state label hold
    exact ⟨dynamic, Option.some.inj (hnew.symm.trans hfind)⟩
  refine ⟨?_, ?_, ?_⟩
  · intro e he
    obtain ⟨d, hd, rfl⟩ := List.mem_map.mp he
    obtain ⟨_, _, hcharged, _⟩ := Registry.mem_charges.mp hd
    exact ⟨d, rfl, Registry.mem_names_of_attributed? hcharged⟩
  · intro name old new hold hfind l f
    obtain ⟨dynamic, rfl⟩ := hnew name old new hold hfind
    have hcount := List.count_map_of_injective (s.registry.charges ds) Detection.scheduled
      (fun _ _ => Detection.scheduled_inj) ⟨name, l, f⟩
    rw [hcount, Registry.count_charges]
    exact countOf_tallyAll _ _ l f
  · intro name old new hold hfind
    obtain ⟨dynamic, rfl⟩ := hnew name old new hold hfind
    have hnames : some name ∈ ((s.registry.charges ds).map Detection.scheduled).map Event.slice ↔
        ¬ (s.registry.attributedTo name ds).isEmpty = true := by
      rw [List.isEmpty_iff, ← ne_eq, ← Registry.exists_charge_iff]
      simp [Detection.scheduled]
    simp only [Slice.absorb, ds] at hnames ⊢
    simp only [hnames, ite_not]

/-- The event of a restart names the slice that the failure is reported for.  With the slice that is
charged in its place, the events name all that is restarted and nothing else; as they are told, they
do so just if every failure with an event is reported for a slice that there is. -/
theorem restarts_named (settings : Settings) (calls : List Call)
    (hnamed : ∀ c, (after settings calls).config = some c → InitConfig.Named c.root)
    (state : Element) (label : Label) :
    let s := after settings calls
    let failures := s.registry.attributed (s.reported state label)
    let charges := s.registry.charges (s.reported state label)
    let told := eventsOf .restartScheduled (s.handleReport state label).2
    told = failures.map Detection.scheduled ∧
      s.NamesRestarts state label (charges.map Detection.scheduled) ∧
      (s.NamesRestarts state label told ↔ ∀ d ∈ failures, d.slice ∈ s.registry.names) := by
  intro s failures charges told
  obtain ⟨_, _, hstanding, _⟩ := run_new settings calls
  have htold : told = failures.map Detection.scheduled := (s.eventsOf_reported state label).1
  have hcharges : s.NamesRestarts state label (charges.map Detection.scheduled) :=
    namesRestarts_charges hstanding hnamed state label
  refine ⟨htold, hcharges, fun hnames d hd => ?_, fun hslices => ?_⟩
  · have hevent : d.scheduled ∈ told := htold ▸ List.mem_map_of_mem hd
    obtain ⟨e, he, hslice⟩ := hnames.named _ hevent
    rw [Detection.scheduled_inj he]
    exact hslice
  · have hsame : charges = failures := Registry.charges_eq_attributed hslices
    rw [htold, ← hsame]
    exact hcharges

/-! ## A slice with a component -/

theorem named_web (c : InitConfig) (hc : (after {} webStarted).config = some c) :
    InitConfig.Named c.root := by
  have hconfig : (after {} webStarted).config = some (InitConfig.webConfig 1) := by
    rw [config_after, webStarted, List.filterMap_cons_some (accepted?_own_text _)]
    rfl
  rw [Option.some.inj (hc.symm.trans hconfig)]
  exact web_staysStarted.named _ (by simp)

theorem names_web : (after {} webStarted).registry.names = ["web"] := by
  simp only [webStarted, after_started]
  decide +kernel

theorem attributed?_web :
    (after {} webStarted).registry.attributed? = Registry.attributed? [{ name := "web" }] :=
  Registry.attributed?_congr names_web

theorem web_restarts_named :
    let s := after {} webStarted
    let told := eventsOf .restartScheduled (s.handleReport troubledState ⟨["init", "state"]⟩).2
    (∀ c, s.config = some c → InitConfig.Named c.root) ∧
      told = [Detection.scheduled ⟨"web", "web", .heartbeat⟩,
        Detection.scheduled ⟨"web", "web", .ramRequest⟩,
        Detection.scheduled ⟨"web", "web", .cpuFault⟩] ∧
      s.NamesRestarts troubledState ⟨["init", "state"]⟩ told := by
  have hfailures : (after {} webStarted).registry.attributed
      ((after {} webStarted).reported troubledState ⟨["init", "state"]⟩) =
        [⟨"web", "web", .heartbeat⟩, ⟨"web", "web", .ramRequest⟩, ⟨"web", "web", .cpuFault⟩] := by
    rw [Registry.attributed, attributed?_web, reported, threshold_after]
    decide +kernel
  obtain ⟨htold, _, hiff⟩ :=
    restarts_named {} webStarted named_web troubledState ⟨["init", "state"]⟩
  rw [hfailures] at htold hiff
  exact ⟨named_web, htold, hiff.mpr (by rw [names_web]; decide)⟩

/-- The runtime init reports a failure of a component inside `web`.  It is charged to `web`, which
is restarted for it, but the event names a slice that there is not. -/
theorem component_named :
    let s := after {} webStarted
    let state := faultReport "web -> disk" "cpu_fault"
    let told := eventsOf .restartScheduled (s.handleReport state ⟨["init", "state"]⟩).2
    told = [Detection.scheduled ⟨"web -> disk", "web -> disk", .cpuFault⟩] ∧
      s.NamesRestarts state ⟨["init", "state"]⟩
        [Detection.scheduled ⟨"web", "web -> disk", .cpuFault⟩] ∧
      ¬ s.NamesRestarts state ⟨["init", "state"]⟩ told := by
  obtain ⟨_, _, hstanding, _⟩ := run_new {} webStarted
  let d : Detection := ⟨"web -> disk", "web -> disk", .cpuFault⟩
  let state := faultReport "web -> disk" "cpu_fault"
  have hreported : (after {} webStarted).reported state ⟨["init", "state"]⟩ = [d] := by
    rw [reported, threshold_after]
    decide +kernel
  have hattributed : (after {} webStarted).registry.attributed [d] = [d] := by
    rw [Registry.attributed, attributed?_web]
    decide +kernel
  have hcharges : (after {} webStarted).registry.charges [d] = [{ d with slice := "web" }] := by
    rw [Registry.charges, attributed?_web]
    decide +kernel
  have htold := ((after {} webStarted).eventsOf_reported state ⟨["init", "state"]⟩).1
  have hnamed := namesRestarts_charges hstanding named_web state ⟨["init", "state"]⟩
  rw [hreported, hattributed] at htold
  rw [hreported, hcharges] at hnamed
  refine ⟨htold, hnamed, fun hnames => ?_⟩
  obtain ⟨e, he, hslice⟩ := hnames.named d.scheduled (htold ▸ List.mem_singleton_self _)
  rw [← Detection.scheduled_inj he, names_web] at hslice
  exact absurd hslice (by decide)

end Supervisor

end Overseer
