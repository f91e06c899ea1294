import Overseer.Proofs.Accounting
import Overseer.Proofs.HandedOut
import Overseer.Proofs.Seen

/-!
After an assignment the accounts close (`accounts_close`).  What the other slices are committed to
is added up twice: over the start entries to find out what there is to assign, and over the slices
once it is assigned.  With different names in the configuration both sums are the same
(`Keeps.committed_eq`), so the margin and the totals are together what the report says is available
(`Registry.total_assigned`).
-/

namespace Overseer

open Markup

/-! ## Quotas in force -/

theorem Slice.assigned_of_plain {s : Slice} {r : Resource} (h : s.dynamic.get r = 0) :
    s.assigned r = s.configured.get r := if_pos h

theorem Slice.assigned_of_dynamic {s : Slice} {r : Resource} (h : 0 < s.dynamic.get r) :
    s.assigned r = s.dynamic.get r := if_neg (Nat.ne_of_gt h)

/-- If only one slice has a dynamic quota, the quotas in force add up to its own and what the others
are committed to. -/
theorem Registry.total_assigned {reg : Registry} (hnodup : reg.names.Nodup) {name : String}
    {s : Slice} (hs : reg.find? name = some s) {r : Resource}
    (hplain : ∀ t ∈ reg, t.name ≠ name → t.dynamic.get r = 0) :
    (reg.map fun t => t.assigned r).sum = reg.committed name r + s.assigned r := by
  have hall : (reg.names.map fun n => reg.assigned n r).sum =
      ((name :: reg.names.filter (· != name)).map fun n => reg.assigned n r).sum := by
    refine sum_map_eq_of_nodup _ hnodup ?_ fun n => ?_
    · exact List.nodup_cons.mpr ⟨by simp, hnodup.filter _⟩
    · by_cases hn : n = name
      · simp [hn, mem_names_of_find? hs]
      · simp [hn]
  have hothers : ∀ n ∈ reg.names.filter (· != name), reg.assigned n r = reg.quota n r := by
    intro n hn
    obtain ⟨hmem, hne⟩ := List.mem_filter.mp hn
    obtain ⟨t, ht⟩ := exists_find? hmem
    have hname : t.name ≠ name := by simpa [name_of_find? ht] using hne
    rw [assigned_of_find? ht, quota_of_find? ht,
      Slice.assigned_of_plain (hplain t (mem_of_find? ht) hname)]
  rw [map_assigned hnodup, hall, List.map_cons, List.sum_cons, List.map_congr_left hothers,
    assigned_of_find? hs, Nat.add_comm, ← committed]

namespace Supervisor

/-! ## One call -/

/-- A regeneration is told in one event, with the totals. -/
theorem eventsOf_regenerate {s : Supervisor} {c : InitConfig} (hc : s.config = some c)
    (hs : s.Equipped) : ∃ count, eventsOf .configRegenerated s.regenerate.2 =
      [{ regenerated s.regenerate.1.registry with count }] := by
  have hpublished : publishedEvents s.regenerate.2 = [regenerated s.regenerate.1.registry] := by
    rw [publishedEvents_seen, regenerate_seen hc hs, registry_regenerate hc hs]
    rfl
  obtain ⟨e, hevents, hwithout⟩ := List.map_eq_singleton_iff.mp hpublished
  have hkind : e.kind = .configRegenerated := by
    rw [Event.withoutRuns] at hwithout
    split at hwithout
    · assumption
    · rw [hwithout]
      rfl
  rw [Event.withoutRuns, if_pos hkind] at hwithout
  refine ⟨e.count, ?_⟩
  rw [eventsOf, hevents, List.filter_cons_of_pos (by simp [hkind]), ← hwithout]
  rfl

/-- An event tells of an assignment, after which the configuration is published anew. -/
structure Reallots (s : Supervisor) (state : Element) (event : Event) (elastic : Elastic)
    (slice : Slice) (c : InitConfig) (outcome : Supervisor × List Effect) : Prop where
  found : s.registry.find? elastic.slice = some slice
  accepted : s.config = some c
  assigned : event = assignmentEvent elastic (s.reallocator.assign state c.root slice)
  registry : outcome.1.registry =
    (s.reassigned elastic (s.reallocator.assign state c.root slice)).regenerate.1.registry
  regenerations : eventsOf .configRegenerated outcome.2 = eventsOf .configRegenerated
    (s.reassigned elastic (s.reallocator.assign state c.root slice)).regenerate.2

section
variable {s : Supervisor} {state : Element} {label : Label} {elastic : Elastic} {event : Event}
  {k : EventKind}

/-- An event of a reallocation that is not of its regeneration comes from an assignment. -/
theorem assigns_of_event (hregenerated : k ≠ .configRegenerated)
    (hmissing : k ≠ .elasticSliceMissing) (h : event ∈ eventsOf k (s.reallocate state elastic).2) :
    ∃ slice c, s.registry.find? elastic.slice = some slice ∧ s.config = some c ∧
      event ∈ eventsOf k
        (reallocationEffects elastic (s.reallocator.assign state c.root slice)) := by
  have hregenerate (t : Supervisor) : eventsOf k t.regenerate.2 = [] :=
    eventsOf_eq_nil (announces_regenerate t) (by simpa using hregenerated)
  cases hslice : s.registry.find? elastic.slice with
  | none =>
    rw [reallocate_missing hslice, eventsOf_append, hregenerate,
      eventsOf_eq_nil (announces_missing elastic.slice) (by simpa using hmissing)] at h
    cases h
  | some slice =>
    cases hc : s.config with
    | none =>
      rw [reallocate_unconfigured hc hslice] at h
      cases h
    | some c =>
      refine ⟨slice, c, rfl, rfl, ?_⟩
      rw [reallocate_eq hc hslice] at h
      split at h
      · rwa [eventsOf_append, hregenerate, List.append_nil] at h
      · exact h

/-- An event of a report that is neither of a charge nor of a regeneration comes from a
reallocation.  The report is that of the sibling and calls for no restart. -/
theorem reallocates_of_event (hcharges : k ∉ chargeKinds) (hregenerated : k ≠ .configRegenerated)
    (h : event ∈ eventsOf k (s.handleReport state label).2) :
    ∃ elastic, s.elastic = some elastic ∧ label = elastic.sibling ∧
      ¬ state.children.length ≤ 1 ∧
      s.registry.marks (findingsOf state s.threshold label.scope) = [] ∧
      s.charged state label = s ∧ s.react state label = s.reallocate state elastic ∧
      event ∈ eventsOf k (s.reallocate state elastic).2 := by
  have hannounced := announces_chargeAll (kind_findingsOf state s.threshold label.scope) s.registry
  by_cases hfew : state.children.length ≤ 1
  · rw [handleReport, if_pos hfew] at h
    cases h
  rw [eventsOf_handleReport hfew, eventsOf_eq_nil hannounced hcharges, List.nil_append] at h
  rcases (s.charged state label).react_eq state label with
    ⟨_, hreact⟩ | ⟨hrequired, hreact | ⟨elastic, helastic, hsibling, _, hreact⟩⟩
  · rw [hreact, eventsOf_eq_nil (announces_regenerate _) (by simpa using hregenerated)] at h
    cases h
  · rw [hreact] at h
    cases h
  have hmarks := Registry.marks_of_not_restartRequired hrequired
  have hcharged : s.charged state label = s := charged_of_marks_nil hmarks
  rw [hcharged] at hreact helastic h
  rw [hreact] at h
  exact ⟨elastic, helastic, hsibling, hfew, hmarks, hcharged, hreact, h⟩

theorem reallots_reallocate
    (h : event ∈ eventsOf .dynamicResourcesAssigned (s.reallocate state elastic).2) :
    ∃ slice c, s.Reallots state event elastic slice c (s.reallocate state elastic) := by
  obtain ⟨slice, c, hslice, hc, hevent⟩ := assigns_of_event (by decide) (by decide) h
  have ha := concerns_assign s.reallocator state c.root slice
  rw [assignments_reallocationEffects ha] at hevent
  split at hevent
  · rename_i hupdated
    have hreallocate := (reallocate_eq hc hslice state).trans (if_pos hupdated)
    refine ⟨slice, c, hslice, hc, List.mem_singleton.mp hevent, by rw [hreallocate], ?_⟩
    rw [hreallocate, eventsOf_append,
      eventsOf_eq_nil (announces_reallocationEffects ha elastic) (by decide), List.nil_append]
  · cases hevent

/-- A report that has something assigned is the report of the sibling and has no failures. -/
theorem reallots_handleReport
    (h : event ∈ eventsOf .dynamicResourcesAssigned (s.handleReport state label).2) :
    ∃ elastic slice c, s.elastic = some elastic ∧ label = elastic.sibling ∧
      s.Reallots state event elastic slice c (s.handleReport state label) := by
  obtain ⟨elastic, helastic, hsibling, hlong, _, hcharged, hreact, hevent⟩ :=
    reallocates_of_event (by decide) (by decide) h
  obtain ⟨slice, c, hreallots⟩ := reallots_reallocate hevent
  refine ⟨elastic, slice, c, helastic, hsibling, hreallots.found, hreallots.accepted,
    hreallots.assigned, ?_, ?_⟩
  · rw [← hreallots.registry, ← hreact, handleReport_eq hlong, hcharged]
    rfl
  · have hannounced :=
      announces_chargeAll (kind_findingsOf state s.threshold label.scope) s.registry
    rw [← hreallots.regenerations, eventsOf_handleReport hlong,
      eventsOf_eq_nil hannounced (by decide), List.nil_append, hcharged, hreact]

end

section
variable {s : Supervisor} {state : Element} {event : Event} {elastic : Elastic} {slice : Slice}
  {c : InitConfig} {outcome : Supervisor × List Effect}

/-- The slice of the event has what the event says, and the report had that left. -/
theorem Reallots.dynamic (h : s.Reallots state event elastic slice c outcome)
    {texts : List String} (hs : s.Standing texts) (hnamed : InitConfig.Named c.root) {r : Resource}
    {n : Nat} (hn : event.figure? r = some n) :
    (∃ later, outcome.1.registry.find? elastic.slice = some later ∧ later.dynamic.get r = n) ∧
      0 < n ∧ ((Availability.ofState state).tallies.get r).avail =
        s.reallocator.margin.get r + InitConfig.asked c.root elastic.slice r + n := by
  let a := s.reallocator.assign state c.root slice
  have ha : a.Concerns slice := concerns_assign s.reallocator state c.root slice
  have hassigned : a.assigned.get r = some n := by
    rw [h.assigned] at hn
    cases r <;> exact hn
  rcases s.reallocator.assign_cases state c.root slice r with
    ⟨hnone, _⟩ | ⟨m, hsome, hdynamic, _, hpos, havail⟩
  · cases hassigned.symm.trans hnone
  cases hassigned.symm.trans hsome
  have hexact := avail_eq_of_assigned hpos havail
  rw [Registry.name_of_find? h.found] at hexact
  refine ⟨?_, hpos, hexact⟩
  let t := s.reassigned elastic a
  have ht : t.Equipped := hs.equipped.reassigned elastic a
  have hfind : t.registry.find? elastic.slice = some a.slice := by
    rw [find?_reassigned h.found ha, if_pos rfl]
  have hstart := ((hs.keeps c h.accepted).started _).mp (Registry.mem_names_of_find? h.found)
  obtain ⟨start, _, hlater⟩ := InitConfig.find?_update_of_named
    (b := ⟨t.registry, t.reallocator⟩) hnamed hfind hstart
  refine ⟨a.slice.enter start, ?_, hdynamic⟩
  rw [h.registry, registry_regenerate (s := t) h.accepted ht, hlater]

theorem Reallots.announced (h : s.Reallots state event elastic slice c outcome) (hs : s.Equipped) :
    ∃ e, eventsOf .configRegenerated outcome.2 = [e] ∧
      ∀ r, e.figure? r = some (outcome.1.registry.totals.get r) := by
  let t := s.reassigned elastic (s.reallocator.assign state c.root slice)
  have ht : t.Equipped := hs.reassigned elastic _
  obtain ⟨count, hevents⟩ := eventsOf_regenerate (s := t) h.accepted ht
  refine ⟨_, h.regenerations.trans hevents, fun r => ?_⟩
  rw [h.registry]
  cases r <;> rfl

end

/-! ## Runs -/

/-- A dynamic quota and what the other start entries ask for are all that is handed out. -/
theorem Covered.total_assigned {settings : Settings} {s : Supervisor}
    {grants : Resource → Option Grant} (h : s.Covered settings grants) {c : InitConfig}
    (hkeeps : InitConfig.Keeps c.root s.registry) (hdistinct : InitConfig.Distinct c.root)
    {name : String} (hname : settings.elasticSlice = some name) {slice : Slice}
    (hslice : s.registry.find? name = some slice) {r : Resource} (hpos : 0 < slice.dynamic.get r) :
    (s.registry.map fun t => t.assigned r).sum =
      InitConfig.asked c.root name r + slice.dynamic.get r := by
  have hplain : ∀ other ∈ s.registry, other.name ≠ name → other.dynamic.get r = 0 := by
    intro other hother hne
    have helastic : settings.elasticSlice ≠ some other.name := by
      rw [hname]
      exact fun e => hne (Option.some.inj e).symm
    have hzero := h.plain other.name helastic r
    rwa [Registry.dynamic_of_find? (Registry.find?_of_mem hkeeps.nodup hother)] at hzero
  rw [Registry.total_assigned hkeeps.nodup hslice hplain, hkeeps.committed_eq hdistinct,
    Slice.assigned_of_dynamic hpos]

/-- Whenever something is assigned of a resource, the margin and the totals that are published with
it are together what the report says is available.  Neither the totals nor the sum of what the other
start entries ask for has been cut down. -/
theorem accounts_close (settings : Settings) (calls : List Call) (c : InitConfig)
    (hc : (after settings calls).config = some c) (hnamed : InitConfig.Named c.root)
    (hdistinct : InitConfig.Distinct c.root) (state : Element) (label : Label) (event : Event)
    (hevent : event ∈ eventsOf .dynamicResourcesAssigned
      ((after settings calls).handleReport state label).2)
    (r : Resource) (n : Nat) (hn : event.figure? r = some n) :
    let report := (after settings calls).handleReport state label
    let avail := ((Availability.ofState state).tallies.get r).avail
    let margin := settings.margin.get r
    margin ≤ avail ∧ report.1.totals.get r = avail - margin ∧
      (∃ e, eventsOf .configRegenerated report.2 = [e] ∧ e.figure? r = some (avail - margin)) ∧
      report.1.totals.get r = (report.1.registry.map fun s => s.assigned r).sum ∧
      ∃ name, settings.elasticSlice = some name ∧
        (configuredTotals c.root name).get r = InitConfig.asked c.root name r ∧
        margin + InitConfig.asked c.root name r + n = avail := by
  intro report avail margin
  let call := Call.handleReport state label
  obtain ⟨_, _, hstanding, _⟩ := run_new settings calls
  obtain ⟨_, _, hafter, hconfig⟩ := answer_standing hstanding call
  have hcovered := (covered_new settings).run (standing_new settings) calls
  obtain ⟨elastic, slice, d, helastic, _, hreallots⟩ := reallots_handleReport hevent
  cases hc.symm.trans hreallots.accepted
  have hname := hcovered.elasticSlice helastic
  obtain ⟨⟨later, hlater, rfl⟩, hpos, hexact⟩ := hreallots.dynamic hstanding hnamed hn
  obtain ⟨e, hannounced, hfigures⟩ := hreallots.announced hstanding.equipped
  rw [hcovered.margin] at hexact
  have hbalance : margin + InitConfig.asked c.root elastic.slice r + later.dynamic.get r = avail :=
    hexact.symm
  have hle : avail ≤ Amount.limit := avail_le state r
  -- the configuration is still in force, so the slices are still its slices
  have hin : report.1.config = some c := hconfig.trans hc
  have hsum : (report.1.registry.map fun s => s.assigned r).sum = avail - margin := by
    have htotal := (hcovered.answer hstanding call).total_assigned (hafter.keeps c hin) hdistinct
      hname hlater hpos
    rw [← hbalance, Nat.add_assoc, Nat.add_sub_cancel_left]
    exact htotal
  have htotals : report.1.registry.totals.get r = avail - margin := by
    rw [Registry.totals, Both.get_of, Amount.sum_eq_clamp, hsum]
    exact Amount.clamp_of_le (by omega)
  have hsummed : report.1.totals.get r = avail - margin := by
    rw [← htotals]
    exact congrArg (·.get r) (hafter.totals c hin)
  refine ⟨by omega, hsummed, ⟨e, hannounced, ?_⟩, hsummed.trans hsum.symm, elastic.slice, hname, ?_,
    hbalance⟩
  · rw [← htotals]
    exact hfigures r
  · rw [InitConfig.configuredTotals_get]
    exact Amount.clamp_of_le (by omega)

def leftState : Element :=
  writtenElement "state".toList []
    [.child (writtenElement "caps".toList ([("avail", "20")].map InitConfig.written) []),
     .child (writtenElement "ram".toList ([("avail", "128")].map InitConfig.written) [])]

/-- The slice `batch` has configured quotas of its own, which its dynamic ones replace. -/
theorem batch_accounts_close :
    let report := (after batchSettings batchStarted).handleReport leftState ⟨["init", "state"]⟩
    (after batchSettings batchStarted).config = some batchConfig ∧
      InitConfig.Named batchConfig.root ∧ InitConfig.Distinct batchConfig.root ∧
      eventsOf .dynamicResourcesAssigned report.2 =
        [{ kind := .dynamicResourcesAssigned, slice := some "batch", caps := some 12,
           ram := some 48 }] ∧
      report.1.totals = ⟨19, 112⟩ ∧
      ∃ e, eventsOf .configRegenerated report.2 = [e] ∧ e.caps = some 19 ∧ e.ram = some 112 := by
  let event : Event :=
    { kind := .dynamicResourcesAssigned, slice := some "batch", caps := some 12, ram := some 48 }
  have hevents : eventsOf .dynamicResourcesAssigned
      ((after batchSettings batchStarted).handleReport leftState ⟨["init", "state"]⟩).2 =
        [event] := by
    simp only [batchStarted, after_started]
    decide +kernel
  have hcapsLeft : ((Availability.ofState leftState).tallies.get .caps).avail -
      batchSettings.margin.get .caps = 19 := by decide +kernel
  have hramLeft : ((Availability.ofState leftState).tallies.get .ram).avail -
      batchSettings.margin.get .ram = 112 := by decide +kernel
  have hclose := fun r n => accounts_close batchSettings batchStarted batchConfig
    config_batchStarted named_batch distinct_batch leftState ⟨["init", "state"]⟩ event
    (hevents ▸ List.mem_singleton_self event) r n
  obtain ⟨_, hcaps, ⟨e, he, hcapsTold⟩, _⟩ := hclose .caps 12 rfl
  obtain ⟨_, hram, ⟨f, hf, hramTold⟩, _⟩ := hclose .ram 48 rfl
  cases he.symm.trans hf
  refine ⟨config_batchStarted, named_batch, distinct_batch, hevents, Both.eq_of_get fun r => ?_, e,
    he, hcapsTold.trans (congrArg some hcapsLeft), hramTold.trans (congrArg some hramLeft)⟩
  cases r with
  | caps => exact hcaps.trans hcapsLeft
  | ram => exact hram.trans hramLeft

end Supervisor

end Overseer
