import Overseer.Proofs.Overrides
import Overseer.Proofs.Regenerated
import Overseer.Proofs.Restarts

/-!
What the published configuration hands out.  It hands out the capabilities that the books say, and
the memory too unless a dynamic quota finds no resource to be written into (`RamPlaced`).
-/

namespace Overseer

open Markup

namespace InitConfig

/-! ## Start entries as they are published -/

theorem isRamResource_publishedChild {ram : Nat} (h : ram ≤ Amount.limit) (e : Element) :
    (publishedChild ram e).isRamResource = e.isRamResource := by
  unfold publishedChild
  by_cases hram : e.isRamResource = true
  · rw [if_pos hram, hram, (statesRam_ramResource h).isRamResource]
  · rw [if_neg hram]

/-- A dynamic memory quota is written into the memory resource, if there is one. -/
theorem ramQuota_publishedStart {start : Element} (he : start.Obeys Tag.Settled) {s : Slice}
    (hs : s.Bounded) : (publishedStart start s).ramQuota =
      if s.dynamic.ram = 0 then start.ramQuota
      else if start.children.any Element.isRamResource then s.dynamic.ram else 0 := by
  have hlimit : s.dynamic.ram ≤ Amount.limit := (hs .ram).2
  unfold Element.ramQuota
  rw [children_publishedStart he]
  by_cases hzero : s.dynamic.ram = 0
  · rw [if_pos hzero, if_pos hzero]
  rw [if_neg hzero, if_neg hzero, List.find?_map]
  have hsame : Element.isRamResource ∘ publishedChild s.dynamic.ram = Element.isRamResource :=
    funext (isRamResource_publishedChild hlimit)
  rw [hsame]
  cases hfind : start.children.find? Element.isRamResource with
  | none =>
    have hany : start.children.any Element.isRamResource = false := by
      simpa using List.find?_eq_none.mp hfind
    rw [hany]
    rfl
  | some e =>
    have hram : e.isRamResource = true := List.find?_some hfind
    have hany : start.children.any Element.isRamResource = true :=
      List.any_eq_true.mpr ⟨e, List.mem_of_find?_eq_some hfind, hram⟩
    rw [hany, Option.map_some, publishedChild, if_pos hram]
    exact (statesRam_ramResource hlimit).quantum

theorem starts_published (c : InitConfig) (reg : Registry) :
    (published c.root reg).starts = c.root.starts.map (publishedEntry reg) := by
  have htype (e : Element) : ((publishedEntry reg e).name == "start") = (e.name == "start") := by
    by_cases he : e.name = "start"
    · cases hfind : reg.find? e.startName with
      | none => simp only [publishedEntry, hfind]
      | some s =>
        rw [publishedEntry_of_start he hfind, publishedStart, name_writtenElement,
          String.ofList_toList, he]
    · rw [publishedEntry_of_other he]
  have hstart : (fun e : Element => e.name == "start") ∘ publishedEntry reg =
      fun e : Element => e.name == "start" := funext htype
  rw [Element.starts, Element.childrenNamed, children_published, List.filter_map, hstart]
  rfl

theorem quotas_publishedStart {start : Element} (he : start.Obeys Tag.Settled) {s : Slice}
    (hname : s.name = start.startName) (hs : s.Bounded) :
    (publishedStart start s).quotas.caps = s.assigned .caps ∧
      (s.configured = start.quotas →
        ((publishedStart start s).quotas.ram = s.assigned .ram ↔
          (s.dynamic.ram ≠ 0 → start.children.any Element.isRamResource = true))) := by
  refine ⟨(startKept_publishedStart he hname hs).capsReads, fun hconfigured => ?_⟩
  show (publishedStart start s).ramQuota = s.assigned .ram ↔ _
  rw [ramQuota_publishedStart he hs, Slice.assigned, hconfigured]
  by_cases hzero : s.dynamic.ram = 0
  · simp [Both.get, hzero, Element.quotas]
  · cases start.children.any Element.isRamResource with
    | true => simp [Both.get, hzero]
    | false => simpa [Both.get, hzero] using Ne.symm hzero

theorem startName_publishedEntry (reg : Registry) (e : Element) :
    (publishedEntry reg e).startName = e.startName := by
  by_cases he : e.name = "start"
  · cases hfind : reg.find? e.startName with
    | none => simp only [publishedEntry, hfind]
    | some s =>
      rw [publishedEntry_of_start he hfind, startName_publishedStart]
      exact Registry.name_of_find? hfind
  · rw [publishedEntry_of_other he]

/-- With different names, each start entry is the one that its slice comes from. -/
theorem Keeps.find?_of_distinct {root : Element} {reg : Registry} (h : Keeps root reg)
    (hdistinct : Distinct root) {start : Element} (hstart : start ∈ root.starts) :
    ∃ s, reg.find? start.startName = some s ∧ s.configured = start.quotas ∧
      publishedEntry reg start = publishedStart start s := by
  obtain ⟨s, hs⟩ := Registry.exists_find? ((h.started _).mpr (List.mem_map_of_mem hstart))
  obtain ⟨last, hlast, hconfigured, _⟩ := h.entered s (Registry.mem_of_find? hs)
  rw [Registry.name_of_find? hs, lastStart?_of_distinct hdistinct hstart] at hlast
  cases hlast
  exact ⟨s, hs, hconfigured, publishedEntry_of_start (mem_starts.mp hstart).2 hs⟩

theorem obeys_start (c : InitConfig) {start : Element} (h : start ∈ c.root.starts) :
    start.Obeys Tag.Settled := by
  have hchild := obeys_child c.obeys_root (mem_starts.mp h).1
  rw [Piece.Obeys] at hchild
  exact hchild.2

end InitConfig

/-! ## The ledger -/

/-- The quota in force of the slice under a name, zero if there is none. -/
def Registry.assigned (reg : Registry) (name : String) (r : Resource) : Nat :=
  ((reg.find? name).map fun s => s.assigned r).getD 0

theorem Registry.assigned_of_find? {reg : Registry} {name : String} {s : Slice}
    (h : reg.find? name = some s) (r : Resource) : reg.assigned name r = s.assigned r := by
  rw [assigned, h]
  rfl

theorem Registry.map_assigned {reg : Registry} (hnodup : reg.names.Nodup) (r : Resource) :
    reg.map (fun s => s.assigned r) = reg.names.map fun name => reg.assigned name r := by
  rw [names, List.map_map]
  refine List.map_congr_left fun s hs => ?_
  exact (assigned_of_find? (find?_of_mem hnodup hs) r).symm

namespace Supervisor

/-- A configuration hands out of a resource what the books say: in sum, and in the one entry of
every slice. -/
structure HandsOut (s : Supervisor) (out : Element) (r : Resource) : Prop where
  totals : ∀ nobody, nobody ∉ s.registry.names →
    (configuredTotals out nobody).get r = s.totals.get r
  slices : ∀ slice ∈ s.registry, ∃ start, out.starts.filter (·.startName == slice.name) = [start] ∧
    start.quotas.get r = slice.assigned r

/-- Wherever a slice has a dynamic memory quota, its start entry has a memory resource. -/
def RamPlaced (s : Supervisor) (root : Element) : Prop :=
  ∀ start ∈ root.starts, ∀ slice, s.registry.find? start.startName = some slice →
    slice.dynamic.ram ≠ 0 → start.children.any Element.isRamResource = true

variable {s : Supervisor} {c : InitConfig} {r : Resource}

/-- The entry of a slice in the published configuration. -/
theorem exists_published (hkeeps : InitConfig.Keeps c.root s.registry)
    (hdistinct : InitConfig.Distinct c.root) {slice : Slice} (hslice : slice ∈ s.registry) :
    ∃ start ∈ c.root.starts, slice.name = start.startName ∧ slice.configured = start.quotas ∧
      (InitConfig.published c.root s.registry).starts.filter (·.startName == slice.name) =
        [InitConfig.publishedStart start slice] := by
  have hname := (hkeeps.started slice.name).mp (List.mem_map_of_mem hslice)
  obtain ⟨start, hstart, hstartName⟩ := List.mem_map.mp hname
  obtain ⟨found, hfound, hconfigured, hentry⟩ := hkeeps.find?_of_distinct hdistinct hstart
  have hsame : found = slice := by
    rw [hstartName, Registry.find?_of_mem hkeeps.nodup hslice] at hfound
    exact (Option.some.inj hfound).symm
  subst hsame
  refine ⟨start, hstart, hstartName.symm, hconfigured, ?_⟩
  have hnames : (fun e : Element => e.startName == found.name) ∘
      InitConfig.publishedEntry s.registry = fun e => e.startName == start.startName := by
    funext e
    rw [Function.comp_apply, InitConfig.startName_publishedEntry, hstartName]
  rw [InitConfig.starts_published, List.filter_map, hnames,
    InitConfig.filter_startName_of_distinct hdistinct hstart, List.map_singleton, hentry]

/-- If the entries say what the slices have, so does the sum. -/
theorem handsOut_of_entries (hkeeps : InitConfig.Keeps c.root s.registry)
    (htotals : s.totals = s.registry.totals) (hdistinct : InitConfig.Distinct c.root)
    (hentries : ∀ start ∈ c.root.starts, ∀ slice, s.registry.find? start.startName = some slice →
      (InitConfig.publishedStart start slice).quotas.get r = slice.assigned r) :
    s.HandsOut (InitConfig.published c.root s.registry) r where
  totals := by
    intro nobody hnobody
    have hall : (InitConfig.published c.root s.registry).starts.filter (·.startName != nobody) =
        c.root.starts.map (InitConfig.publishedEntry s.registry) := by
      rw [InitConfig.starts_published, List.filter_eq_self]
      intro out hout
      obtain ⟨start, hstart, rfl⟩ := List.mem_map.mp hout
      rw [InitConfig.startName_publishedEntry, bne_iff_ne]
      intro hname
      exact hnobody (hname ▸ (hkeeps.started _).mpr (List.mem_map_of_mem hstart))
    have hstarts : (c.root.starts.map (InitConfig.publishedEntry s.registry)).map
        (fun start => start.quotas.get r) =
        (c.root.starts.map Element.startName).map fun name => s.registry.assigned name r := by
      rw [List.map_map, List.map_map]
      refine List.map_congr_left fun start hstart => ?_
      obtain ⟨slice, hslice, _, hentry⟩ := hkeeps.find?_of_distinct hdistinct hstart
      rw [Function.comp_apply, Function.comp_apply, hentry, hentries start hstart slice hslice,
        Registry.assigned_of_find? hslice]
    have hsum := sum_map_eq_of_nodup (fun name => s.registry.assigned name r) hkeeps.nodup hdistinct
      hkeeps.started
    rw [InitConfig.configuredTotals_get, InitConfig.asked, hall, hstarts, htotals,
      Registry.totals, Both.get_of, Amount.sum_eq_clamp, Registry.map_assigned hkeeps.nodup, hsum]
  slices := by
    intro slice hslice
    obtain ⟨start, hstart, hname, _, hentry⟩ := exists_published hkeeps hdistinct hslice
    refine ⟨_, hentry, hentries start hstart slice ?_⟩
    rw [← hname]
    exact Registry.find?_of_mem hkeeps.nodup hslice

/-- What the published configuration hands out is what the books say: always for capabilities, and
for memory just if every dynamic memory quota finds a resource to be written into. -/
theorem hands_out_iff (settings : Settings) (calls : List Call) (c : InitConfig)
    (hc : (after settings calls).config = some c) (hdistinct : InitConfig.Distinct c.root) :
    ∃ out, emitted? settings calls = some out ∧ (after settings calls).HandsOut out .caps ∧
      ((after settings calls).HandsOut out .ram ↔ (after settings calls).RamPlaced c.root) := by
  obtain ⟨_, _, hstanding, _⟩ := run_new settings calls
  have hkeeps := hstanding.keeps c hc
  have htotals := hstanding.totals c hc
  have hquotas : ∀ start ∈ c.root.starts, ∀ slice,
      (after settings calls).registry.find? start.startName = some slice →
      (InitConfig.publishedStart start slice).quotas.caps = slice.assigned .caps ∧
        ((InitConfig.publishedStart start slice).quotas.ram = slice.assigned .ram ↔
          (slice.dynamic.ram ≠ 0 → start.children.any Element.isRamResource = true)) := by
    intro start hstart slice hslice
    obtain ⟨found, hfound, hconfigured, _⟩ := hkeeps.find?_of_distinct hdistinct hstart
    cases hslice.symm.trans hfound
    obtain ⟨hcaps, hram⟩ := InitConfig.quotas_publishedStart (c.obeys_start hstart)
      (Registry.name_of_find? hslice) (hkeeps.bounded slice (Registry.mem_of_find? hslice))
    exact ⟨hcaps, hram hconfigured⟩
  refine ⟨_, emitted?_eq hc, ?_, ?_, ?_⟩
  · exact handsOut_of_entries hkeeps htotals hdistinct fun start hstart slice hslice =>
      (hquotas start hstart slice hslice).1
  · intro hhands start hstart slice hslice
    rw [← (hquotas start hstart slice hslice).2]
    have hmem := Registry.mem_of_find? hslice
    obtain ⟨entry, hentry, hram⟩ := hhands.slices slice hmem
    obtain ⟨other, hother, hname, _, hpublished⟩ := exists_published hkeeps hdistinct hmem
    have hsame : other = start := by
      have hnames : other.startName = start.startName :=
        hname.symm.trans (Registry.name_of_find? hslice)
      have hlast := InitConfig.lastStart?_of_distinct hdistinct hother
      rw [hnames, InitConfig.lastStart?_of_distinct hdistinct hstart] at hlast
      exact (Option.some.inj hlast).symm
    rw [hpublished, hsame] at hentry
    rw [(List.cons.inj hentry).1]
    exact hram
  · intro hplaced
    exact handsOut_of_entries hkeeps htotals hdistinct fun start hstart slice hslice =>
      (hquotas start hstart slice hslice).2.mpr (hplaced start hstart slice hslice)

theorem batch_hands_out :
    (after batchSettings batchCalls).config = some batchConfig ∧
      InitConfig.Distinct batchConfig.root ∧
      (after batchSettings batchCalls).registry.map Slice.dynamic = [⟨12, 48⟩, ⟨0, 0⟩] ∧
      ∃ out, emitted? batchSettings batchCalls = some out ∧
        ∀ r, (after batchSettings batchCalls).HandsOut out r := by
  have hdynamic : (after batchSettings batchCalls).registry.map Slice.dynamic =
      [⟨12, 48⟩, ⟨0, 0⟩] := by
    simp only [batchCalls, after_started]
    decide +kernel
  have hplaced : (after batchSettings batchCalls).RamPlaced batchConfig.root := by
    have hall : batchConfig.root.starts.all (·.children.any Element.isRamResource) = true := by
      decide +kernel
    intro start hstart _ _ _
    exact List.all_eq_true.mp hall start hstart
  obtain ⟨out, hout, hcaps, hram⟩ :=
    hands_out_iff batchSettings batchCalls batchConfig config_batch distinct_batch
  refine ⟨config_batch, distinct_batch, hdynamic, out, hout, fun r => ?_⟩
  cases r with
  | caps => exact hcaps
  | ram => exact hram.mpr hplaced

/-- The slice `bare` is to receive memory, but its start entry has no resource for it. -/
def bareSettings : Settings := { remaining := some ⟨["init", "bare"]⟩, margin := ⟨0, 0⟩ }

def bareConfig : InitConfig := quotaConfig [("bare", 1, none)]

def bareCalls : List Call := [.updateConfig bareConfig.text, availReport 9 5]

/-- The books have handed out memory that no entry of the published configuration mentions. -/
theorem bare_memory_withheld :
    InitConfig.Named bareConfig.root ∧ InitConfig.Distinct bareConfig.root ∧
      (after bareSettings bareCalls).config = some bareConfig ∧
      (after bareSettings bareCalls).totals = ⟨9, 5⟩ ∧
      ∃ out, emitted? bareSettings bareCalls = some out ∧
        configuredTotals out "" = ⟨9, 0⟩ ∧ ¬ (after bareSettings bareCalls).HandsOut out .ram := by
  have hnamed : bareConfig.root.starts.all (·.hasAttribute "name") = true := by decide +kernel
  have hnames : bareConfig.root.starts.map Element.startName = ["bare"] := by decide +kernel
  have hc : (after bareSettings bareCalls).config = some bareConfig := by
    rw [config_after, bareCalls, List.filterMap_cons_some (accepted?_own_text bareConfig)]
    rfl
  have htotals : (after bareSettings bareCalls).totals = ⟨9, 5⟩ := by
    simp only [bareCalls, after_started]
    decide +kernel
  have hout : configuredTotals (InitConfig.published bareConfig.root
      (after bareSettings bareCalls).registry) "" = ⟨9, 0⟩ := by
    simp only [bareCalls, after_started]
    decide +kernel
  have hstarted : (after bareSettings bareCalls).registry.names = ["bare"] := by
    simp only [bareCalls, after_started]
    decide +kernel
  refine ⟨List.all_eq_true.mp hnamed, ?_, hc, htotals, _, emitted?_eq hc, hout, ?_⟩
  · rw [InitConfig.Distinct, hnames]
    decide
  · intro hhands
    have hsum := hhands.totals "" (by rw [hstarted]; decide)
    rw [hout, htotals] at hsum
    cases hsum

end Supervisor

end Overseer
