import Overseer.Proofs.ClosedAccounts
import Overseer.Proofs.Staleness

/-!
When the elastic slice is served.  A report of its sibling that calls for no restart reallocates
(`handleReport_of_calm`).  As long as some resource is stale, whatever is due is assigned or refused
(`serves_reallocate`); while none is, nothing is computed at all, even of a resource that the slice
has no dynamic quota of (`starved_slice_ignored`).
-/

namespace Overseer

open Markup

/-- A slice that an entry states keeps its dynamic quotas in an update. -/
theorem Registry.dynamic_update_of_states (b : InitConfig.Books) {root : Element} {name : String}
    (h : InitConfig.states root name = true) (r : Resource) :
    (b.update root).1.registry.dynamic name r = b.registry.dynamic name r := by
  have hstart := InitConfig.starts_iff.mp (InitConfig.starts_of_states h)
  rw [dynamic, dynamic, b.find?_update]
  cases hlast : InitConfig.lastStart? root.starts name with
  | none => exact absurd hstart (InitConfig.lastStart?_eq_none_iff.mp hlast)
  | some start =>
    cases hfind : b.registry.find? name with
    | none => cases r <;> rfl
    | some s =>
      have hstarted : isStarted root s = true := by
        rw [← h, ← name_of_find? hfind]
        rfl
      rw [Option.filter_some_pos hstarted]
      rfl

/-- A report gives the slice some of a resource and tells so, or it tells that nothing is left. -/
def Serves (report : Supervisor × List Effect) (name : String) (r : Resource) : Prop :=
  (∃ e ∈ eventsOf .dynamicResourcesAssigned report.2, ∃ n, 0 < n ∧ e.figure? r = some n ∧
    report.1.registry.dynamic name r = n) ∨
  ∃ total configured, (Problem.resourcesInfeasible r.word name total configured).event ∈
    eventsOf .reallocationInfeasible report.2

namespace Supervisor

variable {s : Supervisor} {texts : List String} {elastic : Elastic} {slice : Slice}
  {c : InitConfig} {state : Element}

/-! ## Reallocations -/

/-- While nothing is stale, nothing is computed. -/
theorem reallocate_of_fresh (h : ∀ q, s.reallocator.stale.get q = false)
    (hslice : s.registry.find? elastic.slice = some slice) (hc : s.config = some c)
    (state : Element) : s.reallocate state elastic = (s, []) := by
  have hfresh : (s.reallocator.stale.caps || s.reallocator.stale.ram) = false := by
    rw [Bool.or_eq_false_iff]
    exact ⟨h .caps, h .ram⟩
  have hnothing : ¬ Reallocation.updated { reallocator := s.reallocator, slice } = true :=
    Bool.false_ne_true
  rw [reallocate_eq hc hslice, Reallocator.assign_of_fresh hfresh, if_neg hnothing, reassigned,
    Registry.replace_self hslice]
  rfl

/-- When some resource is stale, all that is due is assigned or refused. -/
theorem serves_reallocate {q r : Resource} (hstale : s.reallocator.stale.get q = true)
    (hslice : s.registry.find? elastic.slice = some slice)
    (hdue : slice.dynamic.get r = 0 ∨ s.reallocator.stale.get r = true) (hc : s.config = some c)
    (hs : s.Equipped) (hstates : InitConfig.states c.root elastic.slice = true)
    (state : Element) : Serves (s.reallocate state elastic) elastic.slice r := by
  let a := s.reallocator.assign state c.root slice
  have ha : a.Concerns slice := concerns_assign s.reallocator state c.root slice
  have hname : slice.name = elastic.slice := Registry.name_of_find? hslice
  have hsome : (s.reallocator.stale.caps || s.reallocator.stale.ram) = true := by
    rw [Bool.or_eq_true]
    cases q with
    | caps => exact .inl hstale
    | ram => exact .inr hstale
  have hsettles := Reallocator.settles_assign hsome state c.root slice r
  rw [reallocate_eq hc hslice]
  rcases Reallocator.offer_or_refusal (.ofState state) (configuredTotals c.root slice.name) hdue with
    ⟨n, hpos, hoffer⟩ | ⟨total, hrefusal⟩
  · have hassigned : a.assigned.get r = some n := hsettles.assigned.trans hoffer
    have hdynamic : a.slice.dynamic.get r = n := by
      rw [hsettles.dynamic, hoffer]
      rfl
    have hupdated : a.updated = true := by
      by_contra hnot
      rw [Reallocation.assigned_of_not_updated (by simpa using hnot)] at hassigned
      cases hassigned
    rw [if_pos hupdated]
    refine .inl ⟨assignmentEvent elastic a, ?_, n, hpos, ?_, ?_⟩
    · rw [eventsOf_append, assignments_reallocationEffects ha, if_pos hupdated]
      exact List.mem_append_left _ (List.mem_singleton_self _)
    · cases r <;> exact hassigned
    · rw [registry_regenerate (s := s.reassigned elastic a) hc (hs.reassigned elastic a),
        Registry.dynamic_update_of_states _ hstates, dynamic_reassigned hslice ha, if_pos rfl]
      exact hdynamic
  · have hproblem : .resourcesInfeasible r.word elastic.slice total
        ((configuredTotals c.root slice.name).get r) ∈ a.problems := by
      rw [Reallocator.problems_assign hsome, ← hname]
      refine List.mem_filterMap.mpr ⟨r, ?_, hrefusal⟩
      cases r <;> simp
    have htold := List.mem_map_of_mem (f := Problem.event) hproblem
    rw [← problems_reallocationEffects ha elastic] at htold
    refine .inr ⟨total, (configuredTotals c.root slice.name).get r, ?_⟩
    split
    · rw [eventsOf_append]
      exact List.mem_append_left _ htold
    · exact htold

/-! ## Reports -/

/-- The sibling of the elastic slice reports something that calls for no restart. -/
structure Calm (s : Supervisor) (state : Element) (elastic : Elastic) : Prop where
  receives : s.elastic = some elastic
  long : 2 ≤ state.children.length
  unmarked : s.marks (.handleReport state elastic.sibling) = []

/-- A report without failures calls for no restart. -/
theorem calm_of_no_failures (hreceives : s.elastic = some elastic)
    (hlong : 2 ≤ state.children.length)
    (h : detections state s.threshold elastic.sibling.scope = []) : s.Calm state elastic := by
  refine ⟨hreceives, hlong, ?_⟩
  rw [marks, if_neg (Nat.not_le.mpr hlong), Registry.marks_eq, detections_findingsOf, h]
  rfl

/-- Such a report reallocates, and besides it only tells of its findings. -/
theorem handleReport_of_calm (h : s.Standing texts) (hcalm : s.Calm state elastic)
    (hslice : s.registry.find? elastic.slice = some slice) :
    (∃ restartReporter, (s.handleReport state elastic.sibling).1 =
      { (s.reallocate state elastic).1 with restartReporter }) ∧
    ∀ k, k ∉ chargeKinds → eventsOf k (s.handleReport state elastic.sibling).2 =
      eventsOf k (s.reallocate state elastic).2 := by
  have hlong : ¬ state.children.length ≤ 1 := Nat.not_le.mpr hcalm.long
  have hmarks := hcalm.unmarked
  rw [marks, if_neg hlong] at hmarks
  have hcharged : s.charged state elastic.sibling = s := charged_of_marks_nil hmarks
  have hne : s.registry ≠ [] := List.ne_nil_of_mem (Registry.mem_of_find? hslice)
  obtain ⟨c, hc⟩ := h.sound.exists_config hne
  have hidle : s.registry.restartRequired = false := by
    rw [Registry.restartRequired, List.any_eq_false]
    intro t ht
    simp [(h.keeps c hc).idle t ht]
  have hreact : s.react state elastic.sibling = s.reallocate state elastic := by
    simp [react, hidle, hcalm.receives, hne]
  have hcharges := announces_chargeAll
    (kind_findingsOf state s.threshold elastic.sibling.scope) s.registry
  constructor
  · rw [handleReport_eq hlong, hcharged, hreact]
    exact ⟨_, rfl⟩
  · intro k hk
    rw [eventsOf_handleReport hlong, eventsOf_eq_nil hcharges hk, hcharged, hreact]
    rfl

/-- If nothing is stale, it leaves everything as it is. -/
theorem handleReport_of_fresh (h : s.Standing texts) (hcalm : s.Calm state elastic)
    (hslice : s.registry.find? elastic.slice = some slice)
    (hfresh : ∀ q, s.reallocator.stale.get q = false) :
    (∃ restartReporter, (s.handleReport state elastic.sibling).1 = { s with restartReporter }) ∧
      ∀ k ∈ reactionKinds, eventsOf k (s.handleReport state elastic.sibling).2 = [] := by
  obtain ⟨hstate, hevents⟩ := handleReport_of_calm h hcalm hslice
  obtain ⟨c, hc⟩ := h.sound.exists_config (List.ne_nil_of_mem (Registry.mem_of_find? hslice))
  rw [reallocate_of_fresh hfresh hslice hc] at hstate hevents
  refine ⟨hstate, fun k hk => hevents k ?_⟩
  revert k
  decide

theorem not_serves_of_fresh (h : s.Standing texts) (hcalm : s.Calm state elastic)
    (hslice : s.registry.find? elastic.slice = some slice)
    (hfresh : ∀ q, s.reallocator.stale.get q = false) (r : Resource) :
    ¬ Serves (s.handleReport state elastic.sibling) elastic.slice r := by
  obtain ⟨_, hnothing⟩ := handleReport_of_fresh h hcalm hslice hfresh
  rintro (⟨e, he, _⟩ | ⟨total, configured, he⟩)
  · rw [hnothing _ (by decide)] at he
    cases he
  · rw [hnothing _ (by decide)] at he
    cases he

/-- If something is stale, it serves the elastic slice. -/
theorem serves_handleReport (h : s.Standing texts) (hcalm : s.Calm state elastic)
    (hslice : s.registry.find? elastic.slice = some slice) (hc : s.config = some c)
    (hstates : InitConfig.states c.root elastic.slice = true) {q r : Resource}
    (hstale : s.reallocator.stale.get q = true)
    (hdue : slice.dynamic.get r = 0 ∨ s.reallocator.stale.get r = true) :
    Serves (s.handleReport state elastic.sibling) elastic.slice r := by
  obtain ⟨⟨restartReporter, hstate⟩, hevents⟩ := handleReport_of_calm h hcalm hslice
  have hserves := serves_reallocate hstale hslice hdue hc h.equipped hstates state
  rw [Serves, hstate, hevents _ (by decide), hevents _ (by decide)]
  exact hserves

/-- The elastic slice is served as long as some resource is stale: of whatever it has no dynamic
quota, it is given some or it is told that nothing is left.  Otherwise nothing is computed.  A
resource is stale just if some call found a quota of it changed and nothing was assigned of it
since. -/
theorem elastic_slice_served (settings : Settings) (calls : List Call) (elastic : Elastic)
    (slice : Slice) (hslice : (after settings calls).registry.find? elastic.slice = some slice)
    (state : Element) (hcalm : (after settings calls).Calm state elastic) :
    let s := after settings calls
    let report := s.handleReport state elastic.sibling
    (∀ c, s.config = some c → InitConfig.states c.root elastic.slice = true →
      (∃ q, s.reallocator.stale.get q = true) →
        ∀ r, slice.dynamic.get r = 0 → Serves report elastic.slice r) ∧
    ((∀ q, s.reallocator.stale.get q = false) →
      (∃ restartReporter, report.1 = { s with restartReporter }) ∧
        ∀ k ∈ reactionKinds, eventsOf k report.2 = []) ∧
    ∀ q, s.reallocator.stale.get q = true ↔ ∃ before call later,
      calls = before ++ call :: later ∧ (after settings before).Finds call q ∧
        (after settings (before ++ [call])).lastGrant? q later = none := by
  intro s report
  obtain ⟨_, _, hstanding, _⟩ := run_new settings calls
  refine ⟨?_, handleReport_of_fresh hstanding hcalm hslice, fun q => ?_⟩
  · rintro c hc hstates ⟨q, hstale⟩ r hzero
    exact serves_handleReport hstanding hcalm hslice hc hstates hstale (.inl hzero)
  · have hstart : (new settings).reallocator.stale.get q = false := by cases q <;> rfl
    have hrun := stale_run_iff (standing_new settings) calls q
    rw [hstart] at hrun
    simpa [after_snoc] using hrun

def batchElastic : Elastic := ⟨"batch", ⟨["init", "state"]⟩⟩

theorem calm_leftState (calls : List Call) :
    (after batchSettings calls).Calm leftState batchElastic := by
  refine calm_of_no_failures (elastic_after batchSettings calls) (by decide +kernel) ?_
  rw [threshold_after]
  decide +kernel

theorem stale_batch (q : Resource) :
    (after batchSettings batchCalls).reallocator.stale.get q = false := by
  have hfresh : (after batchSettings batchCalls).reallocator.stale = ⟨false, false⟩ := by
    simp only [batchCalls, after_started]
    decide +kernel
  rw [hfresh]
  cases q <;> rfl

/-- The slice is given both resources by the first report, and by then nothing is stale any more. -/
theorem batch_served :
    ((after batchSettings batchStarted).registry.find? "batch").map Slice.dynamic =
        some ⟨0, 0⟩ ∧
      (after batchSettings batchStarted).reallocator.stale = ⟨true, true⟩ ∧
      (∀ r, Serves ((after batchSettings batchStarted).handleReport leftState ⟨["init", "state"]⟩)
        "batch" r) ∧
      ((after batchSettings batchCalls).registry.find? "batch").map Slice.dynamic =
        some ⟨12, 48⟩ ∧
      (∀ q, (after batchSettings batchCalls).reallocator.stale.get q = false) ∧
      ∀ k ∈ reactionKinds, eventsOf k
        ((after batchSettings batchCalls).handleReport leftState ⟨["init", "state"]⟩).2 = [] := by
  have hplain : ((after batchSettings batchStarted).registry.find? "batch").map Slice.dynamic =
      some ⟨0, 0⟩ := by
    simp only [batchStarted, after_started]
    decide +kernel
  have hstale : (after batchSettings batchStarted).reallocator.stale = ⟨true, true⟩ := by
    simp only [batchStarted, after_started]
    decide +kernel
  have hgiven : ((after batchSettings batchCalls).registry.find? "batch").map Slice.dynamic =
      some ⟨12, 48⟩ := by
    simp only [batchCalls, after_started]
    decide +kernel
  obtain ⟨slice, hslice, hzero⟩ := Option.map_eq_some_iff.mp hplain
  obtain ⟨later, hlater, _⟩ := Option.map_eq_some_iff.mp hgiven
  have hserved := (elastic_slice_served batchSettings batchStarted batchElastic slice hslice
    leftState (calm_leftState batchStarted)).1 batchConfig config_batchStarted (by decide +kernel)
  have hsettled := (elastic_slice_served batchSettings batchCalls batchElastic later hlater
    leftState (calm_leftState batchCalls)).2.1
  refine ⟨hplain, hstale, fun r => hserved ⟨.caps, ?_⟩ r ?_, hgiven, stale_batch,
    (hsettled stale_batch).2⟩
  · rw [hstale]
    rfl
  · rw [hzero]
    cases r <;> rfl

/-- The slice `batch` asks for nothing, and there is no other. -/
def starvedConfig : InitConfig := quotaConfig [("batch", 0, some 0)]

def starvedCalls : List Call := [.updateConfig starvedConfig.text]

/-- No quota has ever changed, so nothing is computed although the slice has no dynamic quotas and
nearly all is left. -/
theorem starved_slice_ignored :
    (after batchSettings starvedCalls).registry = [{ name := "batch" }] ∧
      (after batchSettings starvedCalls).config = some starvedConfig ∧
      InitConfig.states starvedConfig.root "batch" = true ∧
      (after batchSettings starvedCalls).Calm leftState batchElastic ∧
      ∀ r, ¬ Serves
        ((after batchSettings starvedCalls).handleReport leftState ⟨["init", "state"]⟩)
        "batch" r := by
  have hregistry : (after batchSettings starvedCalls).registry = [{ name := "batch" }] := by
    simp only [starvedCalls, after_started]
    decide +kernel
  have hc : (after batchSettings starvedCalls).config = some starvedConfig := by
    rw [config_after, starvedCalls, List.filterMap_cons_some (accepted?_own_text starvedConfig)]
    rfl
  have hslice : (after batchSettings starvedCalls).registry.find? batchElastic.slice =
      some { name := "batch" } := by
    rw [hregistry]
    rfl
  have hfresh : (after batchSettings starvedCalls).reallocator.stale = ⟨false, false⟩ := by
    simp only [starvedCalls, after_started]
    decide +kernel
  obtain ⟨_, _, hstanding, _⟩ := run_new batchSettings starvedCalls
  have hignored := not_serves_of_fresh hstanding (calm_leftState starvedCalls) hslice fun q => by
    rw [hfresh]
    cases q <;> rfl
  exact ⟨hregistry, hc, by decide +kernel, calm_leftState starvedCalls, hignored⟩

end Supervisor

end Overseer
