import Overseer.Proofs.Serving
import Overseer.Proofs.Share

/-!
What is told when nothing can be assigned.  `shortages_told` says which events a report causes, with
the figures that stand in them: what the margin leaves is never more than what the other start
entries ask for, but it can be just as much (`exact_fit_told`).
-/

namespace Overseer

open Markup

/-! ## Figures -/

/-- The figures of a resource of which nothing is left for a slice. -/
structure Shortage (margin : Nat) (state config : Element) (slice : String) (r : Resource)
    (total configured : Nat) : Prop where
  left : total = min (reportedAvail state r) Amount.limit - margin
  committed : configured = min (InitConfig.asked config slice r) Amount.limit
  noneLeft : total ≤ configured
  /-- Nothing is missing either just if the margin and the others take exactly all there is, or the
  margin alone takes it all and the others ask for nothing. -/
  exactFit : total = configured ↔ min (reportedAvail state r) Amount.limit = margin + configured ∨
    min (reportedAvail state r) Amount.limit ≤ margin ∧ configured = 0

theorem shortage_iff {margin : Nat} {state config : Element} {slice : String} {r : Resource} :
    Shortage margin state config slice r (min (reportedAvail state r) Amount.limit - margin)
        (min (InitConfig.asked config slice r) Amount.limit) ↔
      min (reportedAvail state r) Amount.limit ≤ margin + InitConfig.asked config slice r := by
  constructor
  · intro h
    have hle := h.noneLeft
    omega
  · intro h
    exact ⟨rfl, rfl, by omega, by omega⟩

namespace Reallocator

/-- A slice is refused what is due of a resource exactly if nothing of it is left. -/
theorem mem_problems_assign {a : Reallocator} (h : (a.stale.caps || a.stale.ram) = true)
    (state config : Element) (s : Slice) (p : Problem) :
    p ∈ (a.assign state config s).problems ↔ ∃ r total configured,
      (s.dynamic.get r = 0 ∨ a.stale.get r = true) ∧
        Shortage (a.margin.get r) state config s.name r total configured ∧
        p = .resourcesInfeasible r.word s.name total configured := by
  have hproblems (r : Resource) : p ∈ ((a.assign state config s).share r).problems ↔
      (s.dynamic.get r = 0 ∨ a.stale.get r = true) ∧ ∃ total configured,
        Shortage (a.margin.get r) state config s.name r total configured ∧
          p = .resourcesInfeasible r.word s.name total configured := by
    rw [share_assign h, exactShare]
    by_cases hdue : s.dynamic.get r = 0 ∨ a.stale.get r = true
    · rw [if_pos hdue]
      by_cases hfits : a.margin.get r + InitConfig.asked config s.name r <
          min (reportedAvail state r) Amount.limit
      · rw [if_pos hfits]
        refine iff_of_false List.not_mem_nil ?_
        rintro ⟨_, total, configured, hshort, _⟩
        obtain rfl := hshort.left
        obtain rfl := hshort.committed
        exact absurd (shortage_iff.mp hshort) (Nat.not_le.mpr hfits)
      · rw [if_neg hfits, List.mem_singleton]
        constructor
        · intro hp
          exact ⟨hdue, _, _, shortage_iff.mpr (Nat.not_lt.mp hfits), hp⟩
        · rintro ⟨_, total, configured, hshort, hp⟩
          rw [hp, hshort.left, hshort.committed]
    · rw [if_neg hdue]
      exact iff_of_false List.not_mem_nil fun hrefused => hdue hrefused.1
  rw [problems_eq_shortages h, List.mem_flatMap]
  constructor
  · rintro ⟨r, _, hp⟩
    obtain ⟨hdue, total, configured, hrefused⟩ := (hproblems r).mp hp
    exact ⟨r, total, configured, hdue, hrefused⟩
  · rintro ⟨r, total, configured, hdue, hrefused⟩
    exact ⟨r, by cases r <;> decide, (hproblems r).mpr ⟨hdue, total, configured, hrefused⟩⟩

end Reallocator

namespace Supervisor

variable {s : Supervisor} {texts : List String} {state : Element} {elastic : Elastic}
  {slice : Slice} {c : InitConfig} {event : Event}

/-! ## Reports -/

/-- Events of a shortage come from an assignment, so the report has no failures and is the report of
the sibling. -/
theorem calm_of_shortage {label : Label}
    (h : event ∈ eventsOf .reallocationInfeasible (s.handleReport state label).2) :
    ∃ elastic slice c, label = elastic.sibling ∧ s.Calm state elastic ∧
      s.registry.find? elastic.slice = some slice ∧ s.config = some c := by
  obtain ⟨elastic, helastic, rfl, hlong, hmarks, _, _, hevent⟩ :=
    reallocates_of_event (by decide) (by decide) h
  obtain ⟨slice, c, hslice, hc, _⟩ := assigns_of_event (by decide) (by decide) hevent
  refine ⟨elastic, slice, c, rfl, ⟨helastic, by omega, ?_⟩, hslice, hc⟩
  rw [marks, if_neg hlong]
  exact hmarks

/-- Such a report tells what the assignment refuses. -/
theorem shortages_of_calm (h : s.Standing texts) (hcalm : s.Calm state elastic)
    (hslice : s.registry.find? elastic.slice = some slice) (hc : s.config = some c) :
    eventsOf .reallocationInfeasible (s.handleReport state elastic.sibling).2 =
      (s.reallocator.assign state c.root slice).problems.map Problem.event := by
  have ha := concerns_assign s.reallocator state c.root slice
  obtain ⟨_, hevents⟩ := handleReport_of_calm h hcalm hslice
  rw [hevents _ (by decide), reallocate_eq hc hslice, ← problems_reallocationEffects ha elastic]
  split
  · rw [eventsOf_append, eventsOf_eq_nil (announces_regenerate _) (by decide), List.append_nil]
  · rfl

/-- A shortage is told exactly when the sibling of the elastic slice reports without failures while
something is stale, of each resource that is due and of which nothing is left.  The event has the
figures of the resource. -/
theorem shortages_told (settings : Settings) (calls : List Call) (state : Element) (label : Label)
    (event : Event) :
    let s := after settings calls
    event ∈ eventsOf .reallocationInfeasible (s.handleReport state label).2 ↔
      ∃ elastic slice c, label = elastic.sibling ∧ s.Calm state elastic ∧
        s.registry.find? elastic.slice = some slice ∧ s.config = some c ∧
        (∃ q, s.reallocator.stale.get q = true) ∧ ∃ r total configured,
          (slice.dynamic.get r = 0 ∨ s.reallocator.stale.get r = true) ∧
          Shortage (settings.margin.get r) state c.root elastic.slice r total configured ∧
          event = (Problem.resourcesInfeasible r.word elastic.slice total configured).event := by
  intro s
  obtain ⟨_, _, hstanding, _⟩ := run_new settings calls
  have hcovered := (covered_new settings).run (standing_new settings) calls
  have harmed : (s.reallocator.stale.caps || s.reallocator.stale.ram) = true ↔
      ∃ q, s.reallocator.stale.get q = true := by
    rw [Bool.or_eq_true]
    constructor
    · rintro (hcaps | hram)
      · exact ⟨.caps, hcaps⟩
      · exact ⟨.ram, hram⟩
    · rintro ⟨q, hq⟩
      cases q with
      | caps => exact .inl hq
      | ram => exact .inr hq
  constructor
  · intro hevent
    obtain ⟨elastic, slice, c, rfl, hcalm, hslice, hc⟩ := calm_of_shortage hevent
    rw [shortages_of_calm hstanding hcalm hslice hc] at hevent
    obtain ⟨p, hp, rfl⟩ := List.mem_map.mp hevent
    cases hstale : s.reallocator.stale.caps || s.reallocator.stale.ram with
    | false =>
      rw [Reallocator.assign_of_fresh hstale] at hp
      cases hp
    | true =>
      obtain ⟨r, total, configured, hdue, hshort, rfl⟩ :=
        (Reallocator.mem_problems_assign hstale state c.root slice p).mp hp
      rw [Registry.name_of_find? hslice, hcovered.margin] at hshort
      rw [Registry.name_of_find? hslice]
      exact ⟨elastic, slice, c, rfl, hcalm, hslice, hc, harmed.mp hstale, r, total, configured,
        hdue, hshort, rfl⟩
  · rintro ⟨elastic, slice, c, rfl, hcalm, hslice, hc, hstale, r, total, configured, hdue, hshort,
      rfl⟩
    rw [shortages_of_calm hstanding hcalm hslice hc]
    refine List.mem_map_of_mem
      ((Reallocator.mem_problems_assign (harmed.mpr hstale) state c.root slice _).mpr ?_)
    rw [Registry.name_of_find? hslice]
    exact ⟨r, total, configured, hdue, hcovered.margin ▸ hshort, rfl⟩

/-- After the margin there is just as much left of each resource as `web` asks for.  Nothing is
missing, and still it is told that less is left. -/
theorem exact_fit_told :
    let fitting := writtenElement "state".toList []
      [.child (writtenElement "caps".toList ([("avail", "8")].map InitConfig.written) []),
       .child (writtenElement "ram".toList ([("avail", "80")].map InitConfig.written) [])]
    let told := fun word n => (Problem.resourcesInfeasible word "batch" n n).event
    eventsOf .reallocationInfeasible
        ((after batchSettings batchStarted).handleReport fitting ⟨["init", "state"]⟩).2 =
      [told "caps" 7, told "ram" 64] ∧
    Shortage batchSettings.margin.caps fitting batchConfig.root "batch" .caps 7 7 ∧
    Shortage batchSettings.margin.ram fitting batchConfig.root "batch" .ram 64 64 ∧
    (told "caps" 7).reason = some ("unable to upgrade dynamic caps of 'batch': total caps (7) " ++
      "less than total configured caps (7)") := by
  intro fitting told
  have hcaps : min (reportedAvail fitting .caps) Amount.limit = 8 := by decide +kernel
  have hram : min (reportedAvail fitting .ram) Amount.limit = 80 := by decide +kernel
  refine ⟨?_, ⟨?_, by decide +kernel, Nat.le_refl _, ?_⟩, ⟨?_, by decide +kernel, Nat.le_refl _, ?_⟩,
    by decide +kernel⟩
  · simp only [batchStarted, after_started]
    decide +kernel
  · rw [hcaps]
    rfl
  · rw [hcaps]
    decide
  · rw [hram]
    rfl
  · rw [hram]
    decide

end Supervisor

end Overseer
