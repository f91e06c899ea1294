import Overseer.Proofs.Runs
import Overseer.Proofs.SideReports

/-!
What clients see of effects: the reports and the events, but not the log nor how often a report was
written until it fitted.  `regenerate_seen` and `reportRestarts_seen` say it in full for the two
reports of a supervisor.
-/

namespace Overseer

open Markup

/-- How often a configuration was written until it fitted is left out. -/
def Event.withoutRuns (e : Event) : Event :=
  if e.kind = .configRegenerated then { e with count := none } else e

def Effect.seen? : Effect → Option Effect
  | .log _ => none
  | .publish e => some (.publish e.withoutRuns)
  | .write report content => some (.write report content)

def seen (es : List Effect) : List Effect := es.filterMap Effect.seen?

@[simp] theorem seen_append (es fs : List Effect) : seen (es ++ fs) = seen es ++ seen fs :=
  List.filterMap_append

theorem seen_of_isDebug {es : List Effect} (h : ∀ e ∈ es, e.IsDebug) : seen es = [] := by
  rw [seen, List.filterMap_eq_nil_iff]
  intro e he
  obtain ⟨text, rfl⟩ := h e he
  rfl

theorem apply_seen (es : List Effect) (store : ReportStore) :
    es.foldl ReportStore.apply store = (seen es).foldl ReportStore.apply store := by
  induction es generalizing store with
  | nil => rfl
  | cons e es ih =>
    rw [List.foldl_cons, ih]
    cases e <;> rfl

/-! ## Events -/

/-- The events among some effects. -/
def publishedEvents (es : List Effect) : List Event :=
  (es.filterMap Effect.event?).map Event.withoutRuns

theorem publishedEvents_seen (es : List Effect) :
    publishedEvents es = (seen es).filterMap Effect.event? := by
  rw [publishedEvents, seen, List.map_filterMap, List.filterMap_filterMap]
  congr 1
  funext e
  cases e <;> rfl

/-! ## Reports -/

/-- A report that denotes a tree is written whole, and nothing else of it is seen. -/
theorem Reporter.seen_generate (r : Reporter) {draft : Draft} {as : List Attribute}
    {ps : List Piece} (h : Denotes draft as ps) :
    (∃ runs, (r.generate draft).result = .ok runs) ∧
      seen (r.generate draft).effects =
        [.write r.name (.ofList (writtenElement r.root.toList as ps).render)] := by
  obtain ⟨runs, retries, hresult, heffects, hdebug⟩ :=
    r.generate_eq_ok (plainDraft_of_denotes h) (rendering_of_denotes h r.root)
  refine ⟨⟨runs, hresult⟩, ?_⟩
  rw [heffects, seen_append, seen_of_isDebug hdebug]
  rfl

namespace Supervisor

/-- The event of a regeneration. -/
def regenerated (reg : Registry) : Event :=
  { kind := .configRegenerated, caps := some reg.totals.caps, ram := some reg.totals.ram }

theorem publish_seen {s : Supervisor} (hs : s.Equipped) (c : InitConfig) :
    seen (s.publish c.root).2 =
      [.write configReport (publishedText c s.registry), .publish (regenerated s.registry)] := by
  obtain ⟨⟨runs, hresult⟩, hseen⟩ :=
    s.configReporter.seen_generate (InitConfig.denotes_draft c.root s.registry)
  rw [hs.name, hs.root] at hseen
  simp only [publish, hresult]
  rw [seen_append, hseen]
  rfl

/-- A regeneration shows the text that it publishes, and the totals. -/
theorem regenerate_seen {s : Supervisor} {c : InitConfig} (hc : s.config = some c)
    (hs : s.Equipped) :
    seen s.regenerate.2 = [.write configReport (publishedText c (s.entered c).registry),
      .publish (regenerated (s.entered c).registry)] := by
  have ht : (s.entered c).Equipped := ⟨hs.name, hs.root, hs.restart⟩
  have hbooked := seen_of_isDebug (isDebug_update ⟨s.registry, s.reallocator⟩ c.root)
  rw [regenerate_of_config hc, seen_append, hbooked, publish_seen ht, List.nil_append]

/-- The text of the restart report. -/
def restartText (reg : Registry) : String :=
  (writtenElement RestartReport.name.toList []
    (reg.map fun s => .child (RestartReport.componentElement s))).source

theorem reportRestarts_seen {s : Supervisor} (hname : s.restartReporter.name = RestartReport.name)
    (hroot : s.restartReporter.root = RestartReport.name) :
    seen s.reportRestarts.2 = [.write RestartReport.name (restartText s.registry)] := by
  obtain ⟨⟨runs, hresult⟩, hseen⟩ :=
    s.restartReporter.seen_generate (RestartReport.denotes_draft s.registry)
  rw [hname, hroot] at hseen
  simp only [reportRestarts, hresult]
  rw [seen_append, hseen]
  rfl

end Supervisor

end Overseer
