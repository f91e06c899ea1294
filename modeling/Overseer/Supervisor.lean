import Overseer.Finding
import Overseer.InitConfig
import Overseer.RestartReport
import Overseer.Settings

/-!
The supervisor keeps the registry of slices in step with the accepted configuration and the state
reports, and publishes the configuration anew after every change.  Each input gives a new state and
the effects of handling it, in order.
-/

namespace Overseer

/-- The slice that receives the remaining resources, and the report that tells what remains. -/
structure Elastic where
  slice : String
  sibling : Label
  deriving DecidableEq, Repr

structure Supervisor where
  threshold : Nat
  elastic : Option Elastic
  config : Option InitConfig
  registry : Registry
  reallocator : Reallocator
  totals : Both Nat
  regenerations : Nat
  configReporter : Reporter
  restartReporter : Reporter

namespace Supervisor

def configReport : String := "init.config"

def new (settings : Settings) : Supervisor :=
  { threshold := settings.heartbeatThreshold
    elastic := settings.remaining.map fun l => ⟨l.last, l.parent.child "state"⟩
    config := none
    registry := []
    reallocator := { margin := settings.margin }
    totals := ⟨0, 0⟩
    regenerations := 0
    configReporter := .new configReport "config" settings.configBufferSize
    restartReporter := RestartReport.reporter settings.reportBufferSize }

/-! ## Regeneration -/

/-- Publish the configuration for the registry as it stands. -/
def publish (s : Supervisor) (root : Markup.Element) : Supervisor × List Effect :=
  let g := s.configReporter.generate (InitConfig.draft root s.registry)
  let s := { s with configReporter := g.reporter }
  match g.result with
  | .error e => (s, g.effects ++ [.error ("unable to generate init configuration: " ++ e.message)])
  | .ok runs =>
    let totals := s.registry.totals
    let caps := totals.caps
    let ram := ByteSize.render totals.ram
    ({ s with totals, regenerations := s.regenerations + 1 },
     g.effects ++ [.info s!"total assigned resources: caps={caps}, ram={ram}",
       .publish { kind := .configRegenerated, count := some runs, caps := some totals.caps,
                  ram := some totals.ram }])

/-- Bring the books up to date with the accepted configuration and publish it. -/
def regenerate (s : Supervisor) : Supervisor × List Effect :=
  match s.config with
  | none => (s, [.debug "no init configuration yet, skipping regeneration"])
  | some config =>
    let (books, booked) := InitConfig.Books.update ⟨s.registry, s.reallocator⟩ config.root
    let (s, published) :=
      { s with registry := books.registry, reallocator := books.reallocator }.publish config.root
    (s, booked ++ published)

/-- Accept a new configuration, unless it is malformed. -/
def updateConfig (s : Supervisor) (text : String) :
    Except Problem Unit × Supervisor × List Effect :=
  match InitConfig.parse text with
  | .error e =>
    let p := Problem.malformedConfig e
    (.error p, s,
      [.warn (p.message ++ ", keeping the previous configuration"), .publish p.event])
  | .ok config => (.ok (), { s with config := some config }.regenerate)

/-! ## State reports -/

/-- What is logged and published of an assignment. -/
def reallocationEffects (elastic : Elastic) (a : Reallocation) : List Effect :=
  let totals := a.availability.toList.map fun availability =>
    let init := elastic.sibling.parent.render
    let text := availability.render
    .info s!"total resources of '{init}': {text}"
  let problems := a.problems.flatMap fun p => [.error p.message, .publish p.event]
  let assigned :=
    if a.updated then
      [.publish { kind := .dynamicResourcesAssigned, slice := some elastic.slice,
                  caps := a.assigned.caps, ram := a.assigned.ram }]
    else []
  totals ++ problems ++ assigned

/-- Give the elastic slice what its sibling reports as remaining. -/
def reallocate (s : Supervisor) (state : Markup.Element) (elastic : Elastic) :
    Supervisor × List Effect :=
  match s.registry.find? elastic.slice with
  | none =>
    let p := Problem.elasticSliceMissing elastic.slice
    let (s, effects) := s.regenerate
    (s, [.warn p.message, .publish p.event] ++ effects)
  | some slice =>
    match s.config with
    | none => (s, [])
    | some config =>
      let a := s.reallocator.assign state config.root slice
      let registry := (s.registry.update? elastic.slice fun _ => a.slice).getD s.registry
      let s := { s with registry, reallocator := a.reallocator }
      let effects := reallocationEffects elastic a
      if a.updated then
        let (s, more) := s.regenerate
        (s, effects ++ more)
      else (s, effects)

/-- React to a report whose findings are charged already: a restart comes first, remaining resources
second. -/
def react (s : Supervisor) (state : Markup.Element) (label : Label) : Supervisor × List Effect :=
  if s.registry.restartRequired then s.regenerate
  else match s.elastic with
    | none => (s, [])
    | some elastic =>
      if label = elastic.sibling ∧ s.registry ≠ [] then s.reallocate state elastic else (s, [])

def reportRestarts (s : Supervisor) : Supervisor × List Effect :=
  let g := s.restartReporter.generate (RestartReport.draft s.registry)
  let failed := match g.result with
    | .ok _ => []
    | .error e => [.error ("unable to write restart info: " ++ e.message)]
  ({ s with restartReporter := g.reporter }, g.effects ++ failed)

/-- A report with at most one element says nothing yet. -/
def handleReport (s : Supervisor) (state : Markup.Element) (label : Label) :
    Supervisor × List Effect :=
  if state.children.length ≤ 1 then (s, [])
  else
    let (registry, charged) := s.registry.chargeAll (findingsOf state s.threshold label.scope)
    let (s, reacted) := { s with registry }.react state label
    let (s, reported) := s.reportRestarts
    (s, charged ++ reacted ++ reported)

end Supervisor

end Overseer
