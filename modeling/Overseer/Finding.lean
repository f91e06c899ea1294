import Overseer.Registry
import Overseer.Effect

/-!
Findings: the failures that a state report shows, one by one.  `Element.findings` reads them off a
child of the report; charging them to the registry schedules restarts.
-/

namespace Overseer

/-- A failure of the component `label` in the slice `slice`.  Not every finding asks for a
restart. -/
structure Finding where
  slice : String
  label : String
  warning : String
  event : Event
  failure : Option Failure
  deriving DecidableEq, Repr

/-! ## Reading -/

/-- What a request for more of a resource counts as. -/
def Markup.Element.requestFailure (e : Element) : Failure :=
  if e.name == "ram" || e.attribute? "name" == some "RAM" then .ramRequest else .capsRequest

/-- The failures of one child of a report, in the order in which they are dealt with. -/
def Markup.Element.findings (child : Element) (threshold : Nat) (scope : Scope) : List Finding :=
  let name := (child.attribute? "name").getD ""
  let label := scope.failureLabel name
  let finding (warning : String) (event : Event) (failure : Option Failure) : Finding :=
    { slice := scope.failureSlice name, label, warning
      event := { event with component := some name, slice := scope.slice? }
      failure }
  let skipped := child.amount "skipped_heartbeats" 0
  let heartbeats :=
    if skipped = 0 then []
    else [finding s!"'{label}' skipped {skipped} heartbeats"
      { kind := .heartbeatSkipped, count := some skipped }
      (if threshold ≤ skipped then some .heartbeat else none)]
  let requests := (child.children.filter (·.hasAttribute "requested")).map fun resource =>
    let kind := resource.name
    finding s!"'{label}' requested more {kind}"
      { kind := .resourceRequested, reason := some kind } (some resource.requestFailure)
  let pageFaults :=
    if child.switch "pd_fault" false then
      [finding s!"'{label}' caused a page fault" { kind := .pdFault } (some .segFault)]
    else []
  let cpuFaults :=
    if child.switch "cpu_fault" false then
      [finding s!"'{label}' caused a cpu fault" { kind := .cpuFault } (some .cpuFault)]
    else []
  heartbeats ++ requests ++ pageFaults ++ cpuFaults

/-- The failures that a report shows in all children. -/
def findingsOf (state : Markup.Element) (threshold : Nat) (scope : Scope) : List Finding :=
  (Availability.reported state).flatMap (·.findings threshold scope)

/-! ## Charging -/

/-- Ask for the restart that a failure calls for. -/
def Registry.schedule (reg : Registry) (slice label : String) (failure : Failure) :
    Registry × List Effect :=
  match reg.markRestart slice label failure with
  | .ok reg =>
    let kind := failure.word
    (reg, [.info s!"restart of '{slice}' scheduled, '{label}': {kind}",
      .publish { kind := .restartScheduled, slice := some slice, component := some label,
                 reason := some kind }])
  | .error p => (reg, [.warn (p.message ++ ", restart request dropped"), .publish p.event])

def Registry.charge (reg : Registry) (f : Finding) : Registry × List Effect :=
  let seen := [.warn f.warning, .publish f.event]
  match f.failure with
  | none => (reg, seen)
  | some failure =>
    let (reg, effects) := reg.schedule f.slice f.label failure
    (reg, seen ++ effects)

def Registry.chargeAll : Registry → List Finding → Registry × List Effect
  | reg, [] => (reg, [])
  | reg, f :: fs =>
    let (reg, effects) := reg.charge f
    let (reg, rest) := chargeAll reg fs
    (reg, effects ++ rest)

end Overseer
