import Overseer.ByteSize
import Overseer.Log

/-!
Events: what the supervision noticed, decided, refused or did, for subscribers to see.
`Event.logLine` is an event as a log line.
-/

namespace Overseer

inductive EventKind where
  | heartbeatSkipped
  | resourceRequested
  | pdFault
  | cpuFault
  | restartScheduled
  | configRegenerated
  | dynamicResourcesAssigned
  | reportRejected
  | configRejected
  | unknownComponent
  | reallocationInfeasible
  | elasticSliceMissing
  | sessionOpened
  | shutdownRequested
  | subscriberPanicked
  | subscriberOverflow
  deriving DecidableEq, Repr

/-- Any kind may carry any of the details; each publisher sets those that it knows. -/
structure Event where
  kind : EventKind
  slice : Option String := none
  component : Option String := none
  reason : Option String := none
  count : Option Nat := none
  caps : Option Nat := none
  ram : Option Nat := none
  deriving DecidableEq, Repr

def EventKind.level : EventKind → Level
  | .reallocationInfeasible => .error
  | .restartScheduled | .configRegenerated | .dynamicResourcesAssigned | .shutdownRequested => .info
  | .sessionOpened => .debug
  | _ => .warn

namespace Event

/-- A queue of the subscriber had no place for an event. -/
def overflow (subscriber reason : String) : Event :=
  { kind := .subscriberOverflow, component := some subscriber, reason := some reason }

/-- A subscriber failed on an event. -/
def panicked (subscriber info : String) : Event :=
  { kind := .subscriberPanicked, component := some subscriber, reason := some info }

def componentName (e : Event) : String := e.component.getD "unknown"

def sliceName (e : Event) : String := e.slice.getD "unknown"

def reasonText (e : Event) : String := e.reason.getD "unknown"

/-- The component, and the slice it lives in if that is known. -/
def place (e : Event) : String :=
  let component := e.componentName
  match e.slice with
  | some slice => s!"'{component}' in slice '{slice}'"
  | none => s!"'{component}'"

def describe (e : Event) : String :=
  let place := e.place
  let component := e.componentName
  let slice := e.sliceName
  let reason := e.reasonText
  match e.kind with
  | .heartbeatSkipped =>
    let count := e.count.getD 0
    s!"unresponsive component {place}, skipped heartbeats: {count}"
  | .resourceRequested => s!"component {place} requested resource of type '{reason}'"
  | .pdFault => s!"component {place}, PD fault detected"
  | .cpuFault => s!"component {place}, CPU fault detected"
  | .restartScheduled => s!"restart of '{slice}' scheduled ({reason} of '{component}')"
  | .configRegenerated =>
    let caps := e.caps.getD 0
    let ram := ByteSize.render (e.ram.getD 0)
    let attempts := e.count.getD 1
    s!"init configuration regenerated: caps={caps}, ram={ram}, attempts={attempts}"
  | .dynamicResourcesAssigned =>
    let caps := (e.caps.map fun n => s!" caps={n}").getD ""
    let ram := (e.ram.map fun n => " ram=" ++ ByteSize.render n).getD ""
    s!"dynamic resources of '{slice}' assigned:{caps}{ram}"
  | .sessionOpened =>
    let size := e.count.getD 0
    s!"report session '{component}' opened, buffer size {size}"
  | .shutdownRequested => "shutdown requested"
  | .subscriberOverflow => s!"subscriber '{component}' dropped event: {reason}"
  | .subscriberPanicked => s!"subscriber '{component}' panicked: {reason}"
  | .reportRejected | .configRejected | .unknownComponent | .reallocationInfeasible
  | .elasticSliceMissing => reason

def logLine (e : Event) : LogLine := ⟨e.kind.level, e.describe⟩

end Event

end Overseer
