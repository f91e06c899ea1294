import Overseer.Event
import Overseer.Markup.Error

/-!
Problems: inputs and requests that the supervision refuses.  None of them stops it; each becomes an
event.
-/

namespace Overseer

inductive Problem where
  | malformedReport (label : String) (source : Markup.Error)
  | malformedConfig (source : Markup.Error)
  | invalidUtf8 (label : String)
  | resourcesInfeasible (resource slice : String) (total configured : Nat)
  | unknownComponent (label : String)
  | elasticSliceMissing (slice : String)
  deriving DecidableEq, Repr

namespace Problem

/-- A short word for the kind of problem. -/
def word : Problem → String
  | .malformedReport .. => "malformed_report"
  | .malformedConfig _ => "malformed_config"
  | .invalidUtf8 _ => "invalid_utf8"
  | .resourcesInfeasible .. => "resources_infeasible"
  | .unknownComponent _ => "unknown_component"
  | .elasticSliceMissing _ => "elastic_slice_missing"

def message : Problem → String
  | .malformedReport label source =>
    let cause := source.message
    s!"malformed state report from '{label}': {cause}"
  | .malformedConfig source =>
    let cause := source.message
    s!"malformed init configuration: {cause}"
  | .invalidUtf8 label => s!"state report from '{label}' is not valid UTF-8"
  | .resourcesInfeasible resource slice total configured =>
    s!"unable to upgrade dynamic {resource} of '{slice}': total {resource} ({total}) " ++
      s!"less than total configured {resource} ({configured})"
  | .unknownComponent label => s!"restart requested for a component '{label}' that isn't running"
  | .elasticSliceMissing slice => s!"slice '{slice}' for dynamic resource assignment not found"

def event (p : Problem) : Event :=
  let reason := some p.message
  match p with
  | .malformedReport label _ | .invalidUtf8 label =>
    { kind := .reportRejected, component := some label, reason }
  | .malformedConfig _ => { kind := .configRejected, reason }
  | .resourcesInfeasible _ slice _ _ =>
    { kind := .reallocationInfeasible, slice := some slice, reason }
  | .unknownComponent label => { kind := .unknownComponent, component := some label, reason }
  | .elasticSliceMissing slice => { kind := .elasticSliceMissing, slice := some slice, reason }

end Problem

/-- Why a queue of inputs refused one. -/
inductive SubmitError where
  | full
  | closed
  deriving DecidableEq, Repr

def SubmitError.message : SubmitError → String
  | .full => "input queue full"
  | .closed => "monitor closed"

end Overseer
