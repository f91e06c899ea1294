import Overseer.Label
import Overseer.Reporter
import Overseer.Resource

/-!
Reports beside the configuration: what the runtime init has left, and a copy of its state report.
-/

namespace Overseer

namespace FreeResources

def name : String := "free_resources"

def reporter (bufferSize : Nat) : Reporter := .new name name bufferSize

def draft (ram caps : Nat) : Markup.Draft :=
  [.node "ram" [.attribute "available_mb" (toString (ByteSize.toMebi ram))],
   .node "caps" [.attribute "available" (toString caps)]]

/-- The runtime init reports free resources if its state names both; other reports have none. -/
def draft? (state : Markup.Element) (label : Label) : Option Markup.Draft :=
  match label.scope, state.child? "ram", state.child? "caps" with
  | .runtime _, some ram, some caps =>
    some (draft (ram.attributeD "avail" ByteSize.parse 0) (caps.amount "avail" 0))
  | _, _, _ => none

/-- Write the report if there is one, and say whether it was written. -/
def report (r : Reporter) (state : Markup.Element) (label : Label) :
    Except Markup.Error Bool × Reporter × List Effect :=
  match draft? state label with
  | none => (.ok false, r, [])
  | some draft =>
    let g := r.generate draft
    (g.result.map fun _ => true, g.reporter, g.effects)

end FreeResources

namespace StateCopy

def name : String := "init.state"

/-- Only the state of the runtime init is copied, as it was received. -/
def effects (text : String) (label : Label) : List Effect :=
  if label.isRuntimeState then [.write name text] else []

end StateCopy

end Overseer
