import Overseer.Registry
import Overseer.Reporter

/-!
The restart report: the slices with their versions and, once they were restarted, their failures.
-/

namespace Overseer.RestartReport

open Markup (Draft Instr)

def name : String := "restart_info"

/-- The attribute that counts each kind of failure, in the order of writing. -/
def counters : List (Failure × String) :=
  [(.capsRequest, "caps_requests"), (.cpuFault, "cpu_faults"), (.heartbeat, "skipped_heartbeats"),
   (.ramRequest, "ram_requests"), (.segFault, "segfaults")]

/-- Kinds that never occurred are left out. -/
def failed (r : FailureRecord) : Instr :=
  .node "failed" (.attribute "label" r.label ::
    (counters.filter fun (f, _) => r.count f != 0).map fun (f, name) =>
      .attribute name (toString (r.count f)))

/-- A slice of version zero has nothing to tell but its name. -/
def component (s : Slice) : Instr :=
  .node "component" (.attribute "name" s.name ::
    if s.combinedVersion = 0 then []
    else .attribute "restarts" (toString s.combinedVersion) :: s.failures.map failed)

def draft (reg : Registry) : Draft := reg.map component

def reporter (bufferSize : Nat) : Reporter := .new name name bufferSize

end Overseer.RestartReport
