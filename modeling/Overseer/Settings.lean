import Overseer.Label
import Overseer.Problem
import Overseer.Resource

/-!
Settings of the supervision.
-/

namespace Overseer

/-- `remaining` is the label of the slice that receives the remaining resources. -/
structure Settings where
  remaining : Option Label := none
  margin : Both Nat := ⟨400, 20 * ByteSize.mebi⟩
  heartbeatThreshold : Nat := 3
  configBufferSize : Nat := 16384
  reportBufferSize : Nat := 4096
  sessionBufferSize : Nat := 4096
  inputCapacity : Nat := 64
  busCapacity : Nat := 1024
  deriving DecidableEq, Repr

namespace Settings

/-- A configuration names the receiving slice at its root; an empty label names none. -/
def ofConfig (text : String) : Except Problem Settings :=
  match Markup.Element.parse text with
  | .error e => .error (.malformedConfig e)
  | .ok root =>
    let label := (root.attribute? "remaining_resources_for").map Label.parse
    .ok { remaining := label.filter (·.segments ≠ []) }

def elasticSlice (s : Settings) : Option String := s.remaining.map Label.last

/-- The report from next to the elastic slice, which tells what remains. -/
def siblingLabel (s : Settings) : Option Label := s.remaining.map fun l => l.parent.child "state"

/-- Queues have at least one place. -/
def inputPlaces (s : Settings) : Nat := max 1 s.inputCapacity

def busPlaces (s : Settings) : Nat := max 1 s.busCapacity

end Settings

end Overseer
