import Overseer.Problem
import Overseer.Slice

/-!
The reallocator gives one slice what a margin leaves of the resources that other slices do not
claim.  A resource is recalculated when some configured quota of it changed, or the slice has no
dynamic quota of it yet; while nothing changed at all, nothing is computed.
-/

namespace Overseer

structure Reallocator where
  margin : Both Nat
  stale : Both Bool := ⟨false, false⟩
  deriving DecidableEq, Repr

/-- What an assignment did. -/
structure Reallocation where
  reallocator : Reallocator
  slice : Slice
  availability : Option Availability := none
  assigned : Both (Option Nat) := ⟨none, none⟩
  problems : List Problem := []
  deriving DecidableEq, Repr

def Reallocation.updated (a : Reallocation) : Bool := a.assigned.caps.isSome || a.assigned.ram.isSome

namespace Reallocator

/-- Note the configured quotas of a slice; a change makes its resource stale. -/
def observe (a : Reallocator) (s : Slice) (quotas : Both Nat) : Reallocator × Slice :=
  ({ a with stale := .of fun r => a.stale.get r || s.configured.get r != quotas.get r },
   { s with configured := quotas })

/-- Assign one resource if that is due. -/
def assignResource (availability : Availability) (configured : Both Nat) (a : Reallocation)
    (r : Resource) : Reallocation :=
  if a.slice.dynamic.get r = 0 ∨ a.reallocator.stale.get r then
    let avail := (availability.tallies.get r).avail
    let margin := a.reallocator.margin.get r
    match softLimit avail margin (configured.get r) with
    | some n =>
      { a with
        reallocator.stale := a.reallocator.stale.set r false
        slice.dynamic := a.slice.dynamic.set r n
        assigned := a.assigned.set r (some n) }
    | none =>
      { a with
        problems := a.problems ++
          [.resourcesInfeasible r.word a.slice.name (avail - margin) (configured.get r)] }
  else a

def assign (a : Reallocator) (state config : Markup.Element) (s : Slice) : Reallocation :=
  if a.stale.caps || a.stale.ram then
    let availability := Availability.ofState state
    let configured := configuredTotals config s.name
    [Resource.caps, .ram].foldl (assignResource availability configured)
      { reallocator := a, slice := s, availability := some availability }
  else { reallocator := a, slice := s }

end Reallocator

end Overseer
