import Overseer.Resource

/-!
Slices: the supervised parts of the system, with their versions, quotas and tallies of failures.
-/

namespace Overseer

/-! ## Failures -/

inductive Failure where
  | capsRequest
  | cpuFault
  | heartbeat
  | ramRequest
  | segFault
  deriving DecidableEq, Repr

def Failure.word : Failure → String
  | .capsRequest => "caps_request"
  | .cpuFault => "cpu_fault"
  | .heartbeat => "heartbeat"
  | .ramRequest => "ram_request"
  | .segFault => "seg_fault"

/-- How often the component with this label failed, by kind of failure. -/
structure FailureRecord where
  label : String
  caps : Nat := 0
  cpu : Nat := 0
  heartbeat : Nat := 0
  ram : Nat := 0
  segfault : Nat := 0
  deriving DecidableEq, Repr

namespace FailureRecord

def count (r : FailureRecord) : Failure → Nat
  | .capsRequest => r.caps
  | .cpuFault => r.cpu
  | .heartbeat => r.heartbeat
  | .ramRequest => r.ram
  | .segFault => r.segfault

def add (r : FailureRecord) : Failure → FailureRecord
  | .capsRequest => { r with caps := r.caps + 1 }
  | .cpuFault => { r with cpu := r.cpu + 1 }
  | .heartbeat => { r with heartbeat := r.heartbeat + 1 }
  | .ramRequest => { r with ram := r.ram + 1 }
  | .segFault => { r with segfault := r.segfault + 1 }

theorem count_add (r : FailureRecord) (f g : Failure) :
    (r.add f).count g = r.count g + if f = g then 1 else 0 := by
  cases f <;> cases g <;> rfl

@[simp] theorem label_add (r : FailureRecord) (f : Failure) : (r.add f).label = r.label := by
  cases f <;> rfl

end FailureRecord

/-- Count a failure under a label; a new label goes to the end. -/
def tally (label : String) (f : Failure) : List FailureRecord → List FailureRecord
  | [] => [FailureRecord.add { label := label } f]
  | r :: rs => if r.label == label then r.add f :: rs else r :: tally label f rs

/-! ## Slices -/

/-- A dynamic quota of zero means that the configured one holds. -/
structure Slice where
  name : String
  deployVersion : Nat := 0
  internalVersion : Nat := 0
  restartPending : Bool := false
  configured : Both Nat := ⟨0, 0⟩
  dynamic : Both Nat := ⟨0, 0⟩
  failures : List FailureRecord := []
  deriving DecidableEq, Repr

namespace Slice

/-- The version that is published.  Past the largest amount it begins again at zero. -/
def combinedVersion (s : Slice) : Nat := Amount.wrap (s.deployVersion + s.internalVersion)

theorem combinedVersion_le (s : Slice) : s.combinedVersion ≤ Amount.limit := Amount.wrap_le _

/-- The quota in force. -/
def assigned (s : Slice) (r : Resource) : Nat :=
  if s.dynamic.get r = 0 then s.configured.get r else s.dynamic.get r

/-- A pending restart is carried out by the next internal version. -/
def updateInternalVersion (s : Slice) : Slice :=
  if s.restartPending then
    { s with restartPending := false, internalVersion := s.internalVersion + 1 }
  else s

def markRestart (s : Slice) (label : String) (f : Failure) : Slice :=
  { s with failures := tally label f s.failures, restartPending := true }

def failure? (s : Slice) (label : String) : Option FailureRecord :=
  s.failures.find? (·.label == label)

end Slice

end Overseer
