import Overseer.Monitor

/-!
Sessions: how clients hand inputs to a monitor.  A session cuts each report to the size of its
buffer.
-/

namespace Overseer

structure Session where
  label : Label
  bufferSize : Nat
  deriving DecidableEq, Repr

/-- A report as it is submitted. -/
def Session.input (s : Session) (bytes : ByteArray) : Input :=
  .report s.label (bytes.extract 0 (min bytes.size s.bufferSize))

namespace Monitor

def openSession (m : Monitor) (label : Label) : Session × Monitor :=
  let opened : Event :=
    { kind := .sessionOpened, component := some label.render, count := some m.sessionBufferSize }
  (⟨label, m.sessionBufferSize⟩,
   { (m.perform [.publish opened]).1 with clients := m.clients + 1 })

def closeSession (m : Monitor) : Monitor := { m with clients := m.clients - 1 }

def isFull (m : Monitor) : Bool := decide (m.inputPlaces ≤ m.inputs.length)

/-- Queue an input if there is a place for it. -/
def submit (m : Monitor) (input : Input) : Except SubmitError Monitor :=
  if m.phase = .finished then .error .closed
  else if m.isFull then .error .full
  else .ok { m with inputs := m.inputs ++ [input] }

def cancel (m : Monitor) : Monitor := { m with cancelled := true }

def signal (m : Monitor) : Monitor := { m with signalled := true }

/-- No handle and no session is left. -/
def disconnect (m : Monitor) : Monitor := { m with clients := 0 }

end Monitor

end Overseer
