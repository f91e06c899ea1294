import Overseer.Event

/-!
Effects: what a step of the supervision does to the world, in the order in which it does it.
-/

namespace Overseer

inductive Effect where
  | log (line : LogLine)
  | publish (event : Event)
  | write (report content : String)
  deriving DecidableEq, Repr

namespace Effect

def error (text : String) : Effect := .log ⟨.error, text⟩
def warn (text : String) : Effect := .log ⟨.warn, text⟩
def info (text : String) : Effect := .log ⟨.info, text⟩
def debug (text : String) : Effect := .log ⟨.debug, text⟩

def line? : Effect → Option LogLine
  | .log line => some line
  | _ => none

def event? : Effect → Option Event
  | .publish event => some event
  | _ => none

end Effect

/-! ## Report stores -/

/-- What is kept of a report: how often it was written, and what was written last. -/
structure StoredReport where
  name : String
  writes : Nat
  latest : String
  deriving DecidableEq, Repr

abbrev ReportStore := List StoredReport

namespace ReportStore

def find? (store : ReportStore) (name : String) : Option StoredReport :=
  List.find? (·.name == name) store

def write : ReportStore → String → String → ReportStore
  | [], name, content => [⟨name, 1, content⟩]
  | r :: rs, name, content =>
    if r.name == name then ⟨name, r.writes + 1, content⟩ :: rs else r :: write rs name content

def latest? (store : ReportStore) (name : String) : Option String := (store.find? name).map (·.latest)

def writes (store : ReportStore) (name : String) : Nat := ((store.find? name).map (·.writes)).getD 0

/-- The names of the reports in ascending order. -/
def names (store : ReportStore) : List String :=
  (store.map (·.name)).mergeSort fun a b => decide (a ≤ b)

def apply (store : ReportStore) : Effect → ReportStore
  | .write name content => store.write name content
  | _ => store

theorem latest?_write (store : ReportStore) (name content other : String) :
    (store.write name content).latest? other =
      if name = other then some content else store.latest? other := by
  induction store with
  | nil => by_cases h : name = other <;> simp [write, latest?, find?, h]
  | cons r rs ih =>
    by_cases hr : r.name = name
    · by_cases h : name = other <;> simp [write, latest?, find?, hr, h]
    · by_cases ho : r.name = other
      · have hn : name ≠ other := fun e => hr (ho.trans e.symm)
        simp [write, latest?, find?, ho, hn, Ne.symm hn]
      · simp only [latest?, find?] at ih ⊢
        simpa [write, hr, ho] using ih

end ReportStore

end Overseer
