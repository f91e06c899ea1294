import Overseer.Label
import Overseer.Problem
import Overseer.Slice

/-!
The registry of slices, a map from names in order of insertion.  A failure is charged to the slice
it names, else to the first one whose name is a label above the failing component.
-/

namespace Overseer

abbrev Registry := List Slice

/-- Change the first element that satisfies `p`, if there is one. -/
def modifyFirst {α : Type} (p : α → Bool) (f : α → α) : List α → Option (List α)
  | [] => none
  | a :: as => if p a then some (f a :: as) else (modifyFirst p f as).map (a :: ·)

theorem modifyFirst_eq_none_iff {α : Type} {p : α → Bool} {f : α → α} {as : List α} :
    modifyFirst p f as = none ↔ ∀ a ∈ as, p a = false := by
  induction as with
  | nil => simp [modifyFirst]
  | cons a as ih => by_cases h : p a <;> simp [modifyFirst, h, ih]

namespace Registry

def find? (reg : Registry) (name : String) : Option Slice := List.find? (·.name == name) reg

def contains (reg : Registry) (name : String) : Bool := reg.any (·.name == name)

/-- A name that is there already stays where it is. -/
def add (reg : Registry) (name : String) : Registry :=
  if reg.contains name then reg else reg ++ [{ name := name }]

/-- Change the slice with this name, if there is one. -/
def update? (reg : Registry) (name : String) (f : Slice → Slice) : Option Registry :=
  modifyFirst (·.name == name) f reg

/-- Whether a configuration starts a slice.  A start entry without a name starts none. -/
def isStarted (config : Markup.Element) (s : Slice) : Bool :=
  config.starts.any fun start => start.attribute? "name" == some s.name

/-- The slices that a configuration still starts, and the names of the others. -/
def removeOutdated (reg : Registry) (config : Markup.Element) : Registry × List String :=
  (reg.filter (isStarted config), (reg.filter (!isStarted config ·)).map Slice.name)

def restartRequired (reg : Registry) : Bool := reg.any Slice.restartPending

/-- Whether a slice may be charged with a failure of the component `label` in the slice `name`. -/
def isCharged (reg : Registry) (name label : String) (s : Slice) : Bool :=
  if reg.contains name then s.name == name
  else (Label.parse label).startsWith (Label.parse s.name)

/-- Record a failure and ask for a restart of the slice charged with it. -/
def markRestart (reg : Registry) (name label : String) (f : Failure) : Except Problem Registry :=
  match modifyFirst (reg.isCharged name label) (·.markRestart label f) reg with
  | some reg => .ok reg
  | none => .error (.unknownComponent label)

/-- The quotas in force, added up. -/
def totals (reg : Registry) : Both Nat :=
  .of fun r => Amount.sum (reg.map fun s => s.assigned r)

end Registry

end Overseer
