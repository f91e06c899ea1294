import Overseer.ByteSize
import Overseer.Markup.Query

/-!
The two resources that slices live on, capabilities and memory, and how documents state them:
capabilities as plain amounts, memory as byte sizes.
-/

namespace Overseer

inductive Resource where
  | caps
  | ram
  deriving DecidableEq, Repr

def Resource.word : Resource → String
  | .caps => "caps"
  | .ram => "ram"

/-- How a figure of the resource is read. -/
def Resource.parse : Resource → List Char → Except NumeralError Nat
  | .caps => Amount.parse
  | .ram => ByteSize.parse

/-- How a figure of the resource is written. -/
def Resource.render : Resource → Nat → String
  | .caps, n => toString n
  | .ram, n => ByteSize.render n

/-- One value for each resource. -/
structure Both (α : Type) where
  caps : α
  ram : α
  deriving DecidableEq, Repr

namespace Both

variable {α β : Type}

def get (b : Both α) : Resource → α
  | .caps => b.caps
  | .ram => b.ram

def set (b : Both α) (r : Resource) (a : α) : Both α :=
  match r with
  | .caps => { b with caps := a }
  | .ram => { b with ram := a }

def of (f : Resource → α) : Both α := ⟨f .caps, f .ram⟩

@[simp] theorem get_of (f : Resource → α) (r : Resource) : (of f).get r = f r := by cases r <;> rfl

@[simp] theorem get_set (b : Both α) (r s : Resource) (a : α) :
    (b.set r a).get s = if r = s then a else b.get s := by
  cases r <;> cases s <;> rfl

theorem eq_of_get {b b' : Both α} (h : ∀ r, b.get r = b'.get r) : b = b' := by
  cases b
  cases b'
  cases h .caps
  cases h .ram
  rfl

end Both

/-! ## Figures in documents -/

/-- The figure `name` in the element of a resource; zero if either is missing or unreadable. -/
def Markup.Element.figure (e : Element) (r : Resource) (name : String) : Nat :=
  match e.child? r.word with
  | none => 0
  | some figures => figures.attributeD name r.parse 0

/-- The start entries of a configuration. -/
def Markup.Element.starts (config : Element) : List Element := config.childrenNamed "start"

/-- The name of the slice that a start entry starts. -/
def Markup.Element.startName (start : Element) : String := (start.attribute? "name").getD ""

def Markup.Element.isRamResource (e : Element) : Bool :=
  e.name == "resource" && e.attribute? "name" == some "RAM"

/-- The memory quota of a start entry. -/
def Markup.Element.ramQuota (start : Element) : Nat :=
  match start.children.find? Element.isRamResource with
  | none => 0
  | some resource => resource.attributeD "quantum" ByteSize.parse 0

/-- The quotas that a start entry asks for. -/
def Markup.Element.quotas (start : Element) : Both Nat := ⟨start.amount "caps" 0, start.ramQuota⟩

/-- What the start entries of a configuration ask for, those named `except` left out. -/
def configuredTotals (config : Markup.Element) (except : String) : Both Nat :=
  let starts := config.starts.filter (·.startName != except)
  .of fun r => Amount.sum (starts.map fun start => start.quotas.get r)

/-- What a margin leaves of the available figure after all that is configured, if anything. -/
def softLimit (avail margin configured : Nat) : Option Nat :=
  if configured < avail - margin then some (avail - margin - configured) else none

theorem softLimit_eq_some_iff {avail margin configured n : Nat} :
    softLimit avail margin configured = some n ↔ 0 < n ∧ avail = margin + configured + n := by
  unfold softLimit
  split <;> simp <;> omega

/-! ## State reports -/

structure Tally where
  quota : Nat
  avail : Nat
  assigned : Nat
  deriving DecidableEq, Repr

/-- What a state report says about an init and its children together. -/
structure Availability where
  children : Nat
  tallies : Both Tally
  deriving DecidableEq, Repr

namespace Availability

/-- The children of an init in its state report. -/
def reported (state : Markup.Element) : List Markup.Element := state.childrenNamed "child"

/-- Figures of the init and its children add up; only children have something assigned. -/
def ofState (state : Markup.Element) : Availability :=
  let children := reported state
  let total (r : Resource) (name : String) (es : List Markup.Element) : Nat :=
    Amount.sum (es.map fun e => e.figure r name)
  { children := children.length
    tallies := .of fun r =>
      { quota := total r "quota" (state :: children)
        avail := total r "avail" (state :: children)
        assigned := total r "assigned" children } }

def render (a : Availability) : String :=
  let part (r : Resource) : String :=
    let t := a.tallies.get r
    let word := r.word
    let quota := r.render t.quota
    let avail := r.render t.avail
    let assigned := r.render t.assigned
    s!"{word}_quota={quota}, {word}_avail={avail}, {word}_assigned={assigned}"
  let children := a.children
  let caps := part .caps
  let ram := part .ram
  s!"number_of_children={children} {caps} {ram}"

end Availability

end Overseer
