import Overseer.Text.Blank

/-!
Session labels.  A label is a path of segments written `a -> b -> c`; the last segment names the
report, the ones before it the init that sends it.  `parts_append`: a delimiter splits a text, and
nothing else does.
-/

namespace Overseer

structure Label where
  segments : List String
  deriving DecidableEq, Repr

namespace Label

/-- Split at every `->`, from the left. -/
def parts : List Char → List (List Char)
  | [] => [[]]
  | '-' :: '>' :: r => [] :: parts r
  | c :: r =>
    match parts r with
    | [] => [[c]]
    | p :: ps => (c :: p) :: ps

/-- A text of white space is the label without segments. -/
def parse (text : String) : Label :=
  if Text.trimChars text.toList = [] then ⟨[]⟩
  else ⟨(parts text.toList).map fun p => .ofList (Text.trimChars p)⟩

def render (l : Label) : String := " -> ".intercalate l.segments

def last (l : Label) : String := l.segments.getLastD ""

/-- The label without its last segment. -/
def parent (l : Label) : Label := ⟨l.segments.dropLast⟩

def child (l : Label) (segment : String) : Label := ⟨l.segments ++ [Text.trim segment]⟩

/-- The label equals `other` or lies below it. -/
def startsWith (l other : Label) : Bool := other.segments.isPrefixOf l.segments

/-- The report of the runtime init itself. -/
def isRuntimeState (l : Label) : Bool := l.segments.length == 2 && l.last == "state"

theorem parts_ne_nil (s : List Char) : parts s ≠ [] := by
  fun_cases parts s <;> simp

theorem parts_append (p s : List Char) (h : parts p = [p]) (hlast : p.getLast? ≠ some '-') :
    parts (p ++ '-' :: '>' :: s) = p :: parts s := by
  fun_induction parts p with
  | case1 => simp [parts]
  | case2 => simp at h
  | case3 c r hne hr => exact absurd hr (parts_ne_nil r)
  | case4 c r hne q qs hr ih =>
    simp at h
    obtain ⟨hq, hqs⟩ := h
    subst hq hqs
    have hlast' : q.getLast? ≠ some '-' := by
      cases q with
      | nil => simp
      | cons d q => simpa [List.getLast?_cons_cons] using hlast
    have ih := ih hr hlast'
    rw [List.cons_append, parts, ih]
    intro r' hc hr'
    cases q with
    | nil => simp at hr'
    | cons d q => simp at hr'; exact hne q hc (by rw [hr'.1])

end Label

/-! ## Scopes -/

/-- Whose children a report lists: those of the runtime init, which are slices, or those of an init
inside a slice. -/
inductive Scope where
  | runtime (name : String)
  | slice (runtime slice : String)
  deriving DecidableEq, Repr

def Label.scope (l : Label) : Scope :=
  match l.segments.dropLast with
  | [] => .runtime ""
  | [runtime] => .runtime runtime
  | runtime :: slice :: _ => .slice runtime slice

namespace Scope

def runtimeName : Scope → String
  | .runtime name => name
  | .slice name _ => name

def slice? : Scope → Option String
  | .runtime _ => none
  | .slice _ s => some s

/-- The slice to restart when the reported child fails. -/
def failureSlice (scope : Scope) (child : String) : String := scope.slice?.getD child

/-- The label under which a failure of the reported child is recorded. -/
def failureLabel (scope : Scope) (child : String) : String :=
  match scope.slice? with
  | none => child
  | some s => s!"{s} -> {child}"

end Scope

end Overseer
