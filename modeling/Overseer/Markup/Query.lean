import Overseer.Markup.Document
import Overseer.Markup.Reference
import Overseer.Text.Blank

/-!
What a program asks of an element: its name, the decoded values of its attributes, its children and
its source text.
-/

namespace Overseer.Markup.Element

def name (e : Element) : String := .ofList e.tag.name

def children (e : Element) : List Element := e.content.filterMap Piece.element?

/-- The element as it was written. -/
def source (e : Element) : String := .ofList e.render

/-- Everything between the start tag and the closing tag. -/
def contentSource (e : Element) : String := .ofList (renderPieces e.content)

/-- The attributes in order with their values as written. -/
def attributes (e : Element) : List (String × String) :=
  e.tag.attributes.map fun a => (.ofList a.name, .ofList a.value)

/-- The decoded value of the first attribute with this name. -/
def attribute? (e : Element) (name : String) : Option String :=
  (e.attributes.lookup name).map fun value => .ofList (Reference.decode value.toList)

def hasAttribute (e : Element) (name : String) : Bool := (e.attribute? name).isSome

/-- The trimmed value of an attribute, read by `parse`; `default` if it is missing or unreadable. -/
def attributeD {ε α : Type} (e : Element) (name : String) (parse : List Char → Except ε α)
    (default : α) : α :=
  match e.attribute? name with
  | none => default
  | some value => ((parse (Text.trimChars value.toList)).toOption).getD default

def amount (e : Element) (name : String) (default : Nat) : Nat :=
  e.attributeD name Amount.parse default

/-- A switch reads as on or off from four words each. -/
def switch (e : Element) (name : String) (default : Bool) : Bool :=
  match (e.attribute? name).map Text.trim with
  | none => default
  | some word =>
    if ["true", "yes", "on", "1"].contains word then true
    else if ["false", "no", "off", "0"].contains word then false
    else default

def childrenNamed (e : Element) (name : String) : List Element :=
  e.children.filter (·.name == name)

def child? (e : Element) (name : String) : Option Element := e.children.find? (·.name == name)

end Overseer.Markup.Element
