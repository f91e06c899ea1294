/-!
Markup kept as it was written: an element holds its blanks, quotes, comments and text character by
character, so that `Element.render` gives back the source text.  Nothing in a value is decoded.
-/

namespace Overseer.Markup

/-! ## Characters -/

def isSpace (c : Char) : Bool := c == ' ' || c == '\t' || c == '\n' || c == '\x0c' || c == '\r'

/-- What may stand between the parts of a tag and around the root element.  Reports come in
buffers padded with NUL, so NUL counts. -/
def isBlank (c : Char) : Bool := isSpace c || c == '\x00'

/-- NUL may stand in a name although it is a blank before one. -/
def isNameChar (c : Char) : Bool :=
  !(isSpace c || c == '/' || c == '>' || c == '<' || c == '=' || c == '"' || c == '\'')

inductive Quote where
  | double
  | single
  deriving DecidableEq, Repr

def Quote.char : Quote → Char
  | .double => '"'
  | .single => '\''

/-! ## Tags -/

/-- An attribute with the blanks before its name and around its equals sign. -/
structure Attribute where
  lead : List Char
  name : List Char
  beforeEq : List Char
  afterEq : List Char
  quote : Quote
  value : List Char
  deriving DecidableEq, Repr

def Attribute.render (a : Attribute) : List Char :=
  a.lead ++ a.name ++ a.beforeEq ++ '=' :: a.afterEq ++ a.quote.char :: a.value ++ [a.quote.char]

/-- A start tag without its closing bracket; `gap` are the blanks before that. -/
structure Tag where
  name : List Char
  attributes : List Attribute
  gap : List Char
  deriving DecidableEq, Repr

def Tag.render (t : Tag) : List Char :=
  '<' :: t.name ++ t.attributes.flatMap Attribute.render ++ t.gap

/-! ## Trees -/

mutual
/-- An element closes itself, or has content and a closing tag with blanks before its bracket. -/
inductive Element where
  | empty (tag : Tag)
  | closed (tag : Tag) (content : List Piece) (gap : List Char)

/-- A piece of content: a character other than `<`, a comment, section or declaration, or a child
element. -/
inductive Piece where
  | char (c : Char)
  | markup (text : List Char)
  | child (element : Element)
end

mutual
def Element.render : Element → List Char
  | .empty tag => tag.render ++ ['/', '>']
  | .closed tag content gap =>
    tag.render ++ '>' :: (renderPieces content ++ '<' :: '/' :: tag.name ++ gap ++ ['>'])

def Piece.render : Piece → List Char
  | .char c => [c]
  | .markup text => text
  | .child e => e.render

def renderPieces : List Piece → List Char
  | [] => []
  | p :: ps => p.render ++ renderPieces ps
end

theorem renderPieces_append (ps qs : List Piece) :
    renderPieces (ps ++ qs) = renderPieces ps ++ renderPieces qs := by
  induction ps with
  | nil => rfl
  | cons p ps ih => simp [renderPieces, ih]

def Element.tag : Element → Tag
  | .empty tag => tag
  | .closed tag _ _ => tag

def Element.content : Element → List Piece
  | .empty _ => []
  | .closed _ content _ => content

def Piece.element? : Piece → Option Element
  | .child e => some e
  | _ => none

end Overseer.Markup
