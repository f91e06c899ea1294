import Overseer.Markup.Document

/-!
The grammar of documents, stated on trees and without a reader.  `Document.Obeys` has the rules for
the tags as a parameter: `Tag.Formed` alone lets some texts be read in two ways, `Tag.Settled`
decides between them.  `Document.Derives` says that a tree is one for a text.
-/

namespace Overseer.Markup

/-! ## Runs of characters -/

def AllBlank (s : List Char) : Prop := ∀ c ∈ s, isBlank c = true

def IsName (s : List Char) : Prop := s ≠ [] ∧ ∀ c ∈ s, isNameChar c = true

theorem isName_iff {s : List Char} : (!s.isEmpty && s.all isNameChar) = true ↔ IsName s := by
  simp [IsName]

instance (s : List Char) : Decidable (IsName s) := decidable_of_iff _ isName_iff

/-- A name in front of this text cannot be extended into it. -/
def EndsName (s : List Char) : Prop := ∀ c, s.head? = some c → isNameChar c = false

/-- The text ends with its first occurrence of `mark`. -/
def UpTo (mark s : List Char) : Prop :=
  mark <:+ s ∧ ∀ before after, s = before ++ mark ++ after → after = []

/-! ## Tags -/

structure Attribute.Formed (a : Attribute) : Prop where
  lead : AllBlank a.lead
  name : IsName a.name
  ended : EndsName (a.beforeEq ++ ['='])
  beforeEq : AllBlank a.beforeEq
  afterEq : AllBlank a.afterEq
  value : a.quote.char ∉ a.value

structure Tag.Formed (t : Tag) : Prop where
  name : IsName t.name
  ended : EndsName (t.attributes.flatMap Attribute.render ++ t.gap)
  attributes : ∀ a ∈ t.attributes, a.Formed
  gap : AllBlank t.gap

/-- The blanks before the name of an attribute go as far as they can.  NUL would also do as the
first character of the name. -/
def Attribute.Settled (a : Attribute) : Prop := ∀ c, a.name.head? = some c → isBlank c = false

structure Tag.Settled (t : Tag) : Prop extends t.Formed where
  settled : ∀ a ∈ t.attributes, a.Settled

/-- With this tag an element looks like a declaration or an instruction. -/
def Tag.OpensMarkup (t : Tag) : Prop := t.name.head? = some '!' ∨ t.name.head? = some '?'

/-! ## Comments, sections, instructions and declarations -/

inductive IsMarkup : List Char → Prop where
  | comment {s : List Char} : ['<', '!', '-', '-'] <+: s → UpTo ['-', '-', '>'] s → IsMarkup s
  | cdata {s : List Char} : ['<', '!', '[', 'C', 'D', 'A', 'T', 'A', '['] <+: s →
      UpTo [']', ']', '>'] s → IsMarkup s
  | instruction {s : List Char} : ['<', '?'] <+: s → UpTo ['?', '>'] s → IsMarkup s
  | declaration {s : List Char} : ['<', '!'] <+: s → ¬ ['<', '!', '-', '-'] <+: s →
      ¬ ['<', '!', '[', 'C', 'D', 'A', 'T', 'A', '['] <+: s → UpTo ['>'] s → IsMarkup s

/-! ## Trees -/

mutual
def Element.Obeys (rule : Tag → Prop) : Element → Prop
  | .empty tag => rule tag
  | .closed tag content gap =>
    rule tag ∧ PiecesObey rule content ∧ AllBlank gap ∧ EndsName gap

/-- In content a markup item takes precedence over an element. -/
def Piece.Obeys (rule : Tag → Prop) : Piece → Prop
  | .char c => c ≠ '<'
  | .markup text => IsMarkup text
  | .child e => ¬ e.tag.OpensMarkup ∧ e.Obeys rule

def PiecesObey (rule : Tag → Prop) : List Piece → Prop
  | [] => True
  | p :: ps => p.Obeys rule ∧ PiecesObey rule ps
end

def Misc.Obeys : Misc → Prop
  | .blank c => isBlank c = true
  | .markup text => IsMarkup text

structure Document.Obeys (rule : Tag → Prop) (d : Document) : Prop where
  prolog : ∀ m ∈ d.prolog, m.Obeys
  root : d.root.Obeys rule
  epilog : ∀ m ∈ d.epilog, m.Obeys

/-- The tree is a derivation of the text.  As in content, markup items take precedence over the
root element. -/
structure Document.Derives (d : Document) (text : String) : Prop where
  obeys : d.Obeys Tag.Settled
  plain : ¬ d.root.tag.OpensMarkup
  render : d.render = text.toList

theorem piecesObey_iff {rule : Tag → Prop} {ps : List Piece} :
    PiecesObey rule ps ↔ ∀ p ∈ ps, p.Obeys rule := by
  induction ps with
  | nil => simp [PiecesObey]
  | cons p ps ih => simp [PiecesObey, ih]

end Overseer.Markup
